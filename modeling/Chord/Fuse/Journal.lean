import Chord.Fuse.Adapter
import Mathlib.Data.List.Infix

/-!
# The journal directory through all calls

What stands in the journal stands in a directory.
-/

namespace Chord

namespace Fuse

open Fs (Path Bytes parent_path)

namespace Journal

/-- Every entry is in a directory. -/
def Tree (j : Journal) : Prop := ∀ p, j.entries p ≠ none → j.entries (parent_path p) = some .directory

/-- Directories are added, up to the path. -/
structure Extends (p : Path) (j j' : Journal) : Prop where
  contents : j'.contents = j.contents
  next : j'.next = j.next
  entries : ∀ q, j'.entries q = j.entries q ∨ q <+: p ∧ j.entries q = none ∧ j'.entries q = some .directory

namespace Extends

variable {p q : Path} {j j' j'' : Journal}

theorem refl (p : Path) (j : Journal) : Extends p j j := ⟨rfl, rfl, fun _ => Or.inl rfl⟩

theorem trans (h : Extends p j j') (h' : Extends q j' j'') (hp : p <+: q) : Extends q j j'' := by
  refine ⟨h'.contents.trans h.contents, h'.next.trans h.next, fun r => ?_⟩
  rcases h'.entries r with heq' | ⟨hr, hnone, hdirectory⟩
  · rcases h.entries r with heq | ⟨hr, hnone, hdirectory⟩
    · exact Or.inl (heq'.trans heq)
    · exact Or.inr ⟨hr.trans hp, hnone, heq'.trans hdirectory⟩
  · rcases h.entries r with heq | ⟨-, -, hdirectory'⟩
    · exact Or.inr ⟨hr, heq ▸ hnone, hdirectory⟩
    · rw [hdirectory'] at hnone
      cases hnone

theorem copy (h : Extends p j j') (q : Path) : j'.copy q = j.copy q := by
  unfold Journal.copy
  rcases h.entries q with heq | ⟨-, hnone, hdirectory⟩
  · rw [heq, h.contents]
  · rw [hnone, hdirectory]

theorem file (h : Extends p j j') {ino : Nat} :
    j'.entries q = some (.file ino) ↔ j.entries q = some (.file ino) := by
  rcases h.entries q with heq | ⟨-, hnone, hdirectory⟩
  · rw [heq]
  · rw [hnone, hdirectory]
    simp

end Extends

theorem create_each_append (j : Journal) (l : List Path) (d : Path) :
    j.create_each (l ++ [d]) = (j.create_each l).bind fun j => j.create_each [d] := by
  induction l generalizing j with
  | nil => rfl
  | cons e l ih =>
    rw [List.cons_append, create_each, create_each]
    cases j.entries e with
    | none => exact ih _
    | some entry =>
      cases entry with
      | file ino => rfl
      | directory => exact ih j

theorem create_each_one {j j' : Journal} {d : Path} (h : j.create_each [d] = some j') :
    j.entries d = some .directory ∧ j' = j ∨
      j.entries d = none ∧ j' = { j with entries := Function.update j.entries d (some .directory) } := by
  rw [create_each] at h
  cases hd : j.entries d with
  | none =>
    rw [hd] at h
    cases h
    exact Or.inr ⟨rfl, rfl⟩
  | some entry =>
    rw [hd] at h
    cases entry with
    | file ino => cases h
    | directory =>
      cases h
      exact Or.inl ⟨rfl, rfl⟩

/-- A new entry has nothing below it. -/
theorem Tree.insert {j : Journal} (hj : j.Tree) {p : Path} {entry : JournalEntry} (hp : j.entries p = none)
    (hparent : entry = .directory ∧ parent_path p = p ∨ j.entries (parent_path p) = some .directory) :
    ∀ q, Function.update j.entries p (some entry) q ≠ none →
      Function.update j.entries p (some entry) (parent_path q) = some .directory := by
  intro q hq
  by_cases hqp : q = p
  · subst hqp
    rcases hparent with ⟨rfl, heq⟩ | hparent
    · rw [heq, Function.update_self]
    · have hne : parent_path q ≠ q := by
        intro heq
        rw [heq, hp] at hparent
        cases hparent
      rw [Function.update_of_ne hne, hparent]
  · rw [Function.update_of_ne hqp] at hq
    have hdirectory := hj q hq
    have hne : parent_path q ≠ p := by
      intro heq
      rw [heq, hp] at hdirectory
      cases hdirectory
    rw [Function.update_of_ne hne, hdirectory]

theorem create_each_inits {j j' : Journal} (hj : j.Tree) {p : Path} (h : j.create_each p.inits = some j') :
    j'.Tree ∧ j'.entries p = some .directory ∧ Extends p j j' := by
  have hone : ∀ {k k' : Journal} {d : Path}, k.Tree →
      (parent_path d = d ∨ k.entries (parent_path d) = some .directory) →
      k.create_each [d] = some k' → k'.Tree ∧ k'.entries d = some .directory ∧ Extends d k k' := by
    intro k k' d hk hparent hcreate
    rcases create_each_one hcreate with ⟨hd, rfl⟩ | ⟨hd, rfl⟩
    · exact ⟨hk, hd, .refl _ _⟩
    · refine ⟨hk.insert hd (hparent.imp_left fun heq => ⟨rfl, heq⟩), Function.update_self _ _ _, rfl, rfl,
        fun q => ?_⟩
      by_cases hq : q = d
      · subst hq
        exact Or.inr ⟨List.prefix_refl _, hd, Function.update_self _ _ _⟩
      · exact Or.inl (Function.update_of_ne hq _ _)
  induction p using List.reverseRecOn generalizing j' with
  | nil => exact hone hj (Or.inl rfl) h
  | append_singleton p a ih =>
    have hinits : (p ++ [a]).inits = p.inits ++ [p ++ [a]] := by
      rw [List.inits_append]
      rfl
    rw [hinits, create_each_append, Option.bind_eq_some_iff] at h
    obtain ⟨k, hk, hcreate⟩ := h
    obtain ⟨htree, hdirectory, hextends⟩ := ih hk
    have hparent : parent_path (p ++ [a]) = p := List.dropLast_concat
    obtain ⟨htree', hdirectory', hextends'⟩ := hone htree (Or.inr (by rw [hparent, hdirectory])) hcreate
    exact ⟨htree', hdirectory', hextends.trans hextends' (List.prefix_append p [a])⟩

theorem create_each_eq_none {j : Journal} {l : List Path} (h : j.create_each l = none) :
    ∃ d ∈ l, ∃ ino, j.entries d = some (.file ino) := by
  induction l generalizing j with
  | nil => cases h
  | cons d l ih =>
    rw [create_each] at h
    cases hd : j.entries d with
    | none =>
      rw [hd] at h
      obtain ⟨e, he, ino, hfile⟩ := ih h
      refine ⟨e, List.mem_cons_of_mem _ he, ino, ?_⟩
      dsimp only at hfile
      by_cases hed : e = d
      · subst hed
        rw [Function.update_self] at hfile
        cases hfile
      · rwa [Function.update_of_ne hed] at hfile
    | some entry =>
      rw [hd] at h
      cases entry with
      | file ino => exact ⟨d, List.mem_cons_self, ino, hd⟩
      | directory =>
        obtain ⟨e, he, hfile⟩ := ih h
        exact ⟨e, List.mem_cons_of_mem _ he, hfile⟩

/-- `create_directories` throws at a file. -/
theorem as_journal_path_eq_none {j : Journal} {p : Path} (h : j.as_journal_path p = none) :
    ∃ a, a <+: parent_path p ∧ ∃ ino, j.entries a = some (.file ino) := by
  unfold as_journal_path at h
  split at h
  · obtain ⟨a, ha, hfile⟩ := create_each_eq_none h
    exact ⟨a, (List.mem_inits _ _).mp ha, hfile⟩
  · cases h

/-- What `as_journal_path` leaves. -/
theorem as_journal_path_spec {j j' : Journal} (hj : j.Tree) {p : Path} (h : j.as_journal_path p = some j') :
    j'.Tree ∧ j'.entries (parent_path p) ≠ none ∧ Extends (parent_path p) j j' := by
  unfold as_journal_path at h
  split at h
  · obtain ⟨htree, hdirectory, hextends⟩ := create_each_inits hj h
    exact ⟨htree, by simp [hdirectory], hextends⟩
  · rename_i hparent
    cases h
    exact ⟨hj, hparent, .refl _ _⟩

theorem as_journal_path_of_parent {j : Journal} {p : Path} (h : j.entries (parent_path p) ≠ none) :
    j.as_journal_path p = some j := if_neg h

theorem Tree.as_journal_path {j : Journal} (hj : j.Tree) {p : Path} (h : j.entries p ≠ none) :
    j.as_journal_path p = some j :=
  as_journal_path_of_parent (by simp [hj p h])

theorem Tree.create {j : Journal} (hj : j.Tree) {p : Path} (hp : j.entries p = none)
    (hparent : j.entries (parent_path p) = some .directory) (bytes : Bytes) : (j.create p bytes).Tree :=
  hj.insert hp (Or.inr hparent)

theorem Tree.remove_all {j : Journal} (hj : j.Tree) (p : Path) : (j.remove_all p).Tree := by
  intro q hq
  have hbelow : ¬ p <+: q := fun h => hq (if_pos h)
  have hparent : ¬ p <+: parent_path q := fun h => hbelow (h.trans (List.dropLast_prefix q))
  have hq' : j.entries q ≠ none := by
    have hentry : (j.remove_all p).entries q = j.entries q := if_neg hbelow
    rwa [← hentry]
  exact (if_neg hparent).trans (hj q hq')

theorem Tree.open_file {j j' : Journal} (hj : j.Tree) {p : Path} {flags : Flags} {fh : Option Nat}
    (h : j.open_file p flags = some (j', fh)) : j'.Tree := by
  unfold Journal.open_file at h
  cases hp : j.entries p with
  | none =>
    simp only [hp] at h
    split at h
    · rename_i hcreate
      cases h
      exact hj.create hp hcreate.2 []
    · cases h
  | some entry =>
    cases entry with
    | file ino =>
      simp only [hp] at h
      split at h
      · cases h
      · split at h
        · cases h
          exact hj
        · cases h
          exact hj
    | directory =>
      simp only [hp] at h
      split at h
      · cases h
      · cases h
        exact hj

end Journal

/-! ## What a call can do -/

namespace Mount

open Journal

/-- The mount with another journal. -/
def at_journal (m : Mount) (j : Journal) : Mount := { m with journal := j }

theorem with_directories_eq (m : Mount) (p : Path) :
    m.with_directories p = (m.journal.as_journal_path p).map m.at_journal := rfl

/-- A put that succeeds leaves the bytes of the copy in the ring. -/
theorem put_cases (m : Mount) (p : Path) (ok : Bool) :
    (m.put p ok = (m, false) ∧ (ok = false ∨ m.journal.copy p = none)) ∨ ∃ bytes, ok = true ∧
      m.journal.copy p = some bytes ∧
      m.put p ok = ({ m with ring := Function.update m.ring p (some bytes) }, true) := by
  unfold put
  cases hcopy : m.journal.copy p with
  | none => exact Or.inl ⟨rfl, Or.inr rfl⟩
  | some bytes =>
    cases ok with
    | false => exact Or.inl ⟨rfl, Or.inl rfl⟩
    | true => exact Or.inr ⟨bytes, rfl, rfl, rfl⟩

theorem create_cases (m : Mount) (p : Path) (flags : Flags) (opens ok : Bool) :
    m.create p flags opens ok = (m, none) ∨ ∃ j, m.journal.as_journal_path p = some j ∧
      (m.create p flags opens ok = (m.at_journal j, some (-EAGAIN)) ∨
        ∃ j' fh, j.open_file p flags = some (j', fh) ∧ opens = true ∧
          (m.create p flags opens ok = (m.at_journal j', some (-EAGAIN)) ∧ (ok = false ∨ j'.copy p = none) ∨
            ∃ bytes, ok = true ∧ j'.copy p = some bytes ∧ m.create p flags opens ok =
              (⟨j', ⟨p, fh⟩ :: m.handles, Function.update m.ring p (some bytes)⟩, some 0))) := by
  unfold create
  rw [with_directories_eq]
  cases hj : m.journal.as_journal_path p with
  | none => exact Or.inl rfl
  | some j =>
    refine Or.inr ⟨j, rfl, ?_⟩
    cases opens with
    | false => exact Or.inl rfl
    | true =>
      simp only [Option.map_some, open_local, if_true, at_journal]
      cases hopen : j.open_file p flags with
      | none => exact Or.inl rfl
      | some r =>
        obtain ⟨j', fh⟩ := r
        refine Or.inr ⟨j', fh, rfl, trivial, ?_⟩
        simp only [Option.map_some]
        rcases put_cases { m with journal := j' } p ok with ⟨hput, hfails⟩ | ⟨bytes, hok, hcopy, hput⟩
        · exact Or.inl ⟨by rw [hput], hfails⟩
        · exact Or.inr ⟨bytes, hok, hcopy, by rw [hput]; rfl⟩

/-- What `get` leaves in the journal, where there was nothing. -/
def fetched (j : Journal) (p : Path) (left : Option Bytes) : Journal :=
  match left with
  | some bytes => if j.entries (parent_path p) = some .directory then j.create p bytes else j
  | none => j

theorem fetch_cases (m : Mount) (p : Path) (get : Fetch) :
    (m.journal.entries p ≠ none ∧ m.fetch p get = (m, true)) ∨
      (m.journal.entries p = none ∧ ∃ ok, (ok = true → get.ok = true) ∧
        m.fetch p get = (m.at_journal (fetched m.journal p get.left), ok)) := by
  unfold fetch fetched
  by_cases hp : m.journal.entries p = none
  · rw [if_pos hp]
    cases hleft : get.left with
    | none => exact Or.inr ⟨hp, get.ok, id, rfl⟩
    | some bytes =>
      dsimp only
      split
      · exact Or.inr ⟨hp, get.ok, id, rfl⟩
      · exact Or.inr ⟨hp, false, by simp, rfl⟩
  · exact Or.inl ⟨hp, if_neg hp⟩

theorem open_local_cases (m : Mount) (p : Path) (flags : Flags) (opens : Bool) :
    m.open_local p flags opens = none ∨ ∃ j fh, m.journal.open_file p flags = some (j, fh) ∧
      m.open_local p flags opens = some (m.at_journal j, fh) := by
  unfold open_local
  cases opens with
  | false => exact Or.inl rfl
  | true =>
    rw [if_pos rfl]
    cases hopen : m.journal.open_file p flags with
    | none => exact Or.inl rfl
    | some r => exact Or.inr ⟨r.1, r.2, rfl, rfl⟩

theorem open_path_cases (m : Mount) (p : Path) (flags : Flags) (get : Fetch) (opens : Bool) :
    m.open_path p flags get opens = (m, none) ∨ ∃ j, m.journal.as_journal_path p = some j ∧ ∃ j₁,
      (j.entries p ≠ none ∧ j₁ = j ∨ j.entries p = none ∧ j₁ = fetched j p get.left) ∧
        ((∃ code ≠ 0, m.open_path p flags get opens = (m.at_journal j₁, some code)) ∨
          ∃ j₂ fh, j₁.open_file p flags = some (j₂, fh) ∧ (j.entries p = none → get.ok = true) ∧
            m.open_path p flags get opens = (⟨j₂, ⟨p, fh⟩ :: m.handles, m.ring⟩, some 0)) := by
  unfold open_path
  rw [with_directories_eq]
  cases hj : m.journal.as_journal_path p with
  | none => exact Or.inl rfl
  | some j =>
    refine Or.inr ⟨j, rfl, ?_⟩
    simp only [Option.map_some]
    rcases fetch_cases (m.at_journal j) p get with ⟨hp, hfetch⟩ | ⟨hp, ok, hok, hfetch⟩
    · rw [hfetch]
      refine ⟨j, Or.inl ⟨hp, rfl⟩, ?_⟩
      rcases (m.at_journal j).open_local_cases p flags opens with hlocal | ⟨j₂, fh, hopen, hlocal⟩
      · simp only [hlocal]
        exact Or.inl ⟨-1, by decide, rfl⟩
      · simp only [hlocal]
        exact Or.inr ⟨j₂, fh, hopen, fun hnone => absurd hnone hp, rfl⟩
    · rw [hfetch]
      refine ⟨_, Or.inr ⟨hp, rfl⟩, ?_⟩
      cases ok with
      | false => exact Or.inl ⟨-ENOENT, by decide, rfl⟩
      | true =>
        rcases (m.at_journal (fetched j p get.left)).open_local_cases p flags opens with hlocal | ⟨j₂, fh,
          hopen, hlocal⟩
        · simp only [at_journal] at hlocal
          simp only [at_journal, hlocal]
          exact Or.inl ⟨-1, by decide, rfl⟩
        · simp only [at_journal] at hlocal
          simp only [at_journal, hlocal]
          exact Or.inr ⟨j₂, fh, hopen, fun _ => hok rfl, rfl⟩

/-- The bytes of an open file are changed. -/
def changed (j : Journal) (fh : Option Nat) (bytes : Bytes → Bytes) : Journal :=
  match fh with
  | some ino => j.set ino (bytes (j.contents ino))
  | none => j

theorem change_cases (m : Mount) (p : Path) (fh : Option Nat) (bytes : Bytes → Bytes) (succ : Int) :
    (m.change p fh bytes succ).1 = m.at_journal (changed m.journal fh bytes) ∨
      ∃ j, (changed m.journal fh bytes).as_journal_path p = some j ∧
        (m.change p fh bytes succ).1 = m.at_journal j := by
  have hsize : ∀ m₁ : Mount, (m₁.change p none bytes succ).1 = m₁ ∨
      ∃ j, m₁.journal.as_journal_path p = some j ∧ (m₁.change p none bytes succ).1 = m₁.at_journal j := by
    intro m₁
    unfold change
    dsimp only
    rw [with_directories_eq]
    cases hj : m₁.journal.as_journal_path p with
    | none => exact Or.inl rfl
    | some j => exact Or.inr ⟨j, rfl, rfl⟩
  cases fh with
  | none => exact hsize m
  | some ino => exact hsize (m.at_journal (changed m.journal (some ino) bytes))

theorem flush_cases (m : Mount) (p : Path) (fsync ok : Bool) :
    m.flush p fsync ok = (m, none) ∧ m.journal.as_journal_path p = none ∨
      ∃ j, m.journal.as_journal_path p = some j ∧
      (m.flush p fsync ok = (m.at_journal j, none) ∧ j.copy p = none ∨ ∃ bytes, j.copy p = some bytes ∧
        (ok = false ∧ m.flush p fsync ok = (m.at_journal j, some (-EAGAIN)) ∨
          ok = true ∧ m.flush p fsync ok = (⟨j, m.handles, Function.update m.ring p (some bytes)⟩,
            some (if fsync then 0 else -1)))) := by
  unfold flush
  rw [with_directories_eq]
  cases hj : m.journal.as_journal_path p with
  | none => exact Or.inl ⟨rfl, rfl⟩
  | some j =>
    refine Or.inr ⟨j, rfl, ?_⟩
    simp only [Option.map_some]
    cases hcopy : j.copy p with
    | none => exact Or.inl ⟨if_pos hcopy, rfl⟩
    | some bytes =>
      refine Or.inr ⟨bytes, rfl, ?_⟩
      rw [if_neg (by rw [at_journal, hcopy]; simp)]
      rcases put_cases (m.at_journal j) p ok with ⟨hput, hfails⟩ | ⟨bytes', hok, hcopy', hput⟩
      · rw [hput]
        refine Or.inl ⟨hfails.resolve_right ?_, rfl⟩
        rw [at_journal, hcopy]
        simp
      · rw [hput]
        rw [at_journal, hcopy, Option.some.injEq] at hcopy'
        subst hcopy'
        exact Or.inr ⟨hok, rfl⟩

theorem clean_journal_eq (m : Mount) (p : Path) :
    m.clean_journal p = (m.journal.as_journal_path p).map fun j => m.at_journal (j.remove_all p) := by
  unfold clean_journal
  rw [with_directories_eq, Option.map_map]
  rfl

/-- What `flush` returns, and what `release` makes of it. -/
theorem release_cases {m : Mount} (h : m.journal.Tree) (p : Path) (fsync ok : Bool) :
    (m.flush p fsync ok).2 = none ∧ m.release p fsync ok = (m, none) ∧ m.journal.entries p = none ∨
      ∃ j, m.journal.as_journal_path p = some j ∧
        ((m.flush p fsync ok).2 = none ∧ m.release p fsync ok = (m.at_journal j, none) ∧ j.copy p = none ∨
          ∃ bytes, j.copy p = some bytes ∧
            (ok = false ∧ (m.flush p fsync ok).2 = some (-EAGAIN) ∧
                m.release p fsync ok = (m.at_journal (j.remove_all p), some 0) ∨
              ok = true ∧ fsync = true ∧ (m.flush p fsync ok).2 = some 0 ∧
                m.release p fsync ok =
                  (⟨j, m.handles, Function.update m.ring p (some bytes)⟩, some (-ENOENT)) ∨
              ok = true ∧ fsync = false ∧ (m.flush p fsync ok).2 = some (-1) ∧
                m.release p fsync ok =
                  (⟨j.remove_all p, m.handles, Function.update m.ring p (some bytes)⟩, some 0))) := by
  rcases m.flush_cases p fsync ok with ⟨hflush, hthrows⟩ | ⟨j, hj, hflush⟩
  · refine Or.inl ⟨by rw [hflush], by rw [release, hflush], ?_⟩
    by_contra hentry
    rw [h.as_journal_path hentry] at hthrows
    cases hthrows
  have hclean : ∀ m' : Mount, m'.journal = j →
      m'.clean_journal p = some (m'.at_journal (j.remove_all p)) := by
    rintro m' rfl
    rw [clean_journal_eq, as_journal_path_of_parent (as_journal_path_spec h hj).2.1]
    rfl
  refine Or.inr ⟨j, hj, ?_⟩
  rcases hflush with ⟨hflush, hcopy⟩ | ⟨bytes, hcopy, ⟨hok, hflush⟩ | ⟨hok, hflush⟩⟩
  · exact Or.inl ⟨by rw [hflush], by rw [release, hflush], hcopy⟩
  · refine Or.inr ⟨bytes, hcopy, Or.inl ⟨hok, by rw [hflush], ?_⟩⟩
    simp only [release, hflush, hclean (m.at_journal j) rfl]
    rfl
  · refine Or.inr ⟨bytes, hcopy, Or.inr ?_⟩
    cases fsync with
    | true =>
      refine Or.inl ⟨hok, rfl, by rw [hflush]; rfl, ?_⟩
      simp only [release, hflush]
      rfl
    | false =>
      refine Or.inr ⟨hok, rfl, by rw [hflush]; rfl, ?_⟩
      simp only [release, hflush, hclean ⟨j, m.handles, Function.update m.ring p (some bytes)⟩ rfl]
      rfl

/-! ## The run -/

section

variable {m : Mount}

theorem tree_fetched {j : Journal} (hj : j.Tree) {p : Path} (hp : j.entries p = none) (left : Option Bytes) :
    (fetched j p left).Tree := by
  unfold fetched
  split
  · split
    · rename_i hparent
      exact hj.create hp hparent _
    · exact hj
  · exact hj

theorem tree_changed {j : Journal} (hj : j.Tree) (fh : Option Nat) (bytes : Bytes → Bytes) :
    (changed j fh bytes).Tree := by
  cases fh <;> exact hj

theorem tree_change (h : m.journal.Tree) (p : Path) (fh : Option Nat) (bytes : Bytes → Bytes) (succ : Int) :
    (m.change p fh bytes succ).1.journal.Tree := by
  have hchanged := tree_changed h fh bytes
  rcases m.change_cases p fh bytes succ with heq | ⟨j, hj, heq⟩
  · rw [heq]
    exact hchanged
  · rw [heq]
    exact (as_journal_path_spec hchanged hj).1

theorem tree_clean_journal (h : m.journal.Tree) {p : Path} {m' : Mount}
    (hclean : m.clean_journal p = some m') :
    m'.journal.Tree := by
  rw [clean_journal_eq, Option.map_eq_some_iff] at hclean
  obtain ⟨j, hj, rfl⟩ := hclean
  exact (as_journal_path_spec h hj).1.remove_all p

theorem tree_flush (h : m.journal.Tree) (p : Path) (fsync ok : Bool) :
    (m.flush p fsync ok).1.journal.Tree := by
  rcases m.flush_cases p fsync ok with ⟨heq, -⟩ | ⟨j, hj, hflush⟩
  · rw [heq]
    exact h
  · have htree := (as_journal_path_spec h hj).1
    rcases hflush with ⟨heq, -⟩ | ⟨bytes, -, ⟨-, heq⟩ | ⟨-, heq⟩⟩
    all_goals
      rw [heq]
      exact htree

theorem tree_release (h : m.journal.Tree) (p : Path) (fsync ok : Bool) :
    (m.release p fsync ok).1.journal.Tree := by
  rcases release_cases h p fsync ok with ⟨-, hrelease, -⟩ | ⟨j, hj, hrelease⟩
  · rw [hrelease]
    exact h
  have htree := (as_journal_path_spec h hj).1
  rcases hrelease with ⟨-, hrelease, -⟩ | ⟨bytes, -,
    ⟨-, -, hrelease⟩ | ⟨-, -, -, hrelease⟩ | ⟨-, -, -, hrelease⟩⟩
  · rw [hrelease]
    exact htree
  · rw [hrelease]
    exact htree.remove_all p
  · rw [hrelease]
    exact htree
  · rw [hrelease]
    exact htree.remove_all p

theorem journal_move (m : Mount) (src dst : Path) (status : Status) (put : Bool) :
    (m.move src dst status put).journal = m.journal := by
  unfold move
  split
  · rfl
  · split
    · rfl
    · split
      · rfl
      · split <;> rfl

theorem tree_step (h : m.journal.Tree) (call : Call) : (m.step call).journal.Tree := by
  cases call with
  | create p flags opens ok =>
    rw [step]
    rcases m.create_cases p flags opens ok with heq | ⟨j, hj, hcreate⟩
    · rw [heq]
      exact h
    · have htree := (as_journal_path_spec h hj).1
      rcases hcreate with heq | ⟨j', fh, hopen, -, ⟨heq, -⟩ | ⟨bytes, -, -, heq⟩⟩
      · rw [heq]
        exact htree
      all_goals
        rw [heq]
        exact htree.open_file hopen
  | open_path p flags get opens =>
    rw [step]
    rcases m.open_path_cases p flags get opens with heq | ⟨j, hj, j₁, hj₁, hopen⟩
    · rw [heq]
      exact h
    · have htree := (as_journal_path_spec h hj).1
      have htree₁ : j₁.Tree := by
        rcases hj₁ with ⟨-, rfl⟩ | ⟨hp, rfl⟩
        · exact htree
        · exact tree_fetched htree hp get.left
      rcases hopen with ⟨code, -, heq⟩ | ⟨j₂, fh, hopen, -, heq⟩
      · rw [heq]
        exact htree₁
      · rw [heq]
        exact htree₁.open_file hopen
  | write handle offset data => exact tree_change h _ _ _ _
  | truncate handle size => exact tree_change h _ _ _ _
  | flush handle fsync ok => exact tree_flush h _ _ _
  | release handle fsync ok => exact tree_release h _ _ _
  | rename src dst status put =>
    have hmove : (m.move src dst status put).journal.Tree := by rwa [journal_move]
    rw [step, rename]
    split
    · cases hsrc : (m.move src dst status put).clean_journal src with
      | none => exact hmove
      | some m₁ =>
        have htree₁ := tree_clean_journal hmove hsrc
        dsimp only
        cases hdst : m₁.clean_journal dst with
        | none => exact htree₁
        | some m₂ => exact tree_clean_journal htree₁ hdst
    · exact hmove
  | unlink p ok =>
    have hring : ({ m with ring := Function.update m.ring p none } : Mount).journal.Tree := h
    rw [step, unlink]
    split
    · dsimp only
      cases hclean : ({ m with ring := Function.update m.ring p none } : Mount).clean_journal p with
      | none => exact h
      | some m' => exact tree_clean_journal hring hclean
    · exact h
  | put_elsewhere p bytes => exact h

theorem tree_run (h : m.journal.Tree) (calls : List Call) : (m.run calls).journal.Tree := by
  induction calls generalizing m with
  | nil => exact h
  | cons call calls ih => exact ih (tree_step h call)

theorem tree_fresh (ring : Path → Option Bytes) : (fresh ring).journal.Tree := fun _ h => absurd rfl h

end

end Mount

end Fuse

end Chord
