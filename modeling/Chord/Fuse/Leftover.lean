import Chord.Fuse.Journal

/-!
# What an open file shows

A copy that is left in the journal is used again, and has to be the file of the ring.
-/

namespace Chord

namespace Fuse

open Fs (Path Bytes parent_path)

namespace Mount

open Journal

def HasHandle (m : Mount) (p : Path) : Prop := ∃ h ∈ m.handles, h.path = p

/-! ## What the kernel asks for -/

/-- Everything above a path is a directory. -/
def Resolves (m : Mount) (p : Path) : Prop := p ≠ [] ∧ ∀ a, a <+: p → a ≠ p → m.ring a = none

/-- `O_CREAT` comes with `create` only, and the calls on a file come while it is open. -/
def Valid (m : Mount) : Call → Prop
  | .create p _ _ _ => m.Resolves p
  | .open_path p flags _ _ => m.Resolves p ∧ flags.creat = false
  | .write h _ _ => m.Resolves h.path ∧ h ∈ m.handles
  | .truncate h _ => m.Resolves h.path ∧ h ∈ m.handles
  | .flush h _ _ => m.Resolves h.path ∧ h ∈ m.handles
  | .release h _ _ => m.Resolves h.path ∧ h ∈ m.handles
  | .rename src dst _ _ => m.Resolves src ∧ m.Resolves dst
  | .unlink p _ => m.Resolves p
  | .put_elsewhere _ _ => True

/-! ## When no copy gets stale -/

/-- The ring may get the bytes: the file is open, or the journal has no other copy. -/
def Accepts (m : Mount) (p : Path) (bytes : Bytes) : Prop :=
  m.journal.entries p = none ∨ m.journal.copy p = some bytes ∨ m.HasHandle p ∧
    m.journal.entries p ≠ some .directory

/-- A call that leaves no copy behind that differs from the file of the ring. -/
def Keeps (m : Mount) : Call → Prop
  | .create p flags opens ok => ok = true ∨ opens = false ∨ m.HasHandle p ∨
      ∀ bytes, m.ring p = some bytes → bytes = [] ∨ m.journal.copy p ≠ none ∧ flags.trunc = false
  | .open_path p _ get _ => m.journal.entries p ≠ none ∨ m.HasHandle p ∨ get.left = none ∨
      ∀ bytes, m.ring p = some bytes → get.left = some bytes
  | .rename src dst status put =>
      (status = .OK → ∀ a, a <+: src → ∀ ino, a ≠ src → m.journal.entries a ≠ some (.file ino)) ∧
        (status ≠ .OK → put = true → src ≠ dst → ∀ bytes, m.ring src = some bytes → m.Accepts dst bytes)
  | .put_elsewhere p bytes => m.Accepts p bytes
  | _ => True

def AllValid (m : Mount) : List Call → Prop
  | [] => True
  | call :: calls => m.Valid call ∧ AllValid (m.step call) calls

def AllKeep (m : Mount) : List Call → Prop
  | [] => True
  | call :: calls => m.Keeps call ∧ AllKeep (m.step call) calls

/-- An `open` that succeeds opens the bytes of the last successful put, before its flags change
them. -/
def Shows (m : Mount) (p : Path) (flags : Flags) (get : Fetch) (opens : Bool) : Prop :=
  ¬ m.HasHandle p → (m.open_path p flags get opens).2 = some 0 → ∀ bytes, m.ring p = some bytes →
    ∀ m', m.with_directories p = some m' → (m'.fetch p get).1.journal.copy p = some bytes

/-! ## The invariant -/

/-- Files and handles. -/
structure Sound (m : Mount) : Prop where
  tree : m.journal.Tree
  directory : ∀ p, m.journal.entries p = some .directory → m.ring p = none
  next : ∀ p ino, m.journal.entries p = some (.file ino) → ino < m.journal.next
  unique : ∀ p q ino, m.journal.entries p = some (.file ino) → m.journal.entries q = some (.file ino) → p = q
  handles : ∀ h ∈ m.handles, ∀ ino, h.fh = some ino →
    ino < m.journal.next ∧ ∀ q, m.journal.entries q = some (.file ino) → q = h.path

/-- What the next `open` finds. -/
def Leftover (m : Mount) (p : Path) : Prop := ∀ bytes, m.ring p = some bytes →
  m.journal.entries p = none ∨ m.journal.copy p = some bytes

structure Fresh (m : Mount) : Prop where
  sound : m.Sound
  leftover : ∀ p, ¬ m.HasHandle p → m.Leftover p

theorem copy_eq_some {j : Journal} {p : Path} {bytes : Bytes} (h : j.copy p = some bytes) :
    ∃ ino, j.entries p = some (.file ino) ∧ j.contents ino = bytes := by
  unfold copy at h
  split at h
  · rename_i ino hino
    exact ⟨ino, hino, Option.some.inj h⟩
  · cases h

theorem copy_of_file {j : Journal} {p : Path} {ino : Nat} (h : j.entries p = some (.file ino)) :
    j.copy p = some (j.contents ino) := by
  rw [copy, h]

section

variable {m : Mount} {p : Path}

theorem Resolves.not_prefix_parent (h : m.Resolves p) : ¬ p <+: parent_path p := by
  intro hp
  have hlength := hp.length_le
  have hpos : 0 < p.length := List.length_pos_iff.mpr h.1
  rw [parent_path, List.length_dropLast] at hlength
  omega

theorem Resolves.ring_none (h : m.Resolves p) {a : Path} (ha : a <+: parent_path p) : m.ring a = none := by
  refine h.2 a (ha.trans (List.dropLast_prefix p)) ?_
  rintro rfl
  exact h.not_prefix_parent ha

theorem Sound.extends (h : m.Sound) {j : Journal} (htree : j.Tree) {q : Path} (hj : Extends q m.journal j)
    (hring : ∀ a, a <+: q → m.ring a = none) : (m.at_journal j).Sound where
  tree := htree
  directory p hp := by
    rcases hj.entries p with heq | ⟨hp', -, -⟩
    · exact h.directory p (heq ▸ hp)
    · exact hring p hp'
  next p ino hp := by
    have hnext : j.next = m.journal.next := hj.next
    rw [at_journal, hnext]
    exact h.next p ino (hj.file.mp hp)
  unique p q ino hp hq := h.unique p q ino (hj.file.mp hp) (hj.file.mp hq)
  handles handle hhandle ino hino := by
    obtain ⟨hlt, hunique⟩ := h.handles handle hhandle ino hino
    have hnext : j.next = m.journal.next := hj.next
    exact ⟨hnext ▸ hlt, fun q hq => hunique q (hj.file.mp hq)⟩

/-- Directories are made where the ring has no file. -/
theorem Fresh.at_directories (h : m.Fresh) (hp : m.Resolves p) {j : Journal}
    (hj : m.journal.as_journal_path p = some j) :
    (m.at_journal j).Fresh := by
  obtain ⟨htree, -, hextends⟩ := as_journal_path_spec h.sound.tree hj
  refine ⟨h.sound.extends htree hextends fun a ha => hp.ring_none ha, fun q hq bytes hbytes => ?_⟩
  rw [at_journal, hextends.copy q]
  refine (h.leftover q hq bytes hbytes).imp_left fun hnone => ?_
  rcases hextends.entries q with heq | ⟨hq', -, -⟩
  · rw [heq, hnone]
  · have hring : m.ring q = some bytes := hbytes
    rw [hp.ring_none hq'] at hring
    cases hring

theorem Fresh.remove_all (h : m.Fresh) (p : Path) : (m.at_journal (m.journal.remove_all p)).Fresh := by
  have hentry : ∀ {q : Path} {entry : JournalEntry}, (m.journal.remove_all p).entries q = some entry →
      m.journal.entries q = some entry := by
    intro q entry hq
    by_cases hbelow : p <+: q
    · have hnone : (m.journal.remove_all p).entries q = none := if_pos hbelow
      rw [hnone] at hq
      cases hq
    · rwa [← show (m.journal.remove_all p).entries q = m.journal.entries q from if_neg hbelow]
  refine ⟨⟨h.sound.tree.remove_all p, fun q hq => h.sound.directory q (hentry hq),
    fun q ino hq => h.sound.next q ino (hentry hq),
    fun q r ino hq hr => h.sound.unique q r ino (hentry hq) (hentry hr), fun handle hhandle ino hino => ?_⟩,
    fun q hq bytes hbytes => ?_⟩
  · obtain ⟨hlt, hunique⟩ := h.sound.handles handle hhandle ino hino
    exact ⟨hlt, fun q hq => hunique q (hentry hq)⟩
  · by_cases hbelow : p <+: q
    · exact Or.inl (if_pos hbelow)
    · have heq : (m.journal.remove_all p).entries q = m.journal.entries q := if_neg hbelow
      have hcopy : (m.journal.remove_all p).copy q = m.journal.copy q := by
        unfold copy
        rw [heq]
        rfl
      have hleft := h.leftover q hq bytes hbytes
      rw [at_journal]
      rwa [heq, hcopy]

/-- The ring gets new bytes. -/
theorem Fresh.accept (h : m.Fresh) {bytes : Bytes} (hp : m.Accepts p bytes) :
    ({ m with ring := Function.update m.ring p (some bytes) } : Mount).Fresh := by
  refine ⟨⟨h.sound.tree, fun q hq => ?_, h.sound.next, h.sound.unique, h.sound.handles⟩,
    fun q hq bytes' hbytes' => ?_⟩
  · by_cases hqp : q = p
    · subst hqp
      rcases hp with hnone | hcopy | ⟨-, hne⟩
      · rw [hnone] at hq
        cases hq
      · obtain ⟨ino, hino, -⟩ := copy_eq_some hcopy
        rw [hino] at hq
        cases hq
      · exact absurd hq hne
    · exact (Function.update_of_ne hqp _ _).trans (h.sound.directory q hq)
  · dsimp only at hbytes'
    by_cases hqp : q = p
    · subst hqp
      rw [Function.update_self, Option.some.injEq] at hbytes'
      subst hbytes'
      rcases hp with hnone | hcopy | ⟨hhandle, -⟩
      · exact Or.inl hnone
      · exact Or.inr hcopy
      · exact absurd hhandle hq
    · rw [Function.update_of_ne hqp] at hbytes'
      exact h.leftover q hq bytes' hbytes'

/-! ## Files that are opened and changed -/

theorem open_file_cases {j j' : Journal} {flags : Flags} {fh : Option Nat}
    (h : j.open_file p flags = some (j', fh)) :
    (∃ ino, j.entries p = some (.file ino) ∧ fh = some ino ∧ j' = if flags.trunc = true then j.set ino []
      else j) ∨
      (j.entries p = some .directory ∧ fh = none ∧ j' = j) ∨
      j.entries p = none ∧ flags.creat = true ∧ j.entries (parent_path p) = some .directory ∧
        fh = some j.next ∧ j' = j.create p [] := by
  unfold Journal.open_file at h
  cases hp : j.entries p with
  | none =>
    simp only [hp] at h
    split at h
    · rename_i hcreate
      cases h
      exact Or.inr (Or.inr ⟨rfl, hcreate.1, hcreate.2, rfl, rfl⟩)
    · cases h
  | some entry =>
    cases entry with
    | file ino =>
      simp only [hp] at h
      split at h
      · cases h
      · obtain ⟨rfl, rfl⟩ := Prod.mk.inj (Option.some.inj h)
        exact Or.inl ⟨ino, rfl, rfl, rfl⟩
    | directory =>
      simp only [hp] at h
      split at h
      · cases h
      · cases h
        exact Or.inr (Or.inl ⟨rfl, rfl, rfl⟩)

theorem Sound.create (h : m.Sound) (hp : m.journal.entries p = none)
    (hparent : m.journal.entries (parent_path p) = some .directory) (bytes : Bytes) :
    (m.at_journal (m.journal.create p bytes)).Sound := by
  have hself : (m.journal.create p bytes).entries p = some (.file m.journal.next) :=
    Function.update_self _ _ _
  have hother : ∀ {q : Path}, q ≠ p → (m.journal.create p bytes).entries q = m.journal.entries q :=
    fun hq => Function.update_of_ne hq _ _
  refine ⟨h.tree.create hp hparent bytes, fun q hq => ?_, fun q ino hq => ?_, fun q r ino hq hr => ?_,
    fun handle hhandle ino hino => ?_⟩
  · by_cases hqp : q = p
    · subst hqp
      rw [at_journal, hself] at hq
      cases hq
    · exact h.directory q ((hother hqp).symm.trans hq)
  · change ino < m.journal.next + 1
    by_cases hqp : q = p
    · subst hqp
      rw [at_journal, hself] at hq
      cases hq
      omega
    · have := h.next q ino ((hother hqp).symm.trans hq)
      omega
  · have hnew : ∀ {q : Path}, (m.journal.create p bytes).entries q = some (.file m.journal.next) → q = p := by
      intro q hq
      by_contra hqp
      exact absurd (h.next q _ ((hother hqp).symm.trans hq)) (lt_irrefl _)
    by_cases hino : ino = m.journal.next
    · subst hino
      rw [hnew hq, hnew hr]
    · have hne : ∀ {q : Path}, (m.journal.create p bytes).entries q = some (.file ino) → q ≠ p := by
        rintro q hq rfl
        rw [hself] at hq
        cases hq
        exact hino rfl
      exact h.unique q r ino ((hother (hne hq)).symm.trans hq) ((hother (hne hr)).symm.trans hr)
  · obtain ⟨hlt, hunique⟩ := h.handles handle hhandle ino hino
    refine ⟨hlt.trans (Nat.lt_succ_self _), fun q hq => ?_⟩
    by_cases hqp : q = p
    · subst hqp
      rw [at_journal, hself] at hq
      cases hq
      exact absurd hlt (lt_irrefl _)
    · exact hunique q ((hother hqp).symm.trans hq)

theorem Sound.copy_create (h : m.Sound) (bytes : Bytes) {q : Path} (hq : q ≠ p) :
    (m.journal.create p bytes).copy q = m.journal.copy q := by
  have hentry : (m.journal.create p bytes).entries q = m.journal.entries q := Function.update_of_ne hq _ _
  unfold copy
  rw [hentry]
  cases hentry' : m.journal.entries q with
  | none => rfl
  | some entry =>
    cases entry with
    | file ino =>
      have hne : ino ≠ m.journal.next := (h.next q ino hentry').ne
      exact congrArg some (Function.update_of_ne hne _ _)
    | directory => rfl

theorem copy_create_self (j : Journal) (p : Path) (bytes : Bytes) :
    (j.create p bytes).copy p = some bytes := by
  have hself : (j.create p bytes).entries p = some (.file j.next) := Function.update_self _ _ _
  rw [copy_of_file hself]
  exact congrArg some (Function.update_self _ _ _)

theorem Sound.set (h : m.Sound) (ino : Nat) (bytes : Bytes) :
    (m.at_journal (m.journal.set ino bytes)).Sound :=
  ⟨h.tree, h.directory, h.next, h.unique, h.handles⟩

theorem copy_set_self {j : Journal} {ino : Nat} (h : j.entries p = some (.file ino)) (bytes : Bytes) :
    (j.set ino bytes).copy p = some bytes := by
  have hentry : (j.set ino bytes).entries p = some (.file ino) := h
  rw [copy_of_file hentry]
  exact congrArg some (Function.update_self _ _ _)

theorem copy_set_of_ne {j : Journal} {ino : Nat} (h : j.entries p ≠ some (.file ino)) (bytes : Bytes) :
    (j.set ino bytes).copy p = j.copy p := by
  have hentry : (j.set ino bytes).entries p = j.entries p := rfl
  unfold copy
  rw [hentry]
  cases hp : j.entries p with
  | none => rfl
  | some entry =>
    cases entry with
    | file ino' =>
      have hne : ino' ≠ ino := by
        rintro rfl
        exact h hp
      exact congrArg some (Function.update_of_ne hne _ _)
    | directory => rfl

/-- What `::open` does to the journal, and to whom. -/
structure Opened (m : Mount) (p : Path) (flags : Flags) (j : Journal) (fh : Option Nat) : Prop where
  sound : (m.at_journal j).Sound
  entries : ∀ q, q ≠ p → j.entries q = m.journal.entries q
  copy : ∀ q, q ≠ p → j.copy q = m.journal.copy q
  file : ∀ ino, fh = some ino → j.entries p = some (.file ino)
  /-- The file has the bytes that it had, or none. -/
  bytes : j.entries p = some .directory ∨ (flags.trunc = true ∨ m.journal.copy p = none) ∧
    j.copy p = some [] ∨
    m.journal.copy p ≠ none ∧ j.copy p = m.journal.copy p

theorem Sound.open_file (h : m.Sound) {flags : Flags} {j : Journal} {fh : Option Nat}
    (hopen : m.journal.open_file p flags = some (j, fh)) : m.Opened p flags j fh := by
  rcases open_file_cases hopen with ⟨ino, hp, rfl, rfl⟩ | ⟨hp, rfl, rfl⟩ | ⟨hp, -, hparent, rfl, rfl⟩
  · split
    · rename_i htrunc
      refine ⟨h.set ino [], fun _ _ => rfl, fun q hq => ?_, fun ino' hino' => ?_,
        Or.inr (Or.inl ⟨Or.inl htrunc, copy_set_self hp []⟩)⟩
      · exact copy_set_of_ne (fun hentry => hq (h.unique q p ino hentry hp)) []
      · cases hino'
        exact hp
    · refine ⟨h, fun _ _ => rfl, fun _ _ => rfl, fun ino' hino' => ?_, Or.inr (Or.inr ⟨?_, rfl⟩)⟩
      · cases hino'
        exact hp
      · rw [copy_of_file hp]
        simp
  · exact ⟨h, fun _ _ => rfl, fun _ _ => rfl, (fun ino hino => nomatch hino), Or.inl hp⟩
  · refine ⟨h.create hp hparent [], fun q hq => Function.update_of_ne hq _ _, fun q hq => h.copy_create [] hq,
      fun ino hino => ?_,
      Or.inr (Or.inl ⟨Or.inr (by rw [Journal.copy, hp]), copy_create_self _ _ _⟩)⟩
    cases hino
    exact Function.update_self _ _ _

/-- The file gets a handle. -/
theorem Fresh.opened (h : m.Fresh) {flags : Flags} {j : Journal} {fh : Option Nat}
    (hopened : m.Opened p flags j fh) : (⟨j, ⟨p, fh⟩ :: m.handles, m.ring⟩ : Mount).Fresh := by
  refine ⟨⟨hopened.sound.tree, hopened.sound.directory, hopened.sound.next, hopened.sound.unique,
    fun handle hhandle ino hino => ?_⟩,
    fun q hq bytes hbytes => ?_⟩
  · rcases List.mem_cons.mp hhandle with rfl | hhandle
    · have hfile := hopened.file ino hino
      exact ⟨hopened.sound.next p ino hfile, fun q hq => hopened.sound.unique q p ino hq hfile⟩
    · exact hopened.sound.handles handle hhandle ino hino
  · have hqp : q ≠ p := by
      rintro rfl
      exact hq ⟨_, List.mem_cons_self, rfl⟩
    have hq' : ¬ m.HasHandle q := by
      rintro ⟨handle, hhandle, hpath⟩
      exact hq ⟨handle, List.mem_cons_of_mem _ hhandle, hpath⟩
    rw [hopened.entries q hqp, hopened.copy q hqp]
    exact h.leftover q hq' bytes hbytes

/-! ## The calls -/

theorem fresh_create (h : m.Fresh) {flags : Flags} {opens ok : Bool} (hp : m.Resolves p)
    (hkeeps : m.Keeps (.create p flags opens ok)) : (m.step (.create p flags opens ok)).Fresh := by
  rw [step]
  rcases m.create_cases p flags opens ok with heq | ⟨j, hj, hcreate⟩
  · rw [heq]
    exact h
  have hdirectories := h.at_directories hp hj
  rcases hcreate with heq | ⟨j', fh, hopen, hopens, hput⟩
  · rw [heq]
    exact hdirectories
  have hopened := hdirectories.sound.open_file hopen
  rcases hput with ⟨heq, hfails⟩ | ⟨bytes, -, hcopy, heq⟩
  · -- the put fails, and the copy stays
    rw [heq]
    refine ⟨hopened.sound, fun q hq bytes hbytes => ?_⟩
    have hring : m.ring q = some bytes := hbytes
    by_cases hqp : q = p
    · subst hqp
      rcases hopened.bytes with hdirectory | ⟨hempty, hcopy⟩ | ⟨hsome, hsame⟩
      · have hnone : m.ring q = none := hopened.sound.directory q hdirectory
        rw [hring] at hnone
        cases hnone
      · rcases hkeeps with htrue | hclosed | hhandle | hbytes'
        · rw [htrue] at hfails
          have hnone := hfails.resolve_left (by simp)
          rw [hcopy] at hnone
          cases hnone
        · rw [hopens] at hclosed
          cases hclosed
        · exact absurd hhandle hq
        · rcases hbytes' bytes hring with rfl | ⟨hcopy', htrunc⟩
          · exact Or.inr hcopy
          · have hnone : m.journal.copy q = none := by
              rw [← (as_journal_path_spec h.sound.tree hj).2.2.copy q]
              refine hempty.resolve_left ?_
              rw [htrunc]
              simp
            exact absurd hnone hcopy'
      · have hleft := hdirectories.leftover q hq bytes hring
        rw [← hsame] at hleft
        refine Or.inr (hleft.resolve_left fun hnone => hsome ?_)
        rw [Journal.copy, hnone]
    · rw [at_journal, hopened.entries q hqp, hopened.copy q hqp]
      exact hdirectories.leftover q hq bytes hbytes
  · rw [heq]
    exact (hdirectories.opened hopened).accept (Or.inr (Or.inl hcopy))

theorem Fresh.fetched (h : m.Fresh) (hp : m.journal.entries p = none) {left : Option Bytes}
    (hleft : m.HasHandle p ∨ left = none ∨ ∀ bytes, m.ring p = some bytes → left = some bytes) :
    (m.at_journal (fetched m.journal p left)).Fresh := by
  cases left with
  | none => exact h
  | some bytes =>
    unfold Mount.fetched
    dsimp only
    split
    · rename_i hparent
      refine ⟨h.sound.create hp hparent bytes, fun q hq bytes' hbytes' => ?_⟩
      by_cases hqp : q = p
      · subst hqp
        rcases hleft with hhandle | hnone | hsame
        · exact absurd hhandle hq
        · cases hnone
        · rw [← hsame bytes' hbytes']
          exact Or.inr (copy_create_self _ _ _)
      · have hentry : (m.journal.create p bytes).entries q = m.journal.entries q :=
          Function.update_of_ne hqp _ _
        rw [at_journal, hentry, h.sound.copy_create bytes hqp]
        exact h.leftover q hq bytes' hbytes'
    · exact h

/-- What `open` finds before the file is opened. -/
theorem Fresh.before_open (h : m.Fresh) {flags : Flags} {get : Fetch} {opens : Bool} (hp : m.Resolves p)
    (hkeeps : m.Keeps (.open_path p flags get opens)) {j j₁ : Journal}
    (hj : m.journal.as_journal_path p = some j)
    (hj₁ : j.entries p ≠ none ∧ j₁ = j ∨ j.entries p = none ∧ j₁ = Mount.fetched j p get.left) :
    (m.at_journal j₁).Fresh := by
  have hdirectories := h.at_directories hp hj
  rcases hj₁ with ⟨-, rfl⟩ | ⟨hnone, rfl⟩
  · exact hdirectories
  · refine hdirectories.fetched hnone (hkeeps.resolve_left ?_)
    rcases (as_journal_path_spec h.sound.tree hj).2.2.entries p with heq | ⟨hunder, -, -⟩
    · rw [← heq, hnone]
      simp
    · exact absurd hunder hp.not_prefix_parent

theorem fresh_open_path (h : m.Fresh) {flags : Flags} {get : Fetch} {opens : Bool} (hp : m.Resolves p)
    (hkeeps : m.Keeps (.open_path p flags get opens)) : (m.step (.open_path p flags get opens)).Fresh := by
  rw [step]
  rcases m.open_path_cases p flags get opens with heq | ⟨j, hj, j₁, hj₁, hopen⟩
  · rw [heq]
    exact h
  have hbefore := h.before_open hp hkeeps hj hj₁
  rcases hopen with ⟨code, -, heq⟩ | ⟨j₂, fh, hopen, -, heq⟩
  · rw [heq]
    exact hbefore
  · rw [heq]
    exact hbefore.opened (hbefore.sound.open_file hopen)

/-- A file with a handle may have any bytes. -/
theorem Fresh.changed (h : m.Fresh) {handle : Handle} (hhandle : handle ∈ m.handles) (bytes : Bytes → Bytes) :
    (m.at_journal (changed m.journal handle.fh bytes)).Fresh := by
  cases hfh : handle.fh with
  | none => exact h
  | some ino =>
    refine ⟨h.sound.set ino _, fun q hq bytes' hbytes' => ?_⟩
    have hentry : m.journal.entries q ≠ some (.file ino) := by
      intro hentry
      have hpath := (h.sound.handles handle hhandle ino hfh).2 q hentry
      exact hq ⟨handle, hhandle, hpath.symm⟩
    have hcopy : (Mount.changed m.journal (some ino) bytes).copy q = m.journal.copy q :=
      copy_set_of_ne hentry _
    rw [at_journal, hcopy]
    exact h.leftover q hq bytes' hbytes'

theorem fresh_change (h : m.Fresh) {handle : Handle} (hhandle : handle ∈ m.handles)
    (hp : m.Resolves handle.path) (bytes : Bytes → Bytes) (succ : Int) :
    (m.change handle.path handle.fh bytes succ).1.Fresh := by
  have hchanged := h.changed hhandle bytes
  rcases m.change_cases handle.path handle.fh bytes succ with heq | ⟨j, hj, heq⟩
  · rw [heq]
    exact hchanged
  · rw [heq]
    exact hchanged.at_directories hp hj

theorem fresh_flush (h : m.Fresh) (hp : m.Resolves p) (fsync ok : Bool) : (m.flush p fsync ok).1.Fresh := by
  rcases m.flush_cases p fsync ok with ⟨heq, -⟩ | ⟨j, hj, hflush⟩
  · rw [heq]
    exact h
  have hdirectories := h.at_directories hp hj
  rcases hflush with ⟨heq, -⟩ | ⟨bytes, hcopy, ⟨-, heq⟩ | ⟨-, heq⟩⟩
  · rw [heq]
    exact hdirectories
  · rw [heq]
    exact hdirectories
  · rw [heq]
    exact hdirectories.accept (Or.inr (Or.inl hcopy))

/-- The last handle may go where the copy is the file of the ring. -/
theorem Fresh.erase (h : m.Fresh) {handle : Handle} (hleft : m.Leftover handle.path) :
    ({ m with handles := m.handles.erase handle } : Mount).Fresh := by
  refine ⟨⟨h.sound.tree, h.sound.directory, h.sound.next, h.sound.unique,
    fun handle' hhandle' => h.sound.handles handle' (List.mem_of_mem_erase hhandle')⟩, fun q hq => ?_⟩
  by_cases hqp : q = handle.path
  · subst hqp
    exact hleft
  · refine h.leftover q ?_
    rintro ⟨handle', hhandle', rfl⟩
    have hne : handle' ≠ handle := by
      rintro rfl
      exact hqp rfl
    exact hq ⟨handle', (List.mem_erase_of_ne hne).mpr hhandle', rfl⟩

/-- A copy that `release` leaves was put. -/
theorem fresh_release (h : m.Fresh) (hp : m.Resolves p) (fsync ok : Bool) :
    (m.release p fsync ok).1.Fresh ∧ (m.release p fsync ok).1.Leftover p := by
  rcases release_cases h.sound.tree p fsync ok with ⟨-, hrelease, hentry⟩ | ⟨j, hj, hrelease⟩
  · rw [hrelease]
    exact ⟨h, fun _ _ => Or.inl hentry⟩
  have hdirectories := h.at_directories hp hj
  have hgone : (j.remove_all p).entries p = none := if_pos (List.prefix_refl p)
  rcases hrelease with ⟨-, hrelease, hcopy⟩ | ⟨bytes, hcopy, hrelease⟩
  · -- there is no file, or a directory
    rw [hrelease]
    refine ⟨hdirectories, fun bytes hbytes => ?_⟩
    cases hentry : j.entries p with
    | none => exact Or.inl hentry
    | some entry =>
      cases entry with
      | file ino =>
        rw [copy_of_file hentry] at hcopy
        cases hcopy
      | directory =>
        have hnone := hdirectories.sound.directory p hentry
        rw [hbytes] at hnone
        cases hnone
  have hput := hdirectories.accept (Or.inr (Or.inl hcopy))
  rcases hrelease with ⟨-, -, hrelease⟩ | ⟨-, -, -, hrelease⟩ | ⟨-, -, -, hrelease⟩
  · rw [hrelease]
    exact ⟨hdirectories.remove_all p, fun _ _ => Or.inl hgone⟩
  · rw [hrelease]
    refine ⟨hput, fun bytes' hbytes' => Or.inr ?_⟩
    dsimp only at hbytes'
    rw [Function.update_self] at hbytes'
    rw [← hbytes', hcopy]
  · rw [hrelease]
    exact ⟨hput.remove_all p, fun _ _ => Or.inl hgone⟩

theorem move_at_journal (m : Mount) (j : Journal) (src dst : Path) (status : Status) (put : Bool) :
    (m.move src dst status put).at_journal j = (m.at_journal j).move src dst status put := by
  unfold move
  have hring : (m.at_journal j).ring src = m.ring src := rfl
  rw [hring]
  cases m.ring src with
  | none => rfl
  | some bytes =>
    dsimp only
    split
    · rfl
    · split
      · rfl
      · split <;> rfl

theorem Fresh.cleaned (h : m.Fresh) (hp : m.Resolves p) {j : Journal}
    (hj : m.journal.as_journal_path p = some j) :
    (m.at_journal (j.remove_all p)).Fresh :=
  (h.at_directories hp hj).remove_all p

/-- A move needs that both copies are gone. -/
theorem Fresh.moved (h : m.Fresh) {src dst : Path} (hsrc : ∀ ino, m.journal.entries src ≠ some (.file ino))
    (hdst : m.journal.entries dst = none) (put : Bool) : (m.move src dst .OK put).Fresh := by
  unfold move
  cases hring : m.ring src with
  | none => exact h
  | some bytes =>
    dsimp only
    split
    · exact h
    rename_i hne
    rw [if_pos rfl]
    have hself : Function.update (Function.update m.ring dst (some bytes)) src none src = none :=
      Function.update_self _ _ _
    have hother : ∀ q, q ≠ src → q ≠ dst →
        Function.update (Function.update m.ring dst (some bytes)) src none q = m.ring q := by
      intro q hqs hqd
      rw [Function.update_of_ne hqs, Function.update_of_ne hqd]
    refine ⟨⟨h.sound.tree, fun q hq => ?_, h.sound.next, h.sound.unique, fun handle hhandle ino hino => ?_⟩,
      fun q hq bytes' hbytes' => ?_⟩
    · by_cases hqs : q = src
      · rw [hqs]
        exact hself
      have hqd : q ≠ dst := by
        rintro rfl
        rw [show m.journal.entries q = none from hdst] at hq
        cases hq
      exact (hother q hqs hqd).trans (h.sound.directory q hq)
    · obtain ⟨handle', hhandle', rfl⟩ := List.mem_map.mp hhandle
      have hfh : handle'.fh = some ino := by
        rw [← hino]
        split <;> rfl
      obtain ⟨hlt, hunique⟩ := h.sound.handles handle' hhandle' ino hfh
      refine ⟨hlt, fun q hq => ?_⟩
      have hqs : q ≠ src := by
        rintro rfl
        exact hsrc ino hq
      have hpath := hunique q hq
      rw [if_neg (by rwa [← hpath])]
      exact hpath
    · dsimp only at hbytes'
      by_cases hqs : q = src
      · rw [hqs, hself] at hbytes'
        cases hbytes'
      by_cases hqd : q = dst
      · exact Or.inl (hqd ▸ hdst)
      rw [hother q hqs hqd] at hbytes'
      refine h.leftover q ?_ bytes' hbytes'
      rintro ⟨handle, hhandle, rfl⟩
      exact hq ⟨handle, List.mem_map.mpr ⟨handle, hhandle, if_neg hqs⟩, rfl⟩

theorem fresh_rename (h : m.Fresh) {src dst : Path} {status : Status} {put : Bool} (hsrc : m.Resolves src)
    (hdst : m.Resolves dst) (hkeeps : m.Keeps (.rename src dst status put)) :
    (m.step (.rename src dst status put)).Fresh := by
  rw [step, rename]
  by_cases hOK : status = .OK
  · subst hOK
    rw [if_pos rfl, clean_journal_eq, journal_move]
    cases hj : m.journal.as_journal_path src with
    | none =>
      obtain ⟨a, ha, ino, hfile⟩ := as_journal_path_eq_none hj
      have hne : a ≠ src := by
        rintro rfl
        exact hsrc.not_prefix_parent ha
      exact absurd hfile (hkeeps.1 rfl a (ha.trans (List.dropLast_prefix src)) ino hne)
    | some j =>
      have hcleaned := h.cleaned hsrc hj
      have hgone : (j.remove_all src).entries src = none := if_pos (List.prefix_refl src)
      rw [Option.map_some, move_at_journal]
      dsimp only
      rw [clean_journal_eq, journal_move]
      cases hj' : (m.at_journal (j.remove_all src)).journal.as_journal_path dst with
      | none =>
        -- there is no copy below a file
        have hnone : (j.remove_all src).entries dst = none := by
          by_contra hentry
          rw [hcleaned.sound.tree.as_journal_path hentry] at hj'
          cases hj'
        exact hcleaned.moved (by simp [at_journal, hgone]) hnone put
      | some j' =>
        have hcleaned' := hcleaned.cleaned hdst hj'
        rw [Option.map_some, move_at_journal]
        refine hcleaned'.moved (fun ino hfile => ?_) (if_pos (List.prefix_refl dst)) put
        have hextends := (as_journal_path_spec hcleaned.sound.tree hj').2.2
        change (if dst <+: src then none else j'.entries src) = some (.file ino) at hfile
        split at hfile
        · cases hfile
        · rw [hextends.file, at_journal, hgone] at hfile
          cases hfile
  · rw [if_neg hOK]
    have hmove : (m.move src dst status put).Fresh := by
      unfold move
      cases hring : m.ring src with
      | none => exact h
      | some bytes =>
        dsimp only
        split
        · exact h
        rename_i hne
        split
        · rename_i hput
          exact h.accept (hkeeps.2 hOK hput hne bytes hring)
        · exact h
    exact hmove

theorem fresh_unlink (h : m.Fresh) (hp : m.Resolves p) (ok : Bool) : (m.step (.unlink p ok)).Fresh := by
  rw [step, unlink]
  split
  · have hremoved : ({ m with ring := Function.update m.ring p none } : Mount).Fresh := by
      have hring : ∀ {q : Path} {bytes : Bytes}, Function.update m.ring p none q = some bytes →
          m.ring q = some bytes := by
        intro q bytes hq
        by_cases hqp : q = p
        · rw [hqp, Function.update_self] at hq
          cases hq
        · rwa [Function.update_of_ne hqp] at hq
      refine ⟨⟨h.sound.tree, fun q hq => ?_, h.sound.next, h.sound.unique, h.sound.handles⟩,
        fun q hq bytes hbytes => h.leftover q hq bytes (hring hbytes)⟩
      have hnone := h.sound.directory q hq
      by_contra hsome
      obtain ⟨bytes, hbytes⟩ := Option.ne_none_iff_exists'.mp hsome
      rw [hring hbytes] at hnone
      cases hnone
    have hresolves : ({ m with ring := Function.update m.ring p none } : Mount).Resolves p :=
      ⟨hp.1, fun a ha hne => (Function.update_of_ne hne _ _).trans (hp.2 a ha hne)⟩
    dsimp only
    rw [clean_journal_eq]
    cases hj : m.journal.as_journal_path p with
    | none => exact hremoved
    | some j => exact hremoved.cleaned hresolves hj
  · exact h

/-- No call leaves a stale copy. -/
theorem fresh_step (h : m.Fresh) {call : Call} (hvalid : m.Valid call) (hkeeps : m.Keeps call) :
    (m.step call).Fresh := by
  cases call with
  | create p flags opens ok => exact fresh_create h hvalid hkeeps
  | open_path p flags get opens => exact fresh_open_path h hvalid.1 hkeeps
  | write handle offset data => exact fresh_change h hvalid.2 hvalid.1 _ _
  | truncate handle size => exact fresh_change h hvalid.2 hvalid.1 _ _
  | flush handle fsync ok => exact fresh_flush h hvalid.1 fsync ok
  | release handle fsync ok =>
    obtain ⟨hfresh, hleft⟩ := fresh_release h hvalid.1 fsync ok
    exact hfresh.erase hleft
  | rename src dst status put => exact fresh_rename h hvalid.1 hvalid.2 hkeeps
  | unlink p ok => exact fresh_unlink h hvalid ok
  | put_elsewhere p bytes => exact h.accept hkeeps

/-- After a run and one more call that may be made. -/
theorem fresh_run (h : m.Fresh) {calls : List Call} (hvalid : m.AllValid calls) (hkeeps : m.AllKeep calls)
    (k : Nat) :
    (m.run (calls.take k)).Fresh ∧
      ∀ call, calls[k]? = some call → (m.run (calls.take k)).Valid call ∧
        (m.run (calls.take k)).Keeps call := by
  induction calls generalizing m k with
  | nil => exact ⟨by simpa [run] using h, fun call hcall => by simp at hcall⟩
  | cons call calls ih =>
    cases k with
    | zero =>
      refine ⟨h, fun call' hcall' => ?_⟩
      cases hcall'
      exact ⟨hvalid.1, hkeeps.1⟩
    | succ k => exact ih (fresh_step h hvalid.1 hkeeps.1) hvalid.2 hkeeps.2 k

theorem fresh_fresh (ring : Path → Option Bytes) : (fresh ring).Fresh where
  sound :=
    { tree := tree_fresh ring
      directory := fun _ hp => nomatch hp
      next := fun _ _ hp => nomatch hp
      unique := fun _ _ _ hp => nomatch hp
      handles := fun _ hhandle => nomatch hhandle }
  leftover _ _ _ _ := Or.inl rfl

theorem Fresh.shows (h : m.Fresh) {flags : Flags} {get : Fetch} {opens : Bool}
    (hvalid : m.Valid (.open_path p flags get opens)) (hkeeps : m.Keeps (.open_path p flags get opens)) :
    m.Shows p flags get opens := by
  intro hhandle hsuccess bytes hbytes m' hm'
  rw [with_directories_eq, Option.map_eq_some_iff] at hm'
  obtain ⟨j, hj, rfl⟩ := hm'
  rcases m.open_path_cases p flags get opens with heq | ⟨j', hj', j₁, hj₁, hopen⟩
  · rw [heq] at hsuccess
    cases hsuccess
  rw [hj, Option.some.injEq] at hj'
  subst hj'
  have hbefore := h.before_open hvalid.1 hkeeps hj hj₁
  have hfetch : ((m.at_journal j).fetch p get).1 = m.at_journal j₁ := by
    rcases (m.at_journal j).fetch_cases p get with ⟨hp, hfetch⟩ | ⟨hp, ok, -, hfetch⟩
    · rw [hfetch, (hj₁.resolve_right fun hnone => hp hnone.1).2]
    · rw [hfetch, (hj₁.resolve_left fun hsome => hsome.1 hp).2]
      rfl
  rw [hfetch]
  refine (hbefore.leftover p hhandle bytes hbytes).resolve_left fun hnone => ?_
  rcases hopen with ⟨code, hne, heq⟩ | ⟨j₂, fh, hopen, -, heq⟩
  · rw [heq] at hsuccess
    exact hne (Option.some.inj hsuccess)
  · rcases open_file_cases hopen with ⟨ino, hfile, -⟩ | ⟨hdirectory, -⟩ | ⟨-, hcreat, -⟩
    · rw [show j₁.entries p = none from hnone] at hfile
      cases hfile
    · rw [show j₁.entries p = none from hnone] at hdirectory
      cases hdirectory
    · rw [hvalid.2] at hcreat
      cases hcreat

end

/-- An open file shows the last successful put, unless a call left a copy that differs from it. -/
theorem opens_show (ring : Path → Option Bytes) (calls : List Call) (hvalid : (fresh ring).AllValid calls)
    (hkeeps : (fresh ring).AllKeep calls) (k : Nat) {p : Path} {flags : Flags} {get : Fetch} {opens : Bool}
    (hk : calls[k]? = some (.open_path p flags get opens)) :
    ((fresh ring).run (calls.take k)).Shows p flags get opens := by
  obtain ⟨hfresh, hcall⟩ := fresh_run (fresh_fresh ring) hvalid hkeeps k
  obtain ⟨hvalid', hkeeps'⟩ := hcall _ hk
  exact hfresh.shows hvalid' hkeeps'

theorem resolves_root_file {m : Mount} {name : Fs.Name} (h : m.ring [] = none) : m.Resolves [name] := by
  refine ⟨by simp, fun a ha hne => ?_⟩
  rcases List.prefix_cons_iff.mp ha with rfl | ⟨t, rfl, ht⟩
  · exact h
  · rw [List.prefix_nil.mp ht] at hne
    exact absurd rfl hne

/-- Another node puts a file, and it is opened. -/
theorem opens_show_fetched :
    ((fresh fun _ => none).run [.put_elsewhere [['a']] [1]]).Shows [['a']] ⟨false, false, false, true⟩
    ⟨some [1], true⟩ true := by
  refine opens_show (fun _ => none)
    [.put_elsewhere [['a']] [1], .open_path [['a']] ⟨false, false, false, true⟩ ⟨some [1], true⟩ true]
    ⟨trivial, ⟨resolves_root_file rfl, rfl⟩, trivial⟩
      ⟨Or.inl rfl, Or.inr (Or.inr (Or.inr fun bytes hbytes => ?_)), trivial⟩ 1 rfl
  have hring : some [1] = some bytes := hbytes
  exact hring

/-- A file is created and released, and another node puts it again. -/
theorem open_shows_stale_copy :
    ¬ ∀ (ring : Path → Option Bytes) (calls : List Call), (fresh ring).AllValid calls →
    ∀ k p flags get opens, calls[k]? = some (.open_path p flags get opens) →
      ((fresh ring).run (calls.take k)).Shows p flags get opens := by
  intro hall
  have hshows := hall (fun _ => none) [.create [['a']] ⟨true, false, false, true⟩ true true,
      .release ⟨[['a']], some 0⟩ true true,
      .put_elsewhere [['a']] [1], .open_path [['a']] ⟨false, false, false, true⟩ ⟨some [1], true⟩ true]
    ⟨resolves_root_file rfl, ⟨resolves_root_file rfl, List.mem_cons_self⟩, trivial,
      ⟨resolves_root_file rfl, rfl⟩, trivial⟩
    3 [['a']] ⟨false, false, false, true⟩ ⟨some [1], true⟩ true rfl
  have hhandle : ¬ Mount.HasHandle
      ((fresh fun _ => none).run [.create [['a']] ⟨true, false, false, true⟩ true true,
      .release ⟨[['a']], some 0⟩ true true, .put_elsewhere [['a']] [1]]) [['a']] := by
    rintro ⟨handle, hhandle, -⟩
    cases hhandle
  have hcopy := hshows hhandle rfl [1] rfl _ rfl
  exact absurd (Option.some.inj hcopy) (by decide)

end Mount

end Fuse

end Chord
