import Mathlib.Data.List.Induction

/-! # Paths (`chord.path.cc`) -/

namespace Chord

/-- The text of a `std::filesystem::path`. -/
abbrev PathString := List Char

namespace PathString

/-! ## `std::filesystem::path` -/

def is_absolute (p : PathString) : Prop := p.head? = some '/'

instance (p : PathString) : Decidable p.is_absolute := inferInstanceAs (Decidable (_ = _))

def has_filename (p : PathString) : Prop := p ≠ [] ∧ p.getLast? ≠ some '/'

instance (p : PathString) : Decidable p.has_filename := inferInstanceAs (Decidable (_ ∧ _))

/-- The names between the separators. -/
def components (p : PathString) : List (List Char) := (p.splitOnP (· = '/')).filter (· ≠ [])

/-- What the iterator goes through: the root, the names, and an empty name after a trailing
separator. -/
def elements (p : PathString) : List (List Char) :=
  (if p.is_absolute then [['/']] else []) ++ p.components ++
    if p.components ≠ [] ∧ ¬ p.has_filename then [[]] else []

def parent_path (p : PathString) : PathString :=
  if p.components = [] then p
  else
    let base := ((p.reverse.dropWhile (· ≠ '/')).dropWhile (· = '/')).reverse
    if base = [] ∧ p.is_absolute then ['/'] else base

/-- `operator/=`. -/
def append (p q : PathString) : PathString :=
  if q.is_absolute then q else if p.has_filename then p ++ '/' :: q else p ++ q

/-! ## `chord::path` -/

/-- One turn of the loop of `canonical`. -/
def canonical_step (result : PathString) (dir : List Char) : PathString :=
  if dir = ['.', '.'] then parent_path result
  else if dir = ['.'] then result
  else if dir = ['/'] ∧ result ≠ [] ∧ result.getLast? = some '/' then result
  else append result dir

def canonical (p : PathString) : PathString := p.elements.foldl canonical_step []

/-! ## The characters of a canonical path -/

theorem mem_splitOnP {c : Char} {n p : List Char} (hn : n ∈ p.splitOnP (· = '/')) (hc : c ∈ n) : c ∈ p := by
  induction p generalizing n with
  | nil =>
    rw [List.splitOnP_nil, List.mem_singleton] at hn
    rw [hn] at hc
    exact hc
  | cons d p ih =>
    rw [List.splitOnP_cons_eq_if_modifyHead] at hn
    split at hn
    · rcases List.mem_cons.mp hn with rfl | hn
      · cases hc
      · exact List.mem_cons_of_mem d (ih hn hc)
    · cases hs : p.splitOnP (· = '/') with
      | nil => simp [hs] at hn
      | cons m l =>
        rw [hs, List.modifyHead_cons] at hn
        rcases List.mem_cons.mp hn with rfl | hn
        · rcases List.mem_cons.mp hc with rfl | hc
          · exact List.mem_cons_self
          · exact List.mem_cons_of_mem d (ih (by rw [hs]; exact List.mem_cons_self) hc)
        · exact List.mem_cons_of_mem d (ih (by rw [hs]; exact List.mem_cons_of_mem m hn) hc)

theorem mem_elements {c : Char} {n p : PathString} (hn : n ∈ p.elements) (hc : c ∈ n) : c ∈ p ∨ c = '/' := by
  rw [elements, List.mem_append, List.mem_append] at hn
  rcases hn with (hroot | hname) | hlast
  · right
    split at hroot
    · rw [List.mem_singleton.mp hroot] at hc
      exact List.mem_singleton.mp hc
    · cases hroot
  · left
    exact mem_splitOnP (List.mem_filter.mp hname).1 hc
  · split at hlast
    · rw [List.mem_singleton.mp hlast] at hc
      cases hc
    · cases hlast

theorem mem_parent_path {c : Char} {p : PathString} (h : c ∈ p.parent_path) : c ∈ p ∨ c = '/' := by
  rw [parent_path] at h
  split at h
  · left; exact h
  · dsimp only at h
    split at h
    · right; exact List.mem_singleton.mp h
    · left
      rw [List.mem_reverse] at h
      exact List.mem_reverse.mp ((List.dropWhile_suffix _).mem ((List.dropWhile_suffix _).mem h))

theorem mem_append {c : Char} {p q : PathString} (h : c ∈ append p q) : c ∈ p ∨ c ∈ q ∨ c = '/' := by
  rw [append] at h
  split at h
  · right; left; exact h
  · split at h
    · simp only [List.mem_append, List.mem_cons] at h
      tauto
    · simp only [List.mem_append] at h
      tauto

theorem mem_canonical_step {c : Char} {p n : PathString} (h : c ∈ canonical_step p n) :
    c ∈ p ∨ c ∈ n ∨ c = '/' := by
  rw [canonical_step] at h
  split at h
  · rcases mem_parent_path h with h | h
    · left; exact h
    · right; right; exact h
  · split at h
    · left; exact h
    · split at h
      · left; exact h
      · exact mem_append h

theorem mem_canonical {c : Char} {p : PathString} (h : c ∈ p.canonical) : c ∈ p ∨ c = '/' := by
  have hfold : ∀ (l : List PathString) (acc : PathString), (∀ n ∈ l, n ∈ p.elements) →
      (∀ d ∈ acc, d ∈ p ∨ d = '/') → ∀ d ∈ l.foldl canonical_step acc, d ∈ p ∨ d = '/' := by
    intro l
    induction l with
    | nil => exact fun acc _ hacc => hacc
    | cons n l ih =>
      intro acc hl hacc
      rw [List.foldl_cons]
      apply ih _ fun m hm => hl m (List.mem_cons_of_mem n hm)
      intro d hd
      rcases mem_canonical_step hd with hd | hd | hd
      · exact hacc d hd
      · exact mem_elements (hl n List.mem_cons_self) hd
      · right; exact hd
  exact hfold p.elements [] (fun _ hn => hn) (by simp) c h

end PathString

/-! ## Paths of the local file system -/

/-- A name that a directory entry can have. -/
def FileName (n : List Char) : Prop := n ≠ [] ∧ '/' ∉ n ∧ Char.ofNat 0 ∉ n ∧ n ≠ ['.'] ∧ n ≠ ['.', '.']

instance (n : List Char) : Decidable (FileName n) := inferInstanceAs (Decidable (_ ∧ _))

/-- An absolute path without `.`, `..` and needless separators. -/
structure LocalPath where
  names : List (List Char)
  valid : ∀ n ∈ names, FileName n

namespace LocalPath

def string (p : LocalPath) : PathString := if p.names = [] then ['/'] else p.names.flatMap fun n => '/' :: n

theorem string_absolute (p : LocalPath) : ∃ s, p.string = '/' :: s := by
  rw [string]
  cases p.names with
  | nil => exact ⟨[], rfl⟩
  | cons n names => exact ⟨_, rfl⟩

theorem mem_string {p : LocalPath} {c : Char} (hc : c ≠ '/') : c ∈ p.string ↔ ∃ n ∈ p.names, c ∈ n := by
  rw [string]
  split
  · rename_i h
    simp [h, hc]
  · simp [hc]

theorem string_last {p : LocalPath} (h : p.names ≠ []) : p.string.getLast? ≠ some '/' := by
  rcases List.eq_nil_or_concat p.names with hnil | ⟨l, n, hl⟩
  · exact absurd hnil h
  · rw [List.concat_eq_append] at hl
    have hn := p.valid n (by simp [hl])
    rw [string, if_neg h, hl, List.flatMap_append, List.flatMap_singleton]
    rcases List.eq_nil_or_concat n with hnil | ⟨k, c, hk⟩
    · exact absurd hnil hn.1
    · rw [hk, List.concat_eq_append, ← List.cons_append, ← List.append_assoc, List.getLast?_concat]
      rintro ⟨⟩
      exact hn.2.1 (by simp [hk])

theorem splitOnP_names {n : List Char} {l : List (List Char)} (hn : '/' ∉ n) (hl : ∀ m ∈ l, '/' ∉ m) :
    (n ++ l.flatMap fun m => '/' :: m).splitOnP (· = '/') = n :: l := by
  have hfree : ∀ c ∈ n, decide (c = '/') = false := by
    rintro c hc
    rw [decide_eq_false_iff_not]
    rintro rfl
    exact hn hc
  induction l generalizing n with
  | nil => rw [List.flatMap_nil, List.append_nil, List.splitOnP_eq_singleton hfree]
  | cons m l ih =>
    have hm := hl m List.mem_cons_self
    rw [List.flatMap_cons, List.cons_append, List.splitOnP_append_cons_of_forall_mem hfree '/' (by simp)]
    rw [ih hm (fun k hk => hl k (List.mem_cons_of_mem m hk))]
    rintro c hc
    rw [decide_eq_false_iff_not]
    rintro rfl
    exact hm hc

theorem components_string (p : LocalPath) : p.string.components = p.names := by
  rw [PathString.components, string]
  split
  · rename_i h
    rw [h]
    rfl
  · have hsplit := splitOnP_names (n := []) List.not_mem_nil fun m hm => (p.valid m hm).2.1
    rw [List.nil_append] at hsplit
    rw [hsplit, List.filter_cons_of_neg (by simp), List.filter_eq_self]
    intro n hn
    simpa using (p.valid n hn).1

theorem elements_string (p : LocalPath) : p.string.elements = ['/'] :: p.names := by
  obtain ⟨s, hs⟩ := p.string_absolute
  have habs : p.string.is_absolute := by rw [PathString.is_absolute, hs, List.head?_cons]
  rw [PathString.elements, if_pos habs, components_string, if_neg, List.append_nil, List.singleton_append]
  rintro ⟨hne, hno⟩
  exact hno ⟨by rw [hs]; simp, string_last hne⟩

/-- `canonical` leaves a local path alone. -/
theorem canonical_string (p : LocalPath) : p.string.canonical = p.string := by
  obtain ⟨names, valid⟩ := p
  rw [PathString.canonical, elements_string, List.foldl_cons]
  have hroot : PathString.canonical_step [] ['/'] = ['/'] := by decide
  rw [hroot]
  induction names using List.reverseRecOn with
  | nil => rfl
  | append_singleton names n ih =>
    have hn : FileName n := valid n (by simp)
    have hslash : ¬ PathString.is_absolute n := by
      rw [PathString.is_absolute]
      intro h
      exact hn.2.1 (List.mem_of_mem_head? h)
    have hnroot : n ≠ ['/'] := fun h => hn.2.1 (by rw [h]; simp)
    let q : LocalPath := ⟨names, fun m hm => valid m (List.mem_append_left _ hm)⟩
    have hq : names.foldl PathString.canonical_step ['/'] = q.string := ih q.valid
    rw [List.foldl_append, hq, List.foldl_cons, List.foldl_nil, PathString.canonical_step,
      if_neg hn.2.2.2.2, if_neg hn.2.2.2.1, if_neg (fun h => hnroot h.1), PathString.append, if_neg hslash]
    by_cases hnil : names = []
    · have hq' : q.string = ['/'] := if_pos hnil
      rw [hq', if_neg (by decide), string, if_neg (by simp)]
      simp [hnil]
    · have hfile : q.string.has_filename := by
        obtain ⟨s, hs⟩ := q.string_absolute
        exact ⟨by rw [hs]; simp, string_last (p := q) hnil⟩
      have hq' : q.string = names.flatMap fun n => '/' :: n := if_neg hnil
      rw [if_pos hfile, hq', string, if_neg (by simp), List.flatMap_append, List.flatMap_singleton]

end LocalPath

end Chord
