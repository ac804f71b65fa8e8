import Chord.Canonical
import Chord.Uri

/-!
# Local paths of uris

A request for a uri reads and writes below the data directory.
-/

namespace Chord

namespace PathString

/-- Without the root. -/
def relative_path (p : PathString) : PathString := p.dropWhile (· = '/')

def filename (p : PathString) : PathString := (p.reverse.takeWhile (· ≠ '/')).reverse

/-- `operator/` and `operator/=` of `chord::path`. -/
def div (p q : PathString) : PathString := append p (relative_path q)

/-- The elements of the directory, a separator at its end aside, and below it no `..`. -/
def Inside (directory p : PathString) : Prop :=
  ∃ rest, p.elements = directory.root ++ directory.components ++ rest ∧ ['.', '.'] ∉ rest

/-! ## Parts of a path -/

theorem components_cons_slash (p : PathString) : components ('/' :: p) = p.components :=
  components_append [] p

theorem components_relative_path (p : PathString) : p.relative_path.components = p.components := by
  induction p with
  | nil => rfl
  | cons c p ih =>
    unfold relative_path
    by_cases hc : c = '/'
    · rw [List.dropWhile_cons_of_pos (by simpa using hc), hc, components_cons_slash]
      exact ih
    · rw [List.dropWhile_cons_of_neg (by simpa using hc)]

theorem relative_path_relative (p : PathString) : ¬ p.relative_path.is_absolute := by
  intro h
  have hne : p.relative_path ≠ [] := fun hnil => by simp [is_absolute, hnil] at h
  have hhead := List.head_dropWhile_not (fun c => decide (c = '/')) hne
  rw [is_absolute, List.head?_eq_some_head hne, Option.some.injEq] at h
  rw [decide_eq_false_iff_not] at hhead
  exact hhead h

/-- What is before the last separators, and what is after the last one. -/
theorem exists_split (p : PathString) : (∃ x, p = x ++ p.filename ∧ (x = [] ∨ ∃ y, x = y ++ ['/'])) ∧
    ∃ base, (base = [] ∨ ∃ rest, p = base ++ '/' :: rest) ∧
      ((p.reverse.dropWhile (· ≠ '/')).dropWhile (· = '/')).reverse = base := by
  have hsplit : p = (p.reverse.dropWhile (· ≠ '/')).reverse ++ p.filename := by
    rw [filename, ← List.reverse_append, List.takeWhile_append_dropWhile, List.reverse_reverse]
  cases hx : p.reverse.dropWhile (· ≠ '/') with
  | nil =>
    rw [hx] at hsplit
    exact ⟨⟨[], hsplit, Or.inl rfl⟩, [], Or.inl rfl, rfl⟩
  | cons c x =>
    have hhead := List.head_dropWhile_not (fun c => decide (c ≠ '/'))
        (by rw [hx]; simp : p.reverse.dropWhile _ ≠ [])
    simp only [hx, List.head_cons, decide_eq_false_iff_not, not_not] at hhead
    rw [hhead] at hx ⊢
    rw [hx] at hsplit
    refine ⟨⟨_, hsplit, Or.inr ⟨x.reverse, List.reverse_cons⟩⟩, _, ?_, rfl⟩
    -- the separators after the base
    rw [List.dropWhile_cons_of_pos (by simp)]
    have hslashes : x = x.takeWhile (· = '/') ++ x.dropWhile (· = '/') := List.takeWhile_append_dropWhile.symm
    by_cases hnil : x.takeWhile (· = '/') = []
    · rw [hnil, List.nil_append] at hslashes
      refine Or.inr ⟨p.filename, ?_⟩
      rw [List.reverse_cons, List.append_assoc, List.singleton_append] at hsplit
      rw [← hslashes]
      exact hsplit
    · obtain ⟨y, hy⟩ : ∃ y, (x.takeWhile (· = '/')).reverse = '/' :: y := by
        obtain ⟨c, y, hcy⟩ :=
          List.exists_cons_of_ne_nil (by simpa using hnil : (x.takeWhile (· = '/')).reverse ≠ [])
        have hc := List.mem_takeWhile_imp (List.mem_reverse.mp (hcy ▸ List.mem_cons_self : c ∈ _))
        exact ⟨y, by rw [hcy, of_decide_eq_true hc]⟩
      refine Or.inr ⟨y ++ '/' :: p.filename, ?_⟩
      rw [List.reverse_cons, hslashes, List.reverse_append, hy] at hsplit
      simpa using hsplit

theorem components_filename (p : PathString) : p.filename.components ⊆ p.components := by
  obtain ⟨⟨x, hsplit, hx⟩, -⟩ := p.exists_split
  intro n hn
  rw [hsplit]
  rcases hx with rfl | ⟨y, rfl⟩
  · exact hn
  · rw [List.append_assoc, List.singleton_append, components_append]
    exact List.mem_append_right _ hn

theorem components_parent_path (p : PathString) : p.parent_path.components ⊆ p.components := by
  obtain ⟨-, base, hbase, hparent⟩ := p.exists_split
  unfold parent_path
  split
  · exact List.Subset.refl _
  · rw [hparent]
    dsimp only
    split
    · exact List.nil_subset _
    · rcases hbase with rfl | ⟨rest, hrest⟩
      · exact List.nil_subset _
      · rw [hrest, components_append]
        exact List.subset_append_left _ _

/-- A relative path after a directory. -/
theorem components_append_relative {p q : PathString} (hq : ¬ q.is_absolute) :
    (append p q).components = p.components ++ q.components := by
  rw [append, if_neg hq]
  split
  · exact components_append p q
  · rename_i hfile
    rcases List.eq_nil_or_concat p with rfl | ⟨y, c, rfl⟩
    · rfl
    · rw [List.concat_eq_append] at hfile ⊢
      have hc : c = '/' := by simpa [has_filename] using hfile
      rw [hc, List.append_assoc, List.singleton_append, components_append, components_append]
      simp [components]

theorem root_append_relative {p q : PathString} (hq : ¬ q.is_absolute) : (append p q).root = p.root := by
  cases p with
  | nil =>
    have happend : append [] q = q := by
      rw [append, if_neg hq]
      rfl
    rw [happend, root, if_neg hq]
    rfl
  | cons c p =>
    rw [append, if_neg hq]
    split <;> rfl

theorem components_div (p q : PathString) : (div p q).components = p.components ++ q.components := by
  rw [div, components_append_relative q.relative_path_relative, components_relative_path]

theorem root_div (p q : PathString) : (div p q).root = p.root := root_append_relative q.relative_path_relative

/-! ## Below the data directory -/

theorem inside_of_components {directory p : PathString} {names : List (List Char)}
    (hroot : p.root = directory.root) (hcomponents : p.components = directory.components ++ names)
    (hnames : ['.', '.'] ∉ names) : Inside directory p := by
  refine ⟨names ++ if p.trailing then [[]] else [], ?_, ?_⟩
  · rw [elements_eq, hroot, hcomponents]
    simp only [List.append_assoc]
  · rw [List.mem_append, not_or]
    refine ⟨hnames, ?_⟩
    split <;> simp

end PathString

/-- The path that `put` opens: the directory of the file, and then the file. -/
def put_path (data_directory uri_path : PathString) : PathString :=
  PathString.div (PathString.div data_directory uri_path.parent_path) uri_path.filename

namespace Uri

theorem build_path {b : Builder} {u : Uri} (h : b.build = .ok u) : u.path = b.path.canonical := by
  unfold Builder.build at h
  split at h
  · cases h
  · cases h
    rfl

theorem from_string_path {s : List Char} {u : Uri} (h : from_string s = .ok u) : ∃ p :
    PathString, u.path = p.canonical := by
  unfold from_string at h
  split at h
  · cases h
  · cases hb : with_authority {} (Regex.str _ 4) with
    | error e =>
      rw [hb] at h
      cases h
    | ok b =>
      rw [hb] at h
      exact ⟨_, build_path h⟩

end Uri

open PathString in
/-- No request reads or writes outside of the data directory. -/
theorem requests_stay_inside (data_directory : PathString) (s : List Char) (u : Uri)
    (h : Uri.from_string s = .ok u) :
    Inside data_directory (div data_directory u.path) ∧
      Inside data_directory (put_path data_directory u.path) := by
  obtain ⟨p, hp⟩ := Uri.from_string_path h
  have hplain : ['.', '.'] ∉ u.path.components := by
    rw [hp, p.canonical_parts.1]
    exact fun hmem => (p.names_plain _ hmem).2.2.2 rfl
  constructor
  · exact inside_of_components (root_div _ _) (components_div _ _) hplain
  · have hcomponents : (put_path data_directory u.path).components =
        data_directory.components ++ (u.path.parent_path.components ++ u.path.filename.components) := by
      rw [put_path, components_div, components_div, List.append_assoc]
    refine inside_of_components ((root_div _ _).trans (root_div _ _)) hcomponents ?_
    rw [List.mem_append, not_or]
    exact ⟨fun hmem => hplain (components_parent_path _ hmem),
      fun hmem => hplain (components_filename _ hmem)⟩

theorem requests_stay_inside_up :
    PathString.Inside ['/', 'd'] (PathString.div ['/', 'd'] ['/', 'a']) ∧
      PathString.Inside ['/', 'd'] (put_path ['/', 'd'] ['/', 'a']) :=
  requests_stay_inside ['/', 'd'] ['c', ':', '/', '.', '.', '/', 'a'] ⟨['c'], none, ['/', 'a'], [], []⟩
    (by decide)

end Chord
