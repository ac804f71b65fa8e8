import Chord.Fs.Fetch

/-!
# Putting a directory (`Facade::put`)

The path of a file in the directory, without the parent path of the directory, goes below the
target.
-/

namespace Chord

namespace Fs

namespace Facade

open PathString Ecma

/-- The local disk: `file::is_directory` and `path::recursive_contents`. -/
structure Disk where
  is_directory : PathString → Bool
  recursive_contents : PathString → List PathString

/-- A call of `put_file`. -/
structure Upload where
  source : PathString
  target : PathString
  deriving DecidableEq

section

variable (put_file : PathString → PathString → StatusCode) (disk : Disk)

/-- The loop over the contents of a directory. -/
def put_children (source target : PathString) : List PathString → Outcome × List Upload
  | [] => (.returned .OK, [])
  | child :: children =>
    -- no empty directories
    if disk.is_directory child then put_children source target children
    else
      match minus child source.parent_path with
      | none => (.threw, [])
      | some relative_path =>
        let new_target := div target.canonical relative_path
        let status := put_file child new_target
        if is_successful status then
          let (outcome, uploads) := put_children source target children
          (outcome, ⟨child, new_target⟩ :: uploads)
        else (.returned status, [⟨child, new_target⟩])

/-- `put`. The remote `is_directory` throws where it has no answer. -/
def put (is_directory : PathString → Option Bool) (source target : PathString) : Outcome × List Upload :=
  if disk.is_directory source then
    put_children put_file disk source target (disk.recursive_contents source)
  else
    match is_directory target with
    | none => (.threw, [])
    | some b =>
      let new_target := if b then div target.canonical source.filename else target.canonical
      (.returned (put_file source new_target), [⟨source, new_target⟩])

end

/-! ## Where the files belong -/

/-- The file `r` of the directory `d`. -/
def child (d : PathString) (r : List Name) : PathString := append d (text false r)

/-- The regular files of a directory, by their names from there. -/
structure Holds (disk : Disk) (d : PathString) (files : List (List Name)) : Prop where
  directory : disk.is_directory d
  contents : ∀ p, p ∈ disk.recursive_contents d ∧ disk.is_directory p = false ↔ ∃ r ∈ files, p = child d r
  named : ∀ r ∈ files, r ≠ [] ∧ ∀ n ∈ r, Plain n

/-- The last name of the path. A dot is no name of its own. -/
def basename (d : PathString) : List Name :=
  match d.components.getLast? with
  | none => []
  | some n => if n = ['.'] then [] else [n]

/-- The canonical path of `target / basename(d) / r`. -/
def expected (d target : PathString) (r : List Name) : PathString :=
  canonical (div target (text false (basename d ++ r)))

/-- Every file goes to its own place, and all of them if no `put_file` fails. -/
structure KeepsApart (d target : PathString) (files : List (List Name)) (result : Outcome × List Upload) :
    Prop where
  placed : ∀ x ∈ result.2, ∃ r ∈ files, x = ⟨child d r, expected d target r⟩
  complete : result.1 = .returned .OK → ∀ r ∈ files, ⟨child d r, expected d target r⟩ ∈ result.2
  answered : result.1 ≠ .threw
  apart : ∀ x ∈ result.2, ∀ y ∈ result.2, x.target = y.target → x.source = y.source

/-- There is no separator after the last name, and the parent path, read as a regular expression,
matches itself at the beginning of the path of the file and nothing after that. -/
def Apart (d : PathString) (r : List Name) : Prop :=
  (∀ n, d.components.getLast? = some n → Plain n → d.has_filename) ∧
    (d.parent_path.names = [] ∨ AtFront d.parent_path.canonical (text false (basename d ++ r)))

section

variable {d target : PathString} {r : List Name} {n : Name}

theorem foldl_names_plain (hr : ∀ n ∈ r, Plain n) (l : List Name) : r.foldl names_step l = l ++ r := by
  induction r generalizing l with
  | nil => exact (List.append_nil l).symm
  | cons n r ih =>
    obtain ⟨hn, hr⟩ := List.forall_mem_cons.mp hr
    rw [List.foldl_cons, ih hr, names_step, if_neg hn.2.2.2, if_neg hn.2.2.1, List.append_assoc,
      List.singleton_append]

/-- The canonical path of plain names after a path. -/
theorem canonical_append_text (hr : ∀ n ∈ r, Plain n) {p : PathString}
    (hcomponents : p.components = d.components ++ r) (habs : p.is_absolute ↔ d.is_absolute)
    (hfile : p.has_filename) : p.canonical = text d.is_absolute (d.names ++ r) := by
  rw [canonical_eq, if_neg fun htrailing => htrailing.2.2 hfile, List.append_nil,
    decide_eq_decide.mpr habs, names,
    hcomponents, List.foldl_append, foldl_names_plain hr]
  rfl

theorem components_child (hr : ∀ n ∈ r, Plain n) : (child d r).components = d.components ++ r := by
  rw [child, components_append_relative (not_absolute_text hr), components_text hr]

theorem canonical_child (hr : ∀ n ∈ r, Plain n) (hne : r ≠ []) :
    (child d r).canonical = text d.is_absolute (d.names ++ r) := by
  have hroot := root_append_relative (p := d) (not_absolute_text hr)
  exact canonical_append_text hr (components_child hr) (root_eq_iff.mp hroot)
    (has_filename_append_text hr hne d)

theorem expected_eq (hr : ∀ n ∈ basename d ++ r, Plain n) (hne : r ≠ []) :
    expected d target r = text target.is_absolute (target.names ++ (basename d ++ r)) := by
  have hne' : basename d ++ r ≠ [] := by simp [hne]
  have hrelative : div target (text false (basename d ++ r)) =
      append target (text false (basename d ++ r)) := by
    have h := relative_path_text (a := false) (c := false) hr hne'
    rw [append_ending_false] at h
    rw [div, h]
  have hcomponents := components_append_relative (p := target) (not_absolute_text hr)
  rw [components_text hr] at hcomponents
  have hroot := root_append_relative (p := target) (not_absolute_text hr)
  rw [expected, hrelative]
  exact canonical_append_text hr hcomponents (root_eq_iff.mp hroot) (has_filename_append_text hr hne' target)

/-- The parent path has no separator at its end. -/
theorem canonical_parent (d : PathString) :
    d.parent_path.canonical = text d.is_absolute d.parent_path.names := by
  by_cases hnil : d.components = []
  · have hparent : d.parent_path = d := by rw [PathString.parent_path, if_pos hnil]
    rw [hparent, canonical_eq, if_neg fun h => h.2.1 hnil, List.append_nil]
  · obtain ⟨x, -, -, -, habs, htrailing⟩ := parent_path_parts hnil
    rw [canonical_eq, if_neg fun h => htrailing h.2, List.append_nil, decide_eq_decide.mpr habs]

/-! ## One file -/

theorem mem_getLast {d : PathString} (h : d.components.getLast? = some n) : n ≠ [] ∧ '/' ∉ n :=
  mem_components (List.mem_of_getLast? h)

theorem basename_plain (hdots : d.components.getLast? ≠ some ['.', '.']) : ∀ n ∈ basename d, Plain n := by
  intro n hn
  unfold basename at hn
  split at hn
  · cases hn
  · rename_i m hm
    split at hn
    · cases hn
    · rename_i hdot
      rw [List.mem_singleton.mp hn]
      obtain ⟨hne, hslash⟩ := mem_getLast hm
      exact ⟨hne, hslash, hdot, fun h => hdots (by rw [hm, h])⟩

/-- The names of the directory are those of the parent path and its own. -/
theorem names_basename (hdots : d.components.getLast? ≠ some ['.', '.'])
    (hfile : ∀ n, d.components.getLast? = some n → Plain n → d.has_filename) :
    d.names = d.parent_path.names ++ basename d := by
  have hplain := basename_plain hdots
  unfold basename at hplain ⊢
  cases hlast : d.components.getLast? with
  | none =>
    have hnil : d.components = [] := List.getLast?_eq_none_iff.mp hlast
    have hparent : d.parent_path = d := by rw [PathString.parent_path, if_pos hnil]
    rw [hparent]
    exact (List.append_nil _).symm
  | some n =>
    rw [hlast] at hplain
    dsimp only at hplain ⊢
    by_cases hfilename : d.has_filename
    · have hn : n = d.filename := by
        rw [(components_parent hfilename).1, List.getLast?_concat, Option.some.injEq] at hlast
        exact hlast.symm
      rw [names_filename hfilename, names_step, ← hn, if_neg fun h => hdots (by rw [hlast, h])]
      split
      · exact (List.append_nil _).symm
      · rfl
    · have hnames : d.parent_path.names = d.names := by
        rw [names, names, components_parent_of_separator hfilename]
      by_cases hdot : n = ['.']
      · rw [if_pos hdot, List.append_nil, hnames]
      · rw [if_neg hdot] at hplain
        exact absurd (hfile n hlast (hplain n (List.mem_singleton_self n))) hfilename

/-- A separator after the last name: the parent path has all the names. -/
theorem names_separator (hlast : d.components.getLast? = some n) (hn : Plain n) (hfile : ¬ d.has_filename) :
    d.parent_path.names = d.names ∧ d.names ≠ [] ∧ basename d = [n] := by
  refine ⟨by rw [names, names, components_parent_of_separator hfile], ?_, ?_⟩
  · obtain ⟨l, hl⟩ := List.getLast?_eq_some_iff.mp hlast
    rw [names, hl, List.foldl_append, List.foldl_cons, List.foldl_nil, names_step, if_neg hn.2.2.2,
      if_neg hn.2.2.1]
    simp
  · rw [basename, hlast]
    exact if_neg hn.2.2.1

/-- The path of a file without that of the parent is the canonical path of the file without that
of the parent. -/
theorem minus_child (hr : ∀ n ∈ r, Plain n) (hne : r ≠ []) : minus (child d r) d.parent_path =
    minus (text d.is_absolute (d.names ++ r)) (text d.is_absolute d.parent_path.names) := by
  have hcanonical : ∀ p q : PathString, minus p q = minus p.canonical q.canonical := by
    intro p q
    rw [minus, minus, canonical_canonical, canonical_canonical]
  rw [hcanonical, canonical_child hr hne, canonical_parent]

theorem minus_root {a b : Bool} {l : List Name} (hl : ∀ n ∈ l, Plain n) :
    minus (text b l) (text a []) = some (text b l) := by
  rw [minus, canonical_text hl]
  cases a <;> exact if_pos (by decide)

/-- Below the canonical target. -/
theorem div_target {a : Bool} {m : List Name} (hm : ∀ n ∈ m, Plain n) (hne : m ≠ []) :
    div target.canonical (text a m) = text target.is_absolute (target.names ++ m) := by
  obtain ⟨hcomponents, habs, -⟩ := target.canonical_parts
  have h := div_canonical (a := a) (c := false) target.canonical_canonical hm hne
  rw [append_ending_false, append_ending_false, hcomponents, decide_eq_decide.mpr habs] at h
  exact h

/-- The names of a base that matches at the front come off. -/
theorem minus_front {a : Bool} {l m : List Name} (hl : ∀ n ∈ l, Plain n) (hne : l ≠ [])
    (hm : ∀ n ∈ m, Plain n) (hm' : m ≠ []) (h : AtFront (text a l) (text false m)) :
    minus (text a (l ++ m)) (text a l) = some (text true m) := by
  have hminus := minus_of_atFront (a := a) (b := false) (c := false) hl hne hm hm'
  simp only [append_ending_false] at hminus
  exact hminus h

/-- A literal base comes off at the front, or takes letters away from the other names. -/
theorem front_or_shorter {a : Bool} {l m : List Name} {p : PathString} (hl : ∀ n ∈ l, Plain n) (hne : l ≠ [])
    (hm : ∀ n ∈ m, Plain n) (hm' : m ≠ []) (hliteral : Literal (text a l))
    (hp : minus (text a (l ++ m)) (text a l) = some p) :
    AtFront (text a l) (text false m) ∨ p.components.flatten.length < m.flatten.length := by
  obtain ⟨p', hp', hor⟩ := minus_literal (b := false) (c := false) hl hne hm hm'
    (by rwa [append_ending_false])
  simp only [append_ending_false] at hp' hor
  rwa [Option.some.inj (hp'.symm.trans hp)] at hor

/-- A file that is kept apart goes to its own place. -/
theorem placed_of_apart (hdots : d.components.getLast? ≠ some ['.', '.']) (hr : ∀ n ∈ r, Plain n)
    (hne : r ≠ []) (h : Apart d r) :
    ∃ p, minus (child d r) d.parent_path = some p ∧ div target.canonical p = expected d target r := by
  obtain ⟨hfile, hfront⟩ := h
  have hall := List.forall_mem_append.mpr ⟨basename_plain hdots, hr⟩
  have hne' : basename d ++ r ≠ [] := by simp [hne]
  rw [minus_child hr hne, names_basename hdots hfile, expected_eq hall hne, List.append_assoc]
  by_cases hnil : d.parent_path.names = []
  · rw [hnil, List.nil_append, minus_root hall]
    exact ⟨_, rfl, div_target hall hne'⟩
  · rw [or_iff_right hnil, canonical_parent] at hfront
    exact ⟨_, minus_front d.parent_path.names_plain hnil hall hne' hfront, div_target hall hne'⟩

theorem components_of_placed (hdots : d.components.getLast? ≠ some ['.', '.']) (hr : ∀ n ∈ r, Plain n)
    (hne : r ≠ []) {p : PathString} (h : div target.canonical p = expected d target r) :
    p.components = basename d ++ r := by
  have hall := List.forall_mem_append.mpr ⟨basename_plain hdots, hr⟩
  have hnames := congrArg components h
  rw [components_div, target.canonical_parts.1, expected_eq hall hne, components_text] at hnames
  · exact List.append_cancel_left hnames
  · exact fun n hn => (List.mem_append.mp hn).elim (target.names_plain n) (hall n)

/-- With a separator after the last name, that name is missing. -/
theorem has_filename_of_placed (hr : ∀ n ∈ r, Plain n) (hne : r ≠ [])
    (hliteral : Literal (text d.is_absolute d.parent_path.names)) {p : PathString}
    (hp : minus (child d r) d.parent_path = some p) (hcomponents : p.components = basename d ++ r) :
    ∀ n, d.components.getLast? = some n → Plain n → d.has_filename := by
  intro n hlast hn
  by_contra hno
  obtain ⟨hparent, hnames, hbase⟩ := names_separator hlast hn hno
  rw [hbase] at hcomponents
  rw [minus_child hr hne, ← hparent] at hp
  rw [← hparent] at hnames
  rcases front_or_shorter d.parent_path.names_plain hnames hr hne hliteral hp with hfront | hlt
  · have hrest := minus_front d.parent_path.names_plain hnames hr hne hfront
    rw [← Option.some.inj (hrest.symm.trans hp), components_text hr] at hcomponents
    have hlength := congrArg List.length hcomponents
    simp at hlength
  · rw [hcomponents, List.flatten_append, List.length_append] at hlt
    omega

/-- With a literal parent path nothing else goes to its own place. -/
theorem apart_of_placed (hdots : d.components.getLast? ≠ some ['.', '.']) (hr : ∀ n ∈ r, Plain n)
    (hne : r ≠ []) (hliteral : Literal d.parent_path.canonical) {p : PathString}
    (hp : minus (child d r) d.parent_path = some p) (h : div target.canonical p = expected d target r) :
    Apart d r := by
  have hcomponents := components_of_placed hdots hr hne h
  have hall := List.forall_mem_append.mpr ⟨basename_plain hdots, hr⟩
  rw [canonical_parent] at hliteral
  have hfile := has_filename_of_placed hr hne hliteral hp hcomponents
  refine ⟨hfile, ?_⟩
  by_cases hnil : d.parent_path.names = []
  · exact Or.inl hnil
  · right
    rw [minus_child hr hne, names_basename hdots hfile, List.append_assoc] at hp
    rw [canonical_parent]
    have hor := front_or_shorter d.parent_path.names_plain hnil hall (by simp [hne]) hliteral hp
    refine hor.resolve_right fun hlt => ?_
    rw [hcomponents] at hlt
    exact Nat.lt_irrefl _ hlt

end

/-! ## All files -/

section

variable {put_file : PathString → PathString → StatusCode} {disk : Disk} {d target : PathString}
  {files : List (List Name)}

theorem child_injective {r r' : List Name} (hr : ∀ n ∈ r, Plain n) (hr' : ∀ n ∈ r', Plain n)
    (h : child d r = child d r') : r = r' := by
  have hcomponents := congrArg components h
  rw [components_child hr, components_child hr'] at hcomponents
  exact List.append_cancel_left hcomponents

theorem expected_injective (hdots : d.components.getLast? ≠ some ['.', '.']) {r r' : List Name}
    (hr : r ≠ [] ∧ ∀ n ∈ r, Plain n) (hr' : r' ≠ [] ∧ ∀ n ∈ r', Plain n)
    (h : expected d target r = expected d target r') : r = r' := by
  have hall : ∀ s : List Name, (∀ n ∈ s, Plain n) → ∀ n ∈ target.names ++ (basename d ++ s), Plain n := by
    intro s hs
    have hbase := basename_plain hdots
    have htarget := target.names_plain
    simpa only [List.mem_append, or_imp, forall_and] using ⟨htarget, hbase, hs⟩
  have hbelow : ∀ s : List Name, (∀ n ∈ s, Plain n) → ∀ n ∈ basename d ++ s, Plain n := fun s hs n hn =>
    hall s hs n (List.mem_append_right _ hn)
  rw [expected_eq (hbelow r hr.2) hr.1, expected_eq (hbelow r' hr'.2) hr'.1] at h
  have hnames := congrArg components h
  rw [components_text (hall r hr.2), components_text (hall r' hr'.2)] at hnames
  exact List.append_cancel_left (List.append_cancel_left hnames)

/-- The loop puts what it reaches to its place. -/
theorem put_children_placed {children : List PathString}
    (hplaced : ∀ x ∈ children, disk.is_directory x = false → ∃ r ∈ files, x = child d r ∧
      ∃ p, minus x d.parent_path = some p ∧ div target.canonical p = expected d target r) :
    (∀ x ∈ (put_children put_file disk d target children).2, ∃ r ∈ files,
        x = ⟨child d r, expected d target r⟩) ∧
      ((put_children put_file disk d target children).1 = .returned .OK →
        ∀ x ∈ children, disk.is_directory x = false →
          ∃ r ∈ files, x = child d r ∧
            ⟨x, expected d target r⟩ ∈ (put_children put_file disk d target children).2) ∧
      (put_children put_file disk d target children).1 ≠ .threw := by
  induction children with
  | nil => simp [put_children]
  | cons x children ih =>
    obtain ⟨hx, hchildren⟩ := List.forall_mem_cons.mp hplaced
    obtain ⟨hmem, hcomplete, hanswered⟩ := ih hchildren
    rw [put_children]
    cases hdir : disk.is_directory x with
    | true =>
      rw [if_pos rfl]
      refine ⟨hmem, fun hok y hy hyfile => ?_, hanswered⟩
      rcases List.mem_cons.mp hy with rfl | hy
      · rw [hdir] at hyfile
        cases hyfile
      · exact hcomplete hok y hy hyfile
    | false =>
      obtain ⟨r, hr, hxr, p, hp, hplace⟩ := hx hdir
      rw [if_neg Bool.false_ne_true, hp]
      dsimp only
      rw [hplace]
      split
      · refine ⟨List.forall_mem_cons.mpr ⟨⟨r, hr, by rw [hxr]⟩, hmem⟩, fun hok y hy hyfile => ?_, hanswered⟩
        rcases List.mem_cons.mp hy with rfl | hy
        · exact ⟨r, hr, hxr, List.mem_cons_self⟩
        · obtain ⟨r', hr', hyr, hin⟩ := hcomplete hok y hy hyfile
          exact ⟨r', hr', hyr, List.mem_cons_of_mem _ hin⟩
      · rename_i hfail
        refine ⟨fun y hy => ?_, fun hok => ?_, by simp⟩
        · exact ⟨r, hr, by rw [List.mem_singleton.mp hy, hxr]⟩
        · exact absurd (Or.inl (Outcome.returned.inj hok)) hfail

/-- Without failures every file is put, unless an exception ends the loop. -/
theorem put_children_all (hsuccess : ∀ x y, is_successful (put_file x y)) {children : List PathString}
    (hanswered : (put_children put_file disk d target children).1 ≠ .threw) :
    ∀ x ∈ children, disk.is_directory x = false → ∃ p, minus x d.parent_path = some p ∧
      ⟨x, div target.canonical p⟩ ∈ (put_children put_file disk d target children).2 := by
  induction children with
  | nil => simp
  | cons y children ih =>
    intro x hx hfile
    rw [put_children] at hanswered ⊢
    cases hdir : disk.is_directory y with
    | true =>
      rw [hdir, if_pos rfl] at hanswered
      rw [if_pos rfl]
      rcases List.mem_cons.mp hx with rfl | hx
      · rw [hdir] at hfile
        cases hfile
      · exact ih hanswered x hx hfile
    | false =>
      rw [hdir, if_neg Bool.false_ne_true] at hanswered
      rw [if_neg Bool.false_ne_true]
      cases hminus : minus y d.parent_path with
      | none =>
        rw [hminus] at hanswered
        exact absurd rfl hanswered
      | some p =>
        rw [hminus] at hanswered
        dsimp only at hanswered ⊢
        rw [if_pos (hsuccess _ _)] at hanswered ⊢
        rcases List.mem_cons.mp hx with rfl | hx
        · exact ⟨p, hminus, List.mem_cons_self⟩
        · obtain ⟨p', hp', hin⟩ := ih hanswered x hx hfile
          exact ⟨p', hp', List.mem_cons_of_mem _ hin⟩

/-- A directory is put file by file to its own place where the parent path, read as a regular
expression, matches itself in the path of every file and nothing else. -/
theorem put_directory_iff (hholds : Holds disk d files) (hdots : d.components.getLast? ≠ some ['.', '.'])
    (is_directory : PathString → Option Bool) :
    ((∀ r ∈ files, Apart d r) → KeepsApart d target files (put put_file disk is_directory d target)) ∧
    (Literal d.parent_path.canonical → (∀ x y, is_successful (put_file x y)) →
      (KeepsApart d target files (put put_file disk is_directory d target) ↔ ∀ r ∈ files, Apart d r)) := by
  have hput : put put_file disk is_directory d target =
      put_children put_file disk d target (disk.recursive_contents d) := by
    rw [put, if_pos hholds.directory]
  have hsufficient : (∀ r ∈ files, Apart d r) →
      KeepsApart d target files (put put_file disk is_directory d target) := by
    intro hapart
    rw [hput]
    have hcontents : ∀ x ∈ disk.recursive_contents d, disk.is_directory x = false →
        ∃ r ∈ files, x = child d r ∧
        ∃ p, minus x d.parent_path = some p ∧ div target.canonical p = expected d target r := by
      intro x hx hfile
      obtain ⟨r, hr, rfl⟩ := (hholds.contents x).mp ⟨hx, hfile⟩
      obtain ⟨hne, hplain⟩ := hholds.named r hr
      exact ⟨r, hr, rfl, placed_of_apart hdots hplain hne (hapart r hr)⟩
    obtain ⟨hplaced, hcomplete, hanswered⟩ := put_children_placed hcontents
    refine ⟨hplaced, fun hok r hr => ?_, hanswered, fun x hx y hy htarget => ?_⟩
    · obtain ⟨hmem, hfile⟩ := (hholds.contents (child d r)).mpr ⟨r, hr, rfl⟩
      obtain ⟨r', hr', hchild, hin⟩ := hcomplete hok _ hmem hfile
      rwa [← child_injective (hholds.named r hr).2 (hholds.named r' hr').2 hchild] at hin
    · obtain ⟨r, hr, rfl⟩ := hplaced x hx
      obtain ⟨r', hr', rfl⟩ := hplaced y hy
      obtain rfl := expected_injective hdots (hholds.named r hr) (hholds.named r' hr') htarget
      rfl
  refine ⟨hsufficient, fun hliteral hsuccess => ⟨fun hkeeps r hr => ?_, hsufficient⟩⟩
  obtain ⟨hne, hplain⟩ := hholds.named r hr
  obtain ⟨hmem, hfile⟩ := (hholds.contents (child d r)).mpr ⟨r, hr, rfl⟩
  rw [hput] at hkeeps
  obtain ⟨p, hp, hin⟩ := put_children_all hsuccess hkeeps.answered _ hmem hfile
  obtain ⟨r', hr', heq⟩ := hkeeps.placed _ hin
  obtain ⟨hchild, htarget⟩ := Upload.mk.inj heq
  obtain rfl := child_injective hplain (hholds.named r' hr').2 hchild
  exact apart_of_placed hdots hplain hne hliteral hp htarget

end

/-! ## Two directories -/

/-- A directory with the directories and the files below it. -/
def local_tree (d : PathString) (dirs : List PathString) (files : List (List Name)) : Disk where
  is_directory p := (d :: dirs).any fun q => q = p
  recursive_contents _ := dirs ++ files.map (child d)

theorem local_tree_holds {d : PathString} {dirs : List PathString} {files : List (List Name)}
    (hfiles : ∀ r ∈ files, child d r ∉ d :: dirs) (hnamed : ∀ r ∈ files, r ≠ [] ∧ ∀ n ∈ r, Plain n) :
    Holds (local_tree d dirs files) d files where
  directory := List.any_eq_true.mpr ⟨d, List.mem_cons_self, decide_eq_true rfl⟩
  contents p := by
    have hdir : (local_tree d dirs files).is_directory p = false ↔ p ∉ d :: dirs := by
      rw [local_tree, List.any_eq_false]
      constructor
      · exact fun h hmem => h p hmem (decide_eq_true rfl)
      · rintro h q hq heq
        rw [of_decide_eq_true heq] at hq
        exact h hq
    rw [hdir, local_tree, List.mem_append, List.mem_map]
    constructor
    · rintro ⟨hmem | ⟨r, hr, rfl⟩, hno⟩
      · exact absurd (List.mem_cons_of_mem d hmem) hno
      · exact ⟨r, hr, rfl⟩
    · rintro ⟨r, hr, rfl⟩
      exact ⟨Or.inr ⟨r, hr, rfl⟩, hfiles r hr⟩
  named := hnamed

/-- `/s/b` with the file `x`. -/
theorem put_directory_iff_lone : KeepsApart ['/', 's', '/', 'b'] ['/', 't'] [[['x']]]
    (put (fun _ _ => .OK) (local_tree ['/', 's', '/', 'b'] [] [[['x']]]) (fun _ => none) ['/', 's', '/', 'b']
      ['/', 't']) := by
  refine (put_directory_iff (local_tree_holds (by decide) (by decide)) (by decide) _).1 fun r hr => ?_
  have hfront : AtFront ['/', 's'] ['b', '/', 'x'] :=
    (atFront_literal (by decide) (by decide)).mpr (by decide)
  rw [List.mem_singleton.mp hr]
  exact ⟨fun _ _ _ => by decide, Or.inr hfront⟩

/-- Of `/a/b` the files `a/x` and `x` both go to `/b/x`. -/
theorem put_directory_collision :
    Holds (local_tree ['/', 'a', '/', 'b'] [['/', 'a', '/', 'b', '/', 'a']] [[['a'], ['x']], [['x']]])
      ['/', 'a', '/', 'b'] [[['a'], ['x']], [['x']]] ∧
    ¬ KeepsApart ['/', 'a', '/', 'b'] ['/'] [[['a'], ['x']], [['x']]]
      (put (fun _ _ => .OK)
        (local_tree ['/', 'a', '/', 'b'] [['/', 'a', '/', 'b', '/', 'a']] [[['a'], ['x']], [['x']]])
        (fun _ => none) ['/', 'a', '/', 'b'] ['/']) := by
  refine ⟨local_tree_holds (by decide) (by decide), fun h => ?_⟩
  have hresult : put (fun _ _ => .OK)
      (local_tree ['/', 'a', '/', 'b'] [['/', 'a', '/', 'b', '/', 'a']] [[['a'], ['x']], [['x']]])
      (fun _ => none) ['/', 'a', '/', 'b'] ['/'] = (.returned .OK,
        [⟨['/', 'a', '/', 'b', '/', 'a', '/', 'x'], ['/', 'b', '/', 'x']⟩,
          ⟨['/', 'a', '/', 'b', '/', 'x'], ['/', 'b', '/', 'x']⟩]) := by decide
  rw [hresult] at h
  exact absurd (h.apart _ List.mem_cons_self _ (List.mem_cons_of_mem _ List.mem_cons_self) rfl) (by decide)

end Facade

end Fs

end Chord
