import Chord.Path

/-!
# What `canonical` makes of a path

It is absolute or not, has the names that are left, and may end with a separator.
-/

namespace Chord

namespace PathString

def Plain (n : List Char) : Prop := n ≠ [] ∧ '/' ∉ n ∧ n ≠ ['.'] ∧ n ≠ ['.', '.']

/-- A path of names. -/
def text (absolute : Bool) (names : List (List Char)) : PathString :=
  match absolute with
  | true => if names = [] then ['/'] else names.flatMap fun n => '/' :: n
  | false => (names.flatMap fun n => '/' :: n).tail

def names_step (names : List (List Char)) (n : List Char) : List (List Char) :=
  if n = ['.', '.'] then names.dropLast else if n = ['.'] then names else names ++ [n]

/-- The names that are left. -/
def names (p : PathString) : List (List Char) := p.components.foldl names_step []

/-- A separator after the last name. -/
def trailing (p : PathString) : Prop := p.components ≠ [] ∧ ¬ p.has_filename

instance (p : PathString) : Decidable p.trailing := inferInstanceAs (Decidable (_ ∧ _))

/-- The root, or nothing. -/
def root (p : PathString) : List (List Char) := if p.is_absolute then [['/']] else []

theorem elements_eq (p : PathString) :
    p.elements = p.root ++ p.components ++ if p.trailing then [[]] else [] := rfl

/-! ## Components -/

theorem slash_not_mem_splitOnP {n p : List Char} (hn : n ∈ p.splitOnP (· = '/')) : '/' ∉ n := by
  induction p generalizing n with
  | nil =>
    rw [List.splitOnP_nil, List.mem_singleton] at hn
    rw [hn]
    exact List.not_mem_nil
  | cons d p ih =>
    rw [List.splitOnP_cons_eq_if_modifyHead] at hn
    split at hn
    · rcases List.mem_cons.mp hn with rfl | hn
      · exact List.not_mem_nil
      · exact ih hn
    · rename_i hd
      cases hs : p.splitOnP (· = '/') with
      | nil => simp [hs] at hn
      | cons m l =>
        rw [hs, List.modifyHead_cons] at hn
        rcases List.mem_cons.mp hn with rfl | hn
        · rw [List.mem_cons, not_or]
          exact ⟨fun heq => hd (by simp [← heq]), ih (by rw [hs]; exact List.mem_cons_self)⟩
        · exact ih (by rw [hs]; exact List.mem_cons_of_mem m hn)

theorem mem_components {n p : PathString} (h : n ∈ p.components) : n ≠ [] ∧ '/' ∉ n := by
  obtain ⟨hmem, hne⟩ := List.mem_filter.mp h
  exact ⟨by simpa using hne, slash_not_mem_splitOnP hmem⟩

theorem components_append (p q : PathString) : components (p ++ '/' :: q) = p.components ++ q.components := by
  rw [components, List.splitOnP_append_cons _ _ (by simp), List.filter_append]
  rfl

theorem components_name {n : List Char} (hne : n ≠ []) (hslash : '/' ∉ n) : components n = [n] := by
  have hfree : ∀ c ∈ n, decide (c = '/') = false := by
    rintro c hc
    rw [decide_eq_false_iff_not]
    rintro rfl
    exact hslash hc
  rw [components, List.splitOnP_eq_singleton hfree, List.filter_cons_of_pos (by simpa using hne),
    List.filter_nil]

theorem is_absolute_append {p : PathString} (h : p ≠ []) (q : PathString) :
    is_absolute (p ++ q) ↔ p.is_absolute := by
  cases p with
  | nil => exact absurd rfl h
  | cons c p => rfl

/-! ## Paths of plain names -/

section

variable {l : List (List Char)} {n : List Char} {a : Bool}

theorem text_nil (a : Bool) : text a [] = if a then ['/'] else [] := by
  cases a <;> rfl

/-- A name after others. -/
theorem text_concat (a : Bool) (l : List (List Char)) (n : List Char) :
    text a (l ++ [n]) = (if l = [] then text a [] else text a l ++ ['/']) ++ n := by
  cases a with
  | true =>
    cases l with
    | nil => simp [text]
    | cons m l => simp [text]
  | false =>
    cases l with
    | nil => simp [text]
    | cons m l => simp [text]

theorem components_text (hl : ∀ m ∈ l, Plain m) : components (text a l) = l := by
  induction l using List.reverseRecOn with
  | nil => cases a <;> rfl
  | append_singleton l n ih =>
    have hn := hl n (by simp)
    have hcomponents := components_name hn.1 hn.2.1
    rw [text_concat]
    by_cases hnil : l = []
    · rw [if_pos hnil, hnil]
      cases a
      · exact hcomponents
      · exact (components_append [] n).trans (by rw [hcomponents]; rfl)
    · rw [if_neg hnil, List.append_assoc, List.singleton_append, components_append, hcomponents,
        ih fun m hm => hl m (List.mem_append_left _ hm)]

theorem text_last (hn : Plain n) : (text a (l ++ [n])).getLast? ≠ some '/' := by
  rcases List.eq_nil_or_concat n with hnil | ⟨k, c, hk⟩
  · exact absurd hnil hn.1
  · rw [text_concat, hk, List.concat_eq_append, ← List.append_assoc, List.getLast?_concat]
    rintro ⟨⟩
    exact hn.2.1 (by simp [hk])

theorem has_filename_text (hl : ∀ m ∈ l, Plain m) : has_filename (text a l) ↔ l ≠ [] := by
  rcases List.eq_nil_or_concat l with rfl | ⟨k, n, hk⟩
  · cases a <;> simp [text, has_filename]
  · rw [List.concat_eq_append] at hk
    rw [hk] at hl ⊢
    have hn := hl n (by simp)
    refine iff_of_true ⟨?_, text_last hn⟩ (by simp)
    rw [text_concat]
    simp [hn.1]

theorem is_absolute_text (hl : ∀ m ∈ l, Plain m) : is_absolute (text a l) ↔ a = true := by
  cases a with
  | true =>
    cases l with
    | nil => simp [text, is_absolute]
    | cons m l => simp [text, is_absolute]
  | false =>
    cases l with
    | nil => simp [text, is_absolute]
    | cons m l =>
      obtain ⟨hne, hslash, -⟩ := hl m List.mem_cons_self
      cases m with
      | nil => exact absurd rfl hne
      | cons c m =>
        have hc : c ≠ '/' := fun heq => hslash (by rw [heq]; exact List.mem_cons_self)
        simp [text, is_absolute, hc]

theorem append_text (hl : ∀ m ∈ l, Plain m) (hn : Plain n) : append (text a l) n = text a (l ++ [n]) := by
  have hrelative : ¬ is_absolute n := fun h => hn.2.1 (List.mem_of_mem_head? h)
  rw [append, if_neg hrelative, if_congr (has_filename_text hl) rfl rfl, text_concat]
  by_cases hnil : l = []
  · rw [if_neg (not_not_intro hnil), if_pos hnil, hnil]
  · rw [if_pos hnil, if_neg hnil, List.append_assoc, List.singleton_append]

/-- Back to the separator before the last name, and over it. -/
theorem parent_path_name {x n : List Char} (hx : x ≠ [] ∧ x.getLast? ≠ some '/') (hslash : '/' ∉ n) :
    (((x ++ '/' :: n).reverse.dropWhile (· ≠ '/')).dropWhile (· = '/')).reverse = x := by
  have hfree : ∀ c ∈ n.reverse, (decide (c ≠ '/')) = true := by
    intro c hc
    rw [decide_eq_true_eq]
    rintro rfl
    exact hslash (List.mem_reverse.mp hc)
  obtain ⟨y, c, rfl⟩ : ∃ y c, x = y ++ [c] := by
    rcases List.eq_nil_or_concat x with hnil | ⟨y, c, hy⟩
    · exact absurd hnil hx.1
    · exact ⟨y, c, by rw [hy, List.concat_eq_append]⟩
  have hc : c ≠ '/' := by simpa using hx.2
  rw [List.reverse_append, List.reverse_cons, List.append_assoc, List.dropWhile_append_of_pos hfree]
  simp [hc]

theorem plain_concat (hl : ∀ m ∈ l, Plain m) (hn : Plain n) : ∀ m ∈ l ++ [n], Plain m :=
  List.forall_mem_append.mpr ⟨hl, List.forall_mem_singleton.mpr hn⟩

theorem parent_path_text (hl : ∀ m ∈ l, Plain m) (hn : Plain n) :
    parent_path (text a (l ++ [n])) = text a l := by
  have hcomponents : components (text a (l ++ [n])) ≠ [] := by
    rw [components_text (plain_concat hl hn)]
    simp
  rw [parent_path, if_neg hcomponents,
    if_congr (and_congr_right fun _ => is_absolute_text (plain_concat hl hn)) rfl rfl, text_concat]
  by_cases hnil : l = []
  · have hfree : ∀ c ∈ n.reverse, (decide (c ≠ '/')) = true := by
      intro c hc
      rw [decide_eq_true_eq]
      rintro rfl
      exact hn.2.1 (List.mem_reverse.mp hc)
    rw [if_pos hnil, hnil, text_nil, List.reverse_append, List.dropWhile_append_of_pos hfree]
    cases a <;> simp
  · have hbase := parent_path_name ((has_filename_text (a := a) hl).mpr hnil) hn.2.1
    have hne : text a l ≠ [] := ((has_filename_text hl).mpr hnil).1
    rw [if_neg hnil, List.append_assoc, List.singleton_append, hbase, if_neg fun h => hne h.1]

theorem dropLast_plain (hl : ∀ m ∈ l, Plain m) : ∀ m ∈ l.dropLast, Plain m :=
  fun m hm => hl m ((List.dropLast_sublist l).subset hm)

/-- One turn of the loop, on names. -/
theorem canonical_step_text (hl : ∀ m ∈ l, Plain m) (hn : n ≠ [] ∧ '/' ∉ n) :
    canonical_step (text a l) n = text a (names_step l n) ∧ ∀ m ∈ names_step l n, Plain m := by
  unfold canonical_step names_step
  split_ifs with hdot_dot hdot hroot
  · refine ⟨?_, dropLast_plain hl⟩
    rcases List.eq_nil_or_concat l with rfl | ⟨k, m, rfl⟩
    · cases a <;> rfl
    · rw [List.concat_eq_append] at hl ⊢
      rw [parent_path_text (fun x hx => hl x (List.mem_append_left _ hx)) (hl m (by simp)),
        List.dropLast_concat]
  · exact ⟨rfl, hl⟩
  · exact absurd (by rw [hroot.1]; exact List.mem_cons_self) hn.2
  · have hplain : Plain n := ⟨hn.1, hn.2, hdot, hdot_dot⟩
    exact ⟨append_text hl hplain, plain_concat hl hplain⟩

theorem canonical_fold {ns : List (List Char)} (hl : ∀ m ∈ l, Plain m) (hns : ∀ n ∈ ns, n ≠ [] ∧ '/' ∉ n) :
    ns.foldl canonical_step (text a l) = text a (ns.foldl names_step l) ∧
      ∀ m ∈ ns.foldl names_step l, Plain m := by
  induction ns generalizing l with
  | nil => exact ⟨rfl, hl⟩
  | cons n ns ih =>
    obtain ⟨hn, hns⟩ := List.forall_mem_cons.mp hns
    obtain ⟨hstep, hplain⟩ := canonical_step_text (a := a) hl hn
    rw [List.foldl_cons, List.foldl_cons, hstep]
    exact ih hplain hns

end

/-! ## The canonical path -/

theorem names_plain (p : PathString) : ∀ n ∈ p.names, Plain n :=
  (canonical_fold (a := true) (l := []) (by simp) fun _ hn => mem_components hn).2

theorem canonical_eq (p : PathString) : p.canonical =
    text p.is_absolute p.names ++ if p.names ≠ [] ∧ p.trailing then ['/'] else [] := by
  have hroot : p.root.foldl canonical_step [] = text p.is_absolute [] := by
    unfold root
    by_cases habs : p.is_absolute
    · rw [if_pos habs, decide_eq_true habs]
      rfl
    · rw [if_neg habs, decide_eq_false habs]
      rfl
  have hnames : p.components.foldl canonical_step (text p.is_absolute []) = text p.is_absolute p.names :=
    (canonical_fold (by simp) fun _ hn => mem_components hn).1
  rw [canonical, elements_eq, List.foldl_append, List.foldl_append, hroot, hnames]
  by_cases htrailing : p.trailing
  · rw [if_pos htrailing, List.foldl_cons, List.foldl_nil, canonical_step, if_neg (by simp), if_neg (by simp),
      if_neg (by simp), append, if_neg (by simp [is_absolute]),
        if_congr (has_filename_text p.names_plain) rfl rfl]
    by_cases hnil : p.names = []
    · rw [if_neg (not_not_intro hnil), if_neg fun h => h.1 hnil]
    · rw [if_pos hnil, if_pos ⟨hnil, htrailing⟩]
  · rw [if_neg htrailing, if_neg fun h => htrailing h.2, List.foldl_nil, List.append_nil]

/-- The names and the separator after them. -/
theorem canonical_parts (p : PathString) : p.canonical.components = p.names ∧
    (p.canonical.is_absolute ↔ p.is_absolute) ∧ (p.canonical.trailing ↔ p.names ≠ [] ∧ p.trailing) := by
  have hcomponents : components (text p.is_absolute p.names) = p.names := components_text p.names_plain
  have habsolute : is_absolute (text p.is_absolute p.names) ↔ p.is_absolute := by
    rw [is_absolute_text p.names_plain, decide_eq_true_eq]
  rw [canonical_eq]
  by_cases h : p.names ≠ [] ∧ p.trailing
  · have hfile := (has_filename_text (a := p.is_absolute) p.names_plain).mpr h.1
    have hall : components (text p.is_absolute p.names ++ ['/']) = p.names := by
      rw [components_append, hcomponents]
      exact List.append_nil _
    rw [if_pos h, trailing, hall]
    refine ⟨rfl, ?_, iff_of_true ⟨h.1, fun hno => hno.2 List.getLast?_concat⟩ h⟩
    exact (is_absolute_append hfile.1 _).trans habsolute
  · rw [if_neg h, List.append_nil, trailing, hcomponents, has_filename_text p.names_plain]
    exact ⟨rfl, habsolute, by tauto⟩

theorem names_of_plain {ns : List (List Char)} (h : ∀ n ∈ ns, Plain n) : ns.foldl names_step [] = ns := by
  induction ns using List.reverseRecOn with
  | nil => rfl
  | append_singleton ns n ih =>
    obtain ⟨-, -, hdot, hdot_dot⟩ := h n (by simp)
    rw [List.foldl_append, ih fun m hm => h m (List.mem_append_left _ hm), List.foldl_cons, List.foldl_nil,
      names_step,
      if_neg hdot_dot, if_neg hdot]

theorem canonical_canonical (p : PathString) : p.canonical.canonical = p.canonical := by
  obtain ⟨hcomponents, habsolute, htrailing⟩ := p.canonical_parts
  have hnames : p.canonical.names = p.names := by
    rw [names, hcomponents, names_of_plain p.names_plain]
  rw [canonical_eq p.canonical, hnames, decide_eq_decide.mpr habsolute, canonical_eq p]
  congr 1
  exact if_congr (by rw [← canonical_eq, htrailing]; tauto) rfl rfl

end PathString

end Chord
