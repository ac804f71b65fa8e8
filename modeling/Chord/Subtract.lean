import Chord.DataPath
import Chord.Lib.Ecma
import Mathlib.Data.List.Chain
import Mathlib.Data.List.Flatten

/-!
# Subtraction of paths (`chord.path.cc`)

The path on the right is read as a regular expression, and its matches are taken out of the text
of the path on the left.
-/

namespace Chord

namespace PathString

open Ecma

/-- `operator-`; nothing where `std::regex` throws. -/
def minus (p q : PathString) : Option PathString :=
  let can_rop := q.canonical
  let can_lop := p.canonical
  if can_rop = [] ∨ can_rop = ['/'] then some can_lop
  else (parse can_rop).map fun pattern => canonical (remove pattern can_lop)

theorem minus_canonical {p q r : PathString} (h : minus p q = some r) : r.canonical = r := by
  rw [minus] at h
  split at h
  · rw [← Option.some.inj h]
    exact canonical_canonical p
  · obtain ⟨pattern, -, rfl⟩ := Option.map_eq_some_iff.mp h
    exact canonical_canonical _

/-! ## The letters and the separators of a text -/

def letters (p : PathString) : Nat := p.countP (· ≠ '/')

def slashes (p : PathString) : Nat := p.count '/'

theorem letters_append (p q : PathString) : letters (p ++ q) = letters p + letters q := List.countP_append

theorem slashes_append (p q : PathString) : slashes (p ++ q) = slashes p + slashes q := List.count_append

theorem letters_add_slashes (p : PathString) : letters p + slashes p = p.length := by
  induction p with
  | nil => rfl
  | cons c p ih =>
    rw [letters, slashes] at ih ⊢
    by_cases hc : c = '/'
    · rw [hc, List.countP_cons_of_neg (by simp), List.count_cons_self, List.length_cons]
      omega
    · rw [List.countP_cons_of_pos (by simpa using hc), List.count_cons_of_ne (Ne.symm (Ne.symm hc)),
        List.length_cons]
      omega

theorem letters_sublist {p q : PathString} (h : p.Sublist q) : letters p ≤ letters q := h.countP_le

theorem letters_name {n : List Char} (h : '/' ∉ n) : letters n = n.length := by
  rw [letters, List.countP_eq_length]
  intro c hc
  rw [decide_eq_true_eq]
  rintro rfl
  exact h hc

/-- The letters are those of the names. -/
theorem letters_components (p : PathString) : p.components.flatten.length = letters p := by
  have hfilter : ∀ l : List (List Char), (l.filter (· ≠ [])).flatten = l.flatten := by
    intro l
    induction l with
    | nil => rfl
    | cons n l ih =>
      cases n with
      | nil => rw [List.filter_cons_of_neg (by simp), ih, List.flatten_cons, List.nil_append]
      | cons c n => rw [List.filter_cons_of_pos (by simp), List.flatten_cons, ih, List.flatten_cons]
  rw [components, hfilter]
  induction p with
  | nil => rfl
  | cons c p ih =>
    rw [letters] at ih ⊢
    rw [List.splitOnP_cons_eq_if_modifyHead]
    by_cases hc : c = '/'
    · rw [if_pos (by simpa using hc), List.flatten_cons, List.nil_append, ih,
        List.countP_cons_of_neg (by simpa using hc)]
    · rw [if_neg (by simpa using hc), List.countP_cons_of_pos (by simpa using hc), ← ih]
      cases hs : p.splitOnP (· = '/') with
      | nil => exact absurd hs (List.splitOnP_ne_nil _ _)
      | cons n l => simp

theorem length_components_le (p : PathString) : p.components.length ≤ slashes p + 1 := by
  have hsplit : (p.splitOnP (· = '/')).length = slashes p + 1 := by
    induction p with
    | nil => rfl
    | cons c p ih =>
      rw [List.splitOnP_cons_eq_if_modifyHead, slashes]
      rw [slashes] at ih
      by_cases hc : c = '/'
      · rw [if_pos (by simpa using hc), List.length_cons, ih, hc, List.count_cons_self]
      · rw [if_neg (by simpa using hc), List.length_modifyHead, ih, List.count_cons_of_ne hc]
  exact hsplit ▸ List.length_filter_le _ _

/-- The root is a separator before all names. -/
theorem length_components_absolute {p : PathString} (h : p.is_absolute) :
    p.components.length ≤ slashes p := by
  cases p with
  | nil => cases h
  | cons c p =>
    have hc : c = '/' := by simpa [is_absolute] using h
    rw [hc, components_cons_slash, slashes, List.count_cons_self]
    exact length_components_le p

/-- A canonical path has no names of its own. -/
theorem names_sublist (p : PathString) : p.names.Sublist p.components := by
  rw [names]
  induction p.components using List.reverseRecOn with
  | nil => exact List.Sublist.refl _
  | append_singleton l n ih =>
    rw [List.foldl_append, List.foldl_cons, List.foldl_nil, names_step]
    split_ifs
    · exact ((List.dropLast_sublist _).trans ih).trans (List.sublist_append_left l [n])
    · exact ih.trans (List.sublist_append_left l [n])
    · exact ih.append (List.Sublist.refl _)

theorem letters_names (p : PathString) : p.names.flatten.length ≤ letters p := by
  rw [← letters_components]
  exact p.names_sublist.flatten.length_le

/-! ## Canonical texts -/

/-- A separator at the end, or none. -/
def ending (b : Bool) : PathString := if b then ['/'] else []

theorem append_ending_false (p : PathString) : p ++ ending false = p := List.append_nil p

section

variable {a b : Bool} {l m : List (List Char)} {n : List Char}

/-- Names after others. -/
theorem text_append (hl : l ≠ []) (hm : m ≠ []) : text a (l ++ m) = text a l ++ text true m := by
  obtain ⟨n, l, rfl⟩ := List.exists_cons_of_ne_nil hl
  cases a with
  | true => simp [text, hm]
  | false => simp [text, hm]

theorem text_true_eq (hm : m ≠ []) : text true m = '/' :: text false m := by
  obtain ⟨n, m, rfl⟩ := List.exists_cons_of_ne_nil hm
  simp [text]

theorem has_filename_text_ending (hl : ∀ n ∈ l, Plain n) (hne : l ≠ []) :
    has_filename (text a l ++ ending b) ↔ b = false := by
  cases b with
  | true => simp [ending, has_filename]
  | false =>
    rw [ending, if_neg (by simp), List.append_nil, has_filename_text hl]
    exact iff_of_true hne rfl

theorem components_text_ending (hl : ∀ n ∈ l, Plain n) : components (text a l ++ ending b) = l := by
  cases b with
  | true =>
    rw [ending, if_pos rfl, components_append, components_text hl]
    exact List.append_nil l
  | false => rw [ending, if_neg (by simp), List.append_nil, components_text hl]

theorem is_absolute_text_ending (hl : ∀ n ∈ l, Plain n) (hne : l ≠ []) :
    is_absolute (text a l ++ ending b) ↔ a = true := by
  rw [is_absolute_append ((has_filename_text hl).mpr hne).1, is_absolute_text hl]

theorem trailing_text_ending (hl : ∀ n ∈ l, Plain n) (hne : l ≠ []) :
    trailing (text a l ++ ending b) ↔ b = true := by
  rw [trailing, components_text_ending hl, has_filename_text_ending hl hne]
  simp [hne]

/-- Such a text is canonical. -/
theorem canonical_text_ending (hl : ∀ n ∈ l, Plain n) (hne : l ≠ []) :
    canonical (text a l ++ ending b) = text a l ++ ending b := by
  have habsolute : decide (is_absolute (text a l ++ ending b)) = a := by
    rw [Bool.eq_iff_iff, decide_eq_true_iff]
    exact is_absolute_text_ending hl hne
  rw [canonical_eq, names, components_text_ending hl, names_of_plain hl, habsolute,
    if_congr (and_iff_right hne) rfl rfl, if_congr (trailing_text_ending hl hne) rfl rfl]
  rfl

/-- Plain names alone, or the root. -/
theorem canonical_text (hl : ∀ n ∈ l, Plain n) : canonical (text a l) = text a l := by
  by_cases hne : l = []
  · rw [hne]
    cases a <;> decide
  · have htext := canonical_text_ending (a := a) (b := false) hl hne
    rwa [append_ending_false] at htext

theorem not_absolute_text (hl : ∀ n ∈ l, Plain n) : ¬ is_absolute (text false l) := by
  rw [is_absolute_text hl]
  exact Bool.false_ne_true

theorem has_filename_append_text (hl : ∀ n ∈ l, Plain n) (hne : l ≠ []) (p : PathString) :
    has_filename (append p (text false l)) := by
  obtain ⟨hempty, hlast⟩ := (has_filename_text (a := false) hl).mpr hne
  obtain ⟨x, hx⟩ : ∃ x, append p (text false l) = x ++ text false l := by
    rw [append, if_neg (not_absolute_text hl)]
    split
    · exact ⟨p ++ ['/'], by simp⟩
    · exact ⟨p, rfl⟩
  rw [hx]
  exact ⟨by simp [hempty], by rwa [List.getLast?_append_of_ne_nil _ hempty]⟩

/-- Every canonical path has this form. -/
theorem exists_text (p : PathString) (hempty : p.canonical ≠ []) (hroot : p.canonical ≠ ['/']) :
    ∃ (a b : Bool) (l : List (List Char)), (∀ n ∈ l, Plain n) ∧ l ≠ [] ∧
      p.canonical = text a l ++ ending b := by
  have hne : p.names ≠ [] := by
    intro hnil
    rw [canonical_eq, hnil, if_neg (fun h => h.1 rfl), List.append_nil, text_nil] at hempty hroot
    split at hempty
    · rename_i h
      exact hroot (if_pos h)
    · exact hempty rfl
  refine ⟨p.is_absolute, p.trailing, p.names, p.names_plain, hne, ?_⟩
  rw [canonical_eq, if_congr (and_iff_right hne) rfl rfl, ending]
  exact congrArg _ (if_congr decide_eq_true_iff.symm rfl rfl)

/-! ## Nothing between two separators -/

/-- No separator after another one. -/
def Single (p : PathString) : Prop := p.IsChain fun c d => ¬ (c = '/' ∧ d = '/')

theorem single_name (hn : Plain n) {p : PathString} (hp : Single p) : Single ('/' :: (n ++ p)) := by
  rw [Single] at hp ⊢
  have hname : ∀ c ∈ n, c ≠ '/' := by
    rintro c hc rfl
    exact hn.2.1 hc
  have hchain : ∀ k : List Char, (∀ c ∈ k, c ≠ '/') → (k ++ p).IsChain fun c d => ¬ (c = '/' ∧ d = '/') := by
    intro k
    induction k with
    | nil => exact fun _ => hp
    | cons c k ih =>
      intro hk
      rw [List.cons_append]
      refine (ih fun d hd => hk d (List.mem_cons_of_mem c hd)).cons ?_
      exact fun _ _ h => hk c List.mem_cons_self h.1
  refine (hchain n hname).cons fun d hd h => ?_
  obtain ⟨c, n', rfl⟩ := List.exists_cons_of_ne_nil hn.1
  rw [List.cons_append, List.head?_cons, Option.mem_some_iff] at hd
  exact hname c List.mem_cons_self (hd.trans h.2)

theorem single_text (hl : ∀ n ∈ l, Plain n) (hne : l ≠ []) : Single (text true l ++ ending b) := by
  have hflat : Single ((l.flatMap fun n => '/' :: n) ++ ending b) := by
    clear hne
    induction l with
    | nil =>
      rw [List.flatMap_nil, List.nil_append, Single, ending]
      split
      · exact List.IsChain.singleton _
      · exact List.IsChain.nil
    | cons n l ih =>
      obtain ⟨hn, hl⟩ := List.forall_mem_cons.mp hl
      rw [List.flatMap_cons, List.cons_append, List.cons_append, List.append_assoc]
      exact single_name hn (ih hl)
  rw [text, if_neg hne]
  exact hflat

end

/-- A literal text with a name in it does not fit separators alone. -/
theorem letters_pos_of_fits {l : List (List Char)} {a b : Bool} {u seg v : PathString} (hl : ∀ n ∈ l, Plain n)
    (hne : l ≠ []) (hfits : fits (text a l ++ ending b) seg)
    (hlength : seg.length = (text a l ++ ending b).length) (hsingle : Single (u ++ (seg ++ v))) :
    0 < letters seg := by
  have hseg : Single seg := hsingle.right_of_append.left_of_append
  match seg, hseg, hfits, hlength with
  | [], _, _, hlength =>
    have hnil := List.eq_nil_of_length_eq_zero hlength.symm
    exact absurd (List.append_eq_nil_iff.mp hnil).1 ((has_filename_text hl).mpr hne).1
  | [c], _, hfits, hlength =>
    -- the text is a name of one character, and that is not a dot
    obtain ⟨n, l, rfl⟩ := List.exists_cons_of_ne_nil hne
    obtain ⟨hnil, hslash, hdot, -⟩ := hl n List.mem_cons_self
    have hcomponents := components_text_ending (a := a) (b := b) hl
    have hletters := letters_components (text a (n :: l) ++ ending b)
    have hsum := letters_add_slashes (text a (n :: l) ++ ending b)
    rw [hcomponents, List.flatten_cons, List.length_append] at hletters
    rw [List.length_singleton] at hlength
    have hpos := List.length_pos_iff.mpr hnil
    obtain ⟨d, rfl⟩ := List.length_eq_one_iff.mp (by omega : n.length = 1)
    have hmem : [d] ∈ components (text a ([d] :: l) ++ ending b) := by
      rw [hcomponents]
      exact List.mem_cons_self
    have hd := mem_splitOnP (List.mem_filter.mp hmem).1 (List.mem_singleton_self d)
    have hcd := fits_mem hfits (by rw [← hlength]; rfl) hd fun heq => hdot (by rw [heq])
    have hne' : d ≠ '/' := fun heq => hslash (by rw [heq]; exact List.mem_cons_self)
    rw [← List.mem_singleton.mp hcd, letters, List.countP_cons_of_pos (by simpa using hne')]
    exact Nat.succ_pos _
  | c :: d :: seg, hseg, _, _ =>
    rw [Single, List.isChain_cons_cons] at hseg
    rw [letters, List.countP_pos_iff]
    by_cases hc : c = '/'
    · exact ⟨d, by simp, by simpa using fun hd => hseg.1 ⟨hc, hd⟩⟩
    · exact ⟨c, by simp, by simpa using hc⟩

/-! ## A base before a relative path -/

/-- What comes after the base in `operator/`. -/
def rest (base relative : PathString) : PathString :=
  if base.has_filename then '/' :: relative else relative

/-- The base, read as a regular expression, matches itself at the beginning of `base / relative`
and nothing after that. -/
def AtFront (base relative : PathString) : Prop :=
  ∃ pattern, parse base = some pattern ∧
    (∃ t, (run pattern ⟨[], base ++ rest base relative, []⟩).head? = some t ∧ t.rest = rest base relative) ∧
    Silent pattern base.reverse (rest base relative)

/-- Taking the base away and putting it back. -/
def Inverts (base relative : PathString) : Prop :=
  ∃ p, minus (div base relative) base = some p ∧ (div base p).elements = (div base relative).elements

theorem atFront_literal {base relative : PathString} (hbase : Literal base) (hne : base ≠ []) :
    AtFront base relative ↔ occurs base (rest base relative) = false := by
  have hfits : fits base (base ++ rest base relative) := by
    rw [fits_append (Nat.le_refl _)]
    exact fits_self base
  rw [AtFront, parse_literal hbase]
  constructor
  · rintro ⟨pattern, hpattern, -, hsilent⟩
    rw [← Option.some.inj hpattern, silent_literal hne] at hsilent
    exact hsilent
  · intro h
    let t := Place.advance ⟨[], base ++ rest base relative, []⟩ base.length
    refine ⟨literal base, rfl, ⟨t, ?_, ?_⟩, (silent_literal hne).mpr h⟩
    · rw [run_literal, if_pos hfits, List.head?_cons]
    · exact List.drop_left

section

variable {a a' b c : Bool} {l m : List (List Char)}

theorem relative_path_text (hm : ∀ n ∈ m, Plain n) (hm' : m ≠ []) :
    relative_path (text a m ++ ending c) = text false m ++ ending c := by
  have hfalse : relative_path (text false m ++ ending c) = text false m ++ ending c := by
    have habs : ¬ is_absolute (text false m ++ ending c) := by simp [is_absolute_text_ending hm hm']
    unfold relative_path
    cases hp : text false m ++ ending c with
    | nil => rfl
    | cons d p =>
      rw [hp] at habs
      exact List.dropWhile_cons_of_neg (by simpa [is_absolute] using habs)
  cases a with
  | false => exact hfalse
  | true =>
    rw [text_true_eq hm', List.cons_append, relative_path, List.dropWhile_cons_of_pos (by simp)]
    exact hfalse

/-- The text of a base and a relative path. -/
theorem text_append_rest (hl : ∀ n ∈ l, Plain n) (hne : l ≠ []) (hm' : m ≠ []) : text a (l ++ m) ++ ending c =
    text a l ++ ending b ++ rest (text a l ++ ending b) (text false m ++ ending c) := by
  rw [rest, if_congr (has_filename_text_ending hl hne) rfl rfl, text_append hne hm', text_true_eq hm']
  cases b <;> simp [ending]

theorem div_text (hl : ∀ n ∈ l, Plain n) (hne : l ≠ []) (hm : ∀ n ∈ m, Plain n) (hm' : m ≠ []) :
    div (text a l ++ ending b) (text a' m ++ ending c) = text a (l ++ m) ++ ending c := by
  have habs : ¬ is_absolute (text false m ++ ending c) := by simp [is_absolute_text_ending hm hm']
  rw [text_append_rest (b := b) hl hne hm', div, relative_path_text hm hm', append, if_neg habs, rest]
  split <;> rfl

/-- A relative path after any canonical one. -/
theorem div_canonical {p : PathString} (hp : p.canonical = p) (hm : ∀ n ∈ m, Plain n) (hm' : m ≠ []) :
    div p (text a m ++ ending c) = text p.is_absolute (p.components ++ m) ++ ending c := by
  by_cases hnil : p.components = []
  · have hnames : p.names = [] := by rw [names, hnil, List.foldl_nil]
    have hroot : p = text p.is_absolute [] := by
      conv_lhs => rw [← hp, canonical_eq, hnames, if_neg (fun h => h.1 rfl), List.append_nil]
    have habs : ¬ is_absolute (text false m ++ ending c) := by simp [is_absolute_text_ending hm hm']
    rw [hnil, List.nil_append, div, relative_path_text hm hm', append, if_neg habs, hroot]
    cases decide p.is_absolute with
    | true =>
      rw [if_neg (by decide), text_nil, if_pos rfl, decide_eq_true (by decide), text_true_eq hm',
        List.cons_append]
      rfl
    | false =>
      rw [if_neg (by decide), text_nil, decide_eq_false (by decide)]
      rfl
  · have hne : p.canonical ≠ [] ∧ p.canonical ≠ ['/'] := by
      rw [hp]
      constructor
      · rintro rfl
        exact hnil rfl
      · rintro rfl
        exact hnil rfl
    obtain ⟨a', b, l, hl, hl', htext⟩ := p.exists_text hne.1 hne.2
    rw [hp] at htext
    have habs : decide p.is_absolute = a' := by
      rw [htext, Bool.eq_iff_iff, decide_eq_true_iff]
      exact is_absolute_text_ending hl hl'
    rw [habs, htext, components_text_ending hl, div_text hl hl' hm hm']

theorem rest_text (hl : ∀ n ∈ l, Plain n) (hne : l ≠ []) (hm' : m ≠ []) :
    rest (text a l ++ ending b) (text false m ++ ending c) = text (!b) m ++ ending c := by
  rw [rest, if_congr (has_filename_text_ending hl hne) rfl rfl]
  cases b with
  | true => rfl
  | false => rw [if_pos rfl, Bool.not_false, text_true_eq hm', List.cons_append]

theorem single_rest (hm : ∀ n ∈ m, Plain n) (hm' : m ≠ []) : Single (text a m ++ ending c) := by
  have h := single_text (b := c) hm hm'
  cases a with
  | true => exact h
  | false =>
    rw [text_true_eq hm', List.cons_append] at h
    exact h.tail

/-- A second match takes letters away that no later step brings back. -/
theorem letters_removed_lt {p out : PathString} (hl : ∀ n ∈ l, Plain n) (hne : l ≠ [])
    (h : Removed (text a l ++ ending b) p out) (hp : Single p) :
    occurs (text a l ++ ending b) p = false ∧ out = p ∨ letters out < letters p := by
  cases h with
  | none h => exact Or.inl ⟨h, rfl⟩
  | @some u seg v r hbefore hlength hseg hafter =>
    right
    have hpos := letters_pos_of_fits hl hne hseg hlength hp
    have hv := letters_sublist hafter.sublist
    rw [letters_append, letters_append, letters_append]
    omega

theorem text_ending_ne (hl : ∀ n ∈ l, Plain n) (hne : l ≠ []) :
    ¬ (text a l ++ ending b = [] ∨ text a l ++ ending b = ['/']) := by
  have hcomponents := components_text_ending (a := a) (b := b) hl
  rintro (h | h)
  · rw [h] at hcomponents
    exact hne hcomponents.symm
  · rw [h] at hcomponents
    exact hne hcomponents.symm

/-- What `operator-` does with a canonical base. -/
theorem minus_text {p : PathString} (hl : ∀ n ∈ l, Plain n) (hne : l ≠ []) (hp : p.canonical = p) :
    minus p (text a l ++ ending b) =
      (parse (text a l ++ ending b)).map fun pattern => canonical (remove pattern p) := by
  rw [minus, canonical_text_ending hl hne, hp]
  exact if_neg (text_ending_ne hl hne)

theorem minus_of_atFront (hl : ∀ n ∈ l, Plain n) (hne : l ≠ []) (hm : ∀ n ∈ m, Plain n) (hm' : m ≠ [])
    (h : AtFront (text a l ++ ending b) (text false m ++ ending c)) :
    minus (text a (l ++ m) ++ ending c) (text a l ++ ending b) = some (text (!b) m ++ ending c) := by
  obtain ⟨pattern, hparse, ⟨t, hmatch, ht⟩, hsilent⟩ := h
  have hall := List.forall_mem_append.mpr ⟨hl, hm⟩
  have hbase : text a l ++ ending b ≠ [] := fun h => text_ending_ne hl hne (Or.inl h)
  rw [minus_text hl hne (canonical_text_ending hall (by simp [hne])), hparse, Option.map_some,
    text_append_rest (b := b) hl hne hm']
  have hremove := remove_once (u := []) hbase
      (fun x y hxy hy => absurd (List.append_eq_nil_iff.mp hxy.symm).2 hy)
    hmatch ht (by rwa [List.reverse_nil, List.append_nil])
  rw [List.nil_append, List.nil_append] at hremove
  rw [hremove, rest_text hl hne hm', canonical_text_ending hm hm']

/-- With a literal base: the names that are left are those of the relative path, or some of their
letters are missing. -/
theorem minus_literal (hl : ∀ n ∈ l, Plain n) (hne : l ≠ []) (hm : ∀ n ∈ m, Plain n) (hm' : m ≠ [])
    (hliteral : Literal (text a l ++ ending b)) :
    ∃ p, minus (text a (l ++ m) ++ ending c) (text a l ++ ending b) = some p ∧
      (AtFront (text a l ++ ending b) (text false m ++ ending c) ∨
        p.components.flatten.length < m.flatten.length) := by
  have hall := List.forall_mem_append.mpr ⟨hl, hm⟩
  have hbase : text a l ++ ending b ≠ [] := fun h => text_ending_ne hl hne (Or.inl h)
  rw [minus_text hl hne (canonical_text_ending hall (by simp [hne])), parse_literal hliteral, Option.map_some]
  refine ⟨_, rfl, ?_⟩
  have hremoved := removed_remove (s := text a (l ++ m) ++ ending c) hbase
  rw [text_append_rest (b := b) hl hne hm', rest_text hl hne hm'] at hremoved ⊢
  rcases letters_removed_lt hl hne hremoved.of_append (single_rest hm hm') with ⟨hfront, -⟩ | hlt
  · left
    rw [atFront_literal hliteral hbase, rest_text hl hne hm']
    exact hfront
  · right
    rw [← letters_components (text (!b) m ++ ending c), components_text_ending hm] at hlt
    rw [(canonical_parts _).1]
    exact Nat.lt_of_le_of_lt (letters_names _) hlt

end

/-! ## Taking a base away -/

theorem root_eq_iff {p q : PathString} : p.root = q.root ↔ (p.is_absolute ↔ q.is_absolute) := by
  unfold root
  by_cases hp : p.is_absolute <;> by_cases hq : q.is_absolute <;> simp [hp, hq]

theorem components_of_elements {p q : PathString} (h : p.elements = q.elements) (hroot : p.root = q.root) :
    p.components = q.components := by
  rw [elements_eq, elements_eq, hroot, List.append_assoc, List.append_assoc, List.append_cancel_left_eq] at h
  have hfilter : ∀ r : PathString, (r.components ++ if r.trailing then [[]] else []).filter (· ≠ []) =
      r.components := by
    intro r
    have hnames : r.components.filter (· ≠ []) = r.components :=
      List.filter_eq_self.mpr fun n hn => by simpa using (mem_components hn).1
    rw [List.filter_append, hnames]
    split <;> simp
  rw [← hfilter p, h, hfilter]

theorem inverts_iff {base relative : PathString} (hbase : base.canonical = base) (hempty : base ≠ [])
    (hroot : base ≠ ['/']) (hrelative : relative.canonical = relative) (hne : relative ≠ [])
    (habs : ¬ relative.is_absolute) :
    (AtFront base relative → Inverts base relative) ∧
      (Literal base → (Inverts base relative ↔ AtFront base relative)) := by
  obtain ⟨a, b, l, hl, hl', htext⟩ := base.exists_text (by rwa [hbase]) (by rwa [hbase])
  obtain ⟨a', c, m, hm, hm', htext'⟩ := relative.exists_text (by rwa [hrelative]) (by
    rw [hrelative]
    rintro rfl
    exact habs rfl)
  rw [hbase] at htext
  rw [hrelative] at htext'
  rw [htext', is_absolute_text_ending hm hm', Bool.not_eq_true] at habs
  rw [habs] at htext'
  rw [htext, htext', Inverts, div_text hl hl' hm hm']
  have hfront : AtFront (text a l ++ ending b) (text false m ++ ending c) →
      ∃ p, minus (text a (l ++ m) ++ ending c) (text a l ++ ending b) = some p ∧
        (div (text a l ++ ending b) p).elements = (text a (l ++ m) ++ ending c).elements := by
    intro h
    exact ⟨_, minus_of_atFront hl hl' hm hm' h, by rw [div_text hl hl' hm hm']⟩
  refine ⟨hfront, fun hliteral => ⟨?_, hfront⟩⟩
  rintro ⟨p, hp, helements⟩
  obtain ⟨p', hp', hor⟩ := minus_literal (c := c) hl hl' hm hm' hliteral
  obtain rfl : p' = p := Option.some.inj (hp'.symm.trans hp)
  rcases hor with hor | hlt
  · exact hor
  · have hdiv : div (text a l ++ ending b) (text false m ++ ending c) = text a (l ++ m) ++ ending c :=
      div_text hl hl' hm hm'
    rw [← hdiv] at helements
    have hcomponents := components_of_elements helements (by rw [root_div, root_div])
    rw [components_div, components_div, List.append_cancel_left_eq, components_text_ending hm] at hcomponents
    rw [hcomponents] at hlt
    exact absurd hlt (Nat.lt_irrefl _)

end PathString

end Chord
