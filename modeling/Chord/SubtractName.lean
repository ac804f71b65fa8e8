import Chord.Subtract

/-!
# A path without its file name

`Facade::get` takes the name of a record away from the path it was listed for.
-/

namespace Chord

namespace PathString

open Ecma

/-! ## The parent path and the file name -/

theorem components_strip (p : PathString) :
    components (p.reverse.dropWhile (· = '/')).reverse = p.components := by
  induction p using List.reverseRecOn with
  | nil => rfl
  | append_singleton p c ih =>
    rw [List.reverse_append, List.reverse_singleton, List.singleton_append]
    by_cases hc : c = '/'
    · rw [List.dropWhile_cons_of_pos (by simpa using hc), ih, hc, components_append]
      exact (List.append_nil _).symm
    · rw [List.dropWhile_cons_of_neg (by simpa using hc), List.reverse_cons, List.reverse_reverse]

theorem filename_name {q : PathString} (h : q.has_filename) : q.filename ≠ [] ∧ '/' ∉ q.filename := by
  constructor
  · obtain ⟨p, c, rfl⟩ : ∃ p c, q = p ++ [c] := by
      rcases List.eq_nil_or_concat q with hnil | ⟨p, c, hp⟩
      · exact absurd hnil h.1
      · exact ⟨p, c, by rw [hp, List.concat_eq_append]⟩
    have hc : c ≠ '/' := by simpa using h.2
    rw [filename, List.reverse_append, List.reverse_singleton, List.singleton_append,
      List.takeWhile_cons_of_pos (by simpa using hc)]
    simp
  · intro hmem
    have hc := List.mem_takeWhile_imp (List.mem_reverse.mp hmem)
    simp at hc

/-- What is before the last name, without the separators. -/
theorem parent_path_parts {q : PathString} (h : q.components ≠ []) :
    ∃ x, q = x ++ q.filename ∧ (x = [] ∨ ∃ y, x = y ++ ['/']) ∧ q.parent_path.components = components x ∧
      (q.parent_path.is_absolute ↔ q.is_absolute) ∧ ¬ q.parent_path.trailing := by
  have hsplit : q = (q.reverse.dropWhile (· ≠ '/')).reverse ++ q.filename := by
    rw [filename, ← List.reverse_append, List.takeWhile_append_dropWhile, List.reverse_reverse]
  have hstrip : components ((q.reverse.dropWhile (· ≠ '/')).dropWhile (· = '/')).reverse =
      components (q.reverse.dropWhile (· ≠ '/')).reverse := by
    rw [← components_strip (q.reverse.dropWhile (· ≠ '/')).reverse, List.reverse_reverse]
  have hlast : ∀ y : PathString, (y.dropWhile (· = '/')).reverse ≠ [] →
      has_filename (y.dropWhile (· = '/')).reverse := by
    intro y hne
    have hne' : y.dropWhile (· = '/') ≠ [] := by simpa using hne
    have hhead := List.head_dropWhile_not (fun c => decide (c = '/')) hne'
    refine ⟨hne, ?_⟩
    rw [List.getLast?_reverse, List.head?_eq_some_head hne']
    simpa using hhead
  obtain ⟨⟨x, hx, hx'⟩, base, hbase, hbase'⟩ := q.exists_split
  have hxeq : (q.reverse.dropWhile (· ≠ '/')).reverse = x := List.append_cancel_right (hsplit.symm.trans hx)
  have hcomponents : components base = components x := by rw [← hbase', hstrip, hxeq]
  refine ⟨x, hx, hx', ?_⟩
  rw [parent_path, if_neg h]
  dsimp only
  rw [hbase']
  by_cases hnil : base = []
  · subst hnil
    by_cases habs : q.is_absolute
    · rw [if_pos ⟨rfl, habs⟩]
      exact ⟨hcomponents, iff_of_true rfl habs, fun htrailing => htrailing.1 rfl⟩
    · rw [if_neg fun hroot => habs hroot.2]
      exact ⟨hcomponents, iff_of_false (by simp [is_absolute]) habs, fun htrailing => htrailing.1 rfl⟩
  · rw [if_neg fun hroot => hnil hroot.1]
    refine ⟨hcomponents, ?_, fun htrailing => htrailing.2 ?_⟩
    · rcases hbase with hempty | ⟨rest, hrest⟩
      · exact absurd hempty hnil
      · rw [hrest, is_absolute_append hnil]
    · rw [← hbase'] at hnil ⊢
      exact hlast _ hnil

theorem components_ne_of_filename {q : PathString} (h : q.has_filename) : q.components ≠ [] := by
  obtain ⟨hname, hslash⟩ := filename_name h
  have hmem := components_filename q (by rw [components_name hname hslash]; exact List.mem_singleton_self _)
  exact List.ne_nil_of_mem hmem

theorem components_parent {q : PathString} (h : q.has_filename) :
    q.components = q.parent_path.components ++ [q.filename] ∧
      (q.parent_path.is_absolute ↔ q.is_absolute) := by
  obtain ⟨hname, hslash⟩ := filename_name h
  obtain ⟨x, hx, hx', hcomponents, habs, -⟩ := parent_path_parts (components_ne_of_filename h)
  refine ⟨?_, habs⟩
  rw [hcomponents]
  conv_lhs => rw [hx]
  rcases hx' with rfl | ⟨y, rfl⟩
  · exact components_name hname hslash
  · rw [List.append_assoc, List.singleton_append, components_append, components_append,
      components_name hname hslash]
    simp [components]

/-- Without a file name nothing but separators is taken off. -/
theorem components_parent_of_separator {q : PathString} (h : ¬ q.has_filename) :
    q.parent_path.components = q.components := by
  by_cases hnil : q.components = []
  · rw [parent_path, if_pos hnil]
  · obtain ⟨x, hx, -, hcomponents, -⟩ := parent_path_parts hnil
    have hfilename : q.filename = [] := by
      rcases List.eq_nil_or_concat q with rfl | ⟨p, c, rfl⟩
      · rfl
      · rw [List.concat_eq_append] at h ⊢
        have hc : c = '/' := by simpa [has_filename] using h
        simp [filename, hc]
    rw [hfilename, List.append_nil] at hx
    rw [hcomponents, ← hx]

/-! ## The file name at the end -/

/-- The names and the separator after them. -/
def ahead (a : Bool) (l : List (List Char)) : PathString := if l = [] then text a [] else text a l ++ ['/']

/-- The file name, read as a regular expression, matches itself at the end of the path and
nothing before that. -/
def LastMatch (ahead name : PathString) : Prop :=
  ∃ pattern, parse name = some pattern ∧
    (∀ x y, ahead = x ++ y → y ≠ [] → run pattern ⟨x.reverse, y ++ name, []⟩ = []) ∧
    ∃ t, (run pattern ⟨ahead.reverse, name, []⟩).head? = some t ∧ t.rest = []

/-- The names before the last one are left as they are, and the file name comes off at the end.
A dot takes nothing away, and `..` never comes to its parent path from below the root. -/
def AtEnd (q : PathString) : Prop :=
  if q.filename = ['.', '.'] then q.parent_path.components = []
  else (∀ n ∈ q.parent_path.components, Plain n) ∧
    (q.filename = ['.'] ∨ LastMatch (ahead q.is_absolute q.parent_path.components) q.filename)

/-- What is left is the parent path, a separator at its end aside. -/
def FilenameOff (q : PathString) : Prop :=
  ∃ p, minus q q.filename = some p ∧ (p.is_absolute ↔ q.parent_path.is_absolute) ∧
    p.components = q.parent_path.components

theorem lastMatch_literal {a name : PathString} (hname : Literal name) :
    LastMatch a name ↔ ∀ y ∈ a.tails, y ≠ [] → fits name (y ++ name) = false := by
  rw [LastMatch, parse_literal hname]
  constructor
  · rintro ⟨pattern, hpattern, hbefore, -⟩ y hmem hy
    obtain ⟨x, hxy⟩ := (List.mem_tails y a).mp hmem
    have hrun := hbefore x y hxy.symm hy
    rw [← Option.some.inj hpattern, run_literal] at hrun
    by_contra h
    rw [if_pos (by simpa using h)] at hrun
    cases hrun
  · intro h
    refine ⟨literal name, rfl, fun x y hxy hy => ?_, Place.advance ⟨a.reverse, name, []⟩ name.length, ?_, ?_⟩
    · have hno := h y ((List.mem_tails y a).mpr ⟨x, hxy.symm⟩) hy
      rw [run_literal, if_neg (by simpa using hno)]
    · rw [run_literal, if_pos (fits_self name), List.head?_cons]
    · exact List.drop_length

section

variable {a : Bool} {l : List (List Char)} {n : List Char}

theorem text_concat_ahead (a : Bool) (l : List (List Char)) (n : List Char) :
    text a (l ++ [n]) = ahead a l ++ n :=
  text_concat a l n

theorem ahead_parts (hl : ∀ m ∈ l, Plain m) : canonical (ahead a l) = ahead a l ∧ components (ahead a l) = l ∧
    (is_absolute (ahead a l) ↔ a = true) := by
  by_cases hnil : l = []
  · subst hnil
    cases a <;> decide
  · have htext : ahead a l = text a l ++ ending true := if_neg hnil
    rw [htext]
    exact ⟨canonical_text_ending hl hnil, components_text_ending hl, is_absolute_text_ending hl hnil⟩

theorem ahead_last {x z : PathString} (h : ahead a l = x ++ z) (hz : z ≠ []) : '/' ∈ z := by
  have hlast : (ahead a l).getLast? = some '/' := by
    rw [ahead] at h ⊢
    by_cases hnil : l = []
    · rw [if_pos hnil, text_nil] at h ⊢
      cases a with
      | true => rfl
      | false => exact absurd (List.append_eq_nil_iff.mp h.symm).2 hz
    · rw [if_neg hnil, List.getLast?_concat]
  rw [h, List.getLast?_append_of_ne_nil _ hz] at hlast
  exact List.mem_of_getLast? hlast

theorem slashes_name (hn : '/' ∉ n) : slashes n = 0 := List.count_eq_zero_of_not_mem hn

theorem slashes_ahead (hl : ∀ m ∈ l, Plain m) : slashes (ahead a l) = l.length + if a then 1 else 0 := by
  induction l using List.reverseRecOn with
  | nil => cases a <;> rfl
  | append_singleton l m ih =>
    have hm := hl m (by simp)
    rw [ahead, if_neg (by simp), text_concat_ahead, slashes_append, slashes_append, slashes_name hm.2.1,
      ih fun k hk => hl k (List.mem_append_left _ hk), List.length_append, List.length_singleton]
    have hone : slashes ['/'] = 1 := rfl
    omega

theorem letters_ahead (hl : ∀ m ∈ l, Plain m) : letters (ahead a l) = l.flatten.length := by
  rw [← letters_components, (ahead_parts hl).2.1]

theorem text_singleton (n : List Char) : text false [n] = n := by simp [text]

theorem canonical_name (hn : Plain n) : canonical n = n := by
  have htext := canonical_text (a := false) (List.forall_mem_singleton.mpr hn)
  rwa [text_singleton] at htext

/-- A plain name is taken away as a regular expression. -/
theorem minus_plain (hn : Plain n) (p : PathString) :
    minus p n = (parse n).map fun pattern => canonical (remove pattern p.canonical) := by
  rw [minus, canonical_name hn]
  refine if_neg ?_
  rintro (hnil | hroot)
  · exact hn.1 hnil
  · exact hn.2.1 (by rw [hroot]; exact List.mem_singleton_self _)

/-- With the separators that are missing, no names are missing but one. -/
theorem components_of_slashes {p out : PathString} (hl : ∀ m ∈ l, Plain m) (hn : '/' ∉ n)
    (hslashes : slashes out + slashes p ≤ slashes (ahead a l ++ n)) (habs : out.is_absolute ↔ a = true) :
    out.components.length + slashes p ≤ l.length + 1 := by
  rw [slashes_append, slashes_ahead hl, slashes_name hn] at hslashes
  cases a with
  | true =>
    have hle := length_components_absolute (habs.mpr rfl)
    rw [if_pos rfl] at hslashes
    omega
  | false =>
    have hle := length_components_le out
    rw [if_neg Bool.false_ne_true] at hslashes
    omega

section

variable {u seg v out : PathString}

/-- A separator in a match takes a name away that the letters left over do not make up for. -/
theorem not_mem_match (hl : ∀ m ∈ l, Plain m) (hn : '/' ∉ n) (htext : ahead a l ++ n = u ++ (seg ++ v))
    (hlength : seg.length = n.length) (habs : is_absolute (u ++ v) ↔ a = true) (hnames : names (u ++ v) = l) :
    '/' ∉ seg := by
  have hslashes := congrArg slashes htext
  have hletters := congrArg letters htext
  rw [letters_append, letters_ahead hl, letters_name hn, letters_append, letters_append] at hletters
  rw [slashes_append u, slashes_append seg] at hslashes
  have hcount : (components (u ++ v)).length + slashes seg ≤ l.length + 1 :=
    components_of_slashes hl hn (by rw [slashes_append]; omega) habs
  have hsublist := names_sublist (u ++ v)
  rw [hnames] at hsublist
  intro hmem
  have hpos : 0 < slashes seg := List.count_pos_iff.mpr hmem
  have hcomponents := hsublist.eq_of_length_le (by omega)
  have hleft := letters_components (u ++ v)
  rw [← hcomponents, letters_append] at hleft
  have hsum := letters_add_slashes seg
  omega

/-- Two matches would take too many letters away. -/
theorem not_two_matches {seg' v' : PathString} (hl : ∀ m ∈ l, Plain m) (hn : Plain n)
    (htext : ahead a l ++ n = u ++ (seg ++ (v ++ (seg' ++ v')))) (hlength : seg.length = n.length)
    (hlength' : seg'.length = n.length) (hseg : fits n seg) (hseg' : fits n seg')
    (hout : out.Sublist (u ++ (v ++ v'))) (habs : out.is_absolute ↔ a = true) : out.names ≠ l := by
  intro hnames
  have hslashes := congrArg slashes htext
  have hletters := congrArg letters htext
  rw [letters_append, letters_ahead hl, letters_name hn.2.1] at hletters
  simp only [letters_append] at hletters
  simp only [slashes_append u, slashes_append seg, slashes_append v, slashes_append seg'] at hslashes
  have houtletters := letters_sublist hout
  have houtslashes : slashes out ≤ slashes (u ++ (v ++ v')) := hout.count_le _
  simp only [letters_append] at houtletters
  simp only [slashes_append] at houtslashes
  have hcount : out.components.length + slashes (seg ++ seg') ≤ l.length + 1 :=
    components_of_slashes hl hn.2.1 (by rw [slashes_append seg]; omega) habs
  have hsublist := names_sublist out
  have hleft := letters_names out
  rw [hnames] at hsublist hleft
  have hle := hsublist.length_le
  rw [slashes_append] at hcount
  have hsum := letters_add_slashes seg
  have hsum' := letters_add_slashes seg'
  -- then the name is one character, and that is no separator
  have hpos := List.length_pos_iff.mpr hn.1
  obtain ⟨c, hc⟩ := List.length_eq_one_iff.mp (by omega : n.length = 1)
  have hone : ∀ k : PathString, k.length = n.length → fits n k → slashes k = 0 := by
    intro k hk hfits
    have hmem := fits_mem hfits hk (c := c) (by rw [hc]; exact List.mem_singleton_self c)
      fun hdot => hn.2.2.1 (by rw [hc, hdot])
    rw [hc] at hk
    obtain ⟨d, rfl⟩ := List.length_eq_one_iff.mp hk
    rw [← List.mem_singleton.mp hmem, ← hc]
    exact slashes_name hn.2.1
  have h := hone seg hlength hseg
  have h' := hone seg' hlength' hseg'
  omega

/-- What is left has the names before the last one only if the last one is all that went. -/
theorem match_at_end (hl : ∀ m ∈ l, Plain m) (hn : Plain n) (h : Removed n (ahead a l ++ n) out)
    (habs : out.is_absolute ↔ a = true) (hnames : out.names = l) :
    ∀ x y, ahead a l = x ++ y → y ≠ [] → fits n (y ++ n) = false := by
  generalize htext : ahead a l ++ n = s at h
  cases h with
  | none h =>
    have hno := not_occurs_iff.mp h (ahead a l) n htext.symm
    rw [fits_self] at hno
    cases hno
  | @some u seg v r hbefore hlength hseg hafter =>
    cases hafter with
    | @some v seg' v' r hbefore' hlength' hseg' hafter =>
      have hout : (u ++ (v ++ r)).Sublist (u ++ (v ++ v')) :=
        (List.Sublist.refl u).append ((List.Sublist.refl v).append hafter.sublist)
      exact absurd hnames (not_two_matches hl hn htext hlength hlength' hseg hseg' hout habs)
    | none hno =>
      have hslash := not_mem_match hl hn.2.1 htext hlength habs hnames
      rw [← List.append_assoc] at htext
      rcases List.append_eq_append_iff.mp htext with ⟨w, hseg_eq, hv⟩ | ⟨w, hahead, hv⟩
      · rcases List.eq_nil_or_concat v with rfl | ⟨v', d, hd⟩
        · rw [List.append_nil] at hv
          obtain ⟨rfl, rfl⟩ := List.append_inj' hseg_eq (by rw [hlength, hv])
          simpa [hv] using hbefore
        · -- the match reaches over the last separator
          have hshort : w.length < seg.length := by
            rw [hlength, hv, hd]
            simp
          obtain ⟨z, hz⟩ : ∃ z, seg = z ++ w := by
            rcases List.append_eq_append_iff.mp hseg_eq with ⟨z, -, hz⟩ | ⟨z, -, hz⟩
            · exact ⟨z, hz⟩
            · rw [hz, List.length_append] at hshort
              omega
          have hzne : z ≠ [] := by
            rintro rfl
            rw [hz] at hshort
            exact Nat.lt_irrefl _ hshort
          rw [hz, ← List.append_assoc] at hseg_eq
          have hmem := ahead_last (List.append_cancel_right hseg_eq).symm hzne
          exact absurd (by rw [hz]; exact List.mem_append_left w hmem) hslash
      · have hfits := not_occurs_iff.mp hno w n hv
        rw [fits_self] at hfits
        cases hfits

end

end

/-! ## Taking the file name away -/

instance (n : List Char) : Decidable (Plain n) := inferInstanceAs (Decidable (_ ∧ _))

theorem names_eq_components {p : PathString} : p.names = p.components ↔ ∀ n ∈ p.components, Plain n := by
  constructor
  · intro h n hn
    exact p.names_plain n (h ▸ hn)
  · exact names_of_plain

section

variable {q : PathString}

theorem names_filename (h : q.has_filename) : q.names = names_step q.parent_path.names q.filename := by
  rw [names, (components_parent h).1, List.foldl_append]
  rfl

theorem canonical_filename (h : q.has_filename) (hname : Plain q.filename) :
    q.canonical = ahead q.is_absolute q.parent_path.names ++ q.filename := by
  rw [canonical_eq, if_neg fun htrailing => htrailing.2.2 h, List.append_nil, names_filename h, names_step,
    if_neg hname.2.2.2, if_neg hname.2.2.1]
  exact text_concat_ahead _ _ _

/-- The file name is a dot or two. -/
theorem filenameOff_dots (h : q.has_filename) (hname : q.filename.canonical = []) :
    FilenameOff q ↔ q.names = q.parent_path.components := by
  have hminus : minus q q.filename = some q.canonical := by
    rw [minus, hname]
    exact if_pos (Or.inl rfl)
  obtain ⟨hcomponents, habs, -⟩ := q.canonical_parts
  rw [FilenameOff, hminus]
  constructor
  · rintro ⟨p, hp, -, hnames⟩
    rw [← hcomponents, Option.some.inj hp]
    exact hnames
  · intro hnames
    exact ⟨_, rfl, habs.trans (components_parent h).2.symm, hcomponents.trans hnames⟩

theorem minus_filename (h : q.has_filename) (hname : Plain q.filename) : minus q q.filename =
    (parse q.filename).map fun pattern =>
      canonical (remove pattern (ahead q.is_absolute q.parent_path.names ++ q.filename)) := by
  rw [minus_plain hname, canonical_filename h hname]

theorem filenameOff_of_lastMatch (h : q.has_filename) (hname : Plain q.filename)
    (hplain : ∀ n ∈ q.parent_path.components, Plain n)
    (hlast : LastMatch (ahead q.is_absolute q.parent_path.components) q.filename) : FilenameOff q := by
  obtain ⟨pattern, hparse, hbefore, t, hmatch, ht⟩ := hlast
  obtain ⟨hcanonical, hcomponents, habs⟩ := ahead_parts (a := q.is_absolute) hplain
  have hremove := remove_once (v := []) hname.1 (by simpa using hbefore) (by simpa using hmatch) ht
    fun u v huv hv => absurd (List.append_eq_nil_iff.mp huv.symm).2 hv
  rw [List.append_nil, List.append_nil] at hremove
  refine ⟨_, by rw [minus_filename h hname, hparse, Option.map_some, names_eq_components.mpr hplain, hremove,
    hcanonical], ?_, hcomponents⟩
  rw [habs, (components_parent h).2, decide_eq_true_iff]

theorem lastMatch_of_filenameOff (h : q.has_filename) (hname : Plain q.filename)
    (hliteral : Literal q.filename) (hoff : FilenameOff q) : (∀ n ∈ q.parent_path.components, Plain n) ∧
      LastMatch (ahead q.is_absolute q.parent_path.components) q.filename := by
  obtain ⟨p, hp, habs, hnames⟩ := hoff
  rw [minus_filename h hname, parse_literal hliteral, Option.map_some, Option.some.injEq] at hp
  obtain ⟨hcomponents, hroot, -⟩ := canonical_parts
    (remove (literal q.filename) (ahead q.is_absolute q.parent_path.names ++ q.filename))
  rw [hp] at hcomponents hroot
  rw [hnames] at hcomponents
  have hplain : ∀ n ∈ q.parent_path.components, Plain n := by
    rw [hcomponents]
    exact names_plain _
  refine ⟨hplain, (lastMatch_literal hliteral).mpr fun y hmem => ?_⟩
  obtain ⟨x, hxy⟩ := (List.mem_tails y _).mp hmem
  rw [names_eq_components.mpr hplain] at hcomponents hroot
  refine match_at_end hplain hname (removed_remove hname.1) ?_ hcomponents.symm x y hxy.symm
  rw [← hroot, habs, (components_parent h).2, decide_eq_true_iff]

theorem filenameOff_iff (h : q.has_filename) :
    (AtEnd q → FilenameOff q) ∧ (Literal q.filename → (FilenameOff q ↔ AtEnd q)) := by
  obtain ⟨hne, hslash⟩ := filename_name h
  by_cases hdot_dot : q.filename = ['.', '.']
  · have hiff : FilenameOff q ↔ AtEnd q := by
      rw [filenameOff_dots h (by rw [hdot_dot]; decide), names_filename h, names_step, if_pos hdot_dot, AtEnd,
        if_pos hdot_dot]
      constructor
      · intro hnames
        have hle := (names_sublist q.parent_path).length_le
        have hlength := congrArg List.length hnames
        rw [List.length_dropLast] at hlength
        exact List.eq_nil_of_length_eq_zero (by omega)
      · intro hnil
        rw [names, hnil]
        rfl
    exact ⟨hiff.mpr, fun _ => hiff⟩
  by_cases hdot : q.filename = ['.']
  · have hiff : FilenameOff q ↔ AtEnd q := by
      rw [filenameOff_dots h (by rw [hdot]; decide), names_filename h, names_step, if_neg hdot_dot,
        if_pos hdot,
        names_eq_components, AtEnd, if_neg hdot_dot]
      exact ⟨fun hplain => ⟨hplain, Or.inl hdot⟩, fun hend => hend.1⟩
    exact ⟨hiff.mpr, fun _ => hiff⟩
  · have hname : Plain q.filename := ⟨hne, hslash, hdot, hdot_dot⟩
    have hend : AtEnd q ↔ (∀ n ∈ q.parent_path.components, Plain n) ∧
        LastMatch (ahead q.is_absolute q.parent_path.components) q.filename := by
      rw [AtEnd, if_neg hdot_dot, or_iff_right hdot]
    rw [hend]
    have hoff := fun hlast : (∀ n ∈ q.parent_path.components, Plain n) ∧
        LastMatch (ahead q.is_absolute q.parent_path.components) q.filename =>
      filenameOff_of_lastMatch h hname hlast.1 hlast.2
    exact ⟨hoff, fun hliteral => ⟨lastMatch_of_filenameOff h hname hliteral, hoff⟩⟩

end

/-- `operator-` takes a base off a path below it, and the file name off a path, where the text of
what is taken, read as a regular expression, matches itself there and nothing else. -/
theorem minus_iff {base relative q : PathString} (hbase : base.canonical = base) (hempty : base ≠ [])
    (hroot : base ≠ ['/']) (hrelative : relative.canonical = relative) (hne : relative ≠ [])
    (habs : ¬ relative.is_absolute) (hq : q.has_filename) :
    ((AtFront base relative → Inverts base relative) ∧
      (Literal base → (Inverts base relative ↔ AtFront base relative))) ∧
    ((AtEnd q → FilenameOff q) ∧ (Literal q.filename → (FilenameOff q ↔ AtEnd q))) :=
  ⟨inverts_iff hbase hempty hroot hrelative hne habs, filenameOff_iff hq⟩

/-- `/t/f` and `a`, and then `/t/f/a` alone. -/
theorem minus_iff_file :
    Inverts ['/', 't', '/', 'f'] ['a'] ∧ FilenameOff ['/', 't', '/', 'f', '/', 'a'] := by
  have hfront : AtFront ['/', 't', '/', 'f'] ['a'] :=
    (atFront_literal (by decide) (by decide)).mpr (by decide)
  have hlast : LastMatch ['/', 't', '/', 'f', '/'] ['a'] := (lastMatch_literal (by decide)).mpr (by decide)
  have hend : AtEnd ['/', 't', '/', 'f', '/', 'a'] := ⟨by decide, Or.inr hlast⟩
  obtain ⟨hinverts, hoff⟩ := @minus_iff ['/', 't', '/', 'f'] ['a'] ['/', 't', '/', 'f', '/', 'a'] (by decide)
    (by decide) (by decide) (by decide) (by decide) (by decide) (by decide)
  exact ⟨hinverts.1 hfront, hoff.1 hend⟩

/-- `/a/a` without `/a` is empty, and without `a` it is the root. -/
theorem minus_repeated : canonical ['/', 'a'] = ['/', 'a'] ∧ canonical ['a'] = ['a'] ∧
    ¬ Inverts ['/', 'a'] ['a'] ∧ ¬ FilenameOff ['/', 'a', '/', 'a'] := by
  refine ⟨by decide, by decide, ?_, ?_⟩
  · rintro ⟨p, hp, helements⟩
    have hminus : minus (div ['/', 'a'] ['a']) ['/', 'a'] = some [] := by decide
    rw [← Option.some.inj (hminus.symm.trans hp)] at helements
    exact absurd helements (by decide)
  · rintro ⟨p, hp, -, hcomponents⟩
    have hminus : minus ['/', 'a', '/', 'a'] (filename ['/', 'a', '/', 'a']) = some ['/'] := by decide
    rw [← Option.some.inj (hminus.symm.trans hp)] at hcomponents
    exact absurd hcomponents (by decide)

end PathString

end Chord
