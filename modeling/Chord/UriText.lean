import Chord.Uri

/-!
# The parts of the text of a uri

What the regular expressions of `uri::from` find, told by the delimiters of the text.
-/

namespace Chord

namespace Uri

/-- The path of a text begins after its authority. The query has its `?`, and the fragment its `#`. -/
structure Parts where
  scheme : List Char
  authority : List Char
  path : List Char
  query : List Char
  fragment : List Char

/-- `user:password@host:digits`, where the `:` before the digits may be left out if there are none.
The matcher takes the last `@`, and the last `:` before it. -/
structure Credentials (a user password host digits : List Char) : Prop where
  text : ∃ tail, a = user ++ ':' :: (password ++ '@' :: (host ++ tail)) ∧
    (tail = [] ∧ digits = [] ∨ tail = ':' :: digits)
  user : ∀ c ∈ user, dot c
  password : ∀ c ∈ password, dot c ∧ c ≠ ':'
  host : ':' ∉ host ∧ '@' ∉ host.takeWhile dot
  digits : ∀ c ∈ digits, c.isDigit

/-- A scheme and what follows its colon. -/
def split_scheme (s : List Char) : List Char × List Char :=
  match s.dropWhile (noneOf [':', '/', '?', '#']) with
  | ':' :: t =>
    if s.takeWhile (noneOf [':', '/', '?', '#']) = [] then ([], s)
      else (s.takeWhile (noneOf [':', '/', '?', '#']), t)
  | _ => ([], s)

def split_authority (s : List Char) : List Char × List Char :=
  match s with
  | '/' :: '/' :: t => (t.takeWhile (noneOf ['/', '?', '#']), t.dropWhile (noneOf ['/', '?', '#']))
  | _ => ([], s)

def parts (s : List Char) : Parts :=
  let after_scheme := (split_scheme s).2
  let after_authority := (split_authority after_scheme).2
  let after_path := after_authority.dropWhile (noneOf ['?', '#'])
  { scheme := (split_scheme s).1
    authority := (split_authority after_scheme).1
    path := after_authority.takeWhile (noneOf ['?', '#'])
    query := after_path.takeWhile (noneOf ['#'])
    fragment := after_path.dropWhile (noneOf ['#']) }

/-! ## Single parts -/

section

variable {len : Nat} {s t : List Char}

theorem takeWhile_append_cons {p : Char → Bool} {x : List Char} {c : Char} (hx : ∀ d ∈ x, p d)
    (hc : p c = false) (t : List Char) :
    (x ++ c :: t).takeWhile p = x ∧ (x ++ c :: t).dropWhile p = c :: t := by
  constructor
  · rw [List.takeWhile_append_of_pos hx, List.takeWhile_cons_of_neg (by simp [hc]), List.append_nil]
  · rw [List.dropWhile_append_of_pos hx, List.dropWhile_cons_of_neg (by simp [hc])]

open Regex in
theorem first_split_scheme (len : Nat) (s : List Char) : ∃ m,
    First len (.opt (.group 1 (.seq (.group 2 (.plus (noneOf [':', '/', '?', '#']))) (is ':')))) s m
      (split_scheme s).2 ∧
      (m = [] ∧ (split_scheme s).1 = [] ∨ ∃ x, m = [(1, x), (2, (split_scheme s).1)]) := by
  by_cases hscheme : ∃ c x t, s = c :: x ++ ':' :: t ∧ noneOf [':', '/', '?', '#'] c ∧
      ∀ d ∈ x, noneOf [':', '/', '?', '#'] d
  · obtain ⟨c, x, t, rfl, hc, hx⟩ := hscheme
    obtain ⟨htake, hdrop⟩ :=
      takeWhile_append_cons (List.forall_mem_cons.mpr ⟨hc, hx⟩)
        (by decide : noneOf [':', '/', '?', '#'] ':' = false) t
    have hsplit : split_scheme (c :: x ++ ':' :: t) = (c :: x, t) := by
      rw [split_scheme, hdrop, htake]
      rfl
    have hplus : First len (.plus (noneOf [':', '/', '?', '#'])) (c :: x ++ ':' :: t) [] (':' :: t) := by
      have hrest : (x ++ ':' :: t).dropWhile (noneOf [':', '/', '?', '#']) = ':' :: t :=
        (takeWhile_append_cons hx (by decide) t).2
      exact (congrArg (First len _ _ _) hrest).mp (First.plus hc)
    have hcolon : First len (is ':') (':' :: t) [] t := First.one (by decide)
    have hall := (First.group hplus 2).seq hcolon
    have hsplit' : c :: x ++ ':' :: t = (c :: x ++ [':']) ++ t := by simp
    rw [hsplit]
    rw [hsplit'] at hall ⊢
    exact ⟨_, First.opt (First.group hall 1), Or.inr ⟨_, rfl⟩⟩
  · have hnone : ∀ t, ¬ Takes len (.group 1 (.seq (.group 2 (.plus (noneOf [':', '/', '?', '#']))) (is ':')))
      s t := by
      intro t htakes
      simp only [takes_group, takes_seq, takes_plus, is, takes_one, decide_eq_true_eq] at htakes
      obtain ⟨u, ⟨c, x, rfl, hc, hx⟩, d, rfl, rfl⟩ := htakes
      exact hscheme ⟨c, x, t, rfl, hc, hx⟩
    have hsplit : split_scheme s = ([], s) := by
      unfold split_scheme
      split
      · rename_i t ht
        split
        · rfl
        · rename_i hne
          obtain ⟨c, x, hcx⟩ := List.exists_cons_of_ne_nil hne
          have hall : ∀ d ∈ s.takeWhile (noneOf [':', '/', '?', '#']), noneOf [':', '/', '?', '#'] d :=
            fun d hd => List.mem_takeWhile_imp hd
          rw [hcx] at hall
          refine absurd ⟨c, x, t, ?_, List.forall_mem_cons.mp hall⟩ hscheme
          rw [← hcx, ← ht, List.takeWhile_append_dropWhile]
      · rfl
    rw [hsplit]
    exact ⟨[], First.skip (run_eq_nil hnone), Or.inl ⟨rfl, rfl⟩⟩

open Regex in
theorem first_split_authority (len : Nat) (s : List Char) : ∃ m,
    First len (.opt (.group 3
      (.seq (is '/') (.seq (is '/') (.group 4 (.star (noneOf ['/', '?', '#']))))))) s m
      (split_authority s).2 ∧
      (m = [] ∧ (split_authority s).1 = [] ∨ ∃ x, m = [(3, x), (4, (split_authority s).1)]) := by
  unfold split_authority
  split
  · rename_i t
    have hslash : ∀ t : List Char, First len (is '/') ('/' :: t) [] t := fun t => First.one (by decide)
    have hall := (hslash _).seq ((hslash _).seq (First.groupStar len (noneOf ['/', '?', '#']) t 4))
    have hsplit : '/' :: '/' :: t =
        ('/' :: '/' :: t.takeWhile (noneOf ['/', '?', '#'])) ++ t.dropWhile (noneOf ['/', '?', '#']) := by
      rw [List.cons_append, List.cons_append, List.takeWhile_append_dropWhile]
    rw [hsplit] at hall ⊢
    exact ⟨_, First.opt (First.group hall 3), Or.inr ⟨_, rfl⟩⟩
  · rename_i hs
    refine ⟨[], First.skip (run_eq_nil fun t htakes => ?_), Or.inl ⟨rfl, rfl⟩⟩
    simp only [takes_group, takes_seq, takes_star, is, takes_one, decide_eq_true_eq] at htakes
    obtain ⟨u, ⟨c, rfl, rfl⟩, v, ⟨d, rfl, rfl⟩, -⟩ := htakes
    exact hs v rfl

open Regex in
theorem first_split_fragment (len : Nat) (s : List Char) (hs : s = [] ∨ ∃ f, s = '#' :: f) : ∃ m,
    First len (.opt (.group 7 (.seq (is '#') (.group 8 (.star dot))))) s m (s.dropWhile dot) ∧
      (m = [] ∧ s.tail.takeWhile dot = [] ∨ ∃ x, m = [(7, x), (8, s.tail.takeWhile dot)]) := by
  rcases hs with rfl | ⟨f, rfl⟩
  · exact ⟨[], First.skip rfl, Or.inl ⟨rfl, rfl⟩⟩
  · have hhash : First len (is '#') ('#' :: f) [] f := First.one (by decide)
    have hall := hhash.seq (First.groupStar len dot f 8)
    have hdot : dot '#' := by decide
    have hsplit : '#' :: f = ('#' :: f.takeWhile dot) ++ f.dropWhile dot := by
      rw [List.cons_append, List.takeWhile_append_dropWhile]
    rw [List.dropWhile_cons_of_pos hdot]
    rw [hsplit] at hall
    have hgroup := First.group hall 7
    rw [← hsplit] at hgroup
    exact ⟨_, First.opt hgroup, Or.inr ⟨_, rfl⟩⟩

theorem dropWhile_hash (s : List Char) :
    s.dropWhile (noneOf ['#']) = [] ∨ ∃ f, s.dropWhile (noneOf ['#']) = '#' :: f := by
  cases h : s.dropWhile (noneOf ['#']) with
  | nil => exact Or.inl rfl
  | cons c f =>
    have hhead := List.head_dropWhile_not (noneOf ['#']) (by rw [h]; simp : s.dropWhile _ ≠ [])
    simp only [h, List.head_cons, noneOf, List.mem_singleton, decide_eq_false_iff_not, not_not] at hhead
    exact Or.inr ⟨f, by rw [hhead]⟩

end

/-! ## The whole text -/

open Regex in
theorem first_pattern (s : List Char) :
    ∃ found, First s.length pattern s found ((parts s).fragment.dropWhile dot) ∧
    str found 2 = (parts s).scheme ∧ str found 4 = (parts s).authority ∧ str found 5 = (parts s).path ∧
    str found 6 = (parts s).query ∧ str found 8 = (parts s).fragment.tail.takeWhile dot := by
  obtain ⟨scheme, hscheme, hscheme'⟩ := first_split_scheme s.length s
  obtain ⟨authority, hauthority, hauthority'⟩ := first_split_authority s.length (split_scheme s).2
  obtain ⟨fragment, hfragment, hfragment'⟩ :=
    first_split_fragment s.length (parts s).fragment (dropWhile_hash _)
  have hpath := First.opt
      (First.groupStar s.length (noneOf ['?', '#']) (split_authority (split_scheme s).2).2 5)
  have hquery := First.opt (First.groupStar s.length (noneOf ['#'])
    ((split_authority (split_scheme s).2).2.dropWhile (noneOf ['?', '#'])) 6)
  have hbegin : First s.length .bos s [] s := First.bos rfl
  refine ⟨_, hbegin.seq (hscheme.seq (hauthority.seq (hpath.seq (hquery.seq hfragment)))), ?_⟩
  simp only [parts] at hfragment' ⊢
  rcases hscheme' with ⟨rfl, hs⟩ | ⟨x, rfl⟩ <;> rcases hauthority' with ⟨rfl, ha⟩ | ⟨y, rfl⟩ <;>
    rcases hfragment' with ⟨rfl, hf⟩ | ⟨z, rfl⟩ <;> simp_all [str]

/-- What comes before the fragment. -/
def NoHash (x : List Char) : Prop := ∀ c ∈ x, noneOf ['#'] c

instance (x : List Char) : Decidable (NoHash x) := inferInstanceAs (Decidable (∀ c ∈ x, noneOf ['#'] c))

theorem NoHash.append {x y : List Char} (hx : NoHash x) (hy : NoHash y) : NoHash (x ++ y) := by
  intro c hc
  rcases List.mem_append.mp hc with hc | hc
  · exact hx c hc
  · exact hy c hc

theorem noHash_of_noneOf {x l : List Char} (hl : '#' ∈ l) (h : ∀ c ∈ x, noneOf l c) : NoHash x := by
  intro c hc
  have hnot := h c hc
  simp only [noneOf, decide_eq_true_eq, List.mem_singleton] at hnot ⊢
  rintro rfl
  exact hnot hl

theorem noHash_takeWhile {l : List Char} (hl : '#' ∈ l) (s : List Char) : NoHash (s.takeWhile (noneOf l)) :=
  noHash_of_noneOf hl fun _ hc => List.mem_takeWhile_imp hc

theorem dropWhile_noHash {s x t : List Char} (hs : s = x ++ t) (hx : NoHash x)
    (ht : t = [] ∨ ∃ f, t = '#' :: f) :
    s.dropWhile (noneOf ['#']) = t := by
  rw [hs, List.dropWhile_append_of_pos hx]
  rcases ht with rfl | ⟨f, rfl⟩
  · rfl
  · exact List.dropWhile_cons_of_neg (by decide)

theorem split_scheme_text (s : List Char) : ∃ x, s = x ++ (split_scheme s).2 ∧ NoHash x := by
  unfold split_scheme
  split
  · rename_i t ht
    split
    · exact ⟨[], rfl, by simp [NoHash]⟩
    · refine ⟨s.takeWhile (noneOf [':', '/', '?', '#']) ++ [':'], ?_, (noHash_takeWhile (by decide) s).append
        (by simp [NoHash, noneOf])⟩
      conv_lhs => rw [← List.takeWhile_append_dropWhile (p := noneOf [':', '/', '?', '#']) (l := s), ht]
      simp
  · exact ⟨[], rfl, by simp [NoHash]⟩

theorem split_authority_text (s : List Char) : ∃ x, s = x ++ (split_authority s).2 ∧ NoHash x := by
  unfold split_authority
  split
  · rename_i t
    refine ⟨['/', '/'] ++ t.takeWhile (noneOf ['/', '?', '#']), ?_,
      NoHash.append (by simp [NoHash, noneOf]) (noHash_takeWhile (by decide) t)⟩
    simp
  · exact ⟨[], rfl, by simp [NoHash]⟩

theorem fragment_eq (s : List Char) : (parts s).fragment = s.dropWhile (noneOf ['#']) := by
  obtain ⟨x, hx, hx'⟩ := split_scheme_text s
  obtain ⟨y, hy, hy'⟩ := split_authority_text (split_scheme s).2
  have hz := noHash_takeWhile (by decide : '#' ∈ ['?', '#']) (split_authority (split_scheme s).2).2
  have hw := noHash_takeWhile (by decide : '#' ∈ ['#'])
      ((split_authority (split_scheme s).2).2.dropWhile (noneOf ['?', '#']))
  refine (dropWhile_noHash ?_ ((hx'.append hy').append (hz.append hw)) (dropWhile_hash _)).symm
  simp only [List.append_assoc, List.takeWhile_append_dropWhile]
  rw [← hy, ← hx]

theorem takes_bos {len : Nat} {s t : List Char} (h : Regex.Takes len .bos s t) : s = t := by
  obtain ⟨m, hm⟩ := h
  rw [Regex.run_bos] at hm
  split at hm
  · exact (Prod.mk.inj (List.mem_singleton.mp hm)).2.symm
  · cases hm

open Regex in
/-- `.` stops at the end of a line. -/
theorem isMatch_pattern_iff (s : List Char) : isMatch pattern s ↔ ∀ c ∈ (parts s).fragment, dot c := by
  constructor
  · intro h
    rw [isMatch_iff] at h
    simp only [pattern, takes_seq, takes_opt, takes_group, takes_star, takes_plus, is, takes_one,
      decide_eq_true_eq] at h
    obtain ⟨s', hbos, s₁, hscheme, s₂, hauthority, s₃, hpath, s₄, hquery, hfragment⟩ := h
    obtain rfl := takes_bos hbos
    have hscheme' : ∃ x, s = x ++ s₁ ∧ NoHash x := by
      rcases hscheme with ⟨u, ⟨c, w, rfl, hc, hw⟩, d, rfl, rfl⟩ | rfl
      · refine ⟨c :: w ++ [':'], by simp, NoHash.append (noHash_of_noneOf (by decide) (List.forall_mem_cons.mpr ⟨hc, hw⟩)) (by simp [NoHash, noneOf])⟩
      · exact ⟨[], rfl, by simp [NoHash]⟩
    have hauthority' : ∃ x, s₁ = x ++ s₂ ∧ NoHash x := by
      rcases hauthority with ⟨u, ⟨c, rfl, rfl⟩, v, ⟨d, rfl, rfl⟩, w, rfl, hw⟩ | rfl
      · exact ⟨['/', '/'] ++
          w, by simp, NoHash.append (by simp [NoHash, noneOf]) (noHash_of_noneOf (by decide) hw)⟩
      · exact ⟨[], rfl, by simp [NoHash]⟩
    have hpath' : ∃ x, s₂ = x ++ s₃ ∧ NoHash x := by
      rcases hpath with ⟨w, rfl, hw⟩ | rfl
      · exact ⟨w, rfl, noHash_of_noneOf (by decide) hw⟩
      · exact ⟨[], rfl, by simp [NoHash]⟩
    have hquery' : ∃ x, s₃ = x ++ s₄ ∧ NoHash x := by
      rcases hquery with ⟨w, rfl, hw⟩ | rfl
      · exact ⟨w, rfl, noHash_of_noneOf (by decide) hw⟩
      · exact ⟨[], rfl, by simp [NoHash]⟩
    obtain ⟨x₁, rfl, hx₁⟩ := hscheme'
    obtain ⟨x₂, rfl, hx₂⟩ := hauthority'
    obtain ⟨x₃, rfl, hx₃⟩ := hpath'
    obtain ⟨x₄, rfl, hx₄⟩ := hquery'
    have hfragment' : (s₄ = [] ∨ ∃ f, s₄ = '#' :: f) ∧ ∀ c ∈ s₄, dot c := by
      rcases hfragment with ⟨u, ⟨c, rfl, rfl⟩, f, hf, hdot⟩ | hnil
      · rw [List.append_nil] at hf
        subst hf
        exact ⟨Or.inr ⟨_, rfl⟩, List.forall_mem_cons.mpr ⟨by decide, hdot⟩⟩
      · rw [← hnil]
        exact ⟨Or.inl rfl, by simp⟩
    rw [fragment_eq, dropWhile_noHash (by simp) (((hx₁.append hx₂).append hx₃).append hx₄) hfragment'.1]
    exact hfragment'.2
  · intro h
    obtain ⟨found, hfirst, -⟩ := first_pattern s
    rw [List.dropWhile_eq_nil_iff.mpr h] at hfirst
    exact hfirst.isMatch

theorem from_string_line_break {s : List Char} (h : ¬ ∀ c ∈ (parts s).fragment, dot c) :
    from_string s = .error .exception :=
  from_string_error (by rwa [← isMatch_pattern_iff, Bool.not_eq_true] at h)

theorem from_string_parts {s : List Char} (h : ∀ c ∈ (parts s).fragment, dot c) :
    from_string s = (with_authority {} (parts s).authority).bind fun b => Builder.build { b with
      query := query_params (parts s).query.length (parts s).query []
      scheme := (parts s).scheme
      path := (parts s).path
      fragment := (parts s).fragment.tail } := by
  obtain ⟨found, hfirst, hscheme, hauthority, hpath, hquery, hfragment⟩ := first_pattern s
  have htail : (parts s).fragment.tail.takeWhile dot = (parts s).fragment.tail :=
    List.takeWhile_eq_self_iff.mpr fun c hc => h c (List.mem_of_mem_tail hc)
  unfold from_string
  rw [if_pos ((isMatch_pattern_iff s).mpr h), hfirst.search]
  simp only [hscheme, hauthority, hpath, hquery, hfragment, htail]
  rfl

/-! ## The authority -/

/-- A host, and the digits of a port. -/
def HostPort (z host digits : List Char) : Prop :=
  ∃ tail, z = host ++ tail ∧ (tail = [] ∧ digits = [] ∨ tail = ':' :: digits) ∧ ':' ∉ host ∧
    ∀ c ∈ digits, c.isDigit

theorem not_at_of_isDigit {digits : List Char} (h : ∀ c ∈ digits, c.isDigit) : '@' ∉ digits ∧ ':' ∉ digits :=
  ⟨fun hc => absurd (h _ hc) (by decide), fun hc => absurd (h _ hc) (by decide)⟩

/-- The end of `auth_reg`, from the host on. -/
def host_reg : Regex :=
  .seq (.opt (.group 3 (.star (noneOf [':']))))
    (.seq (.opt (is ':')) (.seq (.opt (.group 4 (.star Char.isDigit))) .eos))

theorem auth_reg_eq : auth_reg = .seq .bos (.seq (.group 1 (.star dot)) (.seq (is ':')
    (.seq (.group 2 (.star dot)) (.seq (is '@') host_reg)))) := rfl

theorem takes_host_reg {len : Nat} {z t : List Char} (h : Regex.Takes len host_reg z t) :
    ∃ host digits, HostPort z host digits := by
  simp only [host_reg, Regex.takes_seq, Regex.takes_opt, Regex.takes_group, Regex.takes_star, is,
    Regex.takes_one,
    Regex.takes_eos, decide_eq_true_eq] at h
  obtain ⟨u, hu, v, hv, w, hw, rfl, rfl⟩ := h
  -- whatever the matcher tries, only the first colon can be the one of the port
  have hsplit : ∃ host rest, z = host ++ rest ∧ u = rest ∧ ':' ∉ host := by
    rcases hu with ⟨host, rfl, hhost⟩ | rfl
    · exact ⟨host, u, rfl, rfl, fun hc => absurd (hhost _ hc) (by decide)⟩
    · exact ⟨[], u, rfl, rfl, by simp⟩
  obtain ⟨host, rest, rfl, rfl, hhost⟩ := hsplit
  have hdigits : ∀ c ∈ v, c.isDigit := by
    rcases hw with ⟨x, rfl, hx⟩ | rfl
    · simpa using hx
    · simp
  rcases hv with ⟨c, rfl, rfl⟩ | rfl
  · exact ⟨host, v, ':' :: v, rfl, Or.inr rfl, hhost, hdigits⟩
  · refine ⟨host ++ v, [], [], by simp, Or.inl ⟨rfl, rfl⟩, ?_, by simp⟩
    rw [List.mem_append]
    rintro (hc | hc)
    · exact hhost hc
    · exact (not_at_of_isDigit hdigits).2 hc

open Regex in
theorem first_host_reg {len : Nat} {z host digits : List Char} (h : HostPort z host digits) :
    First len host_reg z [(4, digits), (3, host)] [] := by
  obtain ⟨tail, rfl, htail, hhost, hdigits⟩ := h
  have hall : ∀ c ∈ host, noneOf [':'] c := by
    intro c hc
    rw [noneOf, decide_eq_true_eq, List.mem_singleton]
    rintro rfl
    exact hhost hc
  have hend : First len .eos [] [] [] := rfl
  have hport := First.groupStar len Char.isDigit digits 4
  rw [List.takeWhile_eq_self_iff.mpr hdigits, List.dropWhile_eq_nil_iff.mpr hdigits] at hport
  have hhost' := First.groupStar len (noneOf [':']) (host ++ tail) 3
  rcases htail with ⟨rfl, rfl⟩ | rfl
  · rw [List.append_nil, List.takeWhile_eq_self_iff.mpr hall, List.dropWhile_eq_nil_iff.mpr hall] at hhost'
    rw [List.append_nil]
    exact (First.opt hhost').seq ((First.skip rfl).seq ((First.opt hport).seq hend))
  · obtain ⟨htake, hdrop⟩ := takeWhile_append_cons hall (by decide : noneOf [':'] ':' = false) digits
    rw [htake, hdrop] at hhost'
    have hcolon : First len (is ':') (':' :: digits) [] digits := First.one (by decide)
    exact (First.opt hhost').seq ((First.opt hcolon).seq ((First.opt hport).seq hend))

/-- What a match of `auth_reg` goes through, before it is the longest one. -/
structure Matched (a user password z host digits : List Char) : Prop where
  text : a = user ++ ':' :: (password ++ '@' :: z)
  user : ∀ c ∈ user, dot c
  password : ∀ c ∈ password, dot c
  host : HostPort z host digits

theorem matched_of_takes {len : Nat} {a t : List Char} (h : Regex.Takes len auth_reg a t) :
    ∃ user password z host digits, Matched a user password z host digits := by
  simp only [auth_reg_eq, Regex.takes_seq, Regex.takes_group, Regex.takes_star, is, Regex.takes_one,
    decide_eq_true_eq] at h
  obtain ⟨u, hu, v, ⟨user, rfl, huser⟩, w, ⟨c, rfl, rfl⟩, x, ⟨password, rfl, hpassword⟩, z, ⟨d, rfl, rfl⟩,
      hz⟩ := h
  obtain ⟨host, digits, hhost⟩ := takes_host_reg hz
  exact ⟨user, password, z, host, digits, takes_bos hu, huser, hpassword, hhost⟩

theorem last_of_mem {c : Char} {l : List Char} (h : c ∈ l) : ∃ x y, l = x ++ c :: y ∧ c ∉ y := by
  obtain ⟨y, x, hl, hy⟩ := List.eq_append_cons_of_mem (List.mem_reverse.mpr h)
  refine ⟨x.reverse, y.reverse, ?_, fun hc => hy (List.mem_reverse.mp hc)⟩
  rw [← List.reverse_inj, hl]
  simp

/-- The password goes up to the last `@` that it can reach. -/
theorem Matched.last_at {a user password z host digits : List Char}
    (h : Matched a user password z host digits) :
    ∃ password' z' host', Matched a user password' z' host' digits ∧ '@' ∉ host'.takeWhile dot := by
  by_cases hat : '@' ∈ host.takeWhile dot
  · obtain ⟨tail, rfl, htail, hhost, hdigits⟩ := h.host
    obtain ⟨x, y, hxy, hy⟩ := last_of_mem hat
    have hdot : ∀ c ∈ x ++ '@' :: y, dot c := by
      rw [← hxy]
      exact fun c hc => List.mem_takeWhile_imp hc
    have hsplit : host = x ++ '@' :: (y ++ host.dropWhile dot) := by
      conv_lhs => rw [← List.takeWhile_append_dropWhile (p := dot) (l := host), hxy]
      simp
    have hrest : (y ++ host.dropWhile dot).takeWhile dot = y := by
      rw [List.takeWhile_append_of_pos fun c hc => hdot c (by simp [hc])]
      cases hdrop : host.dropWhile dot with
      | nil => simp
      | cons c l =>
        have hhead := List.head_dropWhile_not dot (by rw [hdrop]; simp : host.dropWhile dot ≠ [])
        simp only [hdrop, List.head_cons] at hhead
        rw [List.takeWhile_cons_of_neg (by simp [hhead]), List.append_nil]
    refine ⟨password ++ '@' :: x, y ++ host.dropWhile dot ++ tail, y ++ host.dropWhile dot,
      ⟨?_, h.user, ?_, tail, rfl, htail, ?_, hdigits⟩, by rwa [hrest]⟩
    · rw [h.text]
      conv_lhs => rw [hsplit]
      simp
    · intro c hc
      simp only [List.mem_append, List.mem_cons] at hc
      rcases hc with hc | rfl | hc
      · exact h.password c hc
      · decide
      · exact hdot c (by simp [hc])
    · intro hc
      rw [hsplit] at hhost
      exact hhost (by simp only [List.mem_append, List.mem_cons] at hc ⊢; tauto)
  · exact ⟨password, z, host, h, hat⟩

theorem credentials_of_takes {len : Nat} {a t : List Char} (h : Regex.Takes len auth_reg a t) :
    ∃ user password host digits, Credentials a user password host digits := by
  obtain ⟨user, password, z, host, digits, hm⟩ := matched_of_takes h
  obtain ⟨password, z, host, hm, hat⟩ := hm.last_at
  obtain ⟨tail, rfl, htail, hhost, hdigits⟩ := hm.host
  by_cases hcolon : ':' ∈ password
  · -- the user goes up to the last colon
    obtain ⟨x, y, rfl, hy⟩ := last_of_mem hcolon
    refine ⟨user ++ ':' :: x, y, host, digits, ⟨tail, by rw [hm.text]; simp, htail⟩, ?_, ?_, ⟨hhost, hat⟩,
      hdigits⟩
    · intro c hc
      simp only [List.mem_append, List.mem_cons] at hc
      rcases hc with hc | rfl | hc
      · exact hm.user c hc
      · decide
      · exact hm.password c (by simp [hc])
    · intro c hc
      refine ⟨hm.password c (by simp [hc]), ?_⟩
      rintro rfl
      exact hy hc
  · refine ⟨user, password, host, digits, ⟨tail, hm.text, htail⟩, hm.user, fun c hc => ⟨hm.password c hc, ?_⟩,
      ⟨hhost, hat⟩, hdigits⟩
    rintro rfl
    exact hcolon hc

/-- No other `@` can be reached by a longer password. -/
theorem no_later_at {host tail digits w v : List Char}
    (htail : tail = [] ∧ digits = [] ∨ tail = ':' :: digits) (hat : '@' ∉ host.takeWhile dot)
    (hdigits : ∀ c ∈ digits, c.isDigit) (h : host ++ tail = w ++ '@' :: v) :
    ¬ ∀ c ∈ w, dot c := by
  intro hw
  rcases List.append_eq_append_iff.mp h with ⟨x, rfl, hx⟩ | ⟨x, rfl, hx⟩
  · -- the tail has no `@`
    have hmem : '@' ∈ tail := by rw [hx]; simp
    rcases htail with ⟨rfl, -⟩ | rfl
    · cases hmem
    · rcases List.mem_cons.mp hmem with heq | hmem
      · cases heq
      · exact (not_at_of_isDigit hdigits).1 hmem
  · cases x with
    | nil =>
      rcases htail with ⟨rfl, -⟩ | rfl <;> cases hx
    | cons c x =>
      obtain ⟨rfl, -⟩ := List.cons.inj hx
      refine hat ?_
      rw [List.takeWhile_append_of_pos hw, List.takeWhile_cons_of_pos (by decide)]
      simp

/-- The `:` of a port comes after every `@`. -/
theorem no_at_after_port {x tail digits w v : List Char} (hx : ':' ∉ x)
    (htail : tail = [] ∧ digits = [] ∨ tail = ':' :: digits) (hdigits : ∀ c ∈ digits, c.isDigit)
    (h : x ++ tail = w ++ ':' :: v) : '@' ∉ v := by
  intro hv
  rcases List.append_eq_append_iff.mp h with ⟨y, rfl, hy⟩ | ⟨y, rfl, hy⟩
  · rcases htail with ⟨rfl, -⟩ | rfl
    · simp at hy
    · cases y with
      | nil =>
        obtain ⟨-, rfl⟩ := List.cons.inj hy
        exact (not_at_of_isDigit hdigits).1 hv
      | cons c y =>
        obtain ⟨-, rfl⟩ := List.cons.inj hy
        exact (not_at_of_isDigit hdigits).2 (by simp)
  · cases y with
    | nil =>
      rcases htail with ⟨rfl, -⟩ | rfl
      · cases hy
      · obtain ⟨-, rfl⟩ := List.cons.inj hy
        exact (not_at_of_isDigit hdigits).1 hv
    | cons c y =>
      obtain ⟨rfl, -⟩ := List.cons.inj hy
      exact hx (by simp)

theorem not_colon_append {password host : List Char} (hpassword : ∀ c ∈ password, dot c ∧ c ≠ ':')
    (hhost : ':' ∉ host) :
    ':' ∉ password ++ '@' :: host := by
  simp only [List.mem_append, List.mem_cons]
  rintro (hc | hc | hc)
  · exact (hpassword _ hc).2 rfl
  · cases hc
  · exact hhost hc

open Regex in
theorem first_auth_reg {a user password host digits : List Char}
    (h : Credentials a user password host digits) :
    First a.length auth_reg a [(4, digits), (3, host), (2, password), (1, user)] [] := by
  obtain ⟨⟨tail, htext, htail⟩, huser, hpassword, ⟨hhost, hat⟩, hdigits⟩ := h
  have hbegin : First a.length .bos a [] a := First.bos rfl
  have hone : ∀ (c : Char) (t : List Char), First a.length (is c) (c :: t) [] t :=
    fun c t => First.one (by simp)
  have hafter_at := (hone '@' _).seq (@first_host_reg a.length _ _ _ ⟨tail, rfl, htail, hhost, hdigits⟩)
  have hafter_colon := (hone ':' _).seq (First.starSeq 2 (fun c hc => (hpassword c hc).1) hafter_at ?_)
  · have hall := First.starSeq 1 huser hafter_colon ?_
    · rw [← htext] at hall
      exact hbegin.seq hall
    -- a longer user
    rintro w v hw hsplit - u htakes
    simp only [takes_seq, takes_group, takes_star, is, takes_one, decide_eq_true_eq] at htakes
    obtain ⟨x, ⟨c, rfl, rfl⟩, y, ⟨z, rfl, -⟩, z', ⟨d, rfl, rfl⟩, -⟩ := htakes
    obtain ⟨c, w, rfl⟩ := List.exists_cons_of_ne_nil hw
    have hlater : (password ++ '@' :: host) ++ tail = w ++ ':' :: (z ++ '@' :: z') := by
      simpa using (List.cons.inj hsplit).2
    exact no_at_after_port (not_colon_append hpassword hhost) htail hdigits hlater (by simp)
  · -- a longer password
    rintro w v hw hsplit hdot u htakes
    simp only [takes_seq, is, takes_one, decide_eq_true_eq] at htakes
    obtain ⟨x, ⟨c, rfl, rfl⟩, -⟩ := htakes
    obtain ⟨c, w, rfl⟩ := List.exists_cons_of_ne_nil hw
    exact no_later_at htail hat hdigits (List.cons.inj hsplit).2 fun d hd =>
      hdot d (List.mem_cons_of_mem c hd)

/-- The port that the digits make. -/
def port (digits : List Char) : Option Nat :=
  if digits = [] then none else some (Nat.ofDigitChars 10 digits 0)

theorem with_authority_credentials {a user password host digits : List Char}
    (h : Credentials a user password host digits) (b : Builder) : with_authority b a =
      if Nat.ofDigitChars 10 digits 0 < 0x80000000 then
        .ok { b with user := user, password := password, host := host, port := if digits = [] then b.port else port digits }
      else .error .out_of_range := by
  have hfirst := first_auth_reg h
  unfold with_authority
  rw [if_pos hfirst.isMatch, hfirst.search]
  have h1 : Regex.str [(4, digits), (3, host), (2, password), (1, user)] 1 = user := rfl
  have h2 : Regex.str [(4, digits), (3, host), (2, password), (1, user)] 2 = password := rfl
  have h3 : Regex.str [(4, digits), (3, host), (2, password), (1, user)] 3 = host := rfl
  have h4 : Regex.str [(4, digits), (3, host), (2, password), (1, user)] 4 = digits := rfl
  simp only [h1, h2, h3, h4]
  by_cases hdigits : digits = []
  · rw [if_neg (by simp [hdigits]), if_pos (by rw [hdigits]; decide), if_pos hdigits]
  · rw [if_pos hdigits, stoi]
    split
    · rw [port, if_neg hdigits]
      rfl
    · rfl

/-- A text has one way to be credentials. -/
theorem Credentials.unique {a user password host digits user' password' host' digits' : List Char}
    (h : Credentials a user password host digits) (h' : Credentials a user' password' host' digits') :
    user = user' ∧ password = password' ∧ host = host' ∧ digits = digits' := by
  have hfirst := first_auth_reg h
  have hfirst' := first_auth_reg h'
  rw [Regex.First] at hfirst hfirst'
  rw [hfirst] at hfirst'
  simp only [Option.some.injEq, Prod.mk.injEq, List.cons.injEq, true_and, and_true] at hfirst'
  tauto

theorem with_authority_plain {a : List Char}
    (h : ∀ user password host digits, ¬ Credentials a user password host digits) (b : Builder) :
    with_authority b a = .ok { b with host := a } := by
  have hno : ¬ Regex.isMatch auth_reg a := by
    rw [Regex.isMatch_iff]
    intro htakes
    obtain ⟨user, password, host, digits, hc⟩ := credentials_of_takes htakes
    exact h user password host digits hc
  unfold with_authority
  rw [if_neg hno]

end Uri

end Chord
