import Chord.Canonical
import Chord.Query

/-!
# Parsing what was printed

The text of a uri that `uri::from` made, given to `uri::from` again.
-/

namespace Chord

namespace Uri

/-! ## The query map -/

/-- A pair that its text is parsed to again. -/
structure Plain (p : List Char × List Char) : Prop where
  key : ∀ c ∈ p.1, separates c = false ∧ c ≠ '#'
  value : ∀ c ∈ p.2, separates c = false ∧ c ≠ '#' ∧ c ≠ '='

theorem mem_pairs {n : Nat} {s : List Char} (hn : s.length ≤ n) (hs : '#' ∉ s) : ∀ p ∈ pairs s, Plain p := by
  induction n generalizing s with
  | zero =>
    obtain rfl : s = [] := List.length_eq_zero_iff.mp (by omega)
    rw [pairs_nil]
    simp
  | succ n ih =>
    obtain ⟨x, t, rfl, hx, ht⟩ := first_piece s
    have hx' : ∀ c ∈ x, separates c = false ∧ c ≠ '#' := by
      intro c hc
      refine ⟨hx c hc, ?_⟩
      rintro rfl
      exact hs (List.mem_append_left t hc)
    rw [pairs_append hx ht]
    intro p hp
    rcases List.mem_append.mp hp with hp | hp
    · by_cases hequals : '=' ∈ x
      · obtain ⟨key, value, rfl, hvalue⟩ := last_of_mem hequals
        rw [pair_eq hvalue, Option.toList_some, List.mem_singleton] at hp
        subst hp
        refine ⟨fun c hc => hx' c (by simp [hc]), fun c hc => ?_⟩
        obtain ⟨hc', hhash⟩ := hx' c (by simp [hc])
        refine ⟨hc', hhash, ?_⟩
        rintro rfl
        exact hvalue hc
      · rw [pair, if_neg hequals] at hp
        cases hp
    · rcases ht with rfl | ⟨c, t, rfl, hc⟩
      · rw [pairs_nil] at hp
        cases hp
      · rw [pairs_cons hc] at hp
        simp only [List.length_append, List.length_cons] at hn
        exact ih (by omega) (fun hhash => hs (by simp [hhash])) p hp

def Sorted (query : Query) : Prop := query.Pairwise fun p q => p.1 < q.1

theorem mem_add_query {key value : List Char} {query : Query} {p : List Char × List Char}
    (h : p ∈ add_query key value query) : p = (key, value) ∨ p ∈ query := by
  induction query with
  | nil => exact Or.inl (List.mem_singleton.mp h)
  | cons q query ih =>
    obtain ⟨k, v⟩ := q
    rw [add_query] at h
    split at h
    · rcases List.mem_cons.mp h with h | h
      · exact Or.inl h
      · exact Or.inr (List.mem_cons_of_mem _ h)
    · split at h
      · exact List.mem_cons.mp h
      · rcases List.mem_cons.mp h with rfl | h
        · exact Or.inr List.mem_cons_self
        · exact (ih h).imp_right (List.mem_cons_of_mem _)

theorem sorted_add_query {key value : List Char} {query : Query} (h : Sorted query) :
    Sorted (add_query key value query) := by
  induction query with
  | nil => exact List.pairwise_singleton _ _
  | cons q query ih =>
    obtain ⟨k, v⟩ := q
    obtain ⟨hfirst, hrest⟩ := List.pairwise_cons.mp h
    unfold add_query
    split
    · rename_i heq
      rw [heq]
      exact List.pairwise_cons.mpr ⟨hfirst, hrest⟩
    · rename_i hne
      split
      · rename_i hlt
        refine List.pairwise_cons.mpr ⟨fun p hp => ?_, h⟩
        rcases List.mem_cons.mp hp with rfl | hp
        · exact hlt
        · exact List.lt_trans hlt (hfirst p hp)
      · rename_i hnot
        refine List.pairwise_cons.mpr ⟨fun p hp => ?_, ih hrest⟩
        rcases mem_add_query hp with rfl | hp
        · exact (List.le_iff_lt_or_eq.mp (List.not_lt.mp hnot)).resolve_right (Ne.symm hne)
        · exact hfirst p hp

theorem add_query_last {key value : List Char} {query : Query} (h : ∀ p ∈ query, p.1 < key) :
    add_query key value query = query ++ [(key, value)] := by
  induction query with
  | nil => rfl
  | cons q query ih =>
    obtain ⟨hq, hrest⟩ := List.forall_mem_cons.mp h
    have hne : key ≠ q.1 := by
      rintro rfl
      exact List.lt_irrefl _ hq
    rw [add_query, if_neg hne, if_neg (List.lt_asymm hq), ih hrest, List.cons_append]

theorem add_pairs_sorted {query l : Query} (h : Sorted (query ++ l)) : add_pairs query l = query ++ l := by
  induction l generalizing query with
  | nil => rw [List.append_nil, add_pairs, List.foldl_nil]
  | cons p l ih =>
    have hlast : ∀ q ∈ query, q.1 < p.1 :=
      fun q hq => (List.pairwise_append.mp h).2.2 q hq p List.mem_cons_self
    have hstep : add_pairs query (p :: l) = add_pairs (add_query p.1 p.2 query) l := rfl
    rw [hstep, add_query_last hlast, ih (by simpa using h)]
    simp

/-- What the loop leaves. -/
structure Kept (query : Query) : Prop where
  sorted : Sorted query
  plain : ∀ p ∈ query, Plain p

theorem kept_add_pairs {query l : Query} (h : Kept query) (hl : ∀ p ∈ l, Plain p) :
    Kept (add_pairs query l) := by
  induction l generalizing query with
  | nil => exact h
  | cons p l ih =>
    obtain ⟨hp, hl⟩ := List.forall_mem_cons.mp hl
    refine ih ⟨sorted_add_query h.sorted, fun q hq => ?_⟩ hl
    rcases mem_add_query hq with rfl | hq
    · exact hp
    · exact h.plain q hq

theorem pairs_query_string {query : Query} (h : ∀ p ∈ query, Plain p) :
    pairs (query_string query) = query := by
  induction query with
  | nil => exact pairs_nil
  | cons p query ih =>
    obtain ⟨key, value⟩ := p
    obtain ⟨hp, hrest⟩ := List.forall_mem_cons.mp h
    have hpiece : ∀ c ∈ key ++ '=' :: value, separates c = false := by
      intro c hc
      simp only [List.mem_append, List.mem_cons] at hc
      rcases hc with hc | rfl | hc
      · exact (hp.key c hc).1
      · decide
      · exact (hp.value c hc).1
    have hvalue : '=' ∉ value := fun hc => (hp.value _ hc).2.2 rfl
    cases query with
    | nil =>
      rw [query_string]
      have happend := pairs_append hpiece (Or.inl rfl : Ends [])
      rw [List.append_nil, pairs_nil, List.append_nil, pair_eq hvalue] at happend
      exact happend
    | cons q query =>
      have happend := pairs_append hpiece (Or.inr ⟨'&', query_string (q :: query), rfl, by decide⟩)
      rw [pair_eq hvalue, pairs_cons (by decide), ih hrest] at happend
      exact happend

theorem query_round_trip {query : Query} (h : Kept query) :
    query_params ('?' :: query_string query).length ('?' :: query_string query) [] = query := by
  have hsorted : Sorted ([] ++ query) := h.sorted
  rw [query_params_eq le_rfl, pairs_cons (by decide), pairs_query_string h.plain, add_pairs_sorted hsorted,
    List.nil_append]

theorem query_string_noHash {query : Query} (h : ∀ p ∈ query, Plain p) : NoHash (query_string query) := by
  have hpair : ∀ {key value : List Char}, Plain (key, value) → NoHash (key ++ '=' :: value) := by
    intro key value hp
    refine NoHash.append (fun c hc => ?_) (List.forall_mem_cons.mpr ⟨by decide, fun c hc => ?_⟩)
    · simpa [noneOf] using (hp.key c hc).2
    · simpa [noneOf] using (hp.value c hc).2.1
  induction query with
  | nil => simp [query_string, NoHash]
  | cons p query ih =>
    obtain ⟨key, value⟩ := p
    obtain ⟨hp, hrest⟩ := List.forall_mem_cons.mp h
    cases query with
    | nil => exact hpair hp
    | cons q query => exact (hpair hp).append (List.forall_mem_cons.mpr ⟨by decide, ih hrest⟩)

/-! ## The parts of a printed uri -/

theorem takeWhile_append_stop {p : Char → Bool} {x t : List Char} (hx : ∀ c ∈ x, p c)
    (ht : ∀ c ∈ t.head?, p c = false) :
    (x ++ t).takeWhile p = x ∧ (x ++ t).dropWhile p = t := by
  cases t with
  | nil => exact ⟨by rw [List.append_nil, List.takeWhile_eq_self_iff.mpr hx], by
      rw [List.append_nil, List.dropWhile_eq_nil_iff.mpr hx]⟩
  | cons c t => exact takeWhile_append_cons hx (ht c rfl) t

theorem split_scheme_append {scheme : List Char} (hscheme : scheme ≠ [])
    (hscheme' : ∀ c ∈ scheme, noneOf [':', '/', '?', '#'] c) (t : List Char) :
    split_scheme (scheme ++ ':' :: t) = (scheme, t) := by
  obtain ⟨htake, hdrop⟩ :=
    takeWhile_append_cons hscheme' (by decide : noneOf [':', '/', '?', '#'] ':' = false) t
  rw [split_scheme, hdrop, htake]
  exact if_neg hscheme

theorem parts_text {scheme a path query fragment : List Char} (hscheme : scheme ≠ [])
    (hscheme' : ∀ c ∈ scheme, noneOf [':', '/', '?', '#'] c) (ha : ∀ c ∈ a, noneOf ['/', '?', '#'] c)
    (hpath : PathString.is_absolute path) (hpath' : ∀ c ∈ path, noneOf ['?', '#'] c)
    (hquery : ∀ c ∈ query.head?, c = '?') (hquery' : NoHash query)
    (hfragment : ∀ c ∈ fragment.head?, c = '#') :
    parts (scheme ++ [':', '/', '/'] ++ a ++ path ++ query ++ fragment) =
      ⟨scheme, a, path, query, fragment⟩ := by
  have htext : scheme ++ [':', '/', '/'] ++ a ++ path ++ query ++ fragment =
      scheme ++ ':' :: '/' :: '/' :: (a ++ (path ++ (query ++ fragment))) := by simp
  obtain ⟨p, rfl⟩ := List.head?_eq_some_iff.mp hpath
  have hsplit := split_scheme_append hscheme hscheme' ('/' :: '/' :: (a ++ ('/' :: p ++ (query ++ fragment))))
  have hauthority : split_authority ('/' :: '/' :: (a ++ ('/' :: p ++ (query ++ fragment)))) =
      (a, '/' :: p ++ (query ++ fragment)) := by
    obtain ⟨htake, hdrop⟩ := takeWhile_append_cons ha (by decide : noneOf ['/', '?', '#'] '/' = false)
      (p ++ (query ++ fragment))
    exact Prod.ext htake hdrop
  have hafter_path := takeWhile_append_stop hpath' (t := query ++ fragment) fun c hc => by
    rw [List.head?_append] at hc
    cases query with
    | nil =>
      rw [hfragment c (by simpa using hc)]
      decide
    | cons d query =>
      rw [hquery c (by simpa using hc)]
      decide
  have hafter_query := takeWhile_append_stop hquery' (t := fragment) fun c hc => by
    rw [hfragment c hc]
    decide
  rw [htext, parts]
  simp only [hsplit, hauthority, hafter_path, hafter_query]

/-! ## The uri of a text, and of what it prints -/

/-- What `build` does with the parts of the authority. -/
def Builder.auth (b : Builder) : Option Authority :=
  if b.host ≠ [] then some ⟨b.host, b.user, b.password, b.port⟩ else none

/-- The uri that `uri::from` makes. -/
def parsed (s : List Char) (auth : Option Authority) : Uri :=
  { scheme := (parts s).scheme
    auth := auth
    path := PathString.canonical (parts s).path
    query := add_pairs [] (pairs (parts s).query)
    fragment := (parts s).fragment.tail }

theorem from_string_empty {s : List Char} {b : Builder} (h : ∀ c ∈ (parts s).fragment, dot c)
    (hb : with_authority {} (parts s).authority = .ok b)
    (hempty : (parts s).scheme = [] ∨ (parts s).path = []) :
    from_string s = .error .exception := by
  rw [from_string_parts h, hb]
  exact if_pos hempty

theorem from_string_parsed {s : List Char} {b : Builder} (h : ∀ c ∈ (parts s).fragment, dot c)
    (hb : with_authority {} (parts s).authority = .ok b)
    (hempty : ¬ ((parts s).scheme = [] ∨ (parts s).path = [])) :
    from_string s = .ok (parsed s b.auth) := by
  rw [from_string_parts h, hb, parsed, ← query_params_eq le_rfl]
  exact if_neg hempty

theorem scheme_noneOf (s : List Char) : ∀ c ∈ (parts s).scheme, noneOf [':', '/', '?', '#'] c := by
  intro c hc
  have hc : c ∈ (split_scheme s).1 := hc
  unfold split_scheme at hc
  split at hc
  · split at hc
    · cases hc
    · exact List.mem_takeWhile_imp hc
  · cases hc

theorem authority_noneOf (s : List Char) : ∀ c ∈ (parts s).authority, noneOf ['/', '?', '#'] c := by
  intro c hc
  have hc : c ∈ (split_authority (split_scheme s).2).1 := hc
  unfold split_authority at hc
  split at hc
  · exact List.mem_takeWhile_imp hc
  · cases hc

theorem kept_parsed (s : List Char) (auth : Option Authority) : Kept (parsed s auth).query := by
  refine kept_add_pairs ⟨List.Pairwise.nil, by simp⟩ (mem_pairs le_rfl fun hc => ?_)
  have hhash : '#' ∈ ((split_authority (split_scheme s).2).2.dropWhile (noneOf ['?', '#'])).takeWhile
      (noneOf ['#']) := hc
  exact absurd (List.mem_takeWhile_imp hhash) (by decide)

/-- After an authority, the path is absolute or there is none. -/
theorem path_after_authority {t : List Char} :
    let path := (split_authority ('/' :: '/' :: t)).2.takeWhile (noneOf ['?', '#'])
    path = [] ∨ PathString.is_absolute path := by
  have hsplit : (split_authority ('/' :: '/' :: t)).2 = t.dropWhile (noneOf ['/', '?', '#']) := rfl
  rw [hsplit]
  dsimp only
  cases h : t.dropWhile (noneOf ['/', '?', '#']) with
  | nil => exact Or.inl rfl
  | cons c l =>
    have hhead := List.head_dropWhile_not (noneOf ['/', '?', '#']) (by rw [h]; simp : t.dropWhile _ ≠ [])
    simp only [h, List.head_cons] at hhead
    by_cases hslash : c = '/'
    · right
      rw [hslash, List.takeWhile_cons_of_pos (by decide), PathString.is_absolute, List.head?_cons]
    · left
      refine List.takeWhile_cons_of_neg ?_
      simp only [noneOf, List.mem_cons, List.not_mem_nil, or_false, decide_eq_false_iff_not, not_not] at hhead
      simp only [noneOf, List.mem_cons, List.not_mem_nil, or_false, decide_eq_true_eq, not_not]
      tauto

theorem path_printed (s : List Char) : ∀ c ∈ PathString.canonical (parts s).path, noneOf ['?', '#'] c := by
  intro c hc
  rcases PathString.mem_canonical hc with hc | rfl
  · have hc : c ∈ (split_authority (split_scheme s).2).2.takeWhile (noneOf ['?', '#']) := hc
    exact List.mem_takeWhile_imp hc
  · decide

theorem from_string_ok_path {s : List Char} {u : Uri} (h : from_string s = .ok u) :
    (parts s).path ≠ [] ∧ u.path = PathString.canonical (parts s).path := by
  by_cases hdot : ∀ c ∈ (parts s).fragment, dot c
  · cases hb : with_authority {} (parts s).authority with
    | error e =>
      rw [from_string_parts hdot, hb] at h
      cases h
    | ok b =>
      by_cases hempty : (parts s).scheme = [] ∨ (parts s).path = []
      · rw [from_string_empty hdot hb hempty] at h
        cases h
      · rw [from_string_parsed hdot hb hempty] at h
        cases h
        exact ⟨fun hnil => hempty (Or.inr hnil), rfl⟩
  · rw [from_string_line_break hdot] at h
    cases h

/-- What is printed has the path after `//`. -/
theorem relative_not_reparsed {s : List Char} {auth : Option Authority} (hscheme : (parts s).scheme ≠ [])
    (hrelative : ¬ PathString.is_absolute (parts s).path) :
    from_string (to_string (parsed s auth)) ≠ .ok (parsed s auth) := by
  intro h
  obtain ⟨hne, hpath⟩ := from_string_ok_path h
  have habsolute : PathString.is_absolute (parts (to_string (parsed s auth))).path := by
    obtain ⟨t, ht⟩ : ∃ t, to_string (parsed s auth) = (parts s).scheme ++ ':' :: '/' :: '/' :: t := by
      simp only [to_string, List.append_assoc]
      exact ⟨_, rfl⟩
    have hsplit := split_scheme_append hscheme (scheme_noneOf s) ('/' :: '/' :: t)
    have hafter := path_after_authority (t := t)
    rw [← ht] at hsplit
    have hparts : (parts (to_string (parsed s auth))).path =
        (split_authority ('/' :: '/' :: t)).2.takeWhile (noneOf ['?', '#']) := by
      simp only [parts, hsplit]
    rw [← hparts] at hafter
    exact hafter.resolve_left hne
  rw [← (PathString.canonical_parts _).2.1, ← hpath] at habsolute
  exact hrelative ((PathString.canonical_parts _).2.1.mp habsolute)

/-- A uri whose text has the parts it was printed from. -/
structure Printable (u : Uri) : Prop where
  scheme : u.scheme ≠ [] ∧ ∀ c ∈ u.scheme, noneOf [':', '/', '?', '#'] c
  authority : ∀ c ∈ u.auth.elim [] authority_string, noneOf ['/', '?', '#'] c
  path : u.path.is_absolute ∧ ∀ c ∈ u.path, noneOf ['?', '#'] c
  canonical : u.path.canonical = u.path
  query : Kept u.query
  fragment : ∀ c ∈ u.fragment, dot c

theorem parts_to_string {u : Uri} (h : Printable u) : parts (to_string u) =
    ⟨u.scheme, u.auth.elim [] authority_string, u.path, if u.query ≠ [] then '?' :: query_string u.query
      else [],
      if u.fragment ≠ [] then '#' :: u.fragment else []⟩ := by
  refine parts_text h.scheme.1 h.scheme.2 h.authority h.path.1 h.path.2 (fun c hc => ?_) ?_ fun c hc => ?_
  · split at hc
    · exact (Option.some.inj hc).symm
    · cases hc
  · split
    · exact List.forall_mem_cons.mpr ⟨by decide, query_string_noHash h.query.plain⟩
    · simp [NoHash]
  · split at hc
    · exact (Option.some.inj hc).symm
    · cases hc

/-- Only the authority is left to be compared. -/
theorem from_string_to_string {u : Uri} (h : Printable u) : from_string (to_string u) =
    (with_authority {} (u.auth.elim [] authority_string)).bind fun b => .ok { u with auth := b.auth } := by
  have hparts := parts_to_string h
  have hdot : ∀ c ∈ (parts (to_string u)).fragment, dot c := by
    rw [hparts]
    intro c hc
    dsimp only at hc
    split at hc
    · rcases List.mem_cons.mp hc with rfl | hc
      · decide
      · exact h.fragment c hc
    · cases hc
  have hpath : u.path ≠ [] := by
    obtain ⟨t, ht⟩ := List.head?_eq_some_iff.mp h.path.1
    rw [ht]
    simp
  have hquery : add_pairs [] (pairs (if u.query ≠ [] then '?' :: query_string u.query else [])) =
      u.query := by
    split
    · rw [← query_params_eq le_rfl, query_round_trip h.query]
    · rename_i hnil
      rw [not_not.mp hnil]
      rfl
  have hfragment : (if u.fragment ≠ [] then '#' :: u.fragment else []).tail = u.fragment := by
    split
    · rfl
    · rename_i hnil
      rw [not_not.mp hnil]
      rfl
  cases hb : with_authority {} (u.auth.elim [] authority_string) with
  | error e =>
    rw [from_string_parts hdot, hparts, hb]
    rfl
  | ok b =>
    rw [from_string_parsed hdot (by rw [hparts, hb]) (by rw [hparts]; simp [h.scheme.1, hpath]), parsed,
      hparts]
    simp only [hquery, hfragment, h.canonical]
    rfl

theorem printable_parsed {s : List Char} {auth : Option Authority} (hscheme : (parts s).scheme ≠ [])
    (habsolute : PathString.is_absolute (parts s).path) (hdot : ∀ c ∈ (parts s).fragment, dot c)
    (hauth : ∀ c ∈ auth.elim [] authority_string, noneOf ['/', '?', '#'] c) : Printable (parsed s auth) where
  scheme := ⟨hscheme, scheme_noneOf s⟩
  authority := hauth
  path := ⟨(PathString.canonical_parts _).2.1.mpr habsolute, path_printed s⟩
  canonical := PathString.canonical_canonical _
  query := kept_parsed s auth
  fragment := fun c hc => hdot c (List.mem_of_mem_tail hc)

/-! ## The text of an authority -/

/-- The text of an authority makes the authority. -/
def AuthorityStable (auth : Option Authority) : Prop :=
  ∃ b, with_authority {} (auth.elim [] authority_string) = .ok b ∧ b.auth = auth

theorem reparsed_iff {s : List Char} {auth : Option Authority} (hscheme : (parts s).scheme ≠ [])
    (habsolute : PathString.is_absolute (parts s).path) (hdot : ∀ c ∈ (parts s).fragment, dot c)
    (hauth : ∀ c ∈ auth.elim [] authority_string, noneOf ['/', '?', '#'] c) :
    from_string (to_string (parsed s auth)) = .ok (parsed s auth) ↔ AuthorityStable auth := by
  rw [from_string_to_string (printable_parsed hscheme habsolute hdot hauth), AuthorityStable]
  have hauth' : (parsed s auth).auth = auth := rfl
  rw [hauth']
  cases with_authority {} (auth.elim [] authority_string) with
  | error e =>
    constructor
    · intro h
      cases h
    · rintro ⟨b, hb, -⟩
      cases hb
  | ok b =>
    constructor
    · intro h
      have hok : ({ parsed s auth with auth := b.auth } : Uri) = parsed s auth := Except.ok.inj h
      exact ⟨b, rfl, congrArg Uri.auth hok⟩
    · rintro ⟨b', hb, hauth⟩
      rw [← Except.ok.inj hb] at hauth
      rw [← hauth]
      rfl

/-- No password, hence no `:` before an `@`. -/
theorem not_credentials {x tail digits : List Char} (hx : ':' ∉ x)
    (htail : tail = [] ∧ digits = [] ∨ tail = ':' :: digits) (hdigits : ∀ c ∈ digits, c.isDigit)
    (user password host digits' : List Char) :
    ¬ Credentials (x ++ tail) user password host digits' := by
  rintro ⟨⟨tail', htext, -⟩, -⟩
  exact no_at_after_port hx htail hdigits htext (by simp)

theorem authorityStable_none : AuthorityStable none := by
  have hplain := with_authority_plain (not_credentials List.not_mem_nil (Or.inl ⟨rfl, rfl⟩) (by simp)) {}
  exact ⟨_, hplain, rfl⟩

theorem authorityStable_plain {a : List Char}
    (h : ∀ user password host digits, ¬ Credentials a user password host digits) :
    AuthorityStable (Builder.auth { host := a }) := by
  by_cases ha : a = []
  · rw [Builder.auth, if_neg (by simpa using ha)]
    exact authorityStable_none
  · rw [Builder.auth, if_pos ha]
    have htext : authority_string ⟨a, [], [], none⟩ = a := by simp [authority_string]
    refine ⟨{ host := a }, ?_, if_pos ha⟩
    rw [Option.elim_some, htext]
    exact with_authority_plain h {}

/-- The digits that a port is printed with. -/
def port_digits (digits : List Char) : List Char := (port digits).elim [] (Nat.toDigits 10)

theorem port_text (digits : List Char) :
    ∃ tail, (port digits).elim [] (fun n => ':' :: Nat.toDigits 10 n) = tail ∧
    (tail = [] ∧ port_digits digits = [] ∨ tail = ':' :: port_digits digits) ∧ (tail = [] ↔ digits = []) := by
  unfold port_digits port
  split
  · rename_i h
    exact ⟨[], rfl, Or.inl ⟨rfl, rfl⟩, by simp [h]⟩
  · rename_i h
    exact ⟨_, rfl, Or.inr rfl, by simp [h]⟩

theorem port_digits_isDigit (digits : List Char) : ∀ c ∈ port_digits digits, c.isDigit := by
  intro c hc
  unfold port_digits at hc
  cases hport : port digits with
  | none =>
    rw [hport] at hc
    cases hc
  | some n =>
    rw [hport] at hc
    exact Nat.isDigit_of_mem_toDigits (by omega) (by omega) hc

theorem port_port_digits (digits : List Char) : port (port_digits digits) = port digits := by
  unfold port_digits
  by_cases h : digits = []
  · rw [h]
    rfl
  · have hport : port digits = some (Nat.ofDigitChars 10 digits 0) := if_neg h
    rw [hport, Option.elim_some, port, if_neg Nat.toDigits_ne_nil, Nat.ofDigitChars_toDigits (by omega)
      (by omega)]

theorem ofDigitChars_port_digits (digits : List Char) :
    Nat.ofDigitChars 10 (port_digits digits) 0 = Nat.ofDigitChars 10 digits 0 := by
  unfold port_digits port
  split
  · rename_i h
    rw [h]
    rfl
  · exact Nat.ofDigitChars_toDigits (by omega) (by omega)

theorem with_authority_new {a user password host digits : List Char}
    (h : Credentials a user password host digits) :
    with_authority {} a = if Nat.ofDigitChars 10 digits 0 < 0x80000000 then
        .ok { host := host, user := user, password := password, port := port digits }
      else .error .out_of_range := by
  have hport : (if digits = [] then none else port digits) = port digits := by
    split
    · rename_i hnil
      rw [hnil]
      rfl
    · rfl
  rw [with_authority_credentials h, hport]

/-- Without a user, the text is the host and its port. -/
theorem authorityStable_no_user {host password digits : List Char} (hcolon : ':' ∉ host) (hhost : host ≠ []) :
    AuthorityStable (some ⟨host, [], password, port digits⟩) ↔ password = [] ∧ digits = [] := by
  obtain ⟨tail, htail, hform, hnil⟩ := port_text digits
  have htext : authority_string ⟨host, [], password, port digits⟩ = host ++ tail := by
    simp [authority_string, htail]
  have hplain := with_authority_plain (not_credentials hcolon hform (port_digits_isDigit digits)) {}
  have hauth : Builder.auth { host := host ++ tail } = some ⟨host ++ tail, [], [], none⟩ :=
    if_pos (by simp [hhost])
  unfold AuthorityStable
  rw [Option.elim_some, htext, hplain]
  constructor
  · rintro ⟨b, hb, hstable⟩
    rw [← Except.ok.inj hb, hauth, Option.some.injEq, Authority.mk.injEq] at hstable
    obtain ⟨heq, -, hpassword, -⟩ := hstable
    exact ⟨hpassword.symm, hnil.mp (by simpa using heq)⟩
  · rintro ⟨rfl, rfl⟩
    refine ⟨_, rfl, ?_⟩
    rw [hauth, hnil.mpr rfl, List.append_nil]
    rfl

/-- A user without a password is taken for a part of the host, or for something longer. -/
theorem not_authorityStable_user {host user digits : List Char} (huser : user ≠ []) :
    ¬ AuthorityStable (some ⟨host, user, [], port digits⟩) := by
  rintro ⟨b, hb, hauth⟩
  rw [Option.elim_some] at hb
  have htext : ∃ t, authority_string ⟨host, user, [], port digits⟩ = user ++ '@' :: t := by
    refine ⟨host ++ (port digits).elim [] fun n => ':' :: Nat.toDigits 10 n, ?_⟩
    simp [authority_string, huser]
  obtain ⟨t, ht⟩ := htext
  rw [ht] at hb
  have hb_user : b.user = user ∧ b.password = [] := by
    unfold Builder.auth at hauth
    split at hauth
    · rw [Option.some.injEq, Authority.mk.injEq] at hauth
      exact ⟨hauth.2.1, hauth.2.2.1⟩
    · cases hauth
  by_cases hcredentials : ∃ user' password host digits,
    Credentials (user ++ '@' :: t) user' password host digits
  · obtain ⟨user', password, host, digits, h⟩ := hcredentials
    rw [with_authority_new h] at hb
    split at hb
    · rw [← Except.ok.inj hb] at hb_user
      obtain ⟨⟨tail, htext, -⟩, -⟩ := h
      obtain ⟨rfl, rfl⟩ : user' = user ∧ password = [] := hb_user
      rw [List.append_cancel_left_eq] at htext
      exact absurd (List.cons.inj htext).1 (by decide)
    · cases hb
  · rw [with_authority_plain (by simpa using hcredentials)] at hb
    rw [← Except.ok.inj hb] at hb_user
    exact huser hb_user.1.symm

theorem authorityStable_user {a host user password digits : List Char}
    (h : Credentials a user password host digits) (hport : Nat.ofDigitChars 10 digits 0 < 0x80000000)
    (hhost : host ≠ []) (huser : user ≠ []) (hpassword : password ≠ []) :
    AuthorityStable (some ⟨host, user, password, port digits⟩) := by
  obtain ⟨tail, htail, hform, -⟩ := port_text digits
  have hprinted : Credentials (authority_string ⟨host, user, password, port digits⟩) user password host
      (port_digits digits) := by
    refine ⟨⟨tail, ?_, hform⟩, h.user, h.password, h.host, port_digits_isDigit digits⟩
    simp [authority_string, htail, huser, hpassword]
  refine ⟨{ host := host, user := user, password := password, port := port digits }, ?_, if_pos hhost⟩
  rw [Option.elim_some, with_authority_new hprinted, if_pos (by rwa [ofDigitChars_port_digits]),
    port_port_digits]

/-- What the printed form of an authority keeps. -/
def Keeps (user password host digits : List Char) : Prop :=
  host = [] ∨ (user = [] ∧ password = [] ∧ digits = []) ∨ (user ≠ [] ∧ password ≠ [])

theorem authorityStable_credentials {a user password host digits : List Char}
    (h : Credentials a user password host digits) (hport : Nat.ofDigitChars 10 digits 0 < 0x80000000) :
    AuthorityStable (Builder.auth { host := host, user := user, password := password, port := port digits }) ↔
      Keeps user password host digits := by
  by_cases hhost : host = []
  · rw [Builder.auth, if_neg (not_not.mpr hhost)]
    exact iff_of_true authorityStable_none (Or.inl hhost)
  rw [Builder.auth, if_pos hhost]
  by_cases huser : user = []
  · subst huser
    rw [authorityStable_no_user h.host.1 hhost]
    simp [Keeps, hhost]
  · by_cases hpassword : password = []
    · subst hpassword
      exact iff_of_false (not_authorityStable_user huser) (by simp [Keeps, hhost, huser])
    · exact iff_of_true (authorityStable_user h hport hhost huser hpassword)
        (Or.inr (Or.inr ⟨huser, hpassword⟩))

theorem authority_string_noneOf {a user password host digits : List Char}
    (h : Credentials a user password host digits) (ha : ∀ c ∈ a, noneOf ['/', '?', '#'] c) :
    ∀ c ∈ (Builder.auth { host := host, user := user, password := password, port := port digits }).elim
      [] authority_string,
      noneOf ['/', '?', '#'] c := by
  obtain ⟨tail, htail, hform, -⟩ := port_text digits
  have htail' : ∀ c ∈ tail, noneOf ['/', '?', '#'] c := by
    rcases hform with ⟨rfl, -⟩ | rfl
    · simp
    · refine List.forall_mem_cons.mpr ⟨by decide, fun c hc => ?_⟩
      have hdigit := port_digits_isDigit digits c hc
      simp only [noneOf, List.mem_cons, List.not_mem_nil, or_false, decide_eq_true_eq]
      rintro (rfl | rfl | rfl) <;> exact absurd hdigit (by decide)
  have hcolon : noneOf ['/', '?', '#'] ':' := by decide
  have hat : noneOf ['/', '?', '#'] '@' := by decide
  obtain ⟨⟨tail', rfl, -⟩, -⟩ := h
  simp only [List.forall_mem_append, List.forall_mem_cons] at ha
  obtain ⟨huser, -, hpassword, -, hhost, -⟩ := ha
  unfold Builder.auth
  split
  · rw [Option.elim_some, authority_string]
    simp only [htail, List.forall_mem_append]
    refine ⟨⟨?_, hhost⟩, htail'⟩
    split
    · simp only [List.forall_mem_append, List.forall_mem_singleton]
      refine ⟨⟨huser, ?_⟩, hat⟩
      split
      · exact List.forall_mem_cons.mpr ⟨hcolon, hpassword⟩
      · simp
    · simp
  · simp

/-! ## All texts -/

/-- The text of a uri is a text of the same uri. -/
def Stable (s : List Char) : Prop :=
  from_string s = .error .exception ∨ ∃ u, from_string s = .ok u ∧ from_string (to_string u) = .ok u

structure Prints (s : List Char) : Prop where
  port : ∀ user password host digits, Credentials (parts s).authority user password host digits →
    Nat.ofDigitChars 10 digits 0 < 0x80000000
  kept : (parts s).scheme = [] ∨ (parts s).path = [] ∨ PathString.is_absolute (parts s).path ∧
    ∀ user password host digits, Credentials (parts s).authority user password host digits →
      Keeps user password host digits

theorem prints_credentials {s user password host digits : List Char}
    (h : Credentials (parts s).authority user password host digits) :
    Prints s ↔ Nat.ofDigitChars 10 digits 0 < 0x80000000 ∧ ((parts s).scheme = [] ∨ (parts s).path = [] ∨
      PathString.is_absolute (parts s).path ∧ Keeps user password host digits) := by
  constructor
  · rintro ⟨hport, hkept⟩
    refine ⟨hport _ _ _ _ h, hkept.imp_right (Or.imp_right ?_)⟩
    rintro ⟨habsolute, hkeeps⟩
    exact ⟨habsolute, hkeeps _ _ _ _ h⟩
  · rintro ⟨hport, hkept⟩
    refine ⟨fun user' password' host' digits' h' => ?_, hkept.imp_right (Or.imp_right ?_)⟩
    · obtain ⟨-, -, -, rfl⟩ := h.unique h'
      exact hport
    · rintro ⟨habsolute, hkeeps⟩
      refine ⟨habsolute, fun user' password' host' digits' h' => ?_⟩
      obtain ⟨rfl, rfl, rfl, rfl⟩ := h.unique h'
      exact hkeeps

theorem prints_plain {s : List Char}
    (h : ∀ user password host digits, ¬ Credentials (parts s).authority user password host digits) :
    Prints s ↔ (parts s).scheme = [] ∨ (parts s).path = [] ∨ PathString.is_absolute (parts s).path := by
  constructor
  · rintro ⟨-, hkept⟩
    exact hkept.imp_right (Or.imp_right And.left)
  · intro hkept
    exact ⟨fun _ _ _ _ h' => absurd h' (h _ _ _ _), hkept.imp_right (Or.imp_right fun habsolute =>
      ⟨habsolute, fun _ _ _ _ h' => absurd h' (h _ _ _ _)⟩)⟩

/-- Where the parts make a uri, its printed form decides. -/
theorem stable_iff_reparsed {s : List Char} {b : Builder} (hdot : ∀ c ∈ (parts s).fragment, dot c)
    (hb : with_authority {} (parts s).authority = .ok b)
    (hauth : ∀ c ∈ b.auth.elim [] authority_string, noneOf ['/', '?', '#'] c) :
    Stable s ↔ (parts s).scheme = [] ∨ (parts s).path = [] ∨ PathString.is_absolute (parts s).path ∧
      AuthorityStable b.auth := by
  by_cases hempty : (parts s).scheme = [] ∨ (parts s).path = []
  · exact iff_of_true (Or.inl (from_string_empty hdot hb hempty)) (or_assoc.mp (Or.inl hempty))
  · rw [← or_assoc, or_iff_right hempty]
    have hscheme : (parts s).scheme ≠ [] := fun hnil => hempty (Or.inl hnil)
    have hparsed := from_string_parsed hdot hb hempty
    have hstable : Stable s ↔ from_string (to_string (parsed s b.auth)) = .ok (parsed s b.auth) := by
      unfold Stable
      rw [hparsed]
      constructor
      · rintro (h | ⟨u, hu, h⟩)
        · cases h
        · cases hu
          exact h
      · intro h
        exact Or.inr ⟨_, rfl, h⟩
    rw [hstable]
    by_cases habsolute : PathString.is_absolute (parts s).path
    · rw [reparsed_iff hscheme habsolute hdot hauth]
      simp [habsolute]
    · exact iff_of_false (relative_not_reparsed hscheme habsolute) fun h => habsolute h.1

theorem stable_credentials {s user password host digits : List Char} (hdot : ∀ c ∈ (parts s).fragment, dot c)
    (h : Credentials (parts s).authority user password host digits) :
    Stable s ↔ Nat.ofDigitChars 10 digits 0 < 0x80000000 ∧ ((parts s).scheme = [] ∨ (parts s).path = [] ∨
      PathString.is_absolute (parts s).path ∧ Keeps user password host digits) := by
  have hb := with_authority_new h
  by_cases hport : Nat.ofDigitChars 10 digits 0 < 0x80000000
  · rw [if_pos hport] at hb
    rw [stable_iff_reparsed hdot hb (authority_string_noneOf h (authority_noneOf s)),
      authorityStable_credentials h hport,
      and_iff_right hport]
  · rw [if_neg hport] at hb
    have hrange : from_string s = .error .out_of_range := by
      rw [from_string_parts hdot, hb]
      rfl
    refine iff_of_false ?_ fun hall => hport hall.1
    rintro (herror | ⟨u, hu, -⟩)
    · rw [hrange] at herror
      cases herror
    · rw [hrange] at hu
      cases hu

theorem stable_plain {s : List Char} (hdot : ∀ c ∈ (parts s).fragment, dot c)
    (h : ∀ user password host digits, ¬ Credentials (parts s).authority user password host digits) :
    Stable s ↔ (parts s).scheme = [] ∨ (parts s).path = [] ∨ PathString.is_absolute (parts s).path := by
  have hb := with_authority_plain h {}
  have hauth : ∀ c ∈ (Builder.auth { host := (parts s).authority }).elim [] authority_string,
      noneOf ['/', '?', '#'] c := by
    unfold Builder.auth
    split
    · simpa [authority_string] using authority_noneOf s
    · simp
  rw [stable_iff_reparsed hdot hb hauth]
  simp [authorityStable_plain h]

theorem stable_iff_prints (s : List Char) :
    Stable s ↔ (∃ c ∈ (parts s).fragment, dot c = false) ∨ Prints s := by
  by_cases hdot : ∀ c ∈ (parts s).fragment, dot c
  · have hnone : ¬ ∃ c ∈ (parts s).fragment, dot c = false := by
      rintro ⟨c, hc, hfalse⟩
      rw [hdot c hc] at hfalse
      cases hfalse
    rw [or_iff_right hnone]
    by_cases hcredentials : ∃ user password host digits,
      Credentials (parts s).authority user password host digits
    · obtain ⟨user, password, host, digits, h⟩ := hcredentials
      rw [prints_credentials h]
      exact stable_credentials hdot h
    · have hplain : ∀ user password host digits,
        ¬ Credentials (parts s).authority user password host digits := by
        simpa using hcredentials
      rw [prints_plain hplain]
      exact stable_plain hdot hplain
  · refine iff_of_true (Or.inl (from_string_line_break hdot)) (Or.inl ?_)
    simpa using hdot

/-- `c:a` is printed as `c://a`. -/
theorem relative_path_is_host : ¬ ∀ s, Stable s := by
  intro h
  have hparsed : from_string ['c', ':', 'a'] = .ok ⟨['c'], none, ['a'], [], []⟩ := by decide
  have hprinted : from_string (to_string ⟨['c'], none, ['a'], [], []⟩) = .error .exception := by decide
  rcases h ['c', ':', 'a'] with herror | ⟨u, hu, hagain⟩
  · rw [hparsed] at herror
    cases herror
  · rw [hparsed] at hu
    cases hu
    rw [hprinted] at hagain
    cases hagain

end Uri

end Chord
