import Chord.Path
import Chord.Lib.Regex

/-! # Uris (`chord.uri.cc`, `chord.utils.cc`) -/

namespace Chord

structure Authority where
  host : List Char
  user : List Char
  password : List Char
  port : Option Nat
  deriving DecidableEq

/-- A `std::map` is the list of its pairs, in the order of their keys. -/
abbrev Query := List (List Char × List Char)

structure Uri where
  scheme : List Char
  auth : Option Authority
  path : PathString
  query : Query
  fragment : List Char
  deriving DecidableEq

/-- `chord::exception`, and the one of `std::stoi`. -/
inductive UriError where
  | exception
  | out_of_range
  deriving DecidableEq

namespace Uri

/-! ## The builder -/

structure Builder where
  scheme : List Char := []
  fragment : List Char := []
  user : List Char := []
  password : List Char := []
  host : List Char := []
  path : PathString := []
  port : Option Nat := none
  query : Query := []

/-- `_query[key] = value`. -/
def add_query (key value : List Char) : Query → Query
  | [] => [(key, value)]
  | (k, v) :: query =>
    if key = k then (key, value) :: query
    else if key < k then (key, value) :: (k, v) :: query
    else (k, v) :: add_query key value query

def Builder.build (b : Builder) : Except UriError Uri :=
  if b.scheme = [] ∨ b.path = [] then .error .exception
  else .ok {
    scheme := b.scheme
    path := b.path.canonical
    auth := if b.host ≠ [] then some ⟨b.host, b.user, b.password, b.port⟩ else none
    query := b.query
    fragment := b.fragment }

/-! ## Parsing -/

/-- What `.` matches. -/
def dot (c : Char) : Bool := c ≠ Char.ofNat 10 ∧ c ≠ Char.ofNat 13

/-- `[^...]`. -/
def noneOf (l : List Char) (c : Char) : Bool := c ∉ l

def is (c : Char) : Regex := .one (· = c)

/-- `uri::pattern`: `^(([^:/?#]+):)?(//([^/?#]*))?([^?#]*)?([^#]*)?(#(.*))?`. -/
def pattern : Regex :=
  .seq .bos
    (.seq (.opt (.group 1 (.seq (.group 2 (.plus (noneOf [':', '/', '?', '#']))) (is ':'))))
      (.seq (.opt (.group 3 (.seq (is '/') (.seq (is '/') (.group 4 (.star (noneOf ['/', '?', '#'])))))))
        (.seq (.opt (.group 5 (.star (noneOf ['?', '#']))))
          (.seq (.opt (.group 6 (.star (noneOf ['#']))))
            (.opt (.group 7 (.seq (is '#') (.group 8 (.star dot)))))))))

/-- `^(.*):(.*)@([^:]*)?[:]?([0-9]*)?$`. -/
def auth_reg : Regex :=
  .seq .bos
    (.seq (.group 1 (.star dot)) (.seq (is ':') (.seq (.group 2 (.star dot)) (.seq (is '@')
      (.seq (.opt (.group 3 (.star (noneOf [':'])))) (.seq (.opt (is ':'))
        (.seq (.opt (.group 4 (.star Char.isDigit))) .eos)))))))

/-- `([^?&]*)=([^?&]*)`. -/
def query_reg : Regex :=
  .seq (.group 1 (.star (noneOf ['?', '&']))) (.seq (is '=') (.group 2 (.star (noneOf ['?', '&']))))

/-- `std::stoi`, for digits. -/
def stoi (s : List Char) : Except UriError Nat :=
  let port := Nat.ofDigitChars 10 s 0
  if port < 0x80000000 then .ok port else .error .out_of_range

def with_authority (b : Builder) (authority : List Char) : Except UriError Builder :=
  match if Regex.isMatch auth_reg authority then Regex.search auth_reg authority else none with
  | some (auth_match, _) => do
    let b := { b with
      user := Regex.str auth_match 1
      password := Regex.str auth_match 2
      host := Regex.str auth_match 3 }
    if Regex.str auth_match 4 ≠ [] then
      let port ← stoi (Regex.str auth_match 4)
      .ok { b with port := some port }
    else .ok b
  | none => .ok { b with host := authority }

/-- The loop over the query. A match takes a `=` with it, so the length of the query suffices. -/
def query_params : Nat → List Char → Query → Query
  | 0, _, query => query
  | fuel + 1, s, query =>
    match Regex.search query_reg s with
    | none => query
    | some (query_matches, rest) =>
      query_params fuel rest (add_query (Regex.str query_matches 1) (Regex.str query_matches 2) query)

/-- `uri::from`. -/
def from_string (str : List Char) : Except UriError Uri :=
  match if Regex.isMatch pattern str then Regex.search pattern str else none with
  | none => .error .exception
  | some (found, _) => do
    let b ← with_authority {} (Regex.str found 4)
    let query := Regex.str found 6
    { b with
      query := query_params query.length query []
      scheme := Regex.str found 2
      path := Regex.str found 5
      fragment := Regex.str found 8 }.build

/-! ## Printing -/

/-- `operator<<` of an authority. -/
def authority_string (a : Authority) : List Char :=
  (if a.user ≠ [] then a.user ++ (if a.password ≠ [] then ':' :: a.password else []) ++ ['@'] else []) ++
    a.host ++ a.port.elim [] fun port => ':' :: Nat.toDigits 10 port

def query_string : Query → List Char
  | [] => []
  | [(key, value)] => key ++ '=' :: value
  | (key, value) :: query => key ++ '=' :: value ++ '&' :: query_string query

def to_string (u : Uri) : List Char :=
  u.scheme ++ [':', '/', '/'] ++ u.auth.elim [] authority_string ++ u.path ++
    (if u.query ≠ [] then '?' :: query_string u.query else []) ++
    (if u.fragment ≠ [] then '#' :: u.fragment else [])

/-- `utils::as_uri`. -/
def as_uri (p : PathString) : Uri :=
  { scheme := ['c', 'h', 'o', 'r', 'd'], auth := none, path := p.canonical, query := [], fragment := [] }

/-! ## The uri of a local path -/

theorem to_string_as_uri (p : LocalPath) :
    to_string (as_uri p.string) = ['c', 'h', 'o', 'r', 'd', ':', '/', '/'] ++ p.string := by
  simp [to_string, as_uri, p.canonical_string]

open Regex in
theorem first_scheme (len : Nat) (t : List Char) :
    First len (.opt (.group 1 (.seq (.group 2 (.plus (noneOf [':', '/', '?', '#']))) (is ':'))))
      (['c', 'h', 'o', 'r', 'd', ':'] ++ t)
      [(1, ['c', 'h', 'o', 'r', 'd', ':']), (2, ['c', 'h', 'o', 'r', 'd'])] t := by
  have hplus : First len (.plus (noneOf [':', '/', '?', '#'])) (['c', 'h', 'o', 'r', 'd'] ++ ':' :: t) []
      (':' :: t) := by
    have hdrop : (['h', 'o', 'r', 'd'] ++ ':' :: t).dropWhile (noneOf [':', '/', '?', '#']) = ':' :: t := by
      simp [noneOf]
    rw [← hdrop]
    exact First.plus (by decide)
  have hcolon : First len (is ':') (':' :: t) [] t := First.one (by decide)
  have hscheme : First len (.seq (.group 2 (.plus (noneOf [':', '/', '?', '#']))) (is ':'))
      (['c', 'h', 'o', 'r', 'd', ':'] ++ t) [(2, ['c', 'h', 'o', 'r', 'd'])] t :=
    (First.group hplus 2).seq hcolon
  exact First.opt (First.group hscheme 1)

open Regex in
theorem first_no_authority (len : Nat) {p : List Char} (hp : PathString.is_absolute p) :
    First len (.opt (.group 3 (.seq (is '/') (.seq (is '/') (.group 4 (.star (noneOf ['/', '?', '#'])))))))
      (['/', '/'] ++ p) [(3, ['/', '/']), (4, [])] p := by
  obtain ⟨s, rfl⟩ := List.head?_eq_some_iff.mp hp
  have hslash (t : List Char) : First len (is '/') ('/' :: t) [] t := First.one (by decide)
  have hstar : First len (.star (noneOf ['/', '?', '#'])) ([] ++ '/' :: s) [] ('/' :: s) := by
    have hdrop : ('/' :: s).dropWhile (noneOf ['/', '?', '#']) = '/' :: s := by simp [noneOf]
    exact (congrArg (First len _ _ _) hdrop).mp (First.star _ _)
  exact First.opt (First.group ((hslash _).seq ((hslash _).seq (First.group hstar 4))) 3)

open Regex in
/-- The fragment at the end never stops the search. -/
theorem first_fragment (len : Nat) (t : List Char) : ∃ found u,
    First len (.opt (.group 7 (.seq (is '#') (.group 8 (.star dot))))) t found u ∧
      (∀ g ∈ found, 7 ≤ g.1) ∧ (t = [] → u = [] ∧ found = []) := by
  have hskip : ∀ t : List Char, run len (.group 7 (.seq (is '#') (.group 8 (.star dot)))) t = [] →
      ∃ found u, First len (.opt (.group 7 (.seq (is '#') (.group 8 (.star dot))))) t found u ∧
        (∀ g ∈ found, 7 ≤ g.1) ∧ (t = [] → u = [] ∧ found = []) :=
    fun t hrun => ⟨[], t, First.skip hrun, by simp, fun ht => ⟨ht, rfl⟩⟩
  cases t with
  | nil => exact hskip [] rfl
  | cons c t =>
    by_cases hc : c = '#'
    · rw [hc]
      have hhash : First len (is '#') ('#' :: t) [] t := First.one (by decide)
      have hrest := hhash.seq (First.groupStar _ dot t 8)
      have hsplit : '#' :: t = ('#' :: t.takeWhile dot) ++ t.dropWhile dot := by
        rw [List.cons_append, List.takeWhile_append_dropWhile]
      rw [hsplit] at hrest ⊢
      exact ⟨_, _, First.opt (First.group hrest 7), by simp, by simp⟩
    · exact hskip _ (by simp [run, is, hc])

/-- What the pattern finds in the text of such a uri: the path ends where a query or a fragment
seems to begin. -/
theorem search_pattern {p : List Char} (hp : PathString.is_absolute p) : ∃ found t,
    Regex.First (['c', 'h', 'o', 'r', 'd', ':', '/', '/'] ++ p).length pattern
        (['c', 'h', 'o', 'r', 'd', ':', '/', '/'] ++ p) found t ∧
      Regex.str found 2 = ['c', 'h', 'o', 'r', 'd'] ∧ Regex.str found 4 = [] ∧
      Regex.str found 5 = p.takeWhile (noneOf ['?', '#']) ∧
      ((∀ c ∈ p, noneOf ['?', '#'] c) → t = [] ∧ Regex.str found 6 = [] ∧ Regex.str found 8 = []) := by
  let len := (['c', 'h', 'o', 'r', 'd', ':', '/', '/'] ++ p).length
  let afterPath := p.dropWhile (noneOf ['?', '#'])
  let afterQuery := afterPath.dropWhile (noneOf ['#'])
  obtain ⟨fragment, t, hfragment, hlow, hempty⟩ := first_fragment len afterQuery
  have hquery := Regex.First.opt (Regex.First.groupStar len (noneOf ['#']) afterPath 6)
  have hpath := Regex.First.opt (Regex.First.groupStar len (noneOf ['?', '#']) p 5)
  have hbegin : Regex.First len .bos (['c', 'h', 'o', 'r', 'd', ':'] ++ (['/', '/'] ++ p)) [] _ :=
    Regex.First.bos rfl
  have hall := hbegin.seq ((first_scheme len _).seq ((first_no_authority len hp).seq
    (hpath.seq (hquery.seq hfragment))))
  have hstr : ∀ i < 7, ∀ m, Regex.str (fragment ++ m) i = Regex.str m i := by
    intro i hi m
    have hnone : fragment.find? (fun g => g.1 = i) = none := by
      rw [List.find?_eq_none]
      intro g hg
      have := hlow g hg
      simp only [decide_eq_true_eq]
      omega
    rw [Regex.str, List.find?_append, hnone, Option.none_or, Regex.str]
  simp only [List.append_assoc] at hall
  refine ⟨_, t, hall, ?_, ?_, ?_, fun hno => ?_⟩
  · rw [hstr 2 (by omega)]
    rfl
  · rw [hstr 4 (by omega)]
    rfl
  · rw [hstr 5 (by omega)]
    rfl
  · have hpathend : afterPath = [] := List.dropWhile_eq_nil_iff.mpr hno
    have hqueryend : afterQuery = [] := congrArg (List.dropWhile _) hpathend
    obtain ⟨ht, rfl⟩ := hempty hqueryend
    refine ⟨ht, ?_, rfl⟩
    rw [hpathend]
    rfl

/-! ## The round trip -/

theorem from_string_error {str : List Char} (h : Regex.isMatch pattern str = false) :
    from_string str = .error .exception := by
  simp [from_string, h]

/-- A uri without authority in its text. -/
theorem from_string_ok {str : List Char} {found : Regex.Captures} {t : List Char}
    (hmatch : Regex.isMatch pattern str) (hfound : Regex.First str.length pattern str found t)
    (hauth : Regex.str found 4 = []) (hscheme : Regex.str found 2 ≠ []) (hpath : Regex.str found 5 ≠ []) :
    from_string str = .ok {
      scheme := Regex.str found 2
      auth := none
      path := PathString.canonical (Regex.str found 5)
      query := query_params (Regex.str found 6).length (Regex.str found 6) []
      fragment := Regex.str found 8 } := by
  have hnone : with_authority {} [] = .ok {} := by rfl
  simp only [from_string, if_pos hmatch, hfound.search, hauth, hnone]
  change Builder.build _ = _
  rw [Builder.build, if_neg (by simp [hscheme, hpath])]
  rfl

/-- The uri of a local path survives printing and parsing, as far as its path goes, where no name
has a character that begins a query or a fragment. -/
theorem as_uri_round_trip (p : LocalPath) :
    (∃ u, from_string (to_string (as_uri p.string)) = .ok u ∧ u.path = p.string) ↔
      ∀ n ∈ p.names, '?' ∉ n ∧ '#' ∉ n := by
  obtain ⟨s, hs⟩ := p.string_absolute
  have habs : p.string.is_absolute := by rw [PathString.is_absolute, hs, List.head?_cons]
  obtain ⟨found, t, hfound, hscheme, hauth, hpath, hrest⟩ := search_pattern habs
  have hpath_ne : Regex.str found 5 ≠ [] := by
    rw [hpath, hs, List.takeWhile_cons_of_pos (by decide)]
    simp
  have hscheme_ne : Regex.str found 2 ≠ [] := by rw [hscheme]; simp
  rw [to_string_as_uri]
  constructor
  · rintro ⟨u, hu, hup⟩
    -- the path that comes back has no such character
    have hmatch : Regex.isMatch pattern (['c', 'h', 'o', 'r', 'd', ':', '/', '/'] ++ p.string) := by
      by_contra hno
      rw [from_string_error (by simpa using hno)] at hu
      cases hu
    rw [from_string_ok hmatch hfound hauth hscheme_ne hpath_ne, Except.ok.injEq] at hu
    rw [← hu, hpath] at hup
    have hfree : ∀ c ∈ p.string, noneOf ['?', '#'] c := by
      intro c hc
      rw [← hup] at hc
      rcases PathString.mem_canonical hc with hc | rfl
      · exact List.mem_takeWhile_imp hc
      · decide
    intro n hn
    constructor
    · intro hc
      exact absurd (hfree '?' ((LocalPath.mem_string (by decide)).mpr ⟨n, hn, hc⟩)) (by decide)
    · intro hc
      exact absurd (hfree '#' ((LocalPath.mem_string (by decide)).mpr ⟨n, hn, hc⟩)) (by decide)
  · intro hnames
    have hfree : ∀ c ∈ p.string, noneOf ['?', '#'] c := by
      intro c hc
      by_cases hslash : c = '/'
      · rw [hslash]; decide
      · obtain ⟨n, hn, hcn⟩ := (LocalPath.mem_string hslash).mp hc
        obtain ⟨hquestion, hhash⟩ := hnames n hn
        rw [noneOf, decide_eq_true_eq]
        intro hmem
        simp only [List.mem_cons, List.not_mem_nil, or_false] at hmem
        rcases hmem with rfl | rfl
        · exact hquestion hcn
        · exact hhash hcn
    obtain ⟨rfl, -, -⟩ := hrest hfree
    have hwhole : Regex.str found 5 = p.string := by
      rw [hpath, List.takeWhile_eq_self_iff.mpr hfree]
    refine ⟨_, from_string_ok hfound.isMatch hfound hauth hscheme_ne hpath_ne, ?_⟩
    rw [hwhole, p.canonical_string]

/-- A file with a question mark in its name. -/
theorem question_mark_cuts_path : ¬ ∀ p : LocalPath,
    ∃ u, from_string (to_string (as_uri p.string)) = .ok u ∧ u.path = p.string := by
  intro h
  let p : LocalPath := ⟨[['a', '?', 'b']], by decide⟩
  obtain ⟨u, hu, hpath⟩ := h p
  have hcut : from_string (to_string (as_uri p.string)) =
      .ok ⟨['c', 'h', 'o', 'r', 'd'], none, ['/', 'a'], [], []⟩ := by decide
  rw [hcut, Except.ok.injEq] at hu
  rw [← hu] at hpath
  revert hpath
  decide

end Uri

end Chord
