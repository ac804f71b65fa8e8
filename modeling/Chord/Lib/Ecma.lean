import Mathlib.Data.List.Infix

/-!
# Regular expressions read from a text

The grammar that the constructor of `std::regex` takes without flags. The characters are those of
a `std::string`, one for each byte. A matcher tries its choices in a fixed order, and all ways
through are listed here in that order.
-/

namespace Ecma

inductive Pattern where
  | empty
  | one (p : Char → Bool)
  | bol
  | eol
  | boundary (positive : Bool)
  | backref (i : Nat)
  | seq (r r' : Pattern)
  | alt (r r' : Pattern)
  | group (i : Nat) (r : Pattern)
  | look (positive : Bool) (r : Pattern)
  | rep (least : Nat) (most : Option Nat) (greedy : Bool) (r : Pattern)

/-- What is before, the last character first, what is left, and the texts of the groups. -/
structure Place where
  before : List Char
  rest : List Char
  groups : List (Nat × List Char)

/-! ## Matching -/

def newline (c : Char) : Bool := c == '\n' || c == '\r'

def digit (c : Char) : Bool := c.isDigit

def space (c : Char) : Bool := c == ' ' || ('\t' ≤ c && c ≤ '\r')

def word (c : Char) : Bool := c.isAlphanum || c == '_'

/-- The `n` characters that come next are behind. -/
def Place.advance (s : Place) (n : Nat) : Place :=
  { s with before := (s.rest.take n).reverse ++ s.before, rest := s.rest.drop n }

/-- The characters between a place and a later one. -/
def Place.until (s t : Place) : List Char := s.rest.take (s.rest.length - t.rest.length)

def Place.at_boundary (s : Place) : Bool := s.before.head?.any word != s.rest.head?.any word

def Pattern.captures : Pattern → List Nat
  | empty | one _ | bol | eol | boundary _ | backref _ => []
  | seq r r' | alt r r' => r.captures ++ r'.captures
  | group i r => i :: r.captures
  | look _ r | rep _ _ _ r => r.captures

/-- One more time, or no more. After the least number of times an empty match ends the repetition. -/
def repeated (step : Place → List Place) (greedy : Bool) : Nat → Nat → Option Nat → Place → List Place
  | 0, _, _, _ => []
  | fuel + 1, least, most, s =>
    let more := if most = some 0 then [] else
      (step s).flatMap fun t =>
        if least = 0 ∧ t.rest.length = s.rest.length then []
        else repeated step greedy fuel (least - 1) (most.map (· - 1)) t
    if least ≠ 0 then more else if greedy then more ++ [s] else s :: more

/-- All matches at a place. -/
def run : Pattern → Place → List Place
  | .empty, s => [s]
  | .one p, s => if s.rest.head?.any p then [s.advance 1] else []
  | .bol, s => if s.before = [] then [s] else []
  | .eol, s => if s.rest = [] then [s] else []
  | .boundary positive, s => if s.at_boundary = positive then [s] else []
  | .backref i, s =>
    let group := (s.groups.lookup i).getD []
    if group.isPrefixOf s.rest then [s.advance group.length] else []
  | .seq r r', s => (run r s).flatMap fun t => run r' t
  | .alt r r', s => run r s ++ run r' s
  | .group i r, s => (run r s).map fun t => { t with groups := (i, s.until t) :: t.groups }
  | .look true r, s => (run r s).head?.toList.map fun t => { s with groups := t.groups }
  | .look false r, s => if (run r s).isEmpty then [s] else []
  | .rep least most greedy r, s =>
    -- the groups of the body are unset each time
    repeated (fun t => run r { t with groups := t.groups.filter (·.1 ∉ r.captures) }) greedy
      (least + s.rest.length + 1) least most s

/-! ## Replacing -/

/-- The iterator over the matches, with what is between them. After an empty match it looks for
one at the same place that is not empty; `again` is the flag `match_prev_avail`, without which a
search takes its start for that of the text. -/
def remove_from (r : Pattern) : Nat → Bool → List Char → List Char → List Char
  | 0, _, _, rest => rest
  | _ + 1, _, _, [] => []
  | fuel + 1, again, before, c :: rest =>
    let s : Place := ⟨before, c :: rest, []⟩
    let go_on (t : Place) := remove_from r fuel true ((s.until t).reverse ++ before) t.rest
    match (run r s).head? with
    | none => c :: remove_from r fuel again (c :: before) rest
    | some t =>
      if t.rest.length < s.rest.length then go_on t
      else
        let start : Place := if again then s else { s with before := [] }
        match (run r start).find? fun t => t.rest.length < s.rest.length with
        | some t => go_on t
        | none => c :: remove_from r fuel true (c :: before) rest

/-- `std::regex_replace` with nothing in the place of the matches. -/
def remove (r : Pattern) (s : List Char) : List Char := remove_from r (s.length + 1) false [] s

/-! ## Reading a pattern -/

inductive Opening where
  | capture (i : Nat)
  | plain
  | look (positive : Bool)

inductive Token where
  | atom (r : Pattern)
  | assertion (r : Pattern)
  | quantifier (least : Nat) (most : Option Nat) (greedy : Bool)
  | bar
  | capture
  | opening (o : Opening)
  | closing

/-- A character of a class, or one that stands for several. -/
inductive Item where
  | char (c : Char)
  | set (p : Char → Bool)

def Item.has : Item → Char → Bool
  | char c, d => d == c
  | set p, d => p d

def decimal (s : List Char) : Nat := s.foldl (fun n c => 10 * n + (c.toNat - '0'.toNat)) 0

def hex_digit (c : Char) : Option Nat :=
  if c.isDigit then some (c.toNat - '0'.toNat)
  else if 'a' ≤ c ∧ c ≤ 'f' then some (c.toNat - 'a'.toNat + 10)
  else if 'A' ≤ c ∧ c ≤ 'F' then some (c.toNat - 'A'.toNat + 10)
  else none

/-- A character given by `n` digits. -/
def hex (n : Nat) (s : List Char) : Option (Char × List Char) := do
  if s.length < n then none
  let digits ← (s.take n).mapM hex_digit
  some (Char.ofNat (digits.foldl (fun m d => 16 * m + d) 0), s.drop n)

def character_escape : List Char → Option (Char × List Char)
  | [] => none
  | 'f' :: s => some ('\x0c', s)
  | 'n' :: s => some ('\n', s)
  | 'r' :: s => some ('\r', s)
  | 't' :: s => some ('\t', s)
  | 'v' :: s => some ('\x0b', s)
  | 'c' :: l :: s => if l.isAlpha then some (Char.ofNat (l.toNat % 32), s) else none
  | ['c'] => none
  | 'x' :: s => hex 2 s
  | 'u' :: s => hex 4 s
  | c :: s => some (c, s)

def class_escape : Char → Option (Char → Bool)
  | 'd' => some digit
  | 'D' => some fun c => !digit c
  | 's' => some space
  | 'S' => some fun c => !space c
  | 'w' => some word
  | 'W' => some fun c => !word c
  | _ => none

/-- A reference to a group, or the null character. -/
def decimal_escape (s : List Char) : Option (Nat × List Char) :=
  let digits := s.takeWhile digit
  if digits.head? = some '0' ∧ digits ≠ ['0'] then none else some (decimal digits, s.dropWhile digit)

def escape : List Char → Option (Token × List Char)
  | [] => none
  | 'b' :: s => some (.assertion (.boundary true), s)
  | 'B' :: s => some (.assertion (.boundary false), s)
  | c :: s =>
    if digit c then (decimal_escape (c :: s)).map fun (i, s) =>
      (.atom (if i = 0 then .one (· == Char.ofNat 0) else .backref i), s)
    else match class_escape c with
      | some p => some (.atom (.one p), s)
      | none => (character_escape (c :: s)).map fun (d, s) => (.atom (.one (· == d)), s)

/-- `[:name:]` -/
def character_class (name : List Char) : Option (Char → Bool) :=
  match String.ofList name with
  | "alnum" => some Char.isAlphanum
  | "alpha" => some Char.isAlpha
  | "blank" => some fun c => c == ' ' || c == '\t'
  | "cntrl" => some fun c => c.toNat < 32 || c.toNat == 127
  | "digit" | "d" => some digit
  | "graph" => some fun c => 32 < c.toNat && c.toNat < 127
  | "lower" => some Char.isLower
  | "print" => some fun c => 32 ≤ c.toNat && c.toNat < 127
  | "punct" => some fun c => 32 < c.toNat && c.toNat < 127 && !c.isAlphanum
  | "space" | "s" => some space
  | "upper" => some Char.isUpper
  | "xdigit" => some fun c => (hex_digit c).isSome
  | "w" => some word
  | _ => none

/-- Up to the mark and the bracket that end a name in a class. -/
def delimited (mark : Char) : List Char → Option (List Char × List Char)
  | c :: d :: s =>
    if c = mark ∧ d = ']' then some ([], s)
    else (delimited mark (d :: s)).map fun (name, s) => (c :: name, s)
  | _ => none

def single (s : List Char × List Char) : Option (Item × List Char) :=
  match s with
  | ([c], s) => some (.char c, s)
  | _ => none

def class_atom : List Char → Option (Item × List Char)
  | [] => none
  | '[' :: ':' :: s => do
    let (name, s) ← delimited ':' s
    (character_class name).map fun p => (.set p, s)
  | '[' :: '.' :: s => delimited '.' s >>= single
  | '[' :: '=' :: s => delimited '=' s >>= single
  | '\\' :: 'b' :: s => some (.char '\x08', s)
  | '\\' :: c :: s =>
    if digit c then (decimal_escape (c :: s)).bind fun (i, s) =>
      if i = 0 then some (.char (Char.ofNat 0), s) else none
    else match class_escape c with
      | some p => some (.set p, s)
      | none => (character_escape (c :: s)).map fun (d, s) => (.char d, s)
  | ['\\'] => none
  | c :: s => some (.char c, s)

/-- Up to the bracket that ends the class. -/
def class_ranges : Nat → List Char → Option ((Char → Bool) × List Char)
  | 0, _ => none
  | _ + 1, ']' :: s => some (fun _ => false, s)
  | fuel + 1, s => do
    let (first, s) ← class_atom s
    match s with
    | '-' :: c :: s =>
      if c = ']' then some (fun d => first.has d || d == '-', s)
      else
        let (last, s) ← class_atom (c :: s)
        match first, last with
        | .char a, .char b =>
          if b < a then none
          else (class_ranges fuel s).map fun (p, s) => (fun d => (a ≤ d && d ≤ b) || p d, s)
        | _, _ => none
    | s => (class_ranges fuel s).map fun (p, s) => (fun d => first.has d || p d, s)

def character_set (s : List Char) : Option (Token × List Char) :=
  match s with
  | '^' :: s => (class_ranges (s.length + 1) s).map fun (p, s) => (.atom (.one fun c => !p c), s)
  | s => (class_ranges (s.length + 1) s).map fun (p, s) => (.atom (.one p), s)

/-- A quantifier that may be followed by `?`. -/
def quantifier (least : Nat) (most : Option Nat) : List Char → Token × List Char
  | '?' :: s => (.quantifier least most false, s)
  | s => (.quantifier least most true, s)

/-- `{n}`, `{n,}` or `{n,m}` -/
def interval (s : List Char) : Option (Token × List Char) :=
  let least := s.takeWhile digit
  if least = [] then none
  else match s.dropWhile digit with
    | '\x7d' :: s => some (quantifier (decimal least) (some (decimal least)) s)
    | ',' :: '\x7d' :: s => some (quantifier (decimal least) none s)
    | ',' :: s =>
      let most := s.takeWhile digit
      match s.dropWhile digit with
      | '\x7d' :: s =>
        if most = [] ∨ decimal most < decimal least then none
        else some (quantifier (decimal least) (some (decimal most)) s)
      | _ => none
    | _ => none

def opening : List Char → Option (Token × List Char)
  | '?' :: ':' :: s => some (.opening .plain, s)
  | '?' :: '=' :: s => some (.opening (.look true), s)
  | '?' :: '!' :: s => some (.opening (.look false), s)
  | '?' :: _ => none
  | s => some (.capture, s)

/-- A character that stands for itself, or the dot. -/
def ordinary (c : Char) : Pattern := .one (if c = '.' then fun d => !newline d else (· == c))

def token (c : Char) (s : List Char) : Option (Token × List Char) :=
  match c with
  | '^' => some (.assertion .bol, s)
  | '$' => some (.assertion .eol, s)
  | '\\' => escape s
  | '*' => some (quantifier 0 none s)
  | '+' => some (quantifier 1 none s)
  | '?' => some (quantifier 0 (some 1) s)
  | '\x7b' => interval s
  | '\x7d' => none
  | '[' => character_set s
  | ']' => none
  | '(' => opening s
  | ')' => some (.closing, s)
  | '|' => some (.bar, s)
  | c => some (.atom (ordinary c), s)

def tokens : Nat → List Char → Option (List Token)
  | _, [] => some []
  | 0, _ => none
  | fuel + 1, c :: s => do
    let (t, s) ← token c s
    (tokens fuel s).map (t :: ·)

/-- What has been read since a parenthesis was opened: the alternatives before the last bar, the
terms after it, and the last atom where a quantifier may follow it. -/
structure Level where
  opened : Opening
  choices : Option Pattern
  terms : Pattern
  last : Option Pattern

def Level.start (o : Opening) : Level := ⟨o, none, .empty, none⟩

def Level.all (l : Level) : Pattern :=
  match l.last with
  | none => l.terms
  | some r => .seq l.terms r

def Level.pattern (l : Level) : Pattern :=
  match l.choices with
  | none => l.all
  | some r => .alt r l.all

def Level.atom (l : Level) (r : Pattern) : Level := { l with terms := l.all, last := some r }

def Level.term (l : Level) (r : Pattern) : Level := { l with terms := .seq l.all r, last := none }

structure Reading where
  level : Level
  outer : List Level
  groups : Nat

def Reading.start : Reading := ⟨Level.start .plain, [], 0⟩

def Reading.read (s : Reading) : Token → Option Reading
  | .atom r => some { s with level := s.level.atom r }
  | .assertion r => some { s with level := s.level.term r }
  | .quantifier least most greedy =>
    s.level.last.map fun r => { s with level :=
      { s.level with terms := .seq s.level.terms (.rep least most greedy r), last := none } }
  | .bar => some { s with level := { Level.start s.level.opened with choices := some s.level.pattern } }
  | .capture => some
    { level := Level.start (.capture (s.groups + 1)), outer := s.level :: s.outer, groups := s.groups + 1 }
  | .opening o => some { s with level := Level.start o, outer := s.level :: s.outer }
  | .closing =>
    match s.outer with
    | [] => none
    | l :: outer =>
      let level := match s.level.opened with
        | .capture i => l.atom (.group i s.level.pattern)
        | .plain => l.atom s.level.pattern
        | .look positive => l.term (.look positive s.level.pattern)
      some { s with level, outer }

def Token.in_range (groups : Nat) : Token → Bool
  | .atom (.backref i) => i ≤ groups
  | _ => true

/-- The constructor of `std::regex`; nothing where it throws. -/
def parse (s : List Char) : Option Pattern := do
  let ts ← tokens s.length s
  let r ← ts.foldlM Reading.read Reading.start
  if r.outer.isEmpty ∧ ts.all (Token.in_range r.groups) then some r.level.pattern else none

/-! ## One match -/

/-- No match begins at a character of what is left. -/
def Silent (r : Pattern) (before rest : List Char) : Prop :=
  ∀ u v, rest = u ++ v → v ≠ [] → run r ⟨u.reverse ++ before, v, []⟩ = []

theorem remove_from_silent {r : Pattern} {fuel : Nat} {again : Bool} {before rest : List Char}
    (h : Silent r before rest) (hfuel : rest.length < fuel) :
    remove_from r fuel again before rest = rest := by
  induction rest generalizing fuel before with
  | nil =>
    cases fuel with
    | zero => rfl
    | succ fuel => rfl
  | cons c rest ih =>
    obtain ⟨fuel, rfl⟩ := Nat.exists_eq_add_one_of_ne_zero (Nat.ne_of_gt (Nat.zero_lt_of_lt hfuel))
    have hhere := h [] (c :: rest) rfl (List.cons_ne_nil c rest)
    rw [List.reverse_nil, List.nil_append] at hhere
    have hrest : Silent r (c :: before) rest := by
      intro u v huv hv
      have hnext := h (c :: u) v (by rw [huv, List.cons_append]) hv
      rwa [List.reverse_cons, List.append_assoc, List.singleton_append] at hnext
    rw [remove_from]
    dsimp only
    rw [hhere, List.head?_nil]
    dsimp only
    rw [ih hrest (by simpa using hfuel)]

/-- No match before `u`, one that is `seg`, and none after it. -/
theorem remove_once {r : Pattern} {u seg v : List Char} {t : Place} (hseg : seg ≠ [])
    (hbefore : ∀ x y, u = x ++ y → y ≠ [] → run r ⟨x.reverse, y ++ (seg ++ v), []⟩ = [])
    (hmatch : (run r ⟨u.reverse, seg ++ v, []⟩).head? = some t) (ht : t.rest = v)
    (hafter : Silent r (seg.reverse ++ u.reverse) v) : remove r (u ++ (seg ++ v)) = u ++ v := by
  have hfrom : ∀ (w z : List Char) (fuel : Nat), u = w ++ z → (z ++ (seg ++ v)).length < fuel →
      remove_from r fuel false w.reverse (z ++ (seg ++ v)) = z ++ v := by
    intro w z
    induction z generalizing w with
    | nil =>
      intro fuel hu hfuel
      obtain ⟨fuel, rfl⟩ := Nat.exists_eq_add_one_of_ne_zero (Nat.ne_of_gt (Nat.zero_lt_of_lt hfuel))
      obtain ⟨c, seg', rfl⟩ := List.exists_cons_of_ne_nil hseg
      rw [List.append_nil] at hu
      subst hu
      rw [List.cons_append] at hmatch
      rw [List.nil_append, List.nil_append, List.cons_append, remove_from]
      dsimp only
      rw [hmatch]
      dsimp only
      have huntil : Place.until ⟨u.reverse, c :: (seg' ++ v), []⟩ t = c :: seg' := by
        rw [Place.until, ht, ← List.cons_append, List.length_append, Nat.add_sub_cancel, List.take_left]
      have hshort : t.rest.length < (c :: (seg' ++ v)).length := by
        rw [ht, List.length_cons, List.length_append]
        omega
      rw [if_pos hshort, huntil, ht]
      refine remove_from_silent hafter ?_
      simp only [List.nil_append, List.length_append, List.length_cons] at hfuel
      omega
    | cons c z ih =>
      intro fuel hu hfuel
      obtain ⟨fuel, rfl⟩ := Nat.exists_eq_add_one_of_ne_zero (Nat.ne_of_gt (Nat.zero_lt_of_lt hfuel))
      have hhere := hbefore w (c :: z) hu (List.cons_ne_nil c z)
      have hnext := ih (w ++ [c]) fuel (by rw [hu, List.append_assoc, List.singleton_append])
        (by simpa using hfuel)
      rw [List.reverse_append, List.reverse_cons, List.reverse_nil, List.nil_append,
        List.singleton_append] at hnext
      rw [List.cons_append] at hhere ⊢
      rw [remove_from]
      dsimp only
      rw [hhere, List.head?_nil]
      dsimp only
      rw [hnext, List.cons_append]
  exact hfrom [] u _ rfl (Nat.lt_succ_self _)

/-! ## Literal texts -/

/-- The characters of the grammar, the dot aside. -/
def special : Char → Bool
  | '^' | '$' | '\\' | '*' | '+' | '?' | '\x7b' | '\x7d' | '[' | ']' | '(' | ')' | '|' => true
  | _ => false

def Literal (p : List Char) : Prop := p.any special = false

instance (p : List Char) : Decidable (Literal p) := inferInstanceAs (Decidable (_ = _))

/-- A literal text at the beginning of another one. -/
def fits : List Char → List Char → Bool
  | [], _ => true
  | _ :: _, [] => false
  | c :: p, d :: s => (if c = '.' then !newline d else d == c) && fits p s

/-- A literal text anywhere in another one. -/
def occurs (p s : List Char) : Bool := s.tails.any (fits p)

def literal (p : List Char) : Pattern := p.foldl (fun r c => .seq r (ordinary c)) .empty

theorem tokens_literal {p : List Char} {fuel : Nat} (hp : Literal p) (hfuel : p.length ≤ fuel) :
    tokens fuel p = some (p.map fun c => .atom (ordinary c)) := by
  induction p generalizing fuel with
  | nil => rw [tokens, List.map_nil]
  | cons c p ih =>
    obtain ⟨fuel, rfl⟩ := Nat.exists_eq_add_one_of_ne_zero (Nat.ne_of_gt (Nat.lt_of_lt_of_le (by simp) hfuel))
    rw [Literal, List.any_cons, Bool.or_eq_false_iff] at hp
    obtain ⟨hc, hp⟩ := hp
    have htoken : token c p = some (.atom (ordinary c), p) := by
      unfold token
      split
      all_goals first | rfl | cases hc
    rw [tokens, htoken, Option.bind_eq_bind, Option.bind_some, List.map_cons]
    dsimp only
    rw [ih hp (by simpa using hfuel), Option.map_some]

theorem read_literal (p : List Char) (s : Reading) :
    ∃ level : Level, (p.map fun c => Token.atom (ordinary c)).foldlM Reading.read s = some { s with level } ∧
      level.choices = s.level.choices ∧
      level.all = p.foldl (fun r c => .seq r (ordinary c)) s.level.all := by
  induction p generalizing s with
  | nil => exact ⟨s.level, rfl, rfl, rfl⟩
  | cons c p ih =>
    obtain ⟨level, hfold, hchoices, hall⟩ := ih { s with level := s.level.atom (ordinary c) }
    exact ⟨level, hfold, hchoices, hall⟩

theorem parse_literal {p : List Char} (hp : Literal p) : parse p = some (literal p) := by
  obtain ⟨level, hfold, hchoices, hall⟩ := read_literal p Reading.start
  have hrange : (p.map fun c => Token.atom (ordinary c)).all (Token.in_range 0) = true := by
    rw [List.all_map, List.all_eq_true]
    exact fun _ _ => rfl
  rw [parse, tokens_literal hp (Nat.le_refl _), Option.bind_eq_bind, Option.bind_some, hfold]
  rw [Option.bind_eq_bind, Option.bind_some, if_pos ⟨rfl, hrange⟩]
  rw [Level.pattern, hchoices]
  exact congrArg some hall

theorem run_ordinary (c : Char) (s : Place) :
    run (ordinary c) s = if fits [c] s.rest then [s.advance 1] else [] := by
  rw [ordinary, run]
  cases s.rest with
  | nil => rfl
  | cons d rest =>
    rw [List.head?_cons, Option.any_some, fits, fits, Bool.and_true]
    split <;> rfl

theorem advance_advance (s : Place) (m n : Nat) : (s.advance m).advance n = s.advance (m + n) := by
  simp only [Place.advance, List.take_add, List.reverse_append, List.append_assoc, List.drop_drop]

theorem fits_cons (c : Char) (p s : List Char) : fits (c :: p) s = (fits [c] s && fits p (s.drop 1)) := by
  cases s with
  | nil => rfl
  | cons d s => rw [fits, fits, fits, Bool.and_true, List.drop_one, List.tail_cons]

theorem run_literal (p : List Char) (s : Place) :
    run (literal p) s = if fits p s.rest then [s.advance p.length] else [] := by
  have hfold : ∀ r : Pattern, run (p.foldl (fun r c => .seq r (ordinary c)) r) s =
      (run r s).flatMap fun t => if fits p t.rest then [t.advance p.length] else [] := by
    induction p with
    | nil =>
      intro r
      simp [fits, Place.advance]
    | cons c p ih =>
      intro r
      rw [List.foldl_cons, ih, run, List.flatMap_assoc]
      refine List.flatMap_congr fun t _ => ?_
      rw [run_ordinary, fits_cons c p]
      by_cases h : fits [c] t.rest
      · rw [if_pos h, h, Bool.true_and, List.flatMap_singleton, List.length_cons]
        rw [advance_advance, Nat.add_comm 1]
        rfl
      · rw [if_neg h, List.flatMap_nil, if_neg (by simp [h])]
  rw [literal, hfold, run, List.flatMap_singleton]

/-! ## Where a literal text fits -/

section

variable {p s t : List Char}

theorem fits_length (h : fits p s) : p.length ≤ s.length := by
  induction p generalizing s with
  | nil => exact Nat.zero_le _
  | cons c p ih =>
    cases s with
    | nil => cases h
    | cons d s =>
      rw [fits, Bool.and_eq_true] at h
      exact Nat.succ_le_succ (ih h.2)

theorem fits_nil (hp : p ≠ []) : fits p [] = false := by
  obtain ⟨c, p', rfl⟩ := List.exists_cons_of_ne_nil hp
  rfl

/-- What comes after does not matter. -/
theorem fits_append (h : p.length ≤ s.length) : fits p (s ++ t) = fits p s := by
  induction p generalizing s with
  | nil => rw [fits, fits]
  | cons c p ih =>
    cases s with
    | nil => cases h
    | cons d s => rw [List.cons_append, fits, fits, ih (by simpa using h)]

theorem fits_self (p : List Char) : fits p p := by
  induction p with
  | nil => rfl
  | cons c p ih =>
    rw [fits, ih, Bool.and_true]
    split
    · rename_i h
      rw [h]
      rfl
    · exact beq_self_eq_true c

/-- A character that is not a dot fits itself only. -/
theorem fits_mem {c : Char} (h : fits p s) (hlength : s.length = p.length) (hc : c ∈ p) (hdot : c ≠ '.') :
    c ∈ s := by
  induction p generalizing s with
  | nil => cases hc
  | cons d p ih =>
    cases s with
    | nil => cases h
    | cons e s =>
      rw [fits, Bool.and_eq_true] at h
      rcases List.mem_cons.mp hc with rfl | hc
      · have he := h.1
        rw [if_neg hdot, beq_iff_eq] at he
        rw [he]
        exact List.mem_cons_self
      · exact List.mem_cons_of_mem e (ih h.2 (by simpa using hlength) hc)

theorem occurs_iff : occurs p s ↔ ∃ u v, s = u ++ v ∧ fits p v := by
  rw [occurs, List.any_eq_true]
  constructor
  · rintro ⟨v, hv, hfits⟩
    obtain ⟨u, hu⟩ := (List.mem_tails v s).mp hv
    exact ⟨u, v, hu.symm, hfits⟩
  · rintro ⟨u, v, rfl, hfits⟩
    exact ⟨v, (List.mem_tails v _).mpr (List.suffix_append u v), hfits⟩

theorem not_occurs_iff : occurs p s = false ↔ ∀ u v, s = u ++ v → fits p v = false := by
  rw [← Bool.not_eq_true, occurs_iff]
  simp

theorem silent_literal {before : List Char} (hp : p ≠ []) :
    Silent (literal p) before s ↔ occurs p s = false := by
  rw [not_occurs_iff, Silent]
  refine forall_congr' fun u => forall_congr' fun v => forall_congr' fun _ => ?_
  rw [run_literal]
  cases v with
  | nil => simpa using fits_nil hp
  | cons c v => by_cases h : fits p (c :: v) <;> simp [h]

/-- What is left of `s` without the matches, taken from the left. -/
inductive Removed (p : List Char) : List Char → List Char → Prop
  | none {w} (h : occurs p w = false) : Removed p w w
  | some {u seg v r} (hbefore : ∀ x y, u = x ++ y → y ≠ [] → fits p (y ++ (seg ++ v)) = false)
      (hlength : seg.length = p.length) (hseg : fits p seg) (hafter : Removed p v r) :
      Removed p (u ++ (seg ++ v)) (u ++ r)

/-- A character where no match begins. -/
theorem Removed.cons {c : Char} {r : List Char} (h : Removed p s r) (hc : fits p (c :: s) = false) :
    Removed p (c :: s) (c :: r) := by
  cases h with
  | none h =>
    refine Removed.none (not_occurs_iff.mpr fun u v huv => ?_)
    rcases List.cons_eq_append_iff.mp huv with ⟨-, rfl⟩ | ⟨u', -, hs⟩
    · exact hc
    · exact not_occurs_iff.mp h u' v hs
  | some hbefore hlength hseg hafter =>
    rw [← List.cons_append, ← List.cons_append]
    refine Removed.some (fun x y hxy hy => ?_) hlength hseg hafter
    rcases List.cons_eq_append_iff.mp hxy with ⟨-, rfl⟩ | ⟨x', -, hu⟩
    · exact hc
    · exact hbefore x' y hu hy

/-- A match at the beginning. -/
theorem Removed.here {r : List Char} (h : fits p s) (hrest : Removed p (s.drop p.length) r) :
    Removed p s r := by
  have hlength := List.length_take_of_le (fits_length h)
  have hfits : fits p (s.take p.length) := by
    rw [← fits_append (t := s.drop p.length) hlength.ge, List.take_append_drop]
    exact h
  have hnil : ∀ x y : List Char, [] = x ++ y → y ≠ [] →
      fits p (y ++ (s.take p.length ++ s.drop p.length)) = false := fun x y hxy hy =>
    absurd (List.append_eq_nil_iff.mp hxy.symm).2 hy
  have hsome := Removed.some hnil hlength hfits hrest
  rwa [List.nil_append, List.nil_append, List.take_append_drop] at hsome

theorem removed_from (hp : p ≠ []) {fuel : Nat} {again : Bool} {before : List Char}
    (hfuel : s.length < fuel) :
    Removed p s (remove_from (literal p) fuel again before s) := by
  induction fuel generalizing s again before with
  | zero => exact absurd hfuel (Nat.not_lt_zero _)
  | succ fuel ih =>
    cases s with
    | nil =>
      refine Removed.none (not_occurs_iff.mpr fun u v huv => ?_)
      rw [(List.append_eq_nil_iff.mp huv.symm).2]
      exact fits_nil hp
    | cons c s =>
      rw [remove_from]
      dsimp only
      rw [run_literal]
      by_cases h : fits p (c :: s)
      · have hlength := fits_length h
        have hpos : 0 < p.length := List.length_pos_iff.mpr hp
        rw [if_pos h, List.head?_cons]
        dsimp only
        rw [if_pos (by simp only [Place.advance, List.length_drop]; omega)]
        have hshort : ((c :: s).drop p.length).length < fuel := by
          rw [List.length_drop]
          omega
        exact Removed.here h (ih hshort)
      · rw [if_neg h, List.head?_nil]
        exact (ih (by simpa using hfuel)).cons (by simpa using h)

theorem Removed.sublist {r : List Char} (h : Removed p s r) : r.Sublist s := by
  induction h with
  | none h => exact List.Sublist.refl _
  | some _ _ _ _ ih =>
    exact (List.Sublist.refl _).append (ih.trans (List.sublist_append_right _ _))

/-- The text itself is the first match where it comes first. -/
theorem Removed.of_append {r : List Char} (h : Removed p (p ++ s) r) : Removed p s r := by
  have hself : fits p (p ++ s) := by
    rw [fits_append (Nat.le_refl _)]
    exact fits_self p
  generalize hw : p ++ s = w at h
  cases h with
  | none h =>
    have hno := not_occurs_iff.mp h [] (p ++ s) hw.symm
    rw [hself] at hno
    cases hno
  | @some u seg v r hbefore hlength hseg hafter =>
    have hu : u = [] := by
      by_contra hne
      have hno := hbefore [] u rfl hne
      rw [← hw, hself] at hno
      cases hno
    rw [hu, List.nil_append] at hw ⊢
    obtain ⟨-, rfl⟩ := List.append_inj hw hlength.symm
    exact hafter

theorem removed_remove (hp : p ≠ []) : Removed p s (remove (literal p) s) :=
  removed_from hp (Nat.lt_succ_self _)

end

end Ecma
