import Mathlib.Data.BitVec
import Mathlib.Data.List.Basic
import Mathlib.Data.List.TakeWhile

/-!
# Percent coding (`uri::encode` and `uri::decode` of `chord.uri.cc`)

`char` is signed: `encode` prints the value of a character as an `int`, and `decode` walks over
the string with an iterator.
-/

namespace Chord

namespace Percent

abbrev Byte := BitVec 8

def ch (c : Char) : Byte := BitVec.ofNat 8 c.toNat

/-! ## `std::ostringstream` -/

structure OStream where
  str : List Byte
  fill : Byte
  width : Nat
  hex : Bool
  uppercase : Bool

namespace OStream

def empty : OStream := ⟨[], ch ' ', 0, false, false⟩

/-- A formatted write: filled up on the left, and the width is used up. -/
def write (out : OStream) (l : List Byte) : OStream :=
  { out with str := out.str ++ List.replicate (out.width - l.length) out.fill ++ l, width := 0 }

def put_char (out : OStream) (c : Byte) : OStream := out.write [c]

/-- In base 16 an `int` is written as its 32 bits. -/
def digits (out : OStream) (n : Int) : List Char :=
  if out.hex then
    (Nat.toDigits 16 (BitVec.ofInt 32 n).toNat).map fun d => if out.uppercase then d.toUpper else d
  else if n < 0 then '-' :: Nat.toDigits 10 n.natAbs else Nat.toDigits 10 n.natAbs

def put_int (out : OStream) (n : Int) : OStream := out.write ((out.digits n).map ch)

def setw (out : OStream) (n : Nat) : OStream := { out with width := n }

end OStream

/-! ## `encode` -/

/-- `isalnum` of the classic locale. -/
def isalnum (c : Byte) : Bool :=
  (48 ≤ c.toNat && c.toNat ≤ 57) || (65 ≤ c.toNat && c.toNat ≤ 90) || (97 ≤ c.toNat && c.toNat ≤ 122)

/-- The characters that `encode` keeps. -/
def unreserved (c : Byte) : Bool :=
  isalnum c || c == ch '-' || c == ch '_' || c == ch '.' || c == ch '~'

def encode_step (encoded : OStream) (c : Byte) : OStream :=
  if unreserved c then encoded.put_char c
  else
    let encoded := { encoded with uppercase := true }
    let encoded := ((encoded.put_char (ch '%')).setw 2).put_int c.toInt
    { encoded with uppercase := false }

def encode (str : List Byte) : List Byte :=
  (str.foldl encode_step { OStream.empty with fill := ch '0', hex := true }).str

/-! ## `decode` -/

/-- The value of a hexadecimal digit. -/
def hex_value (c : Byte) : Option Nat :=
  if 48 ≤ c.toNat ∧ c.toNat ≤ 57 then some (c.toNat - 48)
  else if 65 ≤ c.toNat ∧ c.toNat ≤ 70 then some (c.toNat - 55)
  else if 97 ≤ c.toNat ∧ c.toNat ≤ 102 then some (c.toNat - 87)
  else none

def isspace (c : Byte) : Bool := c == ch ' ' || (9 ≤ c.toNat && c.toNat ≤ 13)

/-- The digits at the front, as a number. -/
def hex_digits (s : List Byte) : Nat := ((s.map hex_value).takeWhile Option.isSome).foldl
  (fun n d => 16 * n + d.getD 0) 0

/-- The digits after an optional `0x`, which counts only where a digit follows. -/
def hex_number (s : List Byte) : Nat :=
  match s with
  | z :: x :: d :: s =>
    if z = ch '0' ∧ (x = ch 'x' ∨ x = ch 'X') ∧ (hex_value d).isSome then hex_digits (d :: s)
    else hex_digits (z :: x :: d :: s)
  | s => hex_digits s

/-- `strtol(s.c_str(), nullptr, 16)` of a short string: its text ends at a NUL. -/
def strtol (s : List Byte) : Int :=
  match (s.takeWhile (· ≠ 0)).dropWhile isspace with
  | [] => 0
  | c :: s =>
    if c = ch '-' then -hex_number s
    else if c = ch '+' then hex_number s
    else hex_number (c :: s)

inductive IteratorFault where
  | beyond_end
  | endless
  deriving DecidableEq

/-- `*it`. -/
def dereference (str : List Byte) (it : Nat) : Except IteratorFault Byte :=
  match str[it]? with
  | some c => .ok c
  | none => .error .beyond_end

/-- `it + n`, which may be the end and nothing after it. -/
def advance (str : List Byte) (it n : Nat) : Except IteratorFault Nat :=
  if it + n ≤ str.length then .ok (it + n) else .error .beyond_end

/-- The loop, with the place where it stops. Every turn advances, so the length of the string is
fuel enough. -/
def decode_loop (str : List Byte) : Nat → Nat → OStream → Except IteratorFault (Nat × OStream)
  | 0, _, _ => .error .endless
  | fuel + 1, it, decoded =>
    if it = str.length then .ok (it, decoded)
    else do
      let c ← dereference str it
      if c = ch '%' then
        let first ← advance str it 1
        let last ← advance str it 3
        let decoded := decoded.put_char (BitVec.ofInt 8 (strtol ((str.take last).drop first)))
        let it ← advance str it 2
        let it ← advance str it 1
        decode_loop str fuel it decoded
      else
        let it ← advance str it 1
        decode_loop str fuel it (decoded.put_char c)

def decode (str : List Byte) : Except IteratorFault (List Byte) := do
  let (_, decoded) ← decode_loop str (str.length + 1) 0 OStream.empty
  .ok decoded.str

/-! ## Where the loop ends -/

/-- Single characters, and `%` with two characters behind it. -/
inductive Pieces : List Byte → Prop
  | nil : Pieces []
  | char {c : Byte} {s : List Byte} (hc : c ≠ ch '%') (hs : Pieces s) : Pieces (c :: s)
  | escape {a b : Byte} {s : List Byte} (hs : Pieces s) : Pieces (ch '%' :: a :: b :: s)

/-- The same with what every piece stands for. -/
inductive Decodes : List Byte → List Byte → Prop
  | nil : Decodes [] []
  | char {c : Byte} {s l : List Byte} (hc : c ≠ ch '%') (hs : Decodes s l) : Decodes (c :: s) (c :: l)
  | escape {a b : Byte} {s l : List Byte} (hs : Decodes s l) :
      Decodes (ch '%' :: a :: b :: s) (BitVec.ofInt 8 (strtol [a, b]) :: l)

theorem Pieces.decodes {s : List Byte} (h : Pieces s) : ∃ l, Decodes s l := by
  induction h with
  | nil => exact ⟨[], .nil⟩
  | char hc _ ih =>
    obtain ⟨l, hl⟩ := ih
    exact ⟨_, .char hc hl⟩
  | escape _ ih =>
    obtain ⟨l, hl⟩ := ih
    exact ⟨_, .escape hl⟩

theorem dereference_append (pre : List Byte) (c : Byte) (s : List Byte) :
    dereference (pre ++ c :: s) pre.length = .ok c := by
  rw [dereference, List.getElem?_append_right (le_refl _), Nat.sub_self]
  rfl

/-- One turn at a single character. -/
theorem decode_loop_char {pre s : List Byte} {c : Byte} (hc : c ≠ ch '%') (fuel : Nat) (out : OStream) :
    decode_loop (pre ++ c :: s) (fuel + 1) pre.length out =
      decode_loop (pre ++ c :: s) fuel (pre ++ [c]).length (out.put_char c) := by
  have hmore : pre.length ≠ (pre ++ c :: s).length := by simp
  have hnext : advance (pre ++ c :: s) pre.length 1 = .ok (pre ++ [c]).length := by
    rw [advance, if_pos (by simp)]
    simp
  rw [decode_loop, if_neg hmore, dereference_append]
  simp only [bind, Except.bind, if_neg hc, hnext]

/-- One turn at a whole escape. -/
theorem decode_loop_escape {pre s : List Byte} {a b : Byte} (fuel : Nat) (out : OStream) :
    decode_loop (pre ++ ch '%' :: a :: b :: s) (fuel + 1) pre.length out =
      decode_loop (pre ++ ch '%' :: a :: b :: s) fuel (pre ++ [ch '%', a, b]).length
        (out.put_char (BitVec.ofInt 8 (strtol [a, b]))) := by
  have hmore : pre.length ≠ (pre ++ ch '%' :: a :: b :: s).length := by simp
  have hstep : ∀ n ≤ 3, advance (pre ++ ch '%' :: a :: b :: s) pre.length n = .ok (pre.length + n) := by
    intro n hn
    rw [advance, if_pos]
    simp only [List.length_append, List.length_cons]
    omega
  have hlast : advance (pre ++ ch '%' :: a :: b :: s) (pre.length + 2) 1 = .ok (pre.length + 3) := by
    rw [advance, if_pos]
    simp only [List.length_append, List.length_cons]
    omega
  have hdigits : ((pre ++ ch '%' :: a :: b :: s).take (pre.length + 3)).drop (pre.length + 1) = [a, b] := by
    rw [List.take_length_add_append, List.drop_length_add_append]
    rfl
  rw [decode_loop, if_neg hmore, dereference_append]
  simp only [bind, Except.bind, if_true, hstep 1 (by omega), hstep 2 (by omega), hstep 3 (by omega),
    hlast, hdigits, List.length_append, List.length_cons, List.length_nil]

/-- At a cut escape the loop leaves the string. -/
theorem decode_loop_cut {pre s : List Byte} (hs : s.length < 2) (fuel : Nat) (out : OStream) :
    decode_loop (pre ++ ch '%' :: s) (fuel + 1) pre.length out = .error .beyond_end := by
  have hmore : pre.length ≠ (pre ++ ch '%' :: s).length := by simp
  have hfirst : advance (pre ++ ch '%' :: s) pre.length 1 = .ok (pre.length + 1) := by
    rw [advance, if_pos (by simp)]
  have hlast : advance (pre ++ ch '%' :: s) pre.length 3 = .error .beyond_end := by
    rw [advance, if_neg]
    simp only [List.length_append, List.length_cons]
    omega
  rw [decode_loop, if_neg hmore, dereference_append]
  simp only [bind, Except.bind, if_true, hfirst, hlast]

theorem put_char_eq {out : OStream} (h : out.width = 0) (c : Byte) :
    out.put_char c = { out with str := out.str ++ [c] } := by
  rw [OStream.put_char, OStream.write, h]
  simp

/-- With the whole string divided into pieces the loop ends at its end. -/
theorem decode_loop_of_decodes {s l : List Byte} (h : Decodes s l) (pre : List Byte) {fuel : Nat}
    (hfuel : s.length < fuel) {out : OStream} (hout : out.width = 0) :
    decode_loop (pre ++ s) fuel pre.length out =
      .ok ((pre ++ s).length, { out with str := out.str ++ l }) := by
  obtain ⟨n, rfl⟩ : ∃ n, fuel = n + 1 := ⟨fuel - 1, by omega⟩
  induction h generalizing pre n out with
  | nil => rw [decode_loop, if_pos (by simp)]; simp
  | @char c s l hc _ ih =>
    obtain ⟨m, rfl⟩ : ∃ m, n = m + 1 := ⟨n - 1, by simp at hfuel; omega⟩
    have hrest := @ih (pre ++ [c]) { out with str := out.str ++ [c] } hout m (by simp at hfuel; omega)
    rw [decode_loop_char hc, put_char_eq hout, List.append_cons, hrest]
    simp
  | @escape a b s l _ ih =>
    obtain ⟨m, rfl⟩ : ∃ m, n = m + 1 := ⟨n - 1, by simp at hfuel; omega⟩
    have hsplit : pre ++ ch '%' :: a :: b :: s = (pre ++ [ch '%', a, b]) ++ s := by simp
    have hrest := @ih (pre ++ [ch '%', a, b])
      { out with str := out.str ++ [BitVec.ofInt 8 (strtol [a, b])] } hout m (by simp at hfuel; omega)
    rw [decode_loop_escape, put_char_eq hout, hsplit, hrest]
    simp

/-- Where the loop ends there was no cut escape. -/
theorem pieces_of_decode_loop (pre : List Byte) {s : List Byte} {fuel : Nat} {out : OStream}
    {r : Nat × OStream} (h : decode_loop (pre ++ s) fuel pre.length out = .ok r) : Pieces s := by
  induction fuel generalizing pre s out with
  | zero => cases h
  | succ fuel ih =>
    cases s with
    | nil => exact .nil
    | cons c s =>
      by_cases hc : c = ch '%'
      · subst hc
        match s with
        | [] => rw [decode_loop_cut (by simp)] at h; cases h
        | [_] => rw [decode_loop_cut (by simp)] at h; cases h
        | a :: b :: s =>
          have hsplit : pre ++ ch '%' :: a :: b :: s = (pre ++ [ch '%', a, b]) ++ s := by simp
          rw [decode_loop_escape, hsplit] at h
          exact .escape (ih _ h)
      · rw [decode_loop_char hc, List.append_cons] at h
        exact .char hc (ih _ h)

/-- The loop forms no iterator beyond the end, and ends at the end of the string. -/
def ConsumesInput (str : List Byte) : Prop :=
  ∃ decoded, decode_loop str (str.length + 1) 0 OStream.empty = .ok (str.length, decoded)

/-- Decoding is safe exactly on the strings in which every escape is whole. -/
theorem consumes_input_iff (str : List Byte) : ConsumesInput str ↔ Pieces str := by
  constructor
  · rintro ⟨decoded, h⟩
    exact pieces_of_decode_loop [] h
  · intro h
    obtain ⟨l, hl⟩ := h.decodes
    exact ⟨_, decode_loop_of_decodes hl [] (Nat.lt_succ_self _) rfl⟩

/-- An escape that is cut off, at the end or one character before it. -/
theorem cut_escape_leaves_string : ¬ (∀ str, ConsumesInput str) ∧
    decode_loop [ch '%'] 2 0 OStream.empty = .error .beyond_end ∧
    decode_loop [ch 'a', ch '%', ch '4'] 4 0 OStream.empty = .error .beyond_end := by
  have hcut : decode_loop [ch '%'] 2 0 OStream.empty = .error .beyond_end := rfl
  refine ⟨fun hall => ?_, hcut, rfl⟩
  obtain ⟨decoded, h⟩ := hall [ch '%']
  rw [List.length_singleton, hcut] at h
  cases h

/-! ## Round trips -/

/-- The stream of `encode` between two characters: `setw` lasts for one write, and the case is
set back. -/
def encoder (str : List Byte) : OStream := ⟨str, ch '0', 0, true, false⟩

/-- What `encode` writes for one character. -/
def code (c : Byte) : List Byte := (encode_step (encoder []) c).str

theorem encode_step_eq (str : List Byte) (c : Byte) :
    encode_step (encoder str) c = encoder (str ++ code c) := by
  unfold code encode_step
  split
  · simp [encoder, OStream.put_char, OStream.write]
  · simp [encoder, OStream.put_char, OStream.put_int, OStream.setw, OStream.write, OStream.digits]

theorem encode_eq (str : List Byte) : encode str = str.flatMap code := by
  have hloop : ∀ done, (str.foldl encode_step (encoder done)) = encoder (done ++ str.flatMap code) := by
    induction str with
    | nil => intro done; simp
    | cons c str ih =>
      intro done
      rw [List.foldl_cons, encode_step_eq, ih, List.flatMap_cons, List.append_assoc]
  have hstart : ({ OStream.empty with fill := ch '0', hex := true } : OStream) = encoder [] := rfl
  rw [encode, hstart, hloop]
  rfl

def digit (n : Nat) : Byte := ch (Nat.digitChar n).toUpper

theorem nibbles_lt (c : Byte) : c.toNat / 16 < 16 ∧ c.toNat % 16 < 16 :=
  ⟨Nat.div_lt_of_lt_mul c.isLt, Nat.mod_lt _ (by decide)⟩

/-! ### The digits that are written -/

/-- The 32 bits of a negative `char` begin with 24 ones. -/
theorem toNat_int_bits (c : Byte) : (BitVec.ofInt 32 c.toInt).toNat =
    if c.toNat < 128 then c.toNat else 16 * (16 * 0xFFFFFF + c.toNat / 16) + c.toNat % 16 := by
  have hc := c.isLt
  rw [BitVec.toNat_ofInt, BitVec.toInt_eq_toNat_cond]
  split <;> split <;> omega

theorem toDigits_low {n : Nat} (h : n < 256) :
    List.replicate (2 - (Nat.toDigits 16 n).length) '0' ++ Nat.toDigits 16 n =
      [Nat.digitChar (n / 16), Nat.digitChar (n % 16)] := by
  by_cases hn : n < 16
  · rw [Nat.toDigits_of_lt_base hn, Nat.div_eq_of_lt hn, Nat.mod_eq_of_lt hn]
    rfl
  · rw [Nat.toDigits_of_base_le (by decide) (by omega), Nat.toDigits_of_lt_base (by omega)]
    rfl

theorem toDigits_high {a b : Nat} (ha : a < 16) (hb : b < 16) :
    Nat.toDigits 16 (16 * (16 * 0xFFFFFF + a) + b) =
      List.replicate 6 'f' ++ [Nat.digitChar a, Nat.digitChar b] := by
  have hones : Nat.toDigits 16 0xFFFFFF = List.replicate 6 'f' := by
    simp [Nat.toDigits_eq_if, List.replicate_succ]
  rw [← Nat.toDigits_append_toDigits (by decide) (by omega) hb,
    ← Nat.toDigits_append_toDigits (by decide) (by decide) ha, Nat.toDigits_of_lt_base ha,
    Nat.toDigits_of_lt_base hb, hones, List.append_assoc]
  rfl

/-- The code of a character that is not kept. -/
theorem code_of_toDigits {c : Byte} {l : List Char} (hc : ¬ unreserved c)
    (h : Nat.toDigits 16 (BitVec.ofInt 32 c.toInt).toNat = l) :
    code c = ch '%' :: (List.replicate (2 - l.length) '0' ++ l).map fun d => ch d.toUpper := by
  rw [← h, List.map_append, List.map_replicate]
  unfold code encode_step
  rw [if_neg hc]
  simp [encoder, OStream.put_char, OStream.put_int, OStream.setw, OStream.write, OStream.digits,
    Function.comp_def]

/-- A negative `char` becomes an `int` with six more digits. -/
theorem code_eq (c : Byte) : code c = if unreserved c then [c]
    else if c.toNat < 128 then [ch '%', digit (c.toNat / 16), digit (c.toNat % 16)]
    else ch '%' :: List.replicate 6 (ch 'F') ++ [digit (c.toNat / 16), digit (c.toNat % 16)] := by
  have hbits := toNat_int_bits c
  split
  · rename_i hc
    unfold code encode_step
    rw [if_pos hc]
    simp [encoder, OStream.put_char, OStream.write]
  · rename_i hc
    split
    · rename_i hlow
      rw [if_pos hlow] at hbits
      rw [code_of_toDigits hc (congrArg _ hbits), toDigits_low c.isLt]
      rfl
    · rename_i hhigh
      obtain ⟨hdiv, hmod⟩ := nibbles_lt c
      rw [if_neg hhigh] at hbits
      rw [code_of_toDigits hc ((congrArg _ hbits).trans (toDigits_high hdiv hmod))]
      rfl

/-! ### The digits that are read -/

theorem digit_spec : ∀ n < 16, unreserved (digit n) ∧ hex_value (digit n) = some n ∧ digit n ≠ 0#8 ∧
    isspace (digit n) = false ∧ digit n ≠ ch '-' ∧ digit n ≠ ch '+' := by decide

theorem isSome_digit {n : Nat} (h : n < 16) : (hex_value (digit n)).isSome := by
  rw [(digit_spec n h).2.1]
  rfl

theorem hex_number_digits {a b : Nat} (ha : a < 16) (hb : b < 16) :
    hex_number [digit a, digit b] = 16 * a + b := by
  have hdigits : [digit a, digit b].map hex_value = [some a, some b] := by
    rw [List.map_cons, List.map_singleton, (digit_spec a ha).2.1, (digit_spec b hb).2.1]
  unfold hex_number hex_digits
  dsimp only
  rw [hdigits]
  simp

theorem strtol_digits {a b : Nat} (ha : a < 16) (hb : b < 16) :
    strtol [digit a, digit b] = (16 * a + b : Nat) := by
  obtain ⟨-, -, ha0, hspace, hminus, hplus⟩ := digit_spec a ha
  have hall : [digit a, digit b].takeWhile (· ≠ 0) = [digit a, digit b] :=
    List.takeWhile_eq_self_iff.mpr (by simp [ha0, (digit_spec b hb).2.2.1])
  have hstart : [digit a, digit b].dropWhile isspace = [digit a, digit b] :=
    List.dropWhile_cons_of_neg (by simp [hspace])
  rw [strtol, hall, hstart]
  dsimp only
  rw [if_neg hminus, if_neg hplus, hex_number_digits ha hb]

theorem ofInt_strtol_digits (c : Byte) :
    BitVec.ofInt 8 (strtol [digit (c.toNat / 16), digit (c.toNat % 16)]) = c := by
  obtain ⟨hdiv, hmod⟩ := nibbles_lt c
  rw [strtol_digits hdiv hmod, Nat.div_add_mod, BitVec.ofInt_natCast, BitVec.ofNat_toNat, BitVec.setWidth_eq]

theorem unreserved_lt {c : Byte} (h : unreserved c) : c.toNat < 128 ∧ c ≠ ch '%' := by
  have hpercent : ¬ unreserved (ch '%') := by decide
  refine ⟨?_, by rintro rfl; exact hpercent h⟩
  simp only [unreserved, isalnum, Bool.or_eq_true, Bool.and_eq_true, decide_eq_true_iff, beq_iff_eq] at h
  rcases h with ((((((h | h) | h) | rfl) | rfl) | rfl) | rfl)
  · omega
  · omega
  · omega
  all_goals decide

/-! ### The whole string -/

/-- Unreserved characters, and `%` with exactly two hexadecimal digits. -/
inductive Encoded : List Byte → Prop
  | nil : Encoded []
  | char {c : Byte} {s : List Byte} (hc : unreserved c) (hs : Encoded s) : Encoded (c :: s)
  | escape {a b : Byte} {s : List Byte} (ha : (hex_value a).isSome) (hb : (hex_value b).isSome)
      (hs : Encoded s) : Encoded (ch '%' :: a :: b :: s)

theorem encoded_code (c : Byte) {s : List Byte} (hs : Encoded s) : Encoded (code c ++ s) := by
  obtain ⟨hdiv, hmod⟩ := nibbles_lt c
  have hhigh := (digit_spec _ hdiv).1
  have hlow := (digit_spec _ hmod).1
  have hF : unreserved (ch 'F') := by decide
  rw [code_eq]
  split
  · rename_i hc
    exact .char hc hs
  · split
    · exact .escape (isSome_digit hdiv) (isSome_digit hmod) hs
    · -- of the eight digits two belong to the escape
      have hrest : Encoded (digit (c.toNat / 16) :: digit (c.toNat % 16) :: s) :=
        .char hhigh (.char hlow hs)
      exact .escape (by decide) (by decide) (.char hF (.char hF (.char hF (.char hF hrest))))

theorem encoded_encode (str : List Byte) : Encoded (encode str) := by
  rw [encode_eq]
  induction str with
  | nil => exact .nil
  | cons c str ih => exact encoded_code c ih

/-- What `decode` makes of the code of one character. -/
def decoded_code (c : Byte) : List Byte :=
  if c.toNat < 128 then [c]
  else 255 :: List.replicate 4 (ch 'F') ++ [digit (c.toNat / 16), digit (c.toNat % 16)]

theorem decodes_code (c : Byte) {s l : List Byte} (hs : Decodes s l) :
    Decodes (code c ++ s) (decoded_code c ++ l) := by
  obtain ⟨hdiv, hmod⟩ := nibbles_lt c
  have hhigh := (digit_spec _ hdiv).1
  have hlow := (digit_spec _ hmod).1
  have hF : ch 'F' ≠ ch '%' := by decide
  rw [code_eq, decoded_code]
  split
  · rename_i hc
    obtain ⟨hlt, hne⟩ := unreserved_lt hc
    rw [if_pos hlt]
    exact .char hne hs
  · split
    · have hescape : Decodes (ch '%' :: digit (c.toNat / 16) :: digit (c.toNat % 16) :: s) _ := .escape hs
      rwa [ofInt_strtol_digits] at hescape
    · have hrest : Decodes (digit (c.toNat / 16) :: digit (c.toNat % 16) :: s) _ :=
        .char (unreserved_lt hhigh).2 (.char (unreserved_lt hlow).2 hs)
      exact .escape (.char hF (.char hF (.char hF (.char hF hrest))))

theorem decode_encode (str : List Byte) : decode (encode str) = .ok (str.flatMap decoded_code) := by
  have hdecodes : Decodes (encode str) (str.flatMap decoded_code) := by
    rw [encode_eq]
    induction str with
    | nil => exact .nil
    | cons c str ih => exact decodes_code c ih
  have hloop := @decode_loop_of_decodes _ _ hdecodes [] _ (Nat.lt_succ_self _) OStream.empty rfl
  rw [List.nil_append, List.length_nil] at hloop
  rw [decode, hloop]
  rfl

theorem length_decoded_code (c : Byte) : (decoded_code c).length = if c.toNat < 128 then 1 else 7 := by
  unfold decoded_code
  split <;> rfl

theorem length_le_flatMap (str : List Byte) : str.length ≤ (str.flatMap decoded_code).length := by
  induction str with
  | nil => exact le_refl _
  | cons c str ih =>
    rw [List.flatMap_cons, List.length_append, List.length_cons, length_decoded_code]
    split <;> omega

theorem flatMap_decoded_code (str : List Byte) :
    str.flatMap decoded_code = str ↔ ∀ c ∈ str, c.toNat < 128 := by
  induction str with
  | nil => simp
  | cons c str ih =>
    rw [List.forall_mem_cons, ← ih, List.flatMap_cons]
    by_cases hc : c.toNat < 128
    · rw [decoded_code, if_pos hc]
      simp [hc]
    · -- seven characters came back for one
      have hlength := length_le_flatMap str
      constructor
      · intro h
        have := congrArg List.length h
        rw [List.length_append, List.length_cons, length_decoded_code, if_neg hc] at this
        omega
      · rintro ⟨h, -⟩
        exact absurd h hc

/-- Encoded text is well formed, and decodes to the string again exactly where the string has no
byte above 127. -/
theorem round_trip_iff (str : List Byte) :
    (decode (encode str) = .ok str ∧ Encoded (encode str)) ↔ ∀ c ∈ str, c.toNat < 128 := by
  rw [decode_encode, and_iff_left (encoded_encode str), ← flatMap_decoded_code]
  exact ⟨Except.ok.inj, congrArg Except.ok⟩

/-- Byte 128 is written with eight digits. -/
theorem high_byte_comes_back_longer : ¬ (∀ str, decode (encode str) = .ok str ∧ Encoded (encode str)) ∧
    encode [128] = "%FFFFFF80".toList.map ch ∧
    decode (encode [128]) = .ok (255 :: "FFFF80".toList.map ch) := by
  have hdecode : decode (encode [128]) = .ok (255 :: "FFFF80".toList.map ch) := by decide +kernel
  refine ⟨fun hall => ?_, by decide +kernel, hdecode⟩
  have h := (hall [128]).1
  rw [hdecode] at h
  exact absurd (congrArg (Except.map List.length) h) (by decide)

end Percent

end Chord
