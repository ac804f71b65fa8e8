import Chord.Uuid
import Mathlib.Logic.Basic

/-!
# Open arcs and exact finger starts

`between` compares numbers; every routing decision reads it as an arc of the circle.
-/

open Circle

namespace Chord

/-! ## The arc of `between` -/

theorem between_iff_emod (lower element upper : Uuid) : between lower element upper ↔
    0 < ((element.toNat : Int) - lower.toNat) % 2 ^ 256 ∧
      ((element.toNat : Int) - lower.toNat) % 2 ^ 256 <
        if lower = upper then 2 ^ 256 else ((upper.toNat : Int) - lower.toNat) % 2 ^ 256 := by
  have hlt := steps_lt lower element
  rw [← steps_emod, ← steps_emod, between_iff_arc, Arc]
  by_cases h : lower = upper
  · rw [if_pos h]
    simp only [h, true_or, and_true]
    rw [h] at hlt
    omega
  · rw [if_neg h]
    simp only [h, false_or]
    omega

/-- `between` is the open arc: two points cut the circle in two, and an arc that ends in another
one lies in it. -/
theorem between_open_arc :
    (∀ lower element upper : Uuid, between lower element upper ↔
      0 < ((element.toNat : Int) - lower.toNat) % 2 ^ 256 ∧
        ((element.toNat : Int) - lower.toNat) % 2 ^ 256 <
          if lower = upper then 2 ^ 256 else ((upper.toNat : Int) - lower.toNat) % 2 ^ 256) ∧
    (∀ a b x : Uuid, a ≠ b → x ≠ a → x ≠ b → Xor (between a x b) (between b x a)) ∧
    ∀ a b c : Uuid, between a b c → ∀ x, between a x b → between a x c := by
  refine ⟨between_iff_emod, fun a b x hab ha hb => ?_, fun a b c hb x hx => ?_⟩
  · rw [between_iff_arc, between_iff_arc]
    exact arc_xor hab ha hb
  · rw [between_iff_arc] at hb hx ⊢
    exact hb.trans hx

/-! ## Finger starts -/

/-- `self + 2^i` meets the modulus, which is the last point of the circle. -/
def MeetsModulus (self : Uuid) (i : Nat) : Prop := self.toNat + 2 ^ i = 2 ^ 256 - 1

theorem meetsModulus_iff (self : Uuid) {i : Nat} (hi : i < BITS) :
    MeetsModulus self i ↔ self + BitVec.twoPow 256 i = BitVec.allOnes 256 := by
  have hself := self.isLt
  have hle : 2 ^ i ≤ 2 ^ 255 := Nat.pow_le_pow_right (by omega) (Nat.le_pred_of_lt hi)
  rw [MeetsModulus, ← BitVec.toNat_inj, BitVec.toNat_add, twoPow_toNat hi, BitVec.toNat_allOnes]
  generalize 2 ^ i = d at hle ⊢
  omega

/-- The starts of a node, each `2^i` away from it. -/
structure ExactStarts (own : Uuid) : Prop where
  start : ∀ i < BITS, (calc_successor_uuid_for_index own i).toNat = (own.toNat + 2 ^ i) % 2 ^ 256
  distinct : ∀ i < BITS, ∀ j < BITS,
    calc_successor_uuid_for_index own i = calc_successor_uuid_for_index own j → i = j
  ne_self : ∀ i < BITS, calc_successor_uuid_for_index own i ≠ own
  distance : ∀ i < BITS, steps own (calc_successor_uuid_for_index own i) = 2 ^ i

theorem distance_iff (self : Uuid) {i : Nat} (hi : i < BITS) :
    steps self (calc_successor_uuid_for_index self i) = 2 ^ i ↔ ¬ MeetsModulus self i := by
  rw [steps_calc self hi, meetsModulus_iff self hi]
  split <;> simp_all

/-- The start itself says as much as its distance. -/
theorem start_iff (self : Uuid) {i : Nat} (hi : i < BITS) :
    (calc_successor_uuid_for_index self i).toNat = (self.toNat + 2 ^ i) % 2 ^ 256 ↔
      ¬ MeetsModulus self i := by
  have hsum : (self.toNat + 2 ^ i) % 2 ^ 256 = (self + BitVec.twoPow 256 i).toNat := by
    rw [BitVec.toNat_add, twoPow_toNat hi]
  rw [hsum, BitVec.toNat_inj, ← steps_inj (a := self), steps_add, twoPow_toNat hi, distance_iff self hi]

theorem exactStarts_of_not_meets {self : Uuid} (h : ∀ i < BITS, ¬ MeetsModulus self i) :
    ExactStarts self where
  start := fun i hi => (start_iff self hi).mpr (h i hi)
  distinct := by
    intro i hi j hj heq
    have hpow : 2 ^ i = 2 ^ j := by
      rw [← (distance_iff self hi).mpr (h i hi), ← (distance_iff self hj).mpr (h j hj), heq]
    exact Nat.pow_right_injective (le_refl 2) hpow
  ne_self := fun i hi => (steps_pos.mp (steps_calc_pos self hi)).symm
  distance := fun i hi => (distance_iff self hi).mpr (h i hi)

/-- The starts are exact but for the one that meets the modulus. -/
theorem exact_starts_iff (self : Uuid) :
    (∀ i < BITS, ((calc_successor_uuid_for_index self i).toNat = (self.toNat + 2 ^ i) % 2 ^ 256 ↔
      ¬ MeetsModulus self i)) ∧
    (ExactStarts self ↔ ∀ i < BITS, ¬ MeetsModulus self i) := by
  refine ⟨fun i hi => start_iff self hi, ?_, exactStarts_of_not_meets⟩
  intro h i hi
  exact (start_iff self hi).mp (h.start i hi)

/-- Next to the last point, the first two starts are the same. -/
theorem first_starts_coincide : ¬ (∀ self : Uuid, ExactStarts self) ∧
    calc_successor_uuid_for_index (BitVec.allOnes 256 - 1) 0 =
      calc_successor_uuid_for_index (BitVec.allOnes 256 - 1) 1 := by
  have heq : calc_successor_uuid_for_index (BitVec.allOnes 256 - 1) 0 =
      calc_successor_uuid_for_index (BitVec.allOnes 256 - 1) 1 := by decide
  refine ⟨fun h => ?_, heq⟩
  have := (h (BitVec.allOnes 256 - 1)).distinct 0 (by decide) 1 (by decide) heq
  omega

end Chord
