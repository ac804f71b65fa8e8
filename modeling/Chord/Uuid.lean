import Chord.Lib.Circle

/-! # Points of the ring (`chord.uuid.h`) and finger starts (`chord.router.cc`) -/

open Circle

namespace Chord

/-- `boost::multiprecision::uint256_t`: arithmetic wraps. -/
abbrev Uuid := BitVec 256

/-- `uuid::between`. Neither boundary is in the interval. -/
def between (lower element upper : Uuid) : Prop :=
  if lower < upper then lower < element ∧ element < upper
  else lower < element ∨ element < upper

instance (lower element upper : Uuid) : Decidable (between lower element upper) :=
  inferInstanceAs (Decidable (if lower < upper then lower < element ∧ element < upper
    else lower < element ∨ element < upper))

theorem between_iff_arc (a x c : Uuid) : between a x c ↔ Arc a c x := by
  rw [arc_iff 0, between]
  simp only [steps_zero_left, BitVec.lt_def]

/-- `between`, seen from any base point. -/
theorem between_iff (b a x c : Uuid) :
    between a x c ↔ if steps b a < steps b c then steps b a < steps b x ∧ steps b x < steps b c
      else steps b a < steps b x ∨ steps b x < steps b c := by
  rw [between_iff_arc, arc_iff b]

theorem between_from {b x c : Uuid} (h : b ≠ c) : between b x c ↔ 0 < steps b x ∧ steps b x < steps b c := by
  rw [between_iff_arc, arc_from h]

/-- The arc from a node to itself is the rest of the circle. -/
theorem between_self (b x : Uuid) : between b x b ↔ x ≠ b := by
  rw [between_iff b]
  simp [steps_pos, eq_comm]

/-- The arc that ends at the base point. -/
theorem between_to {b a x : Uuid} (h : a ≠ b) : between a x b ↔ steps b a < steps b x := by
  have := steps_pos.mpr h.symm
  rw [between_iff b]
  simp

theorem not_between_left (a c : Uuid) : ¬ between a a c := by
  rw [between_iff_arc]; simp [Arc]

theorem not_between_right (a c : Uuid) : ¬ between a c c := by
  rw [between_iff_arc, Arc]
  rintro ⟨h, rfl | h⟩
  · simp at h
  · omega

/-! ## Finger starts -/

def BITS : Nat := 256

/-- `(self + 2^i) % std::numeric_limits<value_t>::max()`. -/
def calc_successor_uuid_for_index (self : Uuid) (i : Nat) : Uuid :=
  (self + BitVec.twoPow 256 i) % BitVec.allOnes 256

/-- The modulus is one less than the number of points, so the last point becomes 0. -/
theorem calc_eq (self : Uuid) (i : Nat) : calc_successor_uuid_for_index self i =
    if self + BitVec.twoPow 256 i = BitVec.allOnes 256 then 0 else self + BitVec.twoPow 256 i := by
  rw [calc_successor_uuid_for_index]
  have hlt := (self + BitVec.twoPow 256 i).isLt
  split
  · rename_i h; rw [h]; decide
  · rename_i h
    rw [← BitVec.toNat_inj, BitVec.toNat_allOnes] at h
    rw [← BitVec.toNat_inj, BitVec.toNat_umod, BitVec.toNat_allOnes]
    exact Nat.mod_eq_of_lt (by omega)

theorem twoPow_toNat {i : Nat} (hi : i < BITS) : (BitVec.twoPow 256 i).toNat = 2 ^ i := by
  rw [BitVec.toNat_twoPow]
  exact Nat.mod_eq_of_lt (Nat.pow_lt_pow_right (by omega) hi)

/-- A finger start is `2^i` away, or one more where the modulus hits it. -/
theorem steps_calc (self : Uuid) {i : Nat} (hi : i < BITS) :
    steps self (calc_successor_uuid_for_index self i) =
      if self + BitVec.twoPow 256 i = BitVec.allOnes 256 then 2 ^ i + 1 else 2 ^ i := by
  have hpow := twoPow_toNat hi
  rw [calc_eq]
  split
  · rename_i h
    have hzero : (0 : Uuid) = self + (BitVec.twoPow 256 i + 1) := by
      rw [← BitVec.add_assoc, h]; decide
    have hle : 2 ^ i ≤ 2 ^ 255 := Nat.pow_le_pow_right (by omega) (Nat.le_pred_of_lt hi)
    rw [hzero, steps_add, BitVec.toNat_add, hpow]
    exact Nat.mod_eq_of_lt (by simp; omega)
  · rw [steps_add, hpow]

theorem steps_calc_pos (self : Uuid) {i : Nat} (hi : i < BITS) :
    0 < steps self (calc_successor_uuid_for_index self i) := by
  rw [steps_calc self hi]
  have := Nat.pow_pos (n := i) (show 0 < 2 by omega)
  split <;> omega

theorem steps_calc_mono (self : Uuid) {i j : Nat} (hij : i ≤ j) (hj : j < BITS) :
    steps self (calc_successor_uuid_for_index self i) ≤
      steps self (calc_successor_uuid_for_index self j) := by
  rcases Nat.eq_or_lt_of_le hij with rfl | hlt
  · omega
  · rw [steps_calc self (by omega), steps_calc self hj]
    have hpow : 2 ^ (i + 1) ≤ 2 ^ j := Nat.pow_le_pow_right (by omega) hlt
    have := Nat.pow_pos (n := i) (show 0 < 2 by omega)
    rw [Nat.pow_succ] at hpow
    split <;> split <;> omega

end Chord
