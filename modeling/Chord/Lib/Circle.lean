import Mathlib.Algebra.Ring.Int.Defs
import Mathlib.Algebra.Ring.Nat

/-!
# The circle of `w`-bit numbers

Clockwise distance, and the open arc between two points. Every fact is stated for a base
point `b`, so that a proof about arcs becomes a comparison of distances from one place.
-/

namespace Circle

variable {w : Nat}

/-! ## Clockwise distance -/

/-- Steps from `a` clockwise to `b`. -/
def steps (a b : BitVec w) : Nat := (b - a).toNat

theorem steps_eq (a b : BitVec w) :
    steps a b = if a.toNat ≤ b.toNat then b.toNat - a.toNat else 2 ^ w - a.toNat + b.toNat := by
  have ha := a.isLt
  have hb := b.isLt
  rw [steps, BitVec.toNat_sub]
  split
  · rw [Nat.mod_eq_sub_mod (by omega), Nat.mod_eq_of_lt (by omega)]
    omega
  · rw [Nat.mod_eq_of_lt (by omega)]

theorem steps_lt (a b : BitVec w) : steps a b < 2 ^ w := (b - a).isLt

@[simp]
theorem steps_self (a : BitVec w) : steps a a = 0 := by simp [steps]

@[simp]
theorem steps_zero_left (a : BitVec w) : steps 0 a = a.toNat := by simp [steps]

theorem steps_inj {a b c : BitVec w} : steps a b = steps a c ↔ b = c := by
  rw [← BitVec.toNat_inj, steps_eq, steps_eq]
  have ha := a.isLt
  have hb := b.isLt
  have hc := c.isLt
  constructor
  · intro h; split at h <;> split at h <;> omega
  · intro h; rw [h]

theorem steps_eq_zero {a b : BitVec w} : steps a b = 0 ↔ a = b := by
  rw [← steps_self a, steps_inj, eq_comm]

theorem steps_pos {a b : BitVec w} : 0 < steps a b ↔ a ≠ b := by
  rw [Nat.pos_iff_ne_zero, ne_eq, steps_eq_zero]

/-- A distance from `a`, seen from another base point `b`. -/
theorem steps_shift (b a c : BitVec w) :
    steps a c = if steps b a ≤ steps b c then steps b c - steps b a else 2 ^ w - steps b a + steps b c := by
  simp only [steps_eq]
  have ha := a.isLt
  have hb := b.isLt
  have hc := c.isLt
  split <;> split <;> split <;> split <;> omega

theorem steps_add (a t : BitVec w) : steps a (a + t) = t.toNat := by
  rw [steps, BitVec.add_comm, BitVec.add_sub_cancel]

theorem steps_emod (a b : BitVec w) : (steps a b : Int) = ((b.toNat : Int) - a.toNat) % 2 ^ w := by
  have ha := a.isLt
  have hb := b.isLt
  have hcast : (2 : Int) ^ w = (2 ^ w : Nat) := by rw [Int.natCast_pow]; rfl
  rw [steps_eq, hcast]
  split
  · rw [Int.emod_eq_of_lt (by omega) (by omega)]
    omega
  · rw [← Int.add_emod_right, Int.emod_eq_of_lt (by omega) (by omega)]
    omega

/-! ## Open arcs -/

/-- `x` is met going clockwise from `a` before `c`. The arc from `a` to itself is the whole
circle without `a`. -/
def Arc (a c x : BitVec w) : Prop := 0 < steps a x ∧ (a = c ∨ steps a x < steps a c)

instance (a c x : BitVec w) : Decidable (Arc a c x) := inferInstanceAs (Decidable (_ ∧ _))

/-- The arc from `a` to `c`, seen from any base point. -/
theorem arc_iff (b a c x : BitVec w) :
    Arc a c x ↔ if steps b a < steps b c then steps b a < steps b x ∧ steps b x < steps b c
      else steps b a < steps b x ∨ steps b x < steps b c := by
  have hx := steps_lt b x
  have ha := steps_lt b a
  have hc := steps_lt b c
  have hac : a = c ↔ steps b a = steps b c := steps_inj.symm
  rw [Arc, hac, steps_shift b a x, steps_shift b a c]
  split <;> split <;> split <;> omega

/-- Two points cut the circle into two arcs. -/
theorem arc_xor {a b x : BitVec w} (hab : a ≠ b) (ha : x ≠ a) (hb : x ≠ b) :
    Xor (Arc a b x) (Arc b a x) := by
  have hx := steps_pos.mpr ha.symm
  have hne : steps a x ≠ steps a b := fun h => hb (steps_inj.mp h)
  have hpos := steps_pos.mpr hab
  rw [arc_iff a a b, arc_iff a b a, steps_self, if_pos hpos, if_neg (by omega), xor_iff_iff_not]
  omega

theorem Arc.trans {a b c x : BitVec w} (hb : Arc a c b) (hx : Arc a b x) : Arc a c x := by
  have hab := steps_pos.mp hb.1
  refine ⟨hx.1, hb.2.imp id fun h => ?_⟩
  exact Nat.lt_trans (hx.2.resolve_left hab) h

theorem arc_from {b c x : BitVec w} (h : b ≠ c) : Arc b c x ↔ 0 < steps b x ∧ steps b x < steps b c := by
  simp [Arc, h]

end Circle
