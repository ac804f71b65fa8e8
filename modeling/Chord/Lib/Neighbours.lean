import Chord.Lib.Circle
import Mathlib.Data.Set.Insert

/-!
# Neighbours on the circle

The next and the previous point of a set, and how they change when a point enters or goes.
-/

namespace Circle

variable {w : Nat} {M : Set (BitVec w)} {a b p s t j : BitVec w}

/-- Going clockwise from `a`, `s` is met first. -/
structure Next (M : Set (BitVec w)) (a s : BitVec w) : Prop where
  mem : s ∈ M
  ne : s ≠ a
  le : ∀ x ∈ M, x ≠ a → steps a s ≤ steps a x

/-- Going clockwise from `a`, `p` is met last. -/
structure Prev (M : Set (BitVec w)) (a p : BitVec w) : Prop where
  mem : p ∈ M
  ne : p ≠ a
  ge : ∀ x ∈ M, x ≠ a → steps a x ≤ steps a p

theorem Next.unique (hs : Next M a s) (ht : Next M a t) : s = t :=
  steps_inj.mp (le_antisymm (hs.le t ht.mem ht.ne) (ht.le s hs.mem hs.ne))

theorem Prev.unique (hs : Prev M a s) (ht : Prev M a t) : s = t :=
  steps_inj.mp (le_antisymm (ht.ge s hs.mem hs.ne) (hs.ge t ht.mem ht.ne))

theorem next_iff_prev (ha : a ∈ M) (hs : s ∈ M) : Next M a s ↔ Prev M s a := by
  constructor
  · intro h
    refine ⟨ha, h.ne.symm, ?_⟩
    intro x hx hxs
    have hpos := steps_pos.mpr h.ne.symm
    have hlt := steps_lt a x
    rw [steps_shift a s x, steps_shift a s a, steps_self]
    by_cases hxa : x = a
    · rw [hxa, steps_self]
    · have := h.le x hx hxa
      split <;> split <;> omega
  · intro h
    refine ⟨hs, h.ne.symm, ?_⟩
    intro x hx hxa
    by_cases hxs : x = s
    · rw [hxs]
    · have hpos := steps_pos.mpr h.ne
      have hxpos := steps_pos.mpr (Ne.symm hxa)
      have hge := h.ge x hx hxs
      rw [steps_shift a s x, steps_shift a s a, steps_self] at hge
      split at hge <;> split at hge <;> omega

/-- From any other point, the last point before `a` comes before `a`, and nothing between the two. -/
theorem Prev.last (h : Prev M a p) {u : BitVec w} (hu : u ∈ M) (hua : u ≠ a) :
    steps u p < steps u a ∧ ∀ x ∈ M, x ≠ a → steps u x < steps u a → steps u x ≤ steps u p := by
  have hpos := steps_pos.mpr hua.symm
  have hge := h.ge u hu hua
  have hp := steps_lt a p
  have hlast : steps u a = 2 ^ w - steps a u := by
    rw [steps_shift a u a, steps_self, if_neg (by omega), Nat.add_zero]
  rw [hlast, steps_shift a u p, if_pos hge]
  refine ⟨by omega, ?_⟩
  intro x hx hxa hlt
  have := h.ge x hx hxa
  rw [steps_shift a u x] at hlt ⊢
  by_cases hux : steps a u ≤ steps a x
  · rw [if_pos hux]
    omega
  · rw [if_neg hux] at hlt
    omega

/-! ## A point enters -/

theorem Next.insert_left (h : Next M p s) (hj : Arc p s j) : Next (insert j M) p j := by
  refine ⟨Set.mem_insert _ _, (steps_pos.mp hj.1).symm, ?_⟩
  rintro x (rfl | hx) hxp
  · exact le_refl _
  · have hlt := hj.2.resolve_left h.ne.symm
    have := h.le x hx hxp
    omega

theorem Next.insert_right (h : Next M p s) (hj : Arc p s j) : Next (insert j M) j s := by
  have hlt := hj.2.resolve_left h.ne.symm
  have hjs : s ≠ j := by rintro rfl; omega
  refine ⟨Set.mem_insert_of_mem _ h.mem, hjs, ?_⟩
  rintro x (rfl | hx) hxj
  · exact absurd rfl hxj
  · have hs := steps_lt p s
    rw [steps_shift p j s, steps_shift p j x]
    by_cases hxp : x = p
    · rw [hxp, steps_self]
      have := hj.1
      split <;> split <;> omega
    · have := h.le x hx hxp
      split <;> split <;> omega

theorem Next.insert_other (h : Next M a t) (hp : p ∈ M) (hps : Next M p s) (hj : Arc p s j) (ha : a ∈ M)
    (hap : a ≠ p) : Next (insert j M) a t := by
  refine ⟨Set.mem_insert_of_mem _ h.mem, h.ne, ?_⟩
  rintro x (rfl | hx) hxa
  · -- the new point is further than `p`, which is further than the next
    have hlt := hj.2.resolve_left hps.ne.symm
    have hsa := hps.le a ha hap
    have htp := h.le p hp hap.symm
    have hpos := steps_pos.mpr hap.symm
    rw [steps_shift p a x]
    rw [steps_shift p a p, steps_self] at htp
    split <;> split at htp <;> omega
  · exact h.le x hx hxa

/-- The point itself is no obstacle. -/
theorem next_pair (h : j ≠ p) : Next {j, p} p j := by
  refine ⟨Set.mem_insert _ _, h, ?_⟩
  rintro x (rfl | rfl) hx
  · exact le_refl _
  · exact absurd rfl hx

theorem next_pair' (h : j ≠ p) : Next {j, p} j p := by
  rw [Set.pair_comm]
  exact next_pair h.symm

end Circle
