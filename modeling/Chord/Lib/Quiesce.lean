import Mathlib.Order.WellFounded

/-!
# Runs that come to rest

A run that only ever changes to something smaller changes finitely often.
-/

namespace Quiesce

variable {α β : Type*} [Preorder β] [WellFoundedLT β]

/-- From `n` on the run stands still. -/
def AtRest (x : Nat → α) (n : Nat) : Prop := ∀ m, n ≤ m → x m = x n

theorem AtRest.mono {x : Nat → α} {n m : Nat} (h : AtRest x n) (hnm : n ≤ m) : AtRest x m := by
  intro k hk
  rw [h k (le_trans hnm hk), h m hnm]

theorem AtRest.succ {x : Nat → α} {n m : Nat} (h : AtRest x n) (hnm : n ≤ m) : x (m + 1) = x m := by
  rw [h (m + 1) (le_trans hnm (Nat.le_succ m)), h m hnm]

/-- By a state of least size, after which the size cannot shrink. -/
theorem exists_atRest {x : Nat → α} (size : α → β) (start : Nat)
    (h : ∀ n, start ≤ n → x (n + 1) = x n ∨ size (x (n + 1)) < size (x n)) :
    ∃ n, start ≤ n ∧ AtRest x n := by
  obtain ⟨_, ⟨n, hn, rfl⟩, hmin⟩ := wellFounded_lt.has_min {s | ∃ n, start ≤ n ∧ size (x n) = s}
    ⟨_, start, le_refl start, rfl⟩
  refine ⟨n, hn, ?_⟩
  intro m hnm
  induction m, hnm using Nat.le_induction with
  | base => rfl
  | succ m hnm ih =>
    rcases h m (le_trans hn hnm) with heq | hlt
    · rw [heq, ih]
    · rw [ih] at hlt
      exact absurd hlt (hmin _ ⟨m + 1, by omega, rfl⟩)

end Quiesce
