import Chord.Lib.Circle
import Mathlib.Data.List.Sort
import Mathlib.Data.List.MinMax

/-!
# Points in clockwise order

A list of things with a place on the circle, in the order in which they are met going clockwise
from a base point.
-/

namespace Circle

variable {w : Nat} {α : Type} {pos : α → BitVec w}

/-- The places are met in the order of the list. -/
def Clockwise (pos : α → BitVec w) (b : BitVec w) (l : List α) : Prop :=
  l.Pairwise fun x y => steps b (pos x) < steps b (pos y)

/-- `x` is met first, going clockwise from the point after `a`. -/
def FirstAfter (pos : α → BitVec w) (l : List α) (a : BitVec w) (x : α) : Prop :=
  x ∈ l ∧ ∀ y ∈ l, steps (a + 1) (pos x) ≤ steps (a + 1) (pos y)

/-- Two things with one place are the same. -/
def Apart (pos : α → BitVec w) (l : List α) : Prop := ∀ x ∈ l, ∀ y ∈ l, pos x = pos y → x = y

theorem Clockwise.apart {b : BitVec w} {l : List α} (h : Clockwise pos b l) : Apart pos l := by
  intro x hx y hy hxy
  have hlt := List.pairwise_iff_getElem.mp h
  obtain ⟨i, hi, rfl⟩ := List.getElem_of_mem hx
  obtain ⟨j, hj, rfl⟩ := List.getElem_of_mem hy
  rcases Nat.lt_trichotomy i j with hij | rfl | hij
  · have := hlt i j hi hj hij
    rw [hxy] at this
    omega
  · rfl
  · have := hlt j i hj hi hij
    rw [hxy] at this
    omega

theorem Clockwise.head_le {b : BitVec w} {l : List α} (h : Clockwise pos b l) {x : α}
    (hx : l.head? = some x) :
    ∀ n ∈ l, steps b (pos x) ≤ steps b (pos n) := by
  obtain ⟨t, rfl⟩ := List.head?_eq_some_iff.mp hx
  intro n hn
  rcases List.mem_cons.mp hn with rfl | hn
  · exact le_rfl
  · exact Nat.le_of_lt (List.rel_of_pairwise_cons h hn)

theorem FirstAfter.unique {l : List α} (h : Apart pos l) {a : BitVec w} {x y : α} (hx : FirstAfter pos l a x)
    (hy : FirstAfter pos l a y) : x = y := by
  have hle := Nat.le_antisymm (hx.2 y hy.1) (hy.2 x hx.1)
  exact h x hx.1 y hy.1 (steps_inj.mp hle)

theorem firstAfter_argmin {l : List α} {a : BitVec w} {x : α}
    (h : l.argmin (fun n => steps (a + 1) (pos n)) = some x) : FirstAfter pos l a x :=
  ⟨List.argmin_mem h, fun _ hy => @List.le_of_mem_argmin _ _ _ (fun n => steps (a + 1) (pos n)) _ _ _ hy h⟩

theorem argmin_eq_iff {l : List α} (hl : Apart pos l) {a : BitVec w} {x : α} :
    l.argmin (fun n => steps (a + 1) (pos n)) = some x ↔ FirstAfter pos l a x := by
  refine ⟨firstAfter_argmin, fun h => ?_⟩
  cases hmin : l.argmin fun n => steps (a + 1) (pos n) with
  | none =>
    rw [List.argmin_eq_none] at hmin
    rw [hmin] at h
    cases h.1
  | some y => rw [(firstAfter_argmin hmin).unique hl h]

/-! ## The order of a list -/

theorem Clockwise.head {b : BitVec w} {x : α} {l : List α} (h : Clockwise pos (b + 1) l)
    (hx : l.head? = some x) : FirstAfter pos l b x := ⟨List.mem_of_mem_head? hx, h.head_le hx⟩

/-- Going on from the next point, the place itself is met last. -/
theorem steps_succ (a n : BitVec w) : steps (a + 1) n = if a = n then 2 ^ w - 1 else steps a n - 1 := by
  rcases Nat.eq_zero_or_pos w with rfl | hw
  · have := steps_lt (a + 1) n
    rw [if_pos (Subsingleton.elim a n)]
    omega
  · have hone : steps a (a + 1) = 1 := by
      rw [steps_add]
      exact BitVec.toNat_one hw
    rw [steps_shift a, hone]
    split
    · rename_i h
      rw [if_neg (steps_pos.mp h)]
    · rename_i h
      have heq : steps a n = 0 := by omega
      rw [heq, if_pos (steps_eq_zero.mp heq)]
      rfl

/-- After a place, the rest of the list comes first, and then the list from its beginning. -/
theorem Clockwise.next {b : BitVec w} {pre rest : List α} {x y : α} (h : Clockwise pos b (pre ++ x :: rest))
    (hy : (rest ++ (pre ++ [x])).head? = some y) : FirstAfter pos (pre ++ x :: rest) (pos x) y := by
  obtain ⟨hpre, hrest, hcross⟩ := List.pairwise_append.mp h
  have hbefore : ∀ n ∈ pre, steps b (pos n) < steps b (pos x) := fun n hn => hcross n hn x List.mem_cons_self
  have hafter : ∀ n ∈ rest, steps b (pos x) < steps b (pos n) :=
    fun n hn => List.rel_of_pairwise_cons hrest hn
  have hmem : ∀ n, n ∈ pre ++ x :: rest ↔ n ∈ rest ∨ n ∈ pre ∨ n = x := by
    intro n
    simp only [List.mem_append, List.mem_cons]
    tauto
  have hx := steps_lt b (pos x)
  -- places after `x` are nearer than places before it, and `x` itself is the furthest
  have hdist : ∀ n, (n ∈ rest → steps (pos x + 1) (pos n) + steps b (pos x) + 1 = steps b (pos n)) ∧
      (n ∈ pre → steps (pos x + 1) (pos n) + steps b (pos x) + 1 = 2 ^ w + steps b (pos n)) := by
    intro n
    rw [steps_succ]
    constructor
    · intro hn
      have hlt := hafter n hn
      have hne : pos x ≠ pos n := fun heq => by rw [heq] at hlt; omega
      rw [if_neg hne, steps_shift b (pos x) (pos n), if_pos (by omega)]
      omega
    · intro hn
      have hlt := hbefore n hn
      have hne : pos x ≠ pos n := fun heq => by rw [heq] at hlt; omega
      rw [if_neg hne, steps_shift b (pos x) (pos n), if_neg (by omega)]
      omega
  have hself : steps (pos x + 1) (pos x) = 2 ^ w - 1 := by rw [steps_succ, if_pos rfl]
  have hmax := fun n => steps_lt (pos x + 1) (pos n)
  have hlt := fun n => steps_lt b (pos n)
  cases hr : rest with
  | cons y' rest' =>
    rw [hr] at hy
    simp only [List.cons_append, List.head?_cons, Option.some.injEq] at hy
    have hyr : y ∈ rest := by rw [hr, ← hy]; exact List.mem_cons_self
    rw [← hr]
    refine ⟨(hmem y).mpr (Or.inl hyr), fun n hn => ?_⟩
    have hdy := (hdist y).1 hyr
    have hly := hlt y
    rcases (hmem n).mp hn with hn | hn | rfl
    · have hdn := (hdist n).1 hn
      have hle : steps b (pos y) ≤ steps b (pos n) :=
        Clockwise.head_le (List.pairwise_cons.mp hrest).2 (by rw [hr, hy, List.head?_cons]) n hn
      omega
    · have hdn := (hdist n).2 hn
      omega
    · have := hmax y
      omega
  | nil =>
    subst hr
    cases hp : pre with
    | nil =>
      rw [hp] at hy
      simp only [List.nil_append, List.head?_cons, Option.some.injEq] at hy
      subst hy
      exact ⟨by simp, fun n hn => by simp [List.mem_singleton.mp hn]⟩
    | cons y' pre' =>
      rw [hp] at hy
      simp only [List.nil_append, List.cons_append, List.head?_cons, Option.some.injEq] at hy
      have hyp : y ∈ pre := by rw [hp, ← hy]; exact List.mem_cons_self
      rw [← hp]
      refine ⟨(hmem y).mpr (Or.inr (Or.inl hyp)), fun n hn => ?_⟩
      have hdy := (hdist y).2 hyp
      rcases (hmem n).mp hn with hn | hn | rfl
      · cases hn
      · have hdn := (hdist n).2 hn
        have hle : steps b (pos y) ≤ steps b (pos n) :=
          Clockwise.head_le hpre (by rw [hp, hy, List.head?_cons]) n hn
        omega
      · have := hmax y
        omega

/-! ## Sorting -/

theorem clockwise_insertionSort {b : BitVec w} {l : List α} (h : l.Pairwise fun x y => pos x ≠ pos y) :
    Clockwise pos b (l.insertionSort fun x y => steps b (pos x) ≤ steps b (pos y)) := by
  have hsorted := List.pairwise_insertionSort (fun x y => steps b (pos x) ≤ steps b (pos y)) l
  have hne := (List.perm_insertionSort (fun x y => steps b (pos x) ≤ steps b (pos y)) l).pairwise_iff
    (fun h => Ne.symm h) |>.mpr h
  exact (hsorted.and hne).imp fun ⟨hle, hne⟩ => lt_of_le_of_ne hle fun heq => hne (steps_inj.mp heq)

end Circle
