import Mathlib.Data.Finset.Card
import Mathlib.Data.Finset.Dedup

/-!
# Keys in the order of their last use

A bounded cache holds a front part of this list, so a key is in it as long as fewer other keys
than its capacity were used since.
-/

namespace Recency

variable {K : Type*} [DecidableEq K]

/-- `k` comes to the front. -/
def touch (l : List K) (k : K) : List K := k :: l.filter (· ≠ k)

/-- All keys of a history, the last used one first. -/
def order (ks : List K) : List K := ks.foldl touch []

@[simp]
theorem order_nil : order ([] : List K) = [] := rfl

theorem order_concat (ks : List K) (k : K) : order (ks ++ [k]) = touch (order ks) k := by
  rw [order, List.foldl_append]
  rfl

theorem mem_touch {l : List K} {k x : K} : x ∈ touch l k ↔ x = k ∨ x ∈ l := by
  rw [touch, List.mem_cons, List.mem_filter, decide_eq_true_iff]
  constructor
  · rintro (rfl | ⟨hx, -⟩)
    · left; rfl
    · right; exact hx
  · rintro (rfl | hx)
    · left; rfl
    · by_cases hk : x = k
      · left; exact hk
      · right; exact ⟨hx, hk⟩

theorem touch_nodup {l : List K} (h : l.Nodup) (k : K) : (touch l k).Nodup := by
  rw [touch, List.nodup_cons]
  exact ⟨by simp, h.filter _⟩

theorem mem_order {ks : List K} {x : K} : x ∈ order ks ↔ x ∈ ks := by
  induction ks using List.reverseRecOn with
  | nil => rfl
  | append_singleton ks k ih =>
    rw [order_concat, mem_touch, ih, List.mem_append, List.mem_singleton, or_comm]

theorem order_nodup (ks : List K) : (order ks).Nodup := by
  induction ks using List.reverseRecOn with
  | nil => exact List.nodup_nil
  | append_singleton ks k ih => rw [order_concat]; exact touch_nodup ih k

theorem length_order (ks : List K) : (order ks).length = ks.toFinset.card := by
  rw [← List.toFinset_card_of_nodup (order_nodup ks)]
  congr 1
  ext x
  rw [List.mem_toFinset, List.mem_toFinset, mem_order]

/-! ## A bounded cache -/

/-- What a full cache drops was not in its front part. -/
theorem take_touch {n : Nat} {l : List K} (h : l.Nodup) (k : K) :
    (touch (l.take (n + 1)) k).take (n + 1) = (touch l k).take (n + 1) := by
  rw [touch, touch, List.take_succ_cons, List.take_succ_cons]
  congr 1
  induction l generalizing n with
  | nil => rfl
  | cons a l ih =>
    obtain ⟨ha, hl⟩ := List.nodup_cons.mp h
    rw [List.take_succ_cons]
    by_cases hak : a = k
    · -- the key is not met again
      have hfree : ∀ x ∈ l, decide (x ≠ k) = true := by
        intro x hx
        rw [decide_eq_true_iff]
        rintro rfl
        exact ha (hak ▸ hx)
      rw [List.filter_cons_of_neg (by simpa using hak), List.filter_cons_of_neg (by simpa using hak),
        List.filter_eq_self.mpr hfree, List.filter_eq_self.mpr fun x hx => hfree x (List.mem_of_mem_take hx),
        List.take_take, min_self]
    · rw [List.filter_cons_of_pos (by simpa using hak), List.filter_cons_of_pos (by simpa using hak)]
      cases n with
      | zero => rfl
      | succ n => rw [List.take_succ_cons, List.take_succ_cons, ih hl]

/-- Other keys come in front of `k`, and it stays where it is among the rest. -/
theorem foldl_touch_split {k : K} {ks : List K} (hk : k ∉ ks) (front rest : List K) :
    ∃ rest', ks.foldl touch (front ++ k :: rest) = ks.foldl touch front ++ k :: rest' := by
  induction ks generalizing front rest with
  | nil => exact ⟨rest, rfl⟩
  | cons x ks ih =>
    rw [List.mem_cons, not_or] at hk
    obtain ⟨hx, hks⟩ := hk
    rw [List.foldl_cons, List.foldl_cons]
    have hstep : touch (front ++ k :: rest) x = touch front x ++ k :: rest.filter (· ≠ x) := by
      rw [touch, touch, List.filter_append, List.filter_cons_of_pos (by simpa using hx), List.cons_append]
    rw [hstep]
    exact ih hks _ _

/-- A key is in the front part of length `n` as long as fewer than `n` keys came after it. -/
theorem mem_take_order {n : Nat} {k : K} {pre post : List K} (hk : k ∉ post) :
    k ∈ (order (pre ++ k :: post)).take n ↔ post.toFinset.card < n := by
  obtain ⟨rest, hrest⟩ := foldl_touch_split hk [] ((order pre).filter (· ≠ k))
  have horder : order (pre ++ k :: post) = order post ++ k :: rest := by
    rw [order, List.foldl_append, List.foldl_cons]
    exact hrest
  have hfront : k ∉ order post := fun h => hk (mem_order.mp h)
  rw [horder, List.take_append, List.mem_append, or_iff_right fun h => hfront (List.mem_of_mem_take h),
    ← length_order]
  cases hn : n - (order post).length with
  | zero => simp; omega
  | succ m => simp; omega

end Recency
