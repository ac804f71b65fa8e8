import Mathlib.Data.List.Destutter
import Mathlib.Data.List.Sort
import Mathlib.Data.List.TakeWhile

/-!
# The first element of every run

A list sorted by a key falls into runs of equal keys, and `destutter` keeps the first element
of each.
-/

namespace Runs

variable {α κ : Type*} [DecidableEq κ] (key : α → κ)

/-- The first elements of the runs. -/
def heads (l : List α) : List α := l.destutter fun a b => key a ≠ key b

/-- `l` is sorted by the key. -/
def SortedBy [LE κ] (l : List α) : Prop := l.Pairwise fun a b => key a ≤ key b

section

variable [PartialOrder κ] {key}

omit [DecidableEq κ] in
/-- Where the key changes it does not come again. -/
theorem key_lt {a b : α} {l : List α} (h : SortedBy key (a :: b :: l)) (hab : key a ≠ key b) :
    ∀ y ∈ b :: l, key a < key y := by
  have hlt := lt_of_le_of_ne (List.rel_of_pairwise_cons h List.mem_cons_self) hab
  intro y hy
  rcases List.mem_cons.mp hy with rfl | hy
  · exact hlt
  · exact lt_of_lt_of_le hlt (List.rel_of_pairwise_cons h.of_cons hy)

theorem mem_heads_cons {a x : α} {l : List α} (h : SortedBy key (a :: l)) :
    x ∈ heads key (a :: l) ↔ (a :: l).find? (fun b => key b = key x) = some x := by
  rw [heads, List.destutter_cons']
  induction l generalizing a with
  | nil =>
    rw [List.destutter'_nil, List.mem_singleton]
    by_cases hk : key a = key x
    · simp [hk, eq_comm]
    · have : x ≠ a := by rintro rfl; exact hk rfl
      simp [hk, this]
  | cons b l ih =>
    by_cases hab : key a = key b
    · -- `b` belongs to the run of `a`
      have hal : SortedBy key (a :: l) := h.sublist ((List.sublist_cons_self b l).cons_cons a)
      rw [List.destutter'_cons_neg _ (by simpa using hab), ih hal]
      by_cases hk : key a = key x
      · simp [hk]
      · have hkb : key b ≠ key x := fun hb => hk (hab.trans hb)
        simp [hk, hkb]
    · rw [List.destutter'_cons_pos _ (by simpa using hab), List.mem_cons, ih h.of_cons]
      by_cases hk : key a = key x
      · have hnone : (b :: l).find? (fun y => key y = key x) = none := by
          rw [List.find?_eq_none]
          intro y hy
          simpa [← hk] using (key_lt h hab y hy).ne'
        rw [hnone, List.find?_cons_of_pos (by simpa using hk)]
        simp [eq_comm]
      · have hne : x ≠ a := by rintro rfl; exact hk rfl
        have hskip : (a :: b :: l).find? (fun y => key y = key x) = (b :: l).find? fun y => key y = key x :=
          List.find?_cons_of_neg (by simpa using hk)
        rw [or_iff_right hne, hskip]

theorem mem_heads {x : α} {l : List α} (h : SortedBy key l) :
    x ∈ heads key l ↔ l.find? (fun b => key b = key x) = some x := by
  cases l with
  | nil => simp [heads]
  | cons a l => exact mem_heads_cons h

omit [DecidableEq κ] in
theorem sortedBy_strict {l : List α} (hle : SortedBy key l) (hne : l.IsChain fun a b => key a ≠ key b) :
    l.Pairwise fun a b => key a < key b := by
  induction l with
  | nil => exact List.Pairwise.nil
  | cons a l ih =>
    cases l with
    | nil => exact List.pairwise_singleton _ _
    | cons b l =>
      obtain ⟨hab, hne⟩ := List.isChain_cons_cons.mp hne
      exact List.pairwise_cons.mpr ⟨key_lt hle hab, ih hle.of_cons hne⟩

/-- No key comes twice. -/
theorem heads_nodup {l : List α} (h : SortedBy key l) : ((heads key l).map key).Nodup := by
  have hle : SortedBy key (heads key l) := h.sublist (List.destutter_sublist _ l)
  have hlt := sortedBy_strict hle (List.isChain_destutter _ l)
  rw [List.Nodup, List.pairwise_map]
  exact hlt.imp fun hab => ne_of_lt hab

end

/-- Some sorted permutation has any wanted element in front of its run. -/
theorem exists_sorted_first [LinearOrder κ] {l : List α} [DecidableEq α] {a : α} (ha : a ∈ l) :
    ∃ l', l'.Perm l ∧ SortedBy key l' ∧ l'.find? (fun b => key b = key a) = some a := by
  let r : α → α → Prop := fun x y => key x ≤ key y
  have htotal : Std.Total r := ⟨fun _ _ => le_total _ _⟩
  have htrans : IsTrans α r := ⟨fun _ _ _ => le_trans⟩
  refine ⟨(a :: l.erase a).insertionSort r, ?_, List.pairwise_insertionSort r _, ?_⟩
  · exact (List.perm_insertionSort r _).trans (List.perm_cons_erase ha).symm
  · rw [List.insertionSort_cons_eq_take_drop, List.find?_append, List.find?_cons_of_pos (by simp)]
    have hnone : ((List.insertionSort r (l.erase a)).takeWhile fun b => ¬ r a b).find?
        (fun b => key b = key a) = none := by
      rw [List.find?_eq_none]
      intro y hy
      have hlt : ¬ key a ≤ key y := by simpa [r] using List.mem_takeWhile_imp hy
      simpa using fun h => hlt h.ge
    rw [hnone]
    rfl

end Runs
