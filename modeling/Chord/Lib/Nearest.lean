import Mathlib.Order.Bounds.Basic
import Mathlib.Data.Set.Insert
import Mathlib.Data.List.Pairwise

/-!
# Tables of nearest keys

A slot has a lower bound and may hold a key. In a closed table every slot holds the least
key of the whole table above its bound. `insert` and `remove` keep a table closed.
-/

namespace Nearest

variable {K : Type*}

/-! ## Slots -/

structure Slot (K : Type*) where
  bound : K
  key : Option K

/-- The keys that some slot holds. -/
def keys (l : List (Slot K)) : Set K := {k | ∃ e ∈ l, e.key = some k}

theorem mem_keys {l : List (Slot K)} {k : K} : k ∈ keys l ↔ ∃ e ∈ l, e.key = some k := Iff.rfl

theorem mem_keys_cons {e : Slot K} {l : List (Slot K)} {k : K} :
    k ∈ keys (e :: l) ↔ e.key = some k ∨ k ∈ keys l := by
  simp [mem_keys]

theorem keys_append_right {pre post : List (Slot K)} : keys post ⊆ keys (pre ++ post) := by
  rintro k ⟨e, he, hk⟩
  exact ⟨e, List.mem_append_right pre he, hk⟩

variable [LinearOrder K]

/-! ## The least key above a bound -/

/-- `o` is the least key of `s` above `t`, or nothing where `s` has none there. -/
def IsNext (s : Set K) (t : K) : Option K → Prop
  | none => ∀ x ∈ s, x ≤ t
  | some y => IsLeast {x ∈ s | t < x} y

theorem IsNext.unique {s : Set K} {t : K} {o o' : Option K} (h : IsNext s t o) (h' : IsNext s t o') :
    o = o' := by
  cases o with
  | none =>
    cases o' with
    | none => rfl
    | some y => exact absurd (h y h'.1.1) (not_le.mpr h'.1.2)
  | some x =>
    cases o' with
    | none => exact absurd (h' x h.1.1) (not_le.mpr h.1.2)
    | some y => rw [IsLeast.unique h h']

/-- Keys that are not the answer may leave the set. -/
theorem IsNext.subset {s s' : Set K} {t : K} {o : Option K} (h : IsNext s t o) (hs : s' ⊆ s)
    (ho : ∀ y ∈ o, y ∈ s') : IsNext s' t o := by
  cases o with
  | none => exact fun x hx => h x (hs hx)
  | some y => exact ⟨⟨ho y rfl, h.1.2⟩, fun x hx => h.2 ⟨hs hx.1, hx.2⟩⟩

/-- `x` is above the bound and nearer than the key that is there. -/
def Closer (t : K) (o : Option K) (x : K) : Prop := t < x ∧ ∀ y ∈ o, x < y

instance (t : K) (o : Option K) (x : K) : Decidable (Closer t o x) :=
  match o with
  | none => decidable_of_iff (t < x) (by simp [Closer])
  | some y => decidable_of_iff (t < x ∧ x < y) (by simp [Closer])

theorem IsNext.insert {s : Set K} {t : K} {o : Option K} (h : IsNext s t o) (x : K) :
    IsNext (Insert.insert x s) t (if Closer t o x then some x else o) := by
  by_cases hc : Closer t o x
  · rw [if_pos hc]
    refine ⟨⟨Set.mem_insert x s, hc.1⟩, ?_⟩
    rintro z ⟨rfl | hz, htz⟩
    · exact le_refl _
    · cases o with
      | none => exact absurd (h z hz) (not_le.mpr htz)
      | some y => exact le_trans (le_of_lt (hc.2 y rfl)) (h.2 ⟨hz, htz⟩)
  · rw [if_neg hc]
    cases o with
    | none =>
      rintro z (rfl | hz)
      · by_contra hlt
        exact hc ⟨not_le.mp hlt, by simp⟩
      · exact h z hz
    | some y =>
      refine ⟨⟨Set.mem_insert_of_mem x h.1.1, h.1.2⟩, ?_⟩
      rintro z ⟨rfl | hz, htz⟩
      · by_contra hlt
        exact hc ⟨htz, by simpa using hlt⟩
      · exact h.2 ⟨hz, htz⟩

/-! ## Closed tables -/

/-- Every slot holds the nearest of all keys. -/
def Closed (l : List (Slot K)) : Prop := ∀ e ∈ l, IsNext (keys l) e.bound e.key

def Slot.insert (x : K) (e : Slot K) : Slot K :=
  if Closer e.bound e.key x then { e with key := some x } else e

@[simp]
theorem Slot.insert_bound (x : K) (e : Slot K) : (e.insert x).bound = e.bound := by
  unfold Slot.insert; split <;> rfl

theorem Slot.insert_key (x : K) (e : Slot K) :
    (e.insert x).key = if Closer e.bound e.key x then some x else e.key := by
  unfold Slot.insert; split <;> rfl

theorem keys_insert_subset (x : K) (l : List (Slot K)) :
    keys (l.map (Slot.insert x)) ⊆ Insert.insert x (keys l) := by
  rintro k ⟨e, he, hk⟩
  obtain ⟨e₀, he₀, rfl⟩ := List.mem_map.mp he
  rw [Slot.insert_key] at hk
  split at hk
  · left; simpa using hk.symm
  · right; exact ⟨e₀, he₀, hk⟩

theorem closed_insert {l : List (Slot K)} (h : Closed l) (x : K) : Closed (l.map (Slot.insert x)) := by
  intro e he
  obtain ⟨e₀, he₀, rfl⟩ := List.mem_map.mp he
  apply IsNext.subset _ (keys_insert_subset x l) (fun y hy => ⟨_, he, hy⟩)
  rw [Slot.insert_bound, Slot.insert_key]
  exact (h e₀ he₀).insert x

/-! ## Removal -/

/-- The first key of the list other than `u`. -/
def firstOther (u : K) (l : List (Slot K)) : Option K := (l.filterMap Slot.key).find? (· ≠ u)

/-- Slots that held `u` take the next key further on. -/
def remove (u : K) : List (Slot K) → List (Slot K)
  | [] => []
  | e :: l => (if e.key = some u then { e with key := firstOther u l } else e) :: remove u l

def Sorted (l : List (Slot K)) : Prop := l.Pairwise (fun e e' => e.bound ≤ e'.bound)

theorem firstOther_mem {u y : K} {l : List (Slot K)} (h : firstOther u l = some y) :
    y ∈ keys l ∧ y ≠ u := by
  constructor
  · have := List.mem_of_find?_eq_some h
    simpa [mem_keys] using this
  · simpa using List.find?_some h

/-- In a list of nearest keys the first other key is the least one. -/
theorem firstOther_least {s : Set K} {u : K} {l : List (Slot K)} (hs : Sorted l) (hl : keys l ⊆ s)
    (hn : ∀ e ∈ l, IsNext s e.bound e.key) {x : K} (hx : x ∈ keys l) (hxu : x ≠ u) :
    ∃ y, firstOther u l = some y ∧ y ≤ x := by
  induction l with
  | nil => simp [mem_keys] at hx
  | cons a l ih =>
    have hl' : keys l ⊆ s := fun k hk => hl (mem_keys_cons.mpr (Or.inr hk))
    have ih' := ih hs.of_cons hl' (fun e he => hn e (List.mem_cons_of_mem a he))
    rw [mem_keys_cons] at hx
    cases ha : a.key with
    | none =>
      rw [firstOther, List.filterMap_cons_none ha]
      exact ih' (hx.resolve_left (by simp [ha]))
    | some z =>
      rw [firstOther, List.filterMap_cons_some ha, List.find?_cons]
      by_cases hz : z = u
      · simp only [hz, ne_eq, not_true_eq_false, decide_false]
        exact ih' (hx.resolve_left (by rw [ha]; simpa [hz] using hxu.symm))
      · simp only [ne_eq, hz, not_false_eq_true, decide_true]
        refine ⟨z, rfl, ?_⟩
        rcases hx with hx | hx
        · rw [ha] at hx; exact le_of_eq (Option.some.inj hx)
        · -- a later slot: its bound is above this one
          obtain ⟨e, he, hk⟩ := hx
          have hz := hn a List.mem_cons_self
          have hx := hn e (List.mem_cons_of_mem a he)
          rw [ha] at hz
          rw [hk] at hx
          exact hz.2 ⟨hx.1.1, lt_of_le_of_lt (List.rel_of_pairwise_cons hs he) hx.1.2⟩

theorem mem_remove {u : K} {l : List (Slot K)} {e' : Slot K} (h : e' ∈ remove u l) :
    ∃ pre e post, l = pre ++ e :: post ∧
      e' = if e.key = some u then { e with key := firstOther u post } else e := by
  induction l with
  | nil => simp [remove] at h
  | cons a l ih =>
    rw [remove, List.mem_cons] at h
    rcases h with h | h
    · exact ⟨[], a, l, rfl, h⟩
    · obtain ⟨pre, e, post, rfl, he⟩ := ih h
      exact ⟨a :: pre, e, post, rfl, he⟩

theorem mem_remove_of_ne {u : K} {l : List (Slot K)} {e : Slot K} (he : e ∈ l) (hu : e.key ≠ some u) :
    e ∈ remove u l := by
  induction l with
  | nil => simp at he
  | cons a l ih =>
    rw [remove, List.mem_cons]
    rcases List.mem_cons.mp he with rfl | he
    · left; rw [if_neg hu]
    · right; exact ih he

theorem keys_remove (u : K) (l : List (Slot K)) : keys (remove u l) = keys l \ {u} := by
  ext k
  constructor
  · rintro ⟨e', he', hk⟩
    obtain ⟨pre, e, post, rfl, rfl⟩ := mem_remove he'
    split at hk
    · obtain ⟨hy, hne⟩ := firstOther_mem hk
      exact ⟨keys_append_right (mem_keys_cons.mpr (Or.inr hy)), hne⟩
    · rename_i hu
      refine ⟨⟨e, by simp, hk⟩, ?_⟩
      rintro rfl
      exact hu hk
  · rintro ⟨⟨e, he, hk⟩, hne⟩
    refine ⟨e, mem_remove_of_ne he ?_, hk⟩
    rw [hk]
    simpa using hne

/-- The refill of a slot that held `u`, at its place in the whole list. -/
theorem firstOther_next {u : K} {pre post : List (Slot K)} {e : Slot K} (hc : Closed (pre ++ e :: post))
    (hs : Sorted (pre ++ e :: post)) (hu : e.key = some u) :
    IsNext (keys (pre ++ e :: post) \ {u}) e.bound (firstOther u post) := by
  have hue := hc e (by simp)
  rw [hu] at hue
  obtain ⟨-, hse, hpre⟩ := List.pairwise_append.mp hs
  -- a key above the bound cannot sit before `e`, for `u` is nearer there
  have hlate : ∀ x ∈ keys (pre ++ e :: post), x ≠ u → e.bound < x → x ∈ keys post := by
    rintro x ⟨e', he', hx⟩ hxu hlt
    rcases List.mem_append.mp he' with he' | he'
    · exfalso
      have hxe := hc e' (List.mem_append_left _ he')
      rw [hx] at hxe
      have hxu' : x ≤ u :=
        hxe.2 ⟨hue.1.1, lt_of_le_of_lt (hpre e' he' e List.mem_cons_self) hue.1.2⟩
      exact hxu (le_antisymm hxu' (hue.2 ⟨hxe.1.1, hlt⟩))
    · rcases List.mem_cons.mp he' with rfl | he'
      · rw [hu] at hx; exact absurd (Option.some.inj hx).symm hxu
      · exact ⟨e', he', hx⟩
  have hleast : ∀ x ∈ keys (pre ++ e :: post), x ≠ u → e.bound < x →
      ∃ y, firstOther u post = some y ∧ y ≤ x := by
    intro x hx hxu hlt
    exact firstOther_least hse.of_cons
      (fun k hk => keys_append_right (mem_keys_cons.mpr (Or.inr hk)))
      (fun e' he' => hc e' (by simp [he'])) (hlate x hx hxu hlt) hxu
  cases hf : firstOther u post with
  | none =>
    rintro x ⟨hx, hxu⟩
    by_contra hlt
    obtain ⟨y, hy, -⟩ := hleast x hx hxu (not_le.mp hlt)
    simp [hf] at hy
  | some y =>
    obtain ⟨⟨e', he', hy⟩, hyu⟩ := firstOther_mem hf
    have hye := hc e' (by simp [he'])
    rw [hy] at hye
    refine ⟨⟨⟨hye.1.1, hyu⟩, ?_⟩, ?_⟩
    · exact lt_of_le_of_lt (List.rel_of_pairwise_cons hse he') hye.1.2
    · rintro x ⟨⟨hx, hxu⟩, hlt⟩
      obtain ⟨z, hz, hzx⟩ := hleast x hx hxu hlt
      rw [hf] at hz
      rwa [Option.some.inj hz]

theorem closed_remove {l : List (Slot K)} (hc : Closed l) (hs : Sorted l) (u : K) : Closed (remove u l) := by
  intro e' he'
  have hk := keys_remove u l
  rw [hk]
  obtain ⟨pre, e, post, rfl, rfl⟩ := mem_remove he'
  by_cases hu : e.key = some u
  · rw [if_pos hu]
    exact firstOther_next hc hs hu
  · rw [if_neg hu] at he' ⊢
    apply (hc e (by simp)).subset Set.sdiff_subset
    intro y hy
    rw [← hk]
    exact ⟨e, he', hy⟩

theorem map_bound_remove (u : K) (l : List (Slot K)) : (remove u l).map Slot.bound = l.map Slot.bound := by
  induction l with
  | nil => rfl
  | cons a l ih =>
    rw [remove, List.map_cons, List.map_cons, ih]
    split <;> rfl

theorem sorted_iff_map (l : List (Slot K)) : Sorted l ↔ (l.map Slot.bound).Pairwise (· ≤ ·) := by
  rw [Sorted, List.pairwise_map]

/-! ## Order in a closed table -/

/-- The keys of a closed table come in order. -/
theorem closed_ordered {l : List (Slot K)} (hc : Closed l) (hs : Sorted l) :
    (l.filterMap Slot.key).Pairwise (· ≤ ·) := by
  rw [List.pairwise_filterMap]
  apply List.Pairwise.imp_of_mem _ hs
  intro e e' he he' hb x hx y hy
  have hxe := hc e he
  have hye := hc e' he'
  rw [hx] at hxe
  rw [hy] at hye
  exact hxe.2 ⟨hye.1.1, lt_of_le_of_lt hb hye.1.2⟩

/-- A key below another one does not decide about the greatest. -/
theorem isGreatest_absorb {s : Set K} {d m k : K} (hm : m ∈ s) (hd : d ≤ m) :
    IsGreatest (Insert.insert d s) k ↔ IsGreatest s k := by
  constructor
  · rintro ⟨hk, hub⟩
    refine ⟨?_, fun x hx => hub (Or.inr hx)⟩
    rcases hk with rfl | hk
    · rw [le_antisymm hd (hub (Or.inr hm))]
      exact hm
    · exact hk
  · rintro ⟨hk, hub⟩
    refine ⟨Or.inr hk, ?_⟩
    rintro x (rfl | hx)
    · exact hd.trans (hub hm)
    · exact hub hx

/-! ## Tables with a furthest key -/

/-- `last` is the furthest key seen, which need not be in a slot. -/
structure Table (K : Type*) where
  slots : List (Slot K)
  last : Option K

namespace Table

def insert (x : K) (T : Table K) : Table K :=
  { slots := T.slots.map (Slot.insert x), last := some (T.last.elim x (max x)) }

def remove (u : K) (T : Table K) : Table K :=
  { slots := Nearest.remove u T.slots,
    last := if T.last = some u then ((T.slots.filterMap Slot.key).filter (· ≠ u)).getLast? else T.last }

structure WF (T : Table K) : Prop where
  sorted : Sorted T.slots
  closed : Closed T.slots
  bounded : ∀ k ∈ keys T.slots, ∃ p, T.last = some p ∧ k ≤ p

theorem WF.insert {T : Table K} (h : WF T) (x : K) : WF (T.insert x) where
  sorted := by
    rw [sorted_iff_map, Table.insert, List.map_map]
    have : Slot.bound ∘ Slot.insert x = Slot.bound := by funext e; simp
    rw [this, ← sorted_iff_map]
    exact h.sorted
  closed := closed_insert h.closed x
  bounded := by
    intro k hk
    refine ⟨_, rfl, ?_⟩
    rcases keys_insert_subset x T.slots hk with rfl | hk
    · cases T.last <;> simp
    · obtain ⟨p, hp, hkp⟩ := h.bounded k hk
      simp [hp, hkp]

theorem WF.remove {T : Table K} (h : WF T) (u : K) : WF (T.remove u) where
  sorted := by
    rw [sorted_iff_map, Table.remove, map_bound_remove, ← sorted_iff_map]
    exact h.sorted
  closed := closed_remove h.closed h.sorted u
  bounded := by
    intro k hk
    rw [Table.remove, keys_remove] at hk
    obtain ⟨hk, hku⟩ := hk
    obtain ⟨p, hp, hkp⟩ := h.bounded k hk
    by_cases hu : T.last = some u
    · -- the furthest key went: the last one left takes its place
      have hmem : k ∈ (T.slots.filterMap Slot.key).filter (· ≠ u) := by
        obtain ⟨e, he, hek⟩ := hk
        simp only [List.mem_filter, List.mem_filterMap]
        exact ⟨⟨e, he, hek⟩, by simpa using hku⟩
      have hord := (closed_ordered h.closed h.sorted).filter (· ≠ u)
      have hne := List.ne_nil_of_mem hmem
      refine ⟨_, by rw [Table.remove, if_pos hu, List.getLast?_eq_some_getLast hne], ?_⟩
      exact List.Pairwise.rel_getLast hord hmem
    · exact ⟨p, by rw [Table.remove, if_neg hu, hp], hkp⟩

theorem mem_others {T : Table K} {u k : K} :
    k ∈ (T.slots.filterMap Slot.key).filter (· ≠ u) ↔ k ∈ keys T.slots \ {u} := by
  simp [mem_keys]

/-- Once the furthest key went, the greatest of the others is the furthest. -/
theorem WF.last_remove {T : Table K} (h : WF T) {u : K} (hu : T.last = some u) {k : K} :
    (T.remove u).last = some k ↔ IsGreatest (keys T.slots \ {u}) k := by
  have hord := (closed_ordered h.closed h.sorted).filter (· ≠ u)
  rw [Table.remove, if_pos hu]
  constructor
  · intro hk
    refine ⟨mem_others.mp (List.mem_of_getLast? hk), ?_⟩
    intro x hx
    have hmem := mem_others.mpr hx
    have hne := List.ne_nil_of_mem hmem
    rw [List.getLast?_eq_some_getLast hne] at hk
    rw [← Option.some.inj hk]
    exact List.Pairwise.rel_getLast hord hmem
  · intro hk
    have hmem := mem_others.mpr hk.1
    have hne := List.ne_nil_of_mem hmem
    rw [List.getLast?_eq_some_getLast hne, Option.some_inj]
    apply le_antisymm
    · exact hk.2 (mem_others.mp (List.getLast_mem hne))
    · exact List.Pairwise.rel_getLast hord hmem

/-- The furthest key of a table that lost its furthest key, together with other keys. -/
theorem WF.last_remove_union {T : Table K} (h : WF T) {u : K} (hu : T.last = some u) (s : Set K) {k : K} :
    IsGreatest ({x | (T.remove u).last = some x} ∪ s) k ↔ IsGreatest (keys T.slots \ {u} ∪ s) k := by
  cases hl : (T.remove u).last with
  | none =>
    have hempty : keys T.slots \ {u} = ∅ := by
      rw [Set.eq_empty_iff_forall_notMem]
      intro x hx
      rw [Table.remove, if_pos hu, List.getLast?_eq_none_iff] at hl
      have := mem_others.mpr hx
      rw [hl] at this
      cases this
    rw [hempty]
    simp
  | some m =>
    have hm := (h.last_remove hu).mp hl
    constructor
    · rintro ⟨hk | hk, hub⟩
      · obtain rfl : m = k := Option.some.inj hk
        exact ⟨Or.inl hm.1, fun x hx => hx.elim (fun hx => hm.2 hx) (fun hx => hub (Or.inr hx))⟩
      · exact ⟨Or.inr hk, fun x hx => hx.elim (fun hx => (hm.2 hx).trans (hub (Or.inl rfl)))
          (fun hx => hub (Or.inr hx))⟩
    · rintro ⟨hk | hk, hub⟩
      · obtain rfl : m = k := le_antisymm (hub (Or.inl hm.1)) (hm.2 hk)
        refine ⟨Or.inl rfl, ?_⟩
        rintro x (hx | hx)
        · exact le_of_eq (Option.some.inj hx).symm
        · exact hub (Or.inr hx)
      · refine ⟨Or.inr hk, ?_⟩
        rintro x (hx | hx)
        · obtain rfl : m = x := Option.some.inj hx
          exact hub (Or.inl hm.1)
        · exact hub (Or.inr hx)

end Table

end Nearest
