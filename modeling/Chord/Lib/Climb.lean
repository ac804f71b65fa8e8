import Chord.Lib.Neighbours
import Mathlib.Data.Finset.Max
import Mathlib.Data.Fintype.EquivFin
import Mathlib.Data.Set.Finite.Lemmas

/-!
# Pointers that never pass a base point

An injective map on a finite set of points, which never goes past a base point on its way
round the circle, goes from each point to the next one.
-/

namespace Circle

variable {w : Nat} {M : Finset (BitVec w)} {a : BitVec w} {f : BitVec w → BitVec w}

/-- Going clockwise from `n`, `f n` is met no later than `a`. -/
structure Climbs (M : Finset (BitVec w)) (a : BitVec w) (f : BitVec w → BitVec w) : Prop where
  base : a ∈ M
  maps : ∀ n ∈ M, f n ∈ M
  inj : ∀ n ∈ M, ∀ m ∈ M, f n = f m → n = m
  up : ∀ n ∈ M, n ≠ a → f n = a ∨ steps a n < steps a (f n)
  leaves : f a ≠ a

instance finite_bitVec : Finite (BitVec w) :=
  Finite.of_injective BitVec.toFin fun _ _ => BitVec.eq_of_toFin_eq

/-- The points beyond `n`, on the way back to `a`. -/
def beyond (M : Finset (BitVec w)) (a n : BitVec w) : Finset (BitVec w) :=
  M.filter fun x => steps a n < steps a x

theorem mem_beyond {n x : BitVec w} : x ∈ beyond M a n ↔ x ∈ M ∧ steps a n < steps a x := Finset.mem_filter

theorem notMem_beyond (n : BitVec w) : n ∉ beyond M a n := fun h => absurd (mem_beyond.mp h).2 (lt_irrefl _)

theorem base_notMem_beyond (n : BitVec w) : a ∉ beyond M a n := by
  intro h
  have := (mem_beyond.mp h).2
  rw [steps_self] at this
  omega

/-- What `f` hits beyond `n` comes from `n` and beyond, for there are as many points. -/
theorem Climbs.hits (h : Climbs M a f) {n x : BitVec w} (hn : n ∈ M) (hx : x = a ∨ x ∈ beyond M a n) :
    ∃ y, (y = n ∨ y ∈ beyond M a n) ∧ f y = x := by
  have hcard : (insert a (beyond M a n)).card ≤ (insert n (beyond M a n)).card := by
    rw [Finset.card_insert_of_notMem (base_notMem_beyond n), Finset.card_insert_of_notMem (notMem_beyond n)]
  have hmem : ∀ y ∈ insert n (beyond M a n), y ∈ M ∧ steps a n ≤ steps a y := by
    intro y hy
    rcases Finset.mem_insert.mp hy with rfl | hy
    · exact ⟨hn, le_refl _⟩
    · obtain ⟨hyM, hlt⟩ := mem_beyond.mp hy
      exact ⟨hyM, le_of_lt hlt⟩
  have hmaps : Set.MapsTo f (insert n (beyond M a n)) (insert a (beyond M a n)) := by
    intro y hy
    obtain ⟨hyM, hle⟩ := hmem y (by simpa using hy)
    have hgoal : f y = a ∨ f y ∈ beyond M a n := by
      by_cases hya : y = a
      · right
        rw [mem_beyond]
        refine ⟨h.maps y hyM, ?_⟩
        have hpos := steps_pos.mpr h.leaves.symm
        rw [hya, steps_self] at hle
        rw [hya]
        omega
      · rcases h.up y hyM hya with heq | hlt
        · left; exact heq
        · right
          exact mem_beyond.mpr ⟨h.maps y hyM, lt_of_le_of_lt hle hlt⟩
    simpa using hgoal
  have hinj : Set.InjOn f (insert n (beyond M a n)) := by
    intro y hy z hz
    exact h.inj y (hmem y (by simpa using hy)).1 z (hmem z (by simpa using hz)).1
  have hsurj := Finset.surjOn_of_injOn_of_card_le f (by simpa using hmaps) (by simpa using hinj) hcard
  obtain ⟨y, hy, rfl⟩ := hsurj (by simpa using hx : x ∈ ((insert a (beyond M a n) : Finset _) : Set _))
  exact ⟨y, by simpa using hy, rfl⟩

/-- From the last point `f` goes back to the base, from any other to the least beyond. -/
theorem Climbs.next (h : Climbs M a f) {n : BitVec w} (hn : n ∈ M) : Next (M : Set (BitVec w)) n (f n) := by
  rcases (beyond M a n).eq_empty_or_nonempty with hempty | hne
  · obtain ⟨y, hy, hfy⟩ := h.hits hn (Or.inl rfl)
    rw [hempty] at hy
    obtain rfl : y = n := hy.resolve_right (Finset.notMem_empty _)
    rw [hfy]
    have hya : y ≠ a := fun heq => h.leaves (heq ▸ hfy)
    refine ⟨h.base, hya.symm, ?_⟩
    intro x hx hxy
    have hle : steps a x ≤ steps a y := by
      by_contra hlt
      have := mem_beyond.mpr ⟨hx, not_le.mp hlt⟩
      rw [hempty] at this
      exact Finset.notMem_empty _ this
    have hne : steps a x ≠ steps a y := fun heq => hxy (steps_inj.mp heq)
    have hpos := steps_pos.mpr hya.symm
    rw [steps_shift a y a, steps_shift a y x, steps_self]
    split <;> split <;> omega
  · obtain ⟨x, hx, hleast⟩ := Finset.exists_min_image _ (steps a) hne
    obtain ⟨y, hy, hfy⟩ := h.hits hn (Or.inr hx)
    obtain ⟨hxM, hnx⟩ := mem_beyond.mp hx
    -- the least point beyond comes from no point beyond
    have hyn : y = n := by
      rcases hy with rfl | hy
      · rfl
      · exfalso
        have hle := hleast y hy
        have hya : y ≠ a := fun heq => base_notMem_beyond n (heq ▸ hy)
        rcases h.up y (mem_beyond.mp hy).1 hya with heq | hlt
        · exact base_notMem_beyond n (heq ▸ hfy ▸ hx)
        · rw [hfy] at hlt
          omega
    rw [← hyn, hfy, hyn]
    refine ⟨hxM, ?_, ?_⟩
    · rintro rfl
      omega
    · intro z hz hzn
      have hzlt := steps_lt a z
      have hxlt := steps_lt a x
      have hne : steps a z ≠ steps a n := fun heq => hzn (steps_inj.mp heq)
      rw [steps_shift a n x, steps_shift a n z]
      by_cases hnz : steps a n < steps a z
      · have := hleast z (mem_beyond.mpr ⟨hz, hnz⟩)
        split <;> split <;> omega
      · split <;> split <;> omega

/-- A point that is met before the base, seen from the base. -/
theorem not_past {n s : BitVec w} (hsn : s ≠ n) (hna : n ≠ a) (h : steps n s ≤ steps n a) :
    s = a ∨ steps a n < steps a s := by
  by_cases hsa : s = a
  · left; exact hsa
  · right
    have hpos := steps_pos.mpr hna.symm
    have hspos := steps_pos.mpr (Ne.symm hsa)
    have hne : steps a s ≠ steps a n := fun heq => hsn (steps_inj.mp heq)
    rw [steps_shift a n s, steps_shift a n a, steps_self] at h
    split at h <;> split at h <;> omega

/-- A finite set with another point has a point before each of its points. -/
theorem exists_prev {s : Set (BitVec w)} {u v : BitVec w} (hv : v ∈ s) (hvu : v ≠ u) : ∃ p, Prev s u p := by
  obtain ⟨p, ⟨hp, hpu⟩, hmax⟩ := Set.exists_max_image {x ∈ s | x ≠ u} (steps u) (Set.toFinite _) ⟨v, hv, hvu⟩
  exact ⟨p, hp, hpu, fun x hx hxu => hmax x ⟨hx, hxu⟩⟩

end Circle
