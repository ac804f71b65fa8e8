import Mathlib.Data.List.Induction
import Mathlib.Data.List.Pairwise

/-!
# Maps that are sorted by a comparison

An ordered map as the list of its pairs. Keys of which none is less than the other are one key.
-/

namespace OrderedMap

variable {K V : Type*} (less : K → K → Prop) [DecidableRel less]

/-- `m[k] = v`: a key that is there already stays as it is. -/
def assign (k : K) (v : V) : List (K × V) → List (K × V)
  | [] => [(k, v)]
  | (x, w) :: l =>
    if less k x then (k, v) :: (x, w) :: l
    else if less x k then (x, w) :: assign k v l
    else (x, v) :: l

def keys (l : List (K × V)) : List K := l.map Prod.fst

/-- One assignment after the other. -/
def assign_all (l : List (K × V)) : List (K × V) := l.foldl (fun m e => assign less e.1 e.2 m) []

@[simp]
theorem keys_cons (k : K) (v : V) (l : List (K × V)) : keys ((k, v) :: l) = k :: keys l := rfl

theorem assign_all_concat (l : List (K × V)) (e : K × V) :
    assign_all less (l ++ [e]) = assign less e.1 e.2 (assign_all less l) := by
  rw [assign_all, List.foldl_append]
  rfl

variable {less} {k x : K} {v : V} {l : List (K × V)}

/-! ## The keys of a map -/

theorem mem_keys_of_assign (h : x ∈ keys (assign less k v l)) : x = k ∨ x ∈ keys l := by
  induction l with
  | nil => exact Or.inl (List.mem_singleton.mp h)
  | cons e l ih =>
    obtain ⟨y, w⟩ := e
    rw [assign] at h
    split at h
    · exact List.mem_cons.mp h
    · rw [keys_cons, List.mem_cons]
      split at h
      · rcases List.mem_cons.mp h with h | h
        · right; left; exact h
        · exact (ih h).imp id Or.inr
      · right; exact List.mem_cons.mp h

theorem mem_keys_assign (h : x ∈ keys l) : x ∈ keys (assign less k v l) := by
  induction l with
  | nil => cases h
  | cons e l ih =>
    obtain ⟨y, w⟩ := e
    rw [keys_cons, List.mem_cons] at h
    rw [assign]
    split
    · rw [keys_cons, keys_cons, List.mem_cons, List.mem_cons]
      right; exact h
    · split
      · rw [keys_cons, List.mem_cons]
        exact h.imp id ih
      · rw [keys_cons, List.mem_cons]
        exact h

theorem self_mem_keys_assign (h : ∀ y ∈ keys l, less k y ∨ less y k ∨ y = k) :
    k ∈ keys (assign less k v l) := by
  induction l with
  | nil => exact List.mem_cons_self
  | cons e l ih =>
    obtain ⟨y, w⟩ := e
    rw [keys_cons, List.forall_mem_cons] at h
    rw [assign]
    split
    · exact List.mem_cons_self
    · rename_i hlt
      split
      · exact List.mem_cons_of_mem y (ih h.2)
      · rename_i hgt
        obtain rfl := (h.1.resolve_left hlt).resolve_left hgt
        exact List.mem_cons_self

theorem mem_keys_of_assign_all (h : x ∈ keys (assign_all less l)) : x ∈ keys l := by
  induction l using List.reverseRecOn with
  | nil => exact h
  | append_singleton l e ih =>
    rw [assign_all_concat] at h
    rw [keys, List.map_append, List.mem_append]
    rcases mem_keys_of_assign h with rfl | h
    · right; exact List.mem_cons_self
    · left; exact ih h

/-- Where any two keys can be told apart none is lost. -/
theorem mem_keys_assign_all (htotal : ∀ x ∈ keys l, ∀ y ∈ keys l, less x y ∨ less y x ∨ y = x)
    (h : x ∈ keys l) : x ∈ keys (assign_all less l) := by
  induction l using List.reverseRecOn with
  | nil => exact h
  | append_singleton l e ih =>
    have hleft : ∀ y ∈ keys l, y ∈ keys (l ++ [e]) := by
      intro y hy
      rw [keys, List.map_append]
      exact List.mem_append_left _ hy
    have hlast : e.1 ∈ keys (l ++ [e]) := by simp [keys]
    rw [assign_all_concat]
    rw [keys, List.map_append, List.mem_append] at h
    rcases h with h | h
    · apply mem_keys_assign
      exact ih (fun y hy z hz => htotal y (hleft y hy) z (hleft z hz)) h
    · obtain rfl : x = e.1 := List.mem_singleton.mp h
      apply self_mem_keys_assign
      exact fun y hy => htotal _ hlast y (hleft y (mem_keys_of_assign_all hy))

/-! ## Their order -/

section

variable [IsTrans K less]

theorem assign_sorted (h : (keys l).Pairwise less) : (keys (assign less k v l)).Pairwise less := by
  induction l with
  | nil => exact List.pairwise_singleton less k
  | cons e l ih =>
    obtain ⟨y, w⟩ := e
    obtain ⟨hy, hl⟩ := List.pairwise_cons.mp h
    rw [assign]
    split
    · rename_i hlt
      refine List.pairwise_cons.mpr ⟨fun z hz => ?_, h⟩
      rcases List.mem_cons.mp hz with rfl | hz
      · exact hlt
      · exact trans_of less hlt (hy z hz)
    · split
      · rename_i hgt
        refine List.pairwise_cons.mpr ⟨fun z hz => ?_, ih hl⟩
        rcases mem_keys_of_assign hz with rfl | hz
        · exact hgt
        · exact hy z hz
      · exact h

theorem assign_all_sorted (l : List (K × V)) : (keys (assign_all less l)).Pairwise less := by
  induction l using List.reverseRecOn with
  | nil => exact List.Pairwise.nil
  | append_singleton l e ih =>
    rw [assign_all_concat]
    exact assign_sorted ih

end

omit [DecidableRel less] in
theorem pair_sublist [IsTrans K less] [Std.Irrefl less] {ks : List K} (h : ks.Pairwise less) {a b : K}
    (ha : a ∈ ks) (hb : b ∈ ks) (hab : less a b) : [a, b].Sublist ks := by
  obtain ⟨s, t, rfl⟩ := List.append_of_mem hb
  obtain ⟨-, ht, -⟩ := List.pairwise_append.mp h
  rcases List.mem_append.mp ha with ha | ha
  · exact (List.singleton_sublist.mpr ha).append (List.singleton_sublist.mpr List.mem_cons_self)
  · exfalso
    rcases List.mem_cons.mp ha with rfl | ha
    · exact irrefl_of less a hab
    · exact irrefl_of less a (trans_of less hab (List.rel_of_pairwise_cons ht ha))

end OrderedMap
