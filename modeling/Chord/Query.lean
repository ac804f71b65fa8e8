import Chord.UriText

/-!
# The query of a uri

The loop of `uri::from` finds the pieces between `?` and `&` that have a `=`.
-/

namespace Chord

namespace Uri

/-- What begins or ends a pair. -/
def separates (c : Char) : Bool := c = '?' ∨ c = '&'

theorem noneOf_eq_separates (c : Char) : noneOf ['?', '&'] c = !separates c := by simp [noneOf, separates]

/-- Up to the last `=`, and after it. -/
def pair (x : List Char) : Option (List Char × List Char) :=
  if '=' ∈ x then some ((x.reverse.dropWhile (· ≠ '=')).tail.reverse, (x.reverse.takeWhile (· ≠ '=')).reverse)
    else none

def pairs (s : List Char) : List (List Char × List Char) := (s.splitOnP separates).filterMap pair

/-! ## One pair -/

theorem pair_eq {key value : List Char} (h : '=' ∉ value) :
    pair (key ++ '=' :: value) = some (key, value) := by
  have hvalue : ∀ c ∈ value.reverse, decide (c ≠ '=') := by
    intro c hc
    rw [decide_eq_true_eq]
    rintro rfl
    exact h (List.mem_reverse.mp hc)
  have hreverse : (key ++ '=' :: value).reverse = value.reverse ++ '=' :: key.reverse := by simp
  obtain ⟨htake, hdrop⟩ := takeWhile_append_cons hvalue (by decide : decide ('=' ≠ '=') = false) key.reverse
  unfold pair
  rw [if_pos (by simp), hreverse, htake, hdrop]
  simp

theorem pairs_nil : pairs [] = [] := by decide

theorem pairs_cons {c : Char} (hc : separates c) (s : List Char) : pairs (c :: s) = pairs s := by
  unfold pairs
  rw [List.splitOnP_cons_eq_if_modifyHead, if_pos hc, List.filterMap_cons]
  rfl

/-- The end of the text, or the next separator. -/
def Ends (t : List Char) : Prop := t = [] ∨ ∃ c t', t = c :: t' ∧ separates c

theorem pairs_append {x t : List Char} (hx : ∀ c ∈ x, separates c = false) (ht : Ends t) :
    pairs (x ++ t) = (pair x).toList ++ pairs t := by
  rcases ht with rfl | ⟨c, t, rfl, hc⟩
  · rw [List.append_nil, pairs_nil, List.append_nil, pairs, List.splitOnP_eq_singleton hx,
      List.filterMap_cons]
    split
    · rename_i h
      rw [h]
      rfl
    · rename_i h
      rw [h]
      rfl
  · rw [pairs_cons hc, pairs, List.splitOnP_append_cons_of_forall_mem hx c hc, List.filterMap_cons]
    split
    · rename_i h
      rw [h]
      rfl
    · rename_i h
      rw [h]
      rfl

/-! ## The search for the next pair -/

theorem not_mem_of_ends {t w v : List Char} (ht : Ends t) (hw : ∀ c ∈ w, separates c = false) :
    t ≠ w ++ '=' :: v := by
  rintro rfl
  rcases ht with hnil | ⟨c, t', heq, hc⟩
  · simp at hnil
  · cases w with
    | nil =>
      obtain ⟨rfl, -⟩ := List.cons.inj heq
      exact absurd hc (by decide)
    | cons d w =>
      obtain ⟨rfl, -⟩ := List.cons.inj heq
      rw [hw d List.mem_cons_self] at hc
      cases hc

/-- A `=` before the end of a piece is in the piece. -/
theorem mem_of_ends {x t w v : List Char} (ht : Ends t) (hw : ∀ c ∈ w, separates c = false)
    (h : x ++ t = w ++ '=' :: v) : '=' ∈ x := by
  rcases List.append_eq_append_iff.mp h with ⟨y, rfl, hy⟩ | ⟨y, rfl, hy⟩
  · exact absurd hy (not_mem_of_ends ht fun c hc => hw c (List.mem_append_right _ hc))
  · cases y with
    | nil => exact absurd hy.symm (not_mem_of_ends ht (by simp) (w := []))
    | cons c y =>
      obtain ⟨rfl, -⟩ := List.cons.inj hy
      simp

open Regex in
theorem takes_query_reg {len : Nat} {s t : List Char} (h : Takes len query_reg s t) :
    ∃ w v, s = w ++ '=' :: v ∧ ∀ c ∈ w, separates c = false := by
  simp only [query_reg, takes_seq, takes_group, takes_star, is, takes_one, decide_eq_true_eq] at h
  obtain ⟨u, ⟨w, rfl, hw⟩, v, ⟨c, rfl, rfl⟩, -⟩ := h
  exact ⟨w, v, rfl, fun c hc => by simpa [noneOf_eq_separates] using hw c hc⟩

open Regex in
theorem first_query_reg {len : Nat} {key value t : List Char} (hkey : ∀ c ∈ key, separates c = false)
    (hvalue : ∀ c ∈ value, separates c = false) (heq : '=' ∉ value) (ht : Ends t) :
    First len query_reg (key ++ '=' :: (value ++ t)) [(2, value), (1, key)] t := by
  have hall : ∀ {x : List Char}, (∀ c ∈ x, separates c = false) → ∀ c ∈ x, noneOf ['?', '&'] c := by
    intro x hx c hc
    rw [noneOf_eq_separates, hx c hc]
    rfl
  have hgroup := First.groupStar len (noneOf ['?', '&']) (value ++ t) 2
  have hends : (value ++ t).takeWhile (noneOf ['?', '&']) = value ∧
      (value ++ t).dropWhile (noneOf ['?', '&']) = t := by
    rcases ht with rfl | ⟨c, t, rfl, hc⟩
    · rw [List.append_nil, List.takeWhile_eq_self_iff.mpr (hall hvalue),
        List.dropWhile_eq_nil_iff.mpr (hall hvalue)]
      exact ⟨rfl, rfl⟩
    · exact takeWhile_append_cons (hall hvalue) (by rw [noneOf_eq_separates, hc]; rfl) t
  rw [hends.1, hends.2] at hgroup
  have hequals : First len (is '=') ('=' :: (value ++ t)) [] (value ++ t) := First.one (by decide)
  refine First.starSeq 1 (hall hkey) (hequals.seq hgroup) fun w v hw hsplit hnone u htakes => ?_
  -- the value has no `=` for a longer key
  simp only [takes_seq, is, takes_one, decide_eq_true_eq] at htakes
  obtain ⟨y, ⟨c, rfl, rfl⟩, -⟩ := htakes
  obtain ⟨c, w, rfl⟩ := List.exists_cons_of_ne_nil hw
  refine heq (mem_of_ends ht (fun d hd => ?_) (List.cons.inj hsplit).2)
  simpa [noneOf_eq_separates] using hnone d (List.mem_cons_of_mem c hd)

/-- The search goes on after a piece without a `=`. -/
theorem searchFrom_append {len : Nat} {x t : List Char} (hx : '=' ∉ x) (ht : Ends t) :
    Regex.searchFrom len query_reg (x ++ t) = Regex.searchFrom len query_reg t := by
  induction x with
  | nil => rfl
  | cons c x ih =>
    have hnone : Regex.run len query_reg (c :: (x ++ t)) = [] := by
      refine Regex.run_eq_nil fun u htakes => ?_
      obtain ⟨w, v, hsplit, hw⟩ := takes_query_reg htakes
      exact hx (mem_of_ends ht hw hsplit)
    rw [List.cons_append, Regex.searchFrom, hnone]
    exact ih fun hc => hx (List.mem_cons_of_mem c hc)

theorem searchFrom_nil {len : Nat} : Regex.searchFrom len query_reg [] = none := by rfl

theorem searchFrom_separator {len : Nat} {c : Char} (hc : separates c) (t : List Char) :
    Regex.searchFrom len query_reg (c :: t) = Regex.searchFrom len query_reg t := by
  have hnone : Regex.run len query_reg (c :: t) = [] := by
    refine Regex.run_eq_nil fun u htakes => ?_
    obtain ⟨w, v, hsplit, hw⟩ := takes_query_reg htakes
    exact not_mem_of_ends (Or.inr ⟨c, t, rfl, hc⟩) hw hsplit
  rw [Regex.searchFrom, hnone]
  rfl

/-- The first piece of a text. -/
theorem first_piece (s : List Char) : ∃ x t, s = x ++ t ∧ (∀ c ∈ x, separates c = false) ∧ Ends t := by
  refine ⟨s.takeWhile (!separates ·), s.dropWhile (!separates ·), by simp, ?_, ?_⟩
  · intro c hc
    simpa using List.mem_takeWhile_imp hc
  · cases h : s.dropWhile (!separates ·) with
    | nil => exact Or.inl rfl
    | cons c t =>
      have hhead := List.head_dropWhile_not (!separates ·) (by rw [h]; simp : s.dropWhile _ ≠ [])
      simp only [h, List.head_cons, Bool.not_eq_false'] at hhead
      exact Or.inr ⟨c, t, rfl, hhead⟩

theorem search_next {n : Nat} (len : Nat) {s : List Char} (hn : s.length ≤ n) :
    (pairs s = [] ∧ Regex.searchFrom len query_reg s = none) ∨
      ∃ key value t, pairs s = (key, value) :: pairs t ∧ t.length < s.length ∧
        Regex.searchFrom len query_reg s = some ([(2, value), (1, key)], t) := by
  induction n generalizing s with
  | zero =>
    obtain rfl : s = [] := List.length_eq_zero_iff.mp (by omega)
    exact Or.inl ⟨pairs_nil, searchFrom_nil⟩
  | succ n ih =>
    obtain ⟨x, t, rfl, hx, ht⟩ := first_piece s
    rw [pairs_append hx ht]
    by_cases hequals : '=' ∈ x
    · -- the pair of this piece
      obtain ⟨key, value, rfl, hvalue⟩ := last_of_mem hequals
      have hkey : ∀ c ∈ key, separates c = false := fun c hc => hx c (by simp [hc])
      have hvalue' : ∀ c ∈ value, separates c = false := fun c hc => hx c (by simp [hc])
      have hfirst := @first_query_reg len _ _ _ hkey hvalue' hvalue ht
      refine Or.inr ⟨key, value, t, ?_, by simp; omega, ?_⟩
      · rw [pair_eq hvalue]
        rfl
      · rw [List.append_assoc, List.cons_append, Regex.searchFrom.eq_def]
        cases hs : key ++ '=' :: (value ++ t) with
        | nil => simp at hs
        | cons c s =>
          rw [hs, Regex.First] at hfirst
          simp only [hfirst, Option.some_or]
    · rw [searchFrom_append hequals ht, pair, if_neg hequals, Option.toList_none, List.nil_append]
      rcases ht with rfl | ⟨c, t, rfl, hc⟩
      · exact Or.inl ⟨pairs_nil, searchFrom_nil⟩
      · rw [pairs_cons hc, searchFrom_separator hc]
        rw [List.length_append, List.length_cons] at hn
        rcases ih (s := t) (by omega) with hnone | ⟨key, value, t', hpairs, hlt, hsearch⟩
        · exact Or.inl hnone
        · refine Or.inr ⟨key, value, t', hpairs, ?_, hsearch⟩
          rw [List.length_append, List.length_cons]
          omega

/-! ## The loop -/

def add_pairs (query : Query) (l : List (List Char × List Char)) : Query :=
  l.foldl (fun query p => add_query p.1 p.2 query) query

theorem query_params_eq {fuel : Nat} {s : List Char} (h : s.length ≤ fuel) (query : Query) :
    query_params fuel s query = add_pairs query (pairs s) := by
  induction fuel generalizing s query with
  | zero =>
    obtain rfl : s = [] := List.length_eq_zero_iff.mp (by omega)
    rfl
  | succ fuel ih =>
    unfold query_params
    rcases search_next s.length (s := s) le_rfl with ⟨hpairs, hsearch⟩ | ⟨key, value, t, hpairs, hlt, hsearch⟩
    · rw [Regex.search, hsearch, hpairs]
      rfl
    · rw [Regex.search, hsearch, hpairs]
      exact ih (by omega) _

end Uri

end Chord
