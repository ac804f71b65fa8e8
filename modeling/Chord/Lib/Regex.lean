import Mathlib.Data.List.TakeWhile

/-!
# Backtracking regular expressions

A matcher tries its choices in a fixed order, and the first way through wins. All ways through
are listed here in that order: `*`, `+` and `?` prefer the longer match.
-/

/-- `star` and `plus` repeat one character class. -/
inductive Regex where
  | bos
  | eos
  | one (p : Char → Bool)
  | star (p : Char → Bool)
  | plus (p : Char → Bool)
  | opt (r : Regex)
  | group (i : Nat) (r : Regex)
  | seq (r r' : Regex)

namespace Regex

/-- The text of the groups, the last match of a group first. -/
abbrev Captures := List (Nat × List Char)

/-- What is left after `p*`, the longest match first. -/
def rests (p : Char → Bool) : List Char → List (List Char)
  | [] => [[]]
  | c :: s => if p c then rests p s ++ [c :: s] else [c :: s]

/-- All matches at the beginning of `s`, a suffix of a text of `len` characters: the groups, and
what is left. -/
def run (len : Nat) : Regex → List Char → List (Captures × List Char)
  | bos, s => if s.length = len then [([], s)] else []
  | eos, s => if s = [] then [([], s)] else []
  | one _, [] => []
  | one p, c :: s => if p c then [([], s)] else []
  | star p, s => (rests p s).map fun t => ([], t)
  | plus _, [] => []
  | plus p, c :: s => if p c then (rests p s).map fun t => ([], t) else []
  | opt r, s => run len r s ++ [([], s)]
  | group i r, s => (run len r s).map fun m => ((i, s.take (s.length - m.2.length)) :: m.1, m.2)
  | seq r r', s => (run len r s).flatMap fun m => (run len r' m.2).map fun m' => (m'.1 ++ m.1, m'.2)

section

variable (len : Nat) (p : Char → Bool) (s : List Char)

theorem run_bos : run len bos s = if s.length = len then [([], s)] else [] := rfl

theorem run_eos : run len eos s = if s = [] then [([], s)] else [] := rfl

theorem run_one_nil : run len (one p) [] = [] := rfl

theorem run_one (c : Char) : run len (one p) (c :: s) = if p c then [([], s)] else [] := rfl

theorem run_star : run len (star p) s = (rests p s).map fun t => ([], t) := rfl

theorem run_plus_nil : run len (plus p) [] = [] := rfl

theorem run_plus (c : Char) :
    run len (plus p) (c :: s) = if p c then (rests p s).map fun t => ([], t) else [] := rfl

theorem run_opt (r : Regex) : run len (opt r) s = run len r s ++ [([], s)] := rfl

theorem run_group (r : Regex) (i : Nat) : run len (group i r) s =
    (run len r s).map fun m => ((i, s.take (s.length - m.2.length)) :: m.1, m.2) := rfl

theorem run_seq (r r' : Regex) : run len (seq r r') s =
    (run len r s).flatMap fun m => (run len r' m.2).map fun m' => (m'.1 ++ m.1, m'.2) := rfl

end

/-- The text of a group: empty where the group did not take part. -/
def str (m : Captures) (i : Nat) : List Char := ((m.find? fun g => g.1 = i).map Prod.snd).getD []

/-- `std::regex_match`. -/
def isMatch (r : Regex) (s : List Char) : Bool := (run s.length r s).any fun m => m.2.isEmpty

def searchFrom (len : Nat) (r : Regex) : List Char → Option (Captures × List Char)
  | [] => (run len r []).head?
  | c :: s => (run len r (c :: s)).head?.or (searchFrom len r s)

/-- `std::regex_search`: the groups of the first match, and what is left. -/
def search (r : Regex) (s : List Char) : Option (Captures × List Char) := searchFrom s.length r s

/-! ## The first match -/

/-- `r` matches at the beginning of `s`, and leaves `t` in its first match. -/
def First (len : Nat) (r : Regex) (s : List Char) (m : Captures) (t : List Char) : Prop :=
  (run len r s).head? = some (m, t)

theorem rests_head (p : Char → Bool) (s : List Char) : (rests p s).head? = some (s.dropWhile p) := by
  induction s with
  | nil => rfl
  | cons c s ih =>
    rw [rests]
    by_cases h : p c
    · rw [if_pos h, List.head?_append, ih, List.dropWhile_cons_of_pos h, Option.some_or]
    · rw [if_neg h, List.dropWhile_cons_of_neg h, List.head?_cons]

variable {len : Nat} {s t u : List Char} {m m' : Captures}

theorem First.bos (h : s.length = len) : First len bos s [] s := by
  rw [First, run_bos, if_pos h, List.head?_cons]

theorem First.one {p : Char → Bool} {c : Char} (h : p c) : First len (one p) (c :: s) [] s := by
  rw [First, run_one, if_pos h, List.head?_cons]

theorem First.star (p : Char → Bool) (s : List Char) : First len (star p) s [] (s.dropWhile p) := by
  rw [First, run_star, List.head?_map, rests_head, Option.map_some]

theorem First.plus {p : Char → Bool} {c : Char} (h : p c) :
    First len (plus p) (c :: s) [] (s.dropWhile p) := by
  rw [First, run_plus, if_pos h, List.head?_map, rests_head, Option.map_some]

theorem First.opt {r : Regex} (h : First len r s m t) : First len (opt r) s m t := by
  rw [First, run_opt, List.head?_append, h, Option.some_or]

theorem First.skip {r : Regex} (h : run len r s = []) : First len (Regex.opt r) s [] s := by
  rw [First, run_opt, h, List.nil_append, List.head?_cons]

theorem First.group {r : Regex} (h : First len r (s ++ t) m t) (i : Nat) :
    First len (group i r) (s ++ t) ((i, s) :: m) t := by
  rw [First, run_group, List.head?_map, h, Option.map_some, List.length_append, Nat.add_sub_cancel,
    List.take_left]

theorem First.seq {r r' : Regex} (h : First len r s m t) (h' : First len r' t m' u) :
    First len (seq r r') s (m' ++ m) u := by
  rw [First] at h
  obtain ⟨l, hl⟩ := List.head?_eq_some_iff.mp h
  rw [First, run_seq, hl, List.flatMap_cons, List.head?_append, List.head?_map, h', Option.map_some,
    Option.some_or]

theorem First.groupStar (len : Nat) (p : Char → Bool) (s : List Char) (i : Nat) :
    First len (Regex.group i (Regex.star p)) s [(i, s.takeWhile p)] (s.dropWhile p) := by
  have h : First len (Regex.star p) (s.takeWhile p ++ s.dropWhile p) [] (s.dropWhile p) := by
    rw [List.takeWhile_append_dropWhile]
    exact First.star p s
  have hgroup := First.group h i
  rwa [List.takeWhile_append_dropWhile] at hgroup

theorem First.search {r : Regex} (h : First s.length r s m t) : Regex.search r s = some (m, t) := by
  rw [Regex.search]
  rw [First] at h
  cases s <;> rw [searchFrom, h]
  rfl

theorem First.isMatch {r : Regex} (h : First s.length r s m []) : Regex.isMatch r s := by
  rw [First] at h
  obtain ⟨l, hl⟩ := List.head?_eq_some_iff.mp h
  rw [Regex.isMatch, hl]
  rfl

/-! ## All matches -/

/-- `r` matches at the beginning of `s`, and may leave `t`. -/
def Takes (len : Nat) (r : Regex) (s t : List Char) : Prop := ∃ m, (m, t) ∈ run len r s

theorem mem_rests {p : Char → Bool} : t ∈ rests p s ↔ ∃ w, s = w ++ t ∧ ∀ c ∈ w, p c := by
  induction s with
  | nil =>
    rw [rests, List.mem_singleton]
    constructor
    · rintro rfl
      exact ⟨[], rfl, by simp⟩
    · rintro ⟨w, hw, -⟩
      exact (List.append_eq_nil_iff.mp hw.symm).2
  | cons c s ih =>
    have hall : (∃ w, c :: s = w ++ t ∧ ∀ d ∈ w, p d) ↔ t = c :: s ∨ p c ∧ ∃ w, s = w ++ t ∧
        ∀ d ∈ w, p d := by
      constructor
      · rintro ⟨w, hw, hp⟩
        cases w with
        | nil => exact Or.inl hw.symm
        | cons d w =>
          obtain ⟨rfl, hs⟩ := List.cons.inj hw
          exact Or.inr ⟨hp c List.mem_cons_self, w, hs, fun d hd => hp d (List.mem_cons_of_mem _ hd)⟩
      · rintro (rfl | ⟨hc, w, rfl, hp⟩)
        · exact ⟨[], rfl, by simp⟩
        · exact ⟨c :: w, rfl, List.forall_mem_cons.mpr ⟨hc, hp⟩⟩
    rw [hall, rests]
    split
    · rename_i hc
      rw [List.mem_append, ih, List.mem_singleton, or_comm]
      simp [hc]
    · rename_i hc
      rw [List.mem_singleton]
      simp [hc]

@[simp] theorem takes_eos : Takes len eos s t ↔ s = [] ∧ t = [] := by
  unfold Takes
  rw [run_eos]
  split
  · rename_i hs
    simp [hs]
  · rename_i hs
    simp [hs]

@[simp] theorem takes_one {p : Char → Bool} : Takes len (one p) s t ↔ ∃ c, s = c :: t ∧ p c := by
  cases s with
  | nil => simp [Takes, run_one_nil]
  | cons c s =>
    unfold Takes
    rw [run_one]
    split
    · rename_i hc
      constructor
      · rintro ⟨m, hm⟩
        obtain ⟨-, rfl⟩ := Prod.mk.inj (List.mem_singleton.mp hm)
        exact ⟨c, rfl, hc⟩
      · rintro ⟨d, hs, -⟩
        exact ⟨[], by rw [(List.cons.inj hs).2, List.mem_singleton]⟩
    · rename_i hc
      constructor
      · rintro ⟨m, hm⟩
        cases hm
      · rintro ⟨d, hs, hd⟩
        exact absurd ((List.cons.inj hs).1 ▸ hd) hc

@[simp] theorem takes_star {p : Char → Bool} : Takes len (star p) s t ↔ ∃ w, s = w ++ t ∧ ∀ c ∈ w, p c := by
  rw [← mem_rests]
  simp [Takes, run_star]

@[simp] theorem takes_plus {p : Char → Bool} :
    Takes len (plus p) s t ↔ ∃ c w, s = c :: w ++ t ∧ p c ∧ ∀ d ∈ w, p d := by
  cases s with
  | nil => simp [Takes, run_plus_nil]
  | cons c s =>
    unfold Takes
    rw [run_plus]
    split
    · rename_i hc
      constructor
      · rintro ⟨m, hm⟩
        obtain ⟨v, hv, heq⟩ := List.mem_map.mp hm
        obtain ⟨-, rfl⟩ := Prod.mk.inj heq
        obtain ⟨w, rfl, hp⟩ := mem_rests.mp hv
        exact ⟨c, w, rfl, hc, hp⟩
      · rintro ⟨d, w, hs, -, hp⟩
        exact ⟨[], List.mem_map_of_mem (mem_rests.mpr ⟨w, (List.cons.inj hs).2, hp⟩)⟩
    · rename_i hc
      constructor
      · rintro ⟨m, hm⟩
        cases hm
      · rintro ⟨d, w, hs, hd, -⟩
        exact absurd ((List.cons.inj hs).1 ▸ hd) hc

@[simp] theorem takes_opt {r : Regex} : Takes len (opt r) s t ↔ Takes len r s t ∨ t = s := by
  simp [Takes, run_opt, exists_or]

@[simp] theorem takes_group {r : Regex} {i : Nat} : Takes len (group i r) s t ↔ Takes len r s t := by
  constructor
  · rintro ⟨m, hm⟩
    obtain ⟨⟨m', t'⟩, hm', heq⟩ := List.mem_map.mp hm
    obtain ⟨-, rfl⟩ := Prod.mk.inj heq
    exact ⟨m', hm'⟩
  · rintro ⟨m, hm⟩
    exact ⟨_, List.mem_map_of_mem hm⟩

@[simp] theorem takes_seq {r r' : Regex} : Takes len (seq r r') s t ↔ ∃ u, Takes len r s u ∧
  Takes len r' u t := by
  constructor
  · rintro ⟨m, hm⟩
    obtain ⟨⟨m₁, u⟩, hm₁, hm⟩ := List.mem_flatMap.mp hm
    obtain ⟨⟨m₂, t'⟩, hm₂, heq⟩ := List.mem_map.mp hm
    obtain ⟨-, rfl⟩ := Prod.mk.inj heq
    exact ⟨u, ⟨m₁, hm₁⟩, m₂, hm₂⟩
  · rintro ⟨u, ⟨m₁, hm₁⟩, m₂, hm₂⟩
    exact ⟨_, List.mem_flatMap.mpr ⟨(m₁, u), hm₁, List.mem_map_of_mem hm₂⟩⟩

theorem run_eq_nil {r : Regex} (h : ∀ t, ¬ Takes len r s t) : run len r s = [] := by
  rw [List.eq_nil_iff_forall_not_mem]
  exact fun m hm => h m.2 ⟨m.1, hm⟩

theorem isMatch_iff {r : Regex} : isMatch r s ↔ Takes s.length r s [] := by
  simp [isMatch, Takes]

/-- Where every longer match of `p*` leaves nothing to go on with. -/
theorem rests_flatMap_head {β : Type} {p : Char → Bool} {f : List Char → List β} {x : List Char} {b : β}
    (hx : ∀ c ∈ x, p c) (ht : (f t).head? = some b)
    (hlonger : ∀ w v, w ≠ [] → t = w ++ v → (∀ c ∈ w, p c) → f v = []) :
    ((rests p (x ++ t)).flatMap f).head? = some b := by
  induction x with
  | nil =>
    rw [List.nil_append]
    cases t with
    | nil => simpa [rests] using ht
    | cons c t =>
      rw [rests]
      split
      · rename_i hc
        have hnone : (rests p t).flatMap f = [] := by
          rw [List.flatMap_eq_nil_iff]
          intro v hv
          obtain ⟨w, rfl, hw⟩ := mem_rests.mp hv
          exact hlonger (c :: w) v (by simp) rfl (List.forall_mem_cons.mpr ⟨hc, hw⟩)
        rw [List.flatMap_append, hnone, List.nil_append, List.flatMap_singleton, ht]
      · rw [List.flatMap_singleton, ht]
  | cons c x ih =>
    obtain ⟨hc, hx⟩ := List.forall_mem_cons.mp hx
    rw [List.cons_append, rests, if_pos hc, List.flatMap_append, List.head?_append, ih hx, Option.some_or]

/-- `p*` gives back as much as the rest needs. -/
theorem First.starSeq {p : Char → Bool} {r : Regex} {x : List Char} (i : Nat) (hx : ∀ c ∈ x, p c)
    (h : First len r t m u)
    (hlonger : ∀ w v, w ≠ [] → t = w ++ v → (∀ c ∈ w, p c) → ∀ u', ¬ Takes len r v u') :
    First len (Regex.seq (Regex.group i (Regex.star p)) r) (x ++ t) (m ++ [(i, x)]) u := by
  rw [First]
  simp only [run_seq, run_group, run_star, List.map_map, List.flatMap_map]
  refine rests_flatMap_head hx ?_ fun w v hw ht hp => ?_
  · simp only [Function.comp_apply]
    rw [List.head?_map, h]
    simp
  · simp only [Function.comp_apply]
    rw [run_eq_nil (hlonger w v hw ht hp), List.map_nil]

end Regex
