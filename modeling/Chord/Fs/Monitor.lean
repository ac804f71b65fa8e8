import Chord.Path
import Mathlib.Data.List.Chain
import Mathlib.Data.List.Perm.Basic

/-!
# The monitor of the data directory (`chord.fs.monitor.cc`)

A lock on a path keeps the events of the path from being reported while it is held.
-/

namespace Chord

namespace Fs

inductive EventFlag where
  | CREATED
  | UPDATED
  | REMOVED
  deriving DecidableEq

/-- What `==` compares of a path. -/
abbrev Elements := List (List Char)

structure Filter where
  path : Elements
  flag : Option EventFlag
  deriving DecidableEq

structure Event where
  path : Elements
  flags : List EventFlag
  deriving DecidableEq

namespace Filter

/-- `operator=`. -/
def assign (f other : Filter) : Filter := ⟨other.path, other.flag.or f.flag⟩

/-- The test of `process`: without a flag, a filter is for all events of the path. -/
def matches_event (f : Filter) (e : Event) : Prop := f.path = e.path ∧ ∀ x ∈ f.flag, x ∈ e.flags

instance (f : Filter) (e : Event) : Decidable (f.matches_event e) := inferInstanceAs (Decidable (_ ∧ _))

/-- `vector::erase` of the first filter: every other one is assigned to the place before it. -/
def shift : List Filter → List Filter
  | a :: b :: l => assign a b :: shift (b :: l)
  | _ => []

/-- `find` and `erase`. Filters are equal when their paths are. -/
def erase_first (f : Filter) : List Filter → List Filter
  | [] => []
  | g :: l => if g.path = f.path then shift (g :: l) else g :: erase_first f l

/-- `operator=` of two vectors. -/
def assign_all : List Filter → List Filter → List Filter
  | c :: cow, f :: filters => assign c f :: assign_all cow filters
  | [], filters => filters
  | _ :: _, [] => []

end Filter

/-! ## The monitor -/

/-- The copy is never shorter, so that it is assigned to in place. -/
structure Monitor where
  filters : List Filter
  filters_cow : List Filter
  length_le : filters.length ≤ filters_cow.length

namespace Monitor

open Fs.Filter

theorem length_shift (g : Filter) (l : List Filter) : (shift (g :: l)).length = l.length := by
  induction l generalizing g with
  | nil => rfl
  | cons b l ih => rw [shift, List.length_cons, ih, List.length_cons]

theorem length_erase_first (f : Filter) (l : List Filter) : (erase_first f l).length ≤ l.length := by
  induction l with
  | nil => exact le_rfl
  | cons g l ih =>
    unfold erase_first
    split
    · rw [length_shift, List.length_cons]
      omega
    · rw [List.length_cons, List.length_cons]
      omega

theorem length_assign_all {cow filters : List Filter} (h : filters.length ≤ cow.length) :
    (assign_all cow filters).length = filters.length := by
  induction cow generalizing filters with
  | nil => rfl
  | cons c cow ih =>
    cases filters with
    | nil => rfl
    | cons f filters =>
      simp only [List.length_cons] at h
      rw [assign_all, List.length_cons, ih (by omega), List.length_cons]

def fresh : Monitor := ⟨[], [], le_rfl⟩

def add_filter (m : Monitor) (f : Filter) : Monitor where
  filters := m.filters ++ [f]
  filters_cow := m.filters_cow ++ [f]
  length_le := by simpa using m.length_le

def remove_filter (m : Monitor) (f : Filter) : Monitor where
  filters := erase_first f m.filters
  filters_cow := m.filters_cow
  length_le := (length_erase_first f m.filters).trans m.length_le

/-- `process`, and the events that it reports. -/
def process (m : Monitor) (is_directory : Elements → Bool) (events : List Event) : Monitor × List Event :=
  let mapped_events := events.filter fun e => !is_directory e.path
  ({ filters := m.filters
     filters_cow := assign_all m.filters_cow m.filters
     length_le := (length_assign_all m.length_le).ge },
    mapped_events.filter fun e => ¬ ∃ f ∈ m.filters_cow, f.matches_event e)

end Monitor

/-! ## Locks -/

/-- A monitor, and the locks that are held. -/
structure Locked where
  monitor : Monitor
  held : List Filter

namespace Locked

inductive Step where
  | lock (f : Filter)
  | unlock (f : Filter)
  | process (is_directory : Elements → Bool) (events : List Event)

def step (s : Locked) : Step → Locked
  | .lock f => ⟨s.monitor.add_filter f, f :: s.held⟩
  | .unlock f => ⟨s.monitor.remove_filter f, s.held.erase f⟩
  | .process is_directory events => ⟨(s.monitor.process is_directory events).1, s.held⟩

def fresh : Locked := ⟨.fresh, []⟩

def run (s : Locked) (steps : List Step) : Locked := steps.foldl step s

/-- Only a lock that is held is destroyed. -/
def Valid (s : Locked) : List Step → Prop
  | [] => True
  | .unlock f :: steps => f ∈ s.held ∧ Valid (s.step (.unlock f)) steps
  | .lock f :: steps => Valid (s.step (.lock f)) steps
  | .process is_directory events :: steps => Valid (s.step (.process is_directory events)) steps

/-- The filters are those of the locks, and no batch reports an event of a lock. -/
structure InEffect (s : Locked) : Prop where
  filters : s.monitor.filters.Perm s.held
  suppressed : ∀ is_directory events, ∀ e ∈ events, (∃ f ∈ s.held, f.matches_event e) →
    e ∉ (s.monitor.process is_directory events).2

/-- No filter without a flag follows one with a flag. -/
def FlaglessFirst (l : List Filter) : Prop := l.IsChain fun a b => b.flag = none → a.flag = none

/-- When the erasure takes `f` away. It erases the first filter `g` with the path of `f`, and a
filter without a flag takes over the flag of the one before it. -/
def Erases (f : Filter) (filters : List Filter) : Prop :=
  ∃ before g after, filters = before ++ g :: after ∧ (∀ h ∈ before, h.path ≠ f.path) ∧ g.path = f.path ∧
    (g = f ∧ FlaglessFirst (g :: after) ∨
      -- `f` turns into `g` on its way to the place before it
      f.flag = none ∧ g.flag ≠ none ∧ ∃ u a v, g :: after = u ++ a :: f :: v ∧ a.flag = g.flag ∧
        FlaglessFirst (u ++ [a]) ∧ FlaglessFirst (f :: v))

/-- When the copy is as good as the filters: a filter without a flag has to be copied to a place
without a flag. -/
def Copies (m : Monitor) : Prop :=
  ∀ f ∈ m.filters, f.flag = none → ∃ c, (c, f) ∈ m.filters_cow.zip m.filters ∧ c.flag = none

def Keeps (s : Locked) : Step → Prop
  | .lock _ => True
  | .unlock f => Erases f s.monitor.filters
  | .process _ _ => Copies s.monitor

def AllKeep (s : Locked) : List Step → Prop
  | [] => True
  | step :: steps => s.Keeps step ∧ AllKeep (s.step step) steps

end Locked

/-! ## Erasing a filter -/

namespace Filter

open Locked

theorem shift_of_flaglessFirst {g : Filter} {l : List Filter} (h : FlaglessFirst (g :: l)) :
    shift (g :: l) = l := by
  induction l generalizing g with
  | nil => rfl
  | cons b l ih =>
    obtain ⟨hgb, hrest⟩ := List.isChain_cons_cons.mp h
    have hassign : assign g b = b := by
      unfold assign
      cases hb : b.flag with
      | none => rw [hgb hb, Option.or_none, ← hb]
      | some x => rw [Option.some_or, ← hb]
    rw [shift, hassign, ih hrest]

theorem shift_append (u : List Filter) (a b : Filter) (v : List Filter) :
    shift (u ++ a :: b :: v) = shift (u ++ [a]) ++ assign a b :: shift (b :: v) := by
  induction u with
  | nil => rfl
  | cons c u ih =>
    cases u with
    | nil => rfl
    | cons d u =>
      simp only [List.cons_append, shift, List.cons.injEq, true_and] at ih ⊢
      exact ih

def flagless (l : List Filter) : Nat := l.countP fun f => f.flag = none

/-- A filter without a flag can only become one with a flag. -/
theorem flagless_shift (g : Filter) (l : List Filter) : flagless (shift (g :: l)) ≤ flagless l ∧
    (flagless (shift (g :: l)) = flagless l → FlaglessFirst (g :: l)) := by
  induction l generalizing g with
  | nil => exact ⟨le_rfl, fun _ => List.isChain_singleton g⟩
  | cons b l ih =>
    obtain ⟨hle, heq⟩ := ih b
    have hassign : (assign g b).flag = none ↔ b.flag = none ∧ g.flag = none := Option.or_eq_none_iff
    unfold flagless at hle heq ⊢
    rw [shift, List.countP_cons, List.countP_cons]
    simp only [decide_eq_true_eq, hassign]
    by_cases hb : b.flag = none
    · by_cases hg : g.flag = none
      · simp only [hb, hg, and_self, if_true]
        refine ⟨by omega, fun h => ?_⟩
        exact List.isChain_cons_cons.mpr ⟨fun _ => hg, heq (by omega)⟩
      · simp only [hb, hg, and_false, if_false, if_true]
        exact ⟨by omega, fun h => by omega⟩
    · simp only [hb, false_and, if_false]
      refine ⟨hle, fun h => ?_⟩
      exact List.isChain_cons_cons.mpr ⟨fun hnone => absurd hnone hb, heq h⟩

/-- The first filter without a flag after one with a flag. -/
theorem first_loss (l : List Filter) : FlaglessFirst l ∨ ∃ u a b v, l = u ++ a :: b :: v ∧
    FlaglessFirst (u ++ [a]) ∧ a.flag ≠ none ∧ b.flag = none := by
  induction l with
  | nil => exact Or.inl List.isChain_nil
  | cons g l ih =>
    cases l with
    | nil => exact Or.inl (List.isChain_singleton g)
    | cons b l =>
      by_cases hloss : b.flag = none → g.flag = none
      · rcases ih with hfirst | ⟨u, a, b', v, heq, hfirst, ha, hb⟩
        · exact Or.inl (List.isChain_cons_cons.mpr ⟨hloss, hfirst⟩)
        · refine Or.inr ⟨g :: u, a, b', v, by rw [heq, List.cons_append], ?_, ha, hb⟩
          cases u with
          | nil =>
            obtain ⟨rfl, -⟩ := List.cons.inj heq
            exact List.isChain_cons_cons.mpr ⟨hloss, hfirst⟩
          | cons c u =>
            obtain ⟨rfl, -⟩ := List.cons.inj heq
            exact List.isChain_cons_cons.mpr ⟨hloss, hfirst⟩
      · rw [Classical.not_imp] at hloss
        exact Or.inr ⟨[], g, b, l, rfl, List.isChain_singleton g, hloss.2, hloss.1⟩

/-- The first filter is erased, and the others take over flags. -/
def Turns (f g : Filter) (after : List Filter) : Prop :=
  g = f ∧ FlaglessFirst (g :: after) ∨
    f.flag = none ∧ g.flag ≠ none ∧ ∃ u a v, g :: after = u ++ a :: f :: v ∧ a.flag = g.flag ∧
      FlaglessFirst (u ++ [a]) ∧ FlaglessFirst (f :: v)

theorem split_shift {g a b : Filter} {u v after : List Filter} (h : g :: after = u ++ a :: b :: v)
    (hfirst : FlaglessFirst (u ++ [a])) :
    ∃ t, after = t ++ b :: v ∧ shift (g :: after) = t ++ assign a b :: shift (b :: v) := by
  obtain ⟨c, t, ht⟩ := List.exists_cons_of_ne_nil (by simp : u ++ [a] ≠ [])
  have hwhole : g :: after = c :: (t ++ b :: v) := by
    rw [h, ← List.cons_append, ← ht]
    simp
  obtain ⟨rfl, rfl⟩ := List.cons.inj hwhole
  refine ⟨t, rfl, ?_⟩
  rw [h, shift_append, ht, shift_of_flaglessFirst (ht ▸ hfirst)]

theorem perm_shift_iff {f g : Filter} {after : List Filter} (hpath : g.path = f.path) :
    (f :: shift (g :: after)).Perm (g :: after) ↔ Turns f g after := by
  constructor
  · intro hperm
    rcases first_loss (g :: after) with hfirst | ⟨u, a, b, v, heq, hfirst, ha, hb⟩
    · rw [shift_of_flaglessFirst hfirst] at hperm
      have hgf : g = f := by
        have hone := (@List.perm_append_right_iff _ [f] [g] after).mp hperm
        exact (List.singleton_perm_singleton.mp hone).symm
      exact Or.inl ⟨hgf, hfirst⟩
    · obtain ⟨t, rfl, hshift⟩ := split_shift heq hfirst
      have hassign : (assign a b).flag ≠ none := by
        rw [assign, hb, Option.none_or]
        exact ha
      -- one filter without a flag is lost on the way, and it must be `f`
      have hcount := hperm.countP_eq fun f => f.flag = none
      obtain ⟨hle, hkept⟩ := flagless_shift b v
      unfold flagless at hle hkept
      rw [hshift] at hcount
      simp only [List.countP_cons, List.countP_append, hassign, hb, decide_true, decide_false, if_true,
        if_false,
        decide_eq_true_eq, Bool.false_eq_true] at hcount
      have hflags : f.flag = none ∧ g.flag ≠ none := by
        by_cases hf : f.flag = none <;> by_cases hg : g.flag =
          none <;> simp only [hf, hg, if_true, if_false] at hcount <;>
          first | exact ⟨hf, hg⟩ | omega
      simp only [hflags.1, hflags.2, if_true, if_false] at hcount
      have hrest := hkept (by omega)
      rw [hshift, shift_of_flaglessFirst hrest] at hperm
      have hpair : [f, assign a b].Perm [g, b] := by
        have hleft : (f :: assign a b :: (t ++ v)).Perm (f :: (t ++ assign a b :: v)) :=
          List.perm_middle.symm.cons f
        have hright : (g :: (t ++ b :: v)).Perm (g :: b :: (t ++ v)) := List.perm_middle.cons g
        exact (List.perm_append_right_iff (t ++ v)).mp (hleft.trans (hperm.trans hright))
      have hfb : f = b := by
        have hmem := hpair.subset (List.mem_cons_self (a := f))
        simp only [List.mem_cons, List.not_mem_nil, or_false] at hmem
        refine hmem.resolve_left ?_
        rintro rfl
        exact hflags.2 hflags.1
      subst hfb
      have hag : assign a f = g := by
        have hone := (List.perm_cons f).mp (hpair.trans (List.Perm.swap f g []))
        exact List.singleton_perm_singleton.mp hone
      refine Or.inr ⟨hflags.1, hflags.2, u, a, v, heq, ?_, hfirst, hrest⟩
      rw [← hag, assign, hflags.1, Option.none_or]
  · rintro (⟨rfl, hfirst⟩ | ⟨hf, -, u, a, v, heq, ha, hfirst, hrest⟩)
    · rw [shift_of_flaglessFirst hfirst]
    · obtain ⟨t, rfl, hshift⟩ := split_shift heq hfirst
      have hassign : assign a f = g := by
        rw [assign, hf, Option.none_or, ha, ← hpath]
      rw [hshift, hassign, shift_of_flaglessFirst hrest]
      refine (List.perm_middle.cons f).trans ?_
      exact (List.Perm.swap g f _).trans (List.perm_middle.symm.cons g)

theorem exists_first {f : Filter} {filters : List Filter} (h : f ∈ filters) : ∃ before g after,
    filters = before ++ g :: after ∧ (∀ h ∈ before, h.path ≠ f.path) ∧ g.path = f.path := by
  induction filters with
  | nil => cases h
  | cons x l ih =>
    by_cases hx : x.path = f.path
    · exact ⟨[], x, l, rfl, by simp, hx⟩
    · have hmem : f ∈ l := (List.mem_cons.mp h).resolve_left fun heq => hx (by rw [heq])
      obtain ⟨before, g, after, rfl, hbefore, hg⟩ := ih hmem
      exact ⟨x :: before, g, after, rfl, List.forall_mem_cons.mpr ⟨hx, hbefore⟩, hg⟩

theorem erase_first_append {f g : Filter} {before after : List Filter}
    (hbefore : ∀ h ∈ before, h.path ≠ f.path) (hg : g.path = f.path) :
    erase_first f (before ++ g :: after) = before ++ shift (g :: after) := by
  induction before with
  | nil => exact if_pos hg
  | cons x before ih =>
    obtain ⟨hx, hbefore⟩ := List.forall_mem_cons.mp hbefore
    rw [List.cons_append, erase_first, if_neg hx, ih hbefore, List.cons_append]

theorem perm_erase_first_iff {f g : Filter} {before after : List Filter}
    (hbefore : ∀ h ∈ before, h.path ≠ f.path) (hg : g.path = f.path) :
    (f :: erase_first f (before ++ g :: after)).Perm (before ++ g :: after) ↔ Turns f g after := by
  have hmiddle : (f :: (before ++ shift (g :: after))).Perm (before ++ f :: shift (g :: after)) :=
    List.perm_middle.symm
  rw [erase_first_append hbefore hg, hmiddle.congr_left, List.perm_append_left_iff, perm_shift_iff hg]

end Filter

namespace Locked

open Fs.Filter

theorem erases_iff {f : Filter} {filters : List Filter} (h : f ∈ filters) :
    (f :: erase_first f filters).Perm filters ↔ Erases f filters := by
  constructor
  · intro hperm
    obtain ⟨before, g, after, rfl, hbefore, hg⟩ := exists_first h
    exact ⟨before, g, after, rfl, hbefore, hg, (perm_erase_first_iff hbefore hg).mp hperm⟩
  · rintro ⟨before, g, after, rfl, hbefore, hg, hturns⟩
    exact (perm_erase_first_iff hbefore hg).mpr hturns

/-! ## The copy -/

/-- Every event of a filter is an event of the copy. -/
def Covers (cow filters : List Filter) : Prop :=
  ∀ f ∈ filters, ∀ e, f.matches_event e → ∃ c ∈ cow, c.matches_event e

theorem mem_assign_all {cow filters : List Filter} (h : filters.length ≤ cow.length) (x : Filter) :
    x ∈ assign_all cow filters ↔ ∃ c f, (c, f) ∈ cow.zip filters ∧ x = assign c f := by
  induction cow generalizing filters with
  | nil =>
    obtain rfl : filters = [] := List.length_eq_zero_iff.mp (Nat.le_zero.mp h)
    simp [assign_all]
  | cons c cow ih =>
    cases filters with
    | nil => simp [assign_all]
    | cons f filters =>
      simp only [List.length_cons] at h
      rw [assign_all, List.mem_cons, ih (by omega), List.zip_cons_cons]
      constructor
      · rintro (rfl | ⟨c', f', hmem, rfl⟩)
        · exact ⟨c, f, List.mem_cons_self, rfl⟩
        · exact ⟨c', f', List.mem_cons_of_mem _ hmem, rfl⟩
      · rintro ⟨c', f', hmem, rfl⟩
        rcases List.mem_cons.mp hmem with heq | hmem
        · obtain ⟨rfl, rfl⟩ := Prod.mk.inj heq
          exact Or.inl rfl
        · exact Or.inr ⟨c', f', hmem, rfl⟩

theorem exists_place {cow filters : List Filter} (h : filters.length ≤ cow.length) {f : Filter}
    (hf : f ∈ filters) :
    ∃ c, (c, f) ∈ cow.zip filters := by
  have hmap : (cow.zip filters).map Prod.snd = filters := List.map_snd_zip h
  rw [← hmap] at hf
  obtain ⟨⟨c, g⟩, hmem, rfl⟩ := List.mem_map.mp hf
  exact ⟨c, hmem⟩

theorem covers_assign_all_iff (m : Monitor) :
    Covers (assign_all m.filters_cow m.filters) m.filters ↔ Copies m := by
  constructor
  · intro hcovers f hf hnone
    -- an event without a flag is an event of a filter without a flag only
    obtain ⟨x, hx, hpath, hflags⟩ := hcovers f hf ⟨f.path, []⟩ ⟨rfl, by simp [hnone]⟩
    obtain ⟨c, g, hmem, rfl⟩ := (mem_assign_all m.length_le x).mp hx
    have hassign : (assign c g).flag = none := by
      cases hflag : (assign c g).flag with
      | none => rfl
      | some y => exact absurd (hflags y hflag) List.not_mem_nil
    obtain ⟨hg, hc⟩ := Option.or_eq_none_iff.mp hassign
    have hgf : g = f := by
      cases g
      cases f
      simp only at hg hnone hpath
      rw [hg, hnone]
      exact congrArg (Filter.mk · none) hpath
    exact ⟨c, hgf ▸ hmem, hc⟩
  · intro hcopies f hf e he
    suffices hplace : ∃ c, (c, f) ∈ m.filters_cow.zip m.filters ∧ assign c f = f by
      obtain ⟨c, hmem, hassign⟩ := hplace
      exact ⟨f, (mem_assign_all m.length_le f).mpr ⟨c, f, hmem, hassign.symm⟩, he⟩
    by_cases hflag : f.flag = none
    · obtain ⟨c, hmem, hc⟩ := hcopies f hf hflag
      refine ⟨c, hmem, ?_⟩
      rw [assign, hflag, hc, Option.none_or, ← hflag]
    · obtain ⟨c, hmem⟩ := exists_place m.length_le hf
      refine ⟨c, hmem, ?_⟩
      obtain ⟨y, hy⟩ := Option.ne_none_iff_exists'.mp hflag
      rw [assign, hy, Option.some_or, ← hy]

/-! ## The run -/

theorem suppressed_iff (m : Monitor) (held : List Filter) :
    (∀ is_directory events, ∀ e ∈ events, (∃ f ∈ held, f.matches_event e) →
      e ∉ (m.process is_directory events).2) ↔
      Covers m.filters_cow held := by
  constructor
  · intro hsuppressed f hf e he
    by_contra hnone
    refine hsuppressed (fun _ => false) [e] e List.mem_cons_self ⟨f, hf, he⟩ ?_
    simpa [Monitor.process] using hnone
  · rintro hcovers is_directory events e - ⟨f, hf, he⟩ hmem
    have hnone := (List.mem_filter.mp hmem).2
    rw [decide_eq_true_eq] at hnone
    exact hnone (hcovers f hf e he)

theorem inEffect_iff (s : Locked) :
    InEffect s ↔ s.monitor.filters.Perm s.held ∧ Covers s.monitor.filters_cow s.held := by
  rw [← suppressed_iff]
  exact ⟨fun h => ⟨h.filters, h.suppressed⟩, fun h => ⟨h.1, h.2⟩⟩

theorem Covers.append {cow filters : List Filter} (h : Covers cow filters) (f : Filter) :
    Covers (cow ++ [f]) (f :: filters) := by
  intro g hg e he
  rcases List.mem_cons.mp hg with rfl | hg
  · exact ⟨g, by simp, he⟩
  · obtain ⟨c, hc, hmatches⟩ := h g hg e he
    exact ⟨c, by simp [hc], hmatches⟩

theorem inEffect_lock {s : Locked} (h : InEffect s) (f : Filter) : InEffect (s.step (.lock f)) := by
  obtain ⟨hperm, hcovers⟩ := (inEffect_iff s).mp h
  refine (inEffect_iff _).mpr ⟨?_, hcovers.append f⟩
  exact (List.perm_append_singleton f s.monitor.filters).trans (hperm.cons f)

theorem inEffect_unlock_iff {s : Locked} (h : InEffect s) {f : Filter} (hf : f ∈ s.held) :
    InEffect (s.step (.unlock f)) ↔ Erases f s.monitor.filters := by
  obtain ⟨hperm, hcovers⟩ := (inEffect_iff s).mp h
  have hmem : f ∈ s.monitor.filters := hperm.mem_iff.mpr hf
  have hheld : s.held.Perm (f :: s.held.erase f) := List.perm_cons_erase hf
  have herase : (erase_first f s.monitor.filters).Perm (s.held.erase f) ↔ Erases f s.monitor.filters := by
    rw [← erases_iff hmem, ← List.perm_cons f, hheld.symm.congr_right, hperm.symm.congr_right]
  have hstep := inEffect_iff (s.step (.unlock f))
  constructor
  · intro hstays
    exact herase.mp (hstep.mp hstays).1
  · intro herases
    exact hstep.mpr ⟨herase.mpr herases, fun g hg => hcovers g (List.mem_of_mem_erase hg)⟩

theorem inEffect_process_iff {s : Locked} (h : InEffect s) (is_directory : Elements → Bool)
    (events : List Event) :
    InEffect (s.step (.process is_directory events)) ↔ Copies s.monitor := by
  have hcovers : Covers (assign_all s.monitor.filters_cow s.monitor.filters) s.held ↔ Copies s.monitor := by
    rw [← covers_assign_all_iff]
    unfold Covers
    simp only [h.filters.mem_iff]
  have hstep := inEffect_iff (s.step (.process is_directory events))
  constructor
  · intro hstays
    exact hcovers.mp (hstep.mp hstays).2
  · intro hcopies
    exact hstep.mpr ⟨h.filters, hcovers.mpr hcopies⟩

theorem inEffect_run_iff {s : Locked} (h : InEffect s) {steps : List Step} (hv : s.Valid steps) :
    (∀ k, InEffect (s.run (steps.take k))) ↔ s.AllKeep steps := by
  induction steps generalizing s with
  | nil => exact iff_of_true (fun k => by rwa [List.take_nil]) trivial
  | cons step steps ih =>
    have hstep : InEffect (s.step step) ↔ s.Keeps step := by
      cases step with
      | lock f => exact iff_of_true (inEffect_lock h f) trivial
      | unlock f => exact inEffect_unlock_iff h hv.1
      | process is_directory events => exact inEffect_process_iff h is_directory events
    have hrest : (s.step step).Valid steps := by
      cases step with
      | lock f => exact hv
      | unlock f => exact hv.2
      | process is_directory events => exact hv
    constructor
    · intro hall
      have hnext : InEffect (s.step step) := hall 1
      exact ⟨hstep.mp hnext, (ih hnext hrest).mp fun k => hall (k + 1)⟩
    · rintro ⟨hkeeps, hall⟩ k
      cases k with
      | zero => exact h
      | succ k => exact (ih (hstep.mpr hkeeps) hrest).mpr hall k

theorem inEffect_fresh : InEffect fresh :=
  (inEffect_iff fresh).mpr ⟨List.Perm.nil, fun f hf => by cases hf⟩

/-- Locks stay in effect as long as no filter is taken for another one of its path, and none
takes over the flag of another one. -/
theorem locks_stay_iff (steps : List Step) (hv : fresh.Valid steps) :
    (∀ k, InEffect (fresh.run (steps.take k))) ↔ fresh.AllKeep steps :=
  inEffect_run_iff inEffect_fresh hv

theorem locks_stay_iff_two : fresh.AllKeep [.lock ⟨[['a']], none⟩, .lock ⟨[['b']], some .UPDATED⟩,
      .process (fun _ => false) [], .unlock ⟨[['b']], some .UPDATED⟩] ∧
    ∀ k, InEffect (fresh.run
      ([.lock ⟨[['a']], none⟩, .lock ⟨[['b']], some .UPDATED⟩, .process (fun _ => false) [],
      .unlock ⟨[['b']], some .UPDATED⟩].take k)) := by
  have hkeep : fresh.AllKeep [.lock ⟨[['a']], none⟩, .lock ⟨[['b']], some .UPDATED⟩,
      .process (fun _ => false) [],
      .unlock ⟨[['b']], some .UPDATED⟩] := by
    refine ⟨trivial, trivial, ?_, ?_, trivial⟩
    · intro f hf hnone
      rcases List.mem_cons.mp hf with rfl | hf
      · exact ⟨⟨[['a']], none⟩, List.mem_cons_self, rfl⟩
      · obtain rfl := List.mem_singleton.mp hf
        cases hnone
    · exact ⟨[⟨[['a']], none⟩], ⟨[['b']], some .UPDATED⟩, [],
        rfl, by decide, rfl, Or.inl ⟨rfl, List.isChain_singleton _⟩⟩
  exact ⟨hkeep, (locks_stay_iff _ (by simp [Valid, step, fresh])).mpr hkeep⟩

/-- Of two locks on one path, the second one is destroyed. -/
theorem other_lock_is_removed : ¬ ∀ steps, fresh.Valid steps → InEffect (fresh.run steps) := by
  intro h
  have hperm := (h [.lock ⟨[['a']], some .CREATED⟩, .lock ⟨[['a']], some .UPDATED⟩,
      .unlock ⟨[['a']], some .UPDATED⟩]
    (by simp [Valid, step, fresh])).filters
  exact absurd hperm (by decide)

end Locked

end Fs

end Chord
