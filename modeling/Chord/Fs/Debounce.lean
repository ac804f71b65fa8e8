import Chord.Fs.Monitor
import Chord.Lib.Runs
import Mathlib.Data.Char
import Mathlib.Data.List.Lex

/-!
# Debouncing (`monitor::fire_events`)

The pending events are reversed, sorted by their path and made unique. `std::sort` may leave
events of one path in any order.
-/

namespace Chord

namespace Fs

namespace Debounce

open Runs

/-- `monitor::event`. -/
structure Event where
  path : List Char
  flags : List EventFlag
  time : Int
  deriving DecidableEq

/-- What the standard says of `std::sort`: a permutation in which no path is before a smaller one. -/
def Sorts (events sorted : List Event) : Prop :=
  sorted.Perm events ∧ sorted.Pairwise fun lhs rhs => ¬ rhs.path < lhs.path

/-- `std::unique`: an event goes where the last one kept has its path. -/
def unique (events : List Event) : List Event := events.destutter fun lhs rhs => lhs.path ≠ rhs.path

/-- The batch of `fire_events`, for any result of the sort. Without pending events nothing is
signalled. -/
def fire_events (events : List Event) (batch : Option (List Event)) : Prop :=
  if events = [] then batch = none
  else ∃ sorted, Sorts events.reverse sorted ∧ batch = some (unique sorted)

/-! ## The latest events -/

/-- The event was appended last for its path. -/
def Latest (events : List Event) (e : Event) : Prop :=
  ∃ earlier later, events = earlier ++ e :: later ∧ ∀ x ∈ later, x.path ≠ e.path

/-- One event for each path, and that the latest one. -/
structure Debounced (events batch : List Event) : Prop where
  once : (batch.map Event.path).Nodup
  latest : ∀ e, e ∈ batch ↔ Latest events e

theorem latest_iff {events : List Event} {e : Event} :
    Latest events e ↔ events.reverse.find? (fun x => x.path = e.path) = some e := by
  rw [List.find?_eq_some_iff_append]
  constructor
  · rintro ⟨earlier, later, rfl, hlater⟩
    refine ⟨by simp, later.reverse, earlier.reverse, by simp, ?_⟩
    intro x hx
    simpa using hlater x (List.mem_reverse.mp hx)
  · rintro ⟨-, before, after, heq, hbefore⟩
    refine ⟨after.reverse, before.reverse, ?_, ?_⟩
    · rw [← List.reverse_inj, heq]
      simp
    · intro x hx
      simpa using hbefore x (List.mem_reverse.mp hx)

theorem exists_latest {events : List Event} {e : Event} (he : e ∈ events) :
    ∃ x, Latest events x ∧ x.path = e.path := by
  cases hx : events.reverse.find? fun x => x.path = e.path with
  | none =>
    have := List.find?_eq_none.mp hx e (List.mem_reverse.mpr he)
    simp at this
  | some x =>
    have hpath : x.path = e.path := by simpa using List.find?_some hx
    refine ⟨x, latest_iff.mpr ?_, hpath⟩
    rw [hpath, hx]

theorem Latest.mem {events : List Event} {e : Event} (h : Latest events e) : e ∈ events := by
  obtain ⟨earlier, later, rfl, -⟩ := h
  simp

/-! ## The batch -/

/-- All pending events of a path are the same event. -/
def OnePerPath (events : List Event) : Prop :=
  ∀ a ∈ events, ∀ b ∈ events, a.path = b.path → a = b

theorem sorts_sortedBy {events sorted : List Event} (h : Sorts events sorted) :
    SortedBy Event.path sorted := h.2.imp fun hlt => not_lt.mp hlt

theorem mem_unique {events sorted : List Event} (h : Sorts events sorted) (e : Event) :
    e ∈ unique sorted ↔ sorted.find? (fun x => x.path = e.path) = some e :=
  mem_heads (sorts_sortedBy h)

theorem debounced_unique {events sorted : List Event} (hone : OnePerPath events)
    (h : Sorts events.reverse sorted) : Debounced events (unique sorted) where
  once := heads_nodup (sorts_sortedBy h)
  latest := by
    have hmem : ∀ x, x ∈ sorted ↔ x ∈ events := fun x => h.1.mem_iff.trans List.mem_reverse
    intro e
    rw [mem_unique h]
    constructor
    · intro he
      have hin := (hmem e).mp (List.mem_of_find?_eq_some he)
      obtain ⟨x, hx, hpath⟩ := exists_latest hin
      rwa [hone e hin x hx.mem hpath.symm]
    · intro he
      cases hx : sorted.find? fun x => x.path = e.path with
      | none =>
        have := List.find?_eq_none.mp hx e ((hmem e).mpr he.mem)
        simp at this
      | some x =>
        have hpath : x.path = e.path := by simpa using List.find?_some hx
        rw [hone x ((hmem x).mp (List.mem_of_find?_eq_some hx)) e he.mem hpath]

/-- The sort may bring any event of a path to the front. -/
theorem exists_first {events : List Event} {e : Event} (he : e ∈ events) :
    ∃ sorted, Sorts events.reverse sorted ∧ e ∈ unique sorted := by
  obtain ⟨sorted, hperm, hsorted, hfirst⟩ := exists_sorted_first Event.path (List.mem_reverse.mpr he)
  have hsorts : Sorts events.reverse sorted := ⟨hperm, hsorted.imp fun hle => not_lt.mpr hle⟩
  exact ⟨sorted, hsorts, (mem_unique hsorts e).mpr hfirst⟩

theorem latest_unique {events : List Event} {a b : Event} (ha : Latest events a) (hb : Latest events b)
    (h : a.path = b.path) : a = b := by
  rw [latest_iff] at ha hb
  rw [h, hb] at ha
  exact (Option.some.inj ha).symm

/-- Whatever the sort does, the latest event of each path is fired, exactly where the pending
events of a path do not differ. -/
theorem fire_events_debounced_iff (events : List Event) :
    (∀ batch, fire_events events batch → Debounced events (batch.getD [])) ↔ OnePerPath events := by
  by_cases hempty : events = []
  · subst hempty
    constructor
    · intro _ a ha
      cases ha
    · rintro _ batch hbatch
      rw [fire_events, if_pos rfl] at hbatch
      subst hbatch
      refine ⟨List.nodup_nil, fun e => ⟨fun he => ?_, fun he => ?_⟩⟩
      · cases he
      · cases he.mem
  · constructor
    · intro hall
      -- every event of a path can be fired, and only the latest one may be
      have hlatest : ∀ e ∈ events, Latest events e := by
        intro e he
        obtain ⟨sorted, hsorts, hmem⟩ := exists_first he
        have hfire : fire_events events (some (unique sorted)) := by
          rw [fire_events, if_neg hempty]
          exact ⟨sorted, hsorts, rfl⟩
        exact ((hall _ hfire).latest e).mp hmem
      exact fun a ha b hb hpath => latest_unique (hlatest a ha) (hlatest b hb) hpath
    · intro hone batch hbatch
      rw [fire_events, if_neg hempty] at hbatch
      obtain ⟨sorted, hsorts, rfl⟩ := hbatch
      exact debounced_unique hone hsorts

/-- A file that is created and removed again may be reported as created. -/
theorem removed_file_reported_created :
    let created : Event := ⟨['f'], [.CREATED], 0⟩
    let removed : Event := ⟨['f'], [.REMOVED], 1⟩
    fire_events [created, removed] (some [created]) ∧ ¬ Debounced [created, removed] [created] := by
  intro created removed
  refine ⟨?_, fun h => ?_⟩
  · rw [fire_events, if_neg (by simp)]
    exact ⟨[created, removed], ⟨List.Perm.swap _ _ _, by simp [created, removed]⟩, by decide⟩
  · obtain ⟨earlier, later, heq, hlater⟩ := (h.latest created).mp (by simp)
    have hlast : Latest [created, removed] removed := ⟨[created], [], rfl, by simp⟩
    have := latest_unique ⟨earlier, later, heq, hlater⟩ hlast rfl
    simp [created, removed] at this

end Debounce

end Fs

end Chord
