import Mathlib.Data.List.Chain
import Mathlib.Logic.Relation

/-!
# Messages that go one way

A writer has messages for a reader. What is written is under way until it is read. The link may
break at any time, and the reader may give up.
-/

namespace Pipe

inductive Reader where
  | reading
  | saw_end
  /-- The link broke before the end. -/
  | cut_off
  | gave_up
  deriving DecidableEq

structure State (μ : Type*) where
  unsent : List μ
  writing : Bool
  flight : List μ
  arrived : List μ
  reader : Reader
  broken : Bool

variable {μ : Type*} {messages : List μ} {s t : State μ}

def start (messages : List μ) : State μ where
  unsent := messages
  writing := true
  flight := []
  arrived := []
  reader := .reading
  broken := false

/-- A write may go well where nobody reads it any more. -/
inductive Step : State μ → State μ → Prop
  | write {s : State μ} {m : μ} {rest : List μ} (hwriting : s.writing) (hunsent : s.unsent = m :: rest) :
    Step s { s with unsent := rest, flight := s.flight ++ [m] }
  | write_fails {s : State μ} (hwriting : s.writing) (hlost : s.broken ∨ s.reader ≠ .reading) :
    Step s { s with writing := false }
  | writes_done {s : State μ} (hwriting : s.writing) (hunsent : s.unsent = []) :
    Step s { s with writing := false }
  | read {s : State μ} {m : μ} {rest : List μ} (hreading : s.reader = .reading)
    (hflight : s.flight = m :: rest) :
    Step s { s with flight := rest, arrived := s.arrived ++ [m] }
  | read_ends {s : State μ} (hreading : s.reader = .reading) (hbroken : ¬ s.broken) (hwriting : ¬ s.writing)
    (hflight : s.flight = []) : Step s { s with reader := .saw_end }
  | read_fails {s : State μ} (hreading : s.reader = .reading) (hbroken : s.broken) :
    Step s { s with reader := .cut_off }
  | give_up {s : State μ} (hreading : s.reader = .reading) : Step s { s with reader := .gave_up }
  | link_breaks {s : State μ} (hbroken : ¬ s.broken) : Step s { s with broken := true }

abbrev Reaches (s t : State μ) : Prop := Relation.ReflTransGen Step s t

/-! ## What arrives -/

structure Sound (messages : List μ) (s : State μ) : Prop where
  order : s.arrived ++ s.flight ++ s.unsent = messages
  written : ¬ s.broken → s.reader = .reading → ¬ s.writing → s.unsent = []
  ended : s.reader = .saw_end → ¬ s.writing ∧ s.unsent = [] ∧ s.flight = []
  cut : s.reader = .cut_off → s.broken

theorem sound_start (messages : List μ) : Sound messages (start messages) :=
  ⟨rfl, by simp [start], by simp [start], by simp [start]⟩

theorem Sound.step (h : Sound messages s) (hstep : Step s t) : Sound messages t := by
  have horder := h.order
  cases hstep with
  | write hwriting hunsent =>
    rw [hunsent] at horder
    refine ⟨by simpa using horder, fun _ _ hnot => absurd hwriting hnot, fun hr => ?_, h.cut⟩
    exact absurd hwriting (h.ended hr).1
  | write_fails hwriting hlost =>
    refine ⟨horder, fun hb hr _ => ?_, fun hr => ?_, h.cut⟩
    · exact absurd hr (hlost.resolve_left hb)
    · exact absurd hwriting (h.ended hr).1
  | writes_done hwriting hunsent =>
    exact ⟨horder, fun _ _ _ => hunsent, fun hr => absurd hwriting (h.ended hr).1, h.cut⟩
  | read hreading hflight =>
    rw [hflight] at horder
    refine ⟨by simpa using horder, h.written, fun hr => ?_, h.cut⟩
    cases hreading.symm.trans hr
  | read_ends hreading hbroken hwriting hflight =>
    exact ⟨horder, fun _ => nofun, fun _ => ⟨hwriting, h.written hbroken hreading hwriting, hflight⟩, nofun⟩
  | read_fails hreading hbroken => exact ⟨horder, fun _ => nofun, nofun, fun _ => hbroken⟩
  | give_up hreading => exact ⟨horder, fun _ => nofun, nofun, nofun⟩
  | link_breaks hbroken => exact ⟨horder, fun hb => absurd rfl hb, h.ended, fun _ => rfl⟩

theorem sound_of_reaches (h : Reaches (start messages) s) : Sound messages s := by
  induction h with
  | refl => exact sound_start messages
  | tail _ hstep ih => exact ih.step hstep

theorem arrived_prefix (h : Reaches (start messages) s) : s.arrived <+: messages :=
  ⟨s.flight ++ s.unsent, by rw [← List.append_assoc]; exact (sound_of_reaches h).order⟩

theorem flight_subset (h : Reaches (start messages) s) {m : μ} (hm : m ∈ s.flight) : m ∈ messages := by
  rw [← (sound_of_reaches h).order]
  exact List.mem_append_left _ (List.mem_append_right _ hm)

/-- A reader that saw the end has all messages. -/
theorem all_arrived (h : Reaches (start messages) s) (hend : s.reader = .saw_end) : s.arrived = messages := by
  have hsound := sound_of_reaches h
  obtain ⟨-, hunsent, hflight⟩ := hsound.ended hend
  have horder := hsound.order
  rwa [hunsent, hflight, List.append_nil, List.append_nil] at horder

/-! ## How long it takes -/

/-- What there is still to do. -/
def work (s : State μ) : Nat :=
  2 * s.unsent.length + s.flight.length + s.writing.toNat + (if s.reader = .reading then 1 else 0) +
    (!s.broken).toNat

theorem Step.work_lt (hstep : Step s t) : work t < work s := by
  cases hstep with
  | write hwriting hunsent =>
    simp only [work, hunsent, List.length_append, List.length_cons, List.length_nil]
    omega
  | write_fails hwriting hlost => simp [work, hwriting]
  | writes_done hwriting hunsent => simp [work, hwriting]
  | read hreading hflight =>
    simp only [work, hflight, List.length_cons]
    omega
  | read_ends hreading hbroken hwriting hflight => simp [work, hreading]
  | read_fails hreading hbroken => simp [work, hreading]
  | give_up hreading => simp [work, hreading]
  | link_breaks hbroken => simp [work, hbroken]

theorem length_le_work {run : List (State μ)} (h : (s :: run).IsChain Step) : run.length ≤ work s := by
  induction run generalizing s with
  | nil => exact Nat.zero_le _
  | cons t run ih =>
    obtain ⟨hstep, hrest⟩ := List.isChain_cons_cons.mp h
    have hle := ih hrest
    have hlt := hstep.work_lt
    rw [List.length_cons]
    omega

/-- Neither side waits for ever: there is a step that neither breaks the link nor gives up. -/
theorem exists_step (h : s.writing ∨ s.reader = .reading) :
    ∃ t, Step s t ∧ t.broken = s.broken ∧ (t.reader = .gave_up → s.reader = .gave_up) := by
  by_cases hwriting : s.writing
  · cases hunsent : s.unsent with
    | nil => exact ⟨_, .writes_done hwriting hunsent, rfl, id⟩
    | cons m rest => exact ⟨_, .write hwriting hunsent, rfl, id⟩
  have hreading := h.resolve_left hwriting
  cases hflight : s.flight with
  | cons m rest => exact ⟨_, .read hreading hflight, rfl, id⟩
  | nil =>
    by_cases hbroken : s.broken
    · exact ⟨_, .read_fails hreading hbroken, rfl, nofun⟩
    · exact ⟨_, .read_ends hreading hbroken hwriting hflight, rfl, nofun⟩

theorem ended_of_stuck (h : ∀ t, ¬ Step s t) : ¬ s.writing ∧ s.reader ≠ .reading := by
  by_contra hopen
  have hsome : s.writing ∨ s.reader = .reading := by
    by_contra hnone
    exact hopen (not_or.mp hnone)
  obtain ⟨t, hstep, -⟩ := exists_step hsome
  exact h t hstep

theorem length_le_of_start {run : List (State μ)} (h : (start messages :: run).IsChain Step) :
    run.length ≤ 2 * messages.length + 3 := by
  have hle := length_le_work h
  simp only [work, start, List.length_nil, Bool.toNat_true, Bool.not_false, if_true] at hle
  omega

end Pipe
