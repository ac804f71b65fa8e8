import Mathlib.Logic.Basic

/-!
# A machine and what it is for

A machine takes commands and gives answers, and may fail. An abstract machine is total. Where
every command is answered as the abstract machine answers it, every list of commands is.
-/

namespace Simulation

variable {σ α κ ρ : Type*}

/-- The commands one after the other, and all answers. -/
def run (step : σ → κ → Option (σ × ρ)) (s : σ) : List κ → Option (σ × List ρ)
  | [] => some (s, [])
  | c :: cs => do
    let (s, answer) ← step s c
    let (s, answers) ← run step s cs
    some (s, answer :: answers)

def abstract_run (step : α → κ → α × ρ) (a : α) : List κ → α × List ρ
  | [] => (a, [])
  | c :: cs =>
    let (a, answer) := step a c
    let (a, answers) := abstract_run step a cs
    (a, answer :: answers)

/-- Each command is admissible when its turn comes. -/
def Admissible (step : α → κ → α × ρ) (fits : α → κ → Prop) (a : α) : List κ → Prop
  | [] => True
  | c :: cs => fits a c ∧ Admissible step fits (step a c).1 cs

theorem Admissible.and {step : α → κ → α × ρ} {fits : α → κ → Prop} {P : κ → Prop} {cs : List κ} {a : α}
    (h : Admissible step fits a cs) (hall : ∀ c ∈ cs, P c) :
    Admissible step (fun a c => fits a c ∧ P c) a cs := by
  induction cs generalizing a with
  | nil => exact h
  | cons c cs ih =>
    obtain ⟨hc, hcs⟩ := List.forall_mem_cons.mp hall
    exact ⟨⟨h.1, hc⟩, ih h.2 hcs⟩

theorem run_of_step {step : σ → κ → Option (σ × ρ)} {abstract_step : α → κ → α × ρ}
    {fits : α → κ → Prop} {R : σ → α → Prop}
    (hstep : ∀ s a c, R s a → fits a c →
      ∃ s', step s c = some (s', (abstract_step a c).2) ∧ R s' (abstract_step a c).1)
    {cs : List κ} {s : σ} {a : α} (h : R s a) (hfits : Admissible abstract_step fits a cs) :
    ∃ s', run step s cs = some (s', (abstract_run abstract_step a cs).2) ∧
      R s' (abstract_run abstract_step a cs).1 := by
  induction cs generalizing s a with
  | nil => exact ⟨s, rfl, h⟩
  | cons c cs ih =>
    obtain ⟨hc, hcs⟩ := hfits
    obtain ⟨s₁, hfirst, h₁⟩ := hstep s a c h hc
    obtain ⟨s₂, hrest, h₂⟩ := ih h₁ hcs
    refine ⟨s₂, ?_, h₂⟩
    simp only [run, hfirst, hrest, Option.bind_eq_bind, Option.bind_some]
    rfl

end Simulation
