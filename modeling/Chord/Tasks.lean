import Chord.Scheduler
import Mathlib.Algebra.BigOperators.Group.Finset.Basic
import Mathlib.Algebra.BigOperators.Group.Finset.Piecewise
import Mathlib.Algebra.Order.Ring.Nat
import Mathlib.Data.List.Perm.Basic

/-!
# What becomes of a task

Every task that is scheduled is taken by one worker, once it is due, or is still in the queue. A
periodic task is in the queue, or in the hands of the one worker that will schedule it again.
-/

namespace Chord

/-- The periodic task that a worker has to schedule again. -/
def Worker.holds : Worker → Option Int
  | .running interval => interval
  | _ => none

namespace Scheduler

open scoped List

variable {n : Nat} {s s' : Scheduler n}

/-! ## One step -/

/-- The task that a step puts into the queue. -/
def added (s : Scheduler n) : Step n → Option FunctionTimer
  | .schedule time _ _ => some ⟨time, none⟩
  | .schedule_every interval _ _ => some ⟨s.now + interval, some interval⟩
  | .reschedule i _ _ => (s.workers i).holds.map fun interval => ⟨s.now + interval, some interval⟩
  | _ => none

/-- The task that a worker takes. -/
def taken (s : Scheduler n) : Step n → Option FunctionTimer
  | .loop _ top _ => if s.stop = false ∧ s.is_runnable then some top else none
  | _ => none

/-- The first call for a periodic task. -/
def Step.starts (interval : Int) : Step n → Bool
  | .schedule_every i _ _ => i = interval
  | _ => false

def held (s : Scheduler n) (i : Fin n) : Option Int := (s.workers i).holds

def holders (s : Scheduler n) (interval : Int) : Nat :=
  ∑ i, if s.held i = some interval then 1 else 0

/-- How often a periodic task is there. -/
def copies (s : Scheduler n) (interval : Int) : Nat :=
  s.tasks.countP (fun t => t.interval = some interval) + s.holders interval

theorem set_worker_held (s : Scheduler n) (i : Fin n) (x : Worker) :
    (s.set_worker i x).held = Function.update s.held i x.holds := by
  funext j
  by_cases hj : j = i
  · rw [hj, held, set_worker_self, Function.update_self]
  · rw [held, set_worker_of_ne hj, Function.update_of_ne hj]
    rfl

theorem set_worker_held_of_eq {i : Fin n} {x : Worker} (h : x.holds = s.held i) :
    (s.set_worker i x).held = s.held := by
  rw [set_worker_held, h, Function.update_eq_self]

/-- A notification moves a worker from one wait to the end of it. -/
theorem notify_one_keeps {cv : Worker → Option Worker} {woken : Option (Fin n)}
    (hcv : ∀ x y, cv x = some y → x.holds = none ∧ y.holds = none) (h : s.notify_one cv woken = some s') :
    s'.tasks = s.tasks ∧ s'.held = s.held := by
  rcases notify_one_cases h with ⟨k, x, hx, rfl⟩ | ⟨-, rfl⟩
  · obtain ⟨hold, hnew⟩ := hcv _ _ hx
    exact ⟨rfl, set_worker_held_of_eq (hnew.trans hold.symm)⟩
  · exact ⟨rfl, rfl⟩

theorem queue_cv_holds (x y : Worker) (h : x.queue_cv = some y) : x.holds = none ∧ y.holds = none := by
  obtain ⟨rfl, rfl⟩ := queue_cv_eq_some h
  exact ⟨rfl, rfl⟩

theorem task_cv_holds (x y : Worker) (h : x.task_cv = some y) : x.holds = none ∧ y.holds = none := by
  obtain ⟨deadline, storage, rfl, rfl⟩ := task_cv_eq_some h
  exact ⟨rfl, rfl⟩

theorem schedule_intern_adds {t : FunctionTimer} {moved : Bool} {woken : Option (Fin n)}
    (h : s.schedule_intern t moved woken = some s') : s'.tasks = t :: s.tasks ∧ s'.held = s.held := by
  obtain ⟨htasks, hheld⟩ := notify_one_keeps queue_cv_holds h
  exact ⟨htasks, hheld⟩

/-- All that a step does to the tasks. -/
inductive Effect (s : Scheduler n) (a : Step n) (s' : Scheduler n) : Prop
  | idle (added : s.added a = none) (taken : s.taken a = none) (starts : ∀ d, Step.starts d a = false)
      (tasks : s'.tasks = s.tasks) (held : s'.held = s.held)
  /-- A client schedules a task. -/
  | start (t : FunctionTimer) (added : s.added a = some t) (taken : s.taken a = none)
      (starts : ∀ d, Step.starts d a = true ↔ t.interval = some d) (tasks : s'.tasks = t :: s.tasks)
      (held : s'.held = s.held)
  /-- A worker schedules the task again that it has. -/
  | again (i : Fin n) (d : Int) (t : FunctionTimer) (added : s.added a = some t) (taken : s.taken a = none)
      (starts : ∀ d, Step.starts d a = false) (tasks : s'.tasks = t :: s.tasks) (has : s.held i = some d)
      (interval : t.interval = some d) (held : s'.held = Function.update s.held i none)
  | take (i : Fin n) (t : FunctionTimer) (added : s.added a = none) (taken : s.taken a = some t)
      (starts : ∀ d, Step.starts d a = false) (stop : s.stop = false) (runnable : s.is_runnable)
      (top : s.IsTop t) (tasks : s'.tasks = s.tasks.erase t) (free : s.held i = none)
      (held : s'.held = Function.update s.held i t.interval)

/-- What a worker does that has the mutex: `v` is the state once it has left the timed wait. -/
theorem turn_effect {v : Scheduler n} {i : Fin n} {top : FunctionTimer} {woken : Option (Fin n)}
    (htasks : v.tasks = s.tasks) (hheld : v.held = s.held) (hstop : v.stop = s.stop) (hnow : v.now = s.now)
    (hi : s.held i = none) (h : v.turn i top woken = some s') : Effect s (.loop i top woken) s' := by
  have hrunnable : v.is_runnable ↔ s.is_runnable := by
    unfold is_runnable
    rw [htasks, hstop, hnow]
  have hkeeps : ∀ x : Worker, x.holds = none → (v.set_worker i x).held = s.held := by
    intro x hx
    rw [set_worker_held_of_eq (by rw [hx, hheld, hi]), hheld]
  have hidle : ¬ (s.stop = false ∧ s.is_runnable) → s.taken (.loop i top woken) = none :=
    fun hcond => if_neg hcond
  unfold turn at h
  split at h
  · rename_i hstopped
    cases h
    rw [hstop] at hstopped
    exact .idle rfl (hidle (by simp [hstopped])) (fun _ => rfl) htasks (hkeeps _ rfl)
  rename_i hgo
  rw [hstop] at hgo
  split at h
  · rename_i hrun
    rw [hrunnable] at hrun
    split at h
    · rename_i htop
      have hcv : ∀ x y, (if v.task then Worker.task_cv else Worker.queue_cv) x = some y →
          x.holds = none ∧ y.holds = none := by
        intro x y hxy
        split at hxy
        · exact task_cv_holds x y hxy
        · exact queue_cv_holds x y hxy
      obtain ⟨hsame, hnotified⟩ := notify_one_keeps hcv h
      have hgo : s.stop = false := by simpa using hgo
      unfold IsTop at htop
      rw [htasks] at htop
      refine .take i top rfl (if_pos ⟨hgo, hrun⟩) (fun _ => rfl) hgo hrun htop (htasks ▸ hsame) hi ?_
      rw [hnotified, set_worker_held, ← hheld]
      rfl
    · cases h
  rename_i hrun
  rw [hrunnable] at hrun
  have hwaits := hidle fun hcond => hrun hcond.2
  split at h
  · split at h
    · cases h
      exact .idle rfl hwaits (fun _ => rfl) htasks (hkeeps _ rfl)
    · cases h
  · cases h
    exact .idle rfl hwaits (fun _ => rfl) htasks (hkeeps _ rfl)

theorem step_effect {a : Step n} (h : s.step a = some s') : Effect s a s' := by
  cases a with
  | schedule time moved woken =>
    obtain ⟨htasks, hheld⟩ := schedule_intern_adds h
    exact .start _ rfl rfl (by simp [Step.starts]) htasks hheld
  | schedule_every interval moved woken =>
    obtain ⟨htasks, hheld⟩ := schedule_intern_adds h
    exact .start _ rfl rfl (by simp [Step.starts]) htasks hheld
  | reschedule i moved woken =>
    rw [step] at h
    split at h
    · rename_i interval hi
      obtain ⟨htasks, hheld⟩ := schedule_intern_adds h
      exact .again i interval _ (by rw [added, hi]; rfl) rfl (fun _ => rfl) htasks (by rw [held, hi]; rfl) rfl
        (hheld.trans (set_worker_held _ _ _))
    · cases h
  | loop i top woken =>
    rw [step] at h
    split at h
    · rename_i hi
      exact turn_effect rfl rfl rfl rfl (by rw [held, hi]; rfl) h
    · rename_i hi
      exact turn_effect rfl rfl rfl rfl (by rw [held, hi]; rfl) h
    · rename_i hi
      exact turn_effect rfl rfl rfl rfl (by rw [held, hi]; rfl) h
    · rename_i hi
      split at h
      · exact @turn_effect n s s' { s with task := false } i top woken rfl rfl rfl rfl
          (by rw [held, hi]; rfl) h
      · cases h
    · cases h
  | wait_again i deadline =>
    rw [step] at h
    split at h
    · rename_i storage hi
      split at h
      · cases h
      split at h
      · cases h
        exact .idle rfl rfl (fun _ => rfl) rfl (set_worker_held_of_eq (by rw [held, hi]; rfl))
      · cases h
    · cases h
  | wake i =>
    obtain ⟨x, hx, rfl⟩ := Option.map_eq_some_iff.mp h
    refine .idle rfl rfl (fun _ => rfl) rfl (set_worker_held_of_eq ?_)
    rcases Option.or_eq_some_iff.mp hx with hqueue | ⟨-, htask⟩
    · obtain ⟨hold, hnew⟩ := queue_cv_holds _ _ hqueue
      exact hnew.trans hold.symm
    · obtain ⟨hold, hnew⟩ := task_cv_holds _ _ htask
      exact hnew.trans hold.symm
  | timeout i =>
    rw [step] at h
    split at h
    · rename_i deadline storage hi
      split at h
      · cases h
        exact .idle rfl rfl (fun _ => rfl) rfl (set_worker_held_of_eq (by rw [held, hi]; rfl))
      · cases h
    · cases h
  | shutdown woken =>
    obtain ⟨htasks, hheld⟩ := notify_one_keeps task_cv_holds h
    refine .idle rfl rfl (fun _ => rfl) htasks (hheld.trans (funext fun k => ?_))
    rw [held, held]
    dsimp only
    cases hk : (s.workers k).queue_cv with
    | none => rfl
    | some y =>
      obtain ⟨hold, hnew⟩ := queue_cv_holds _ _ hk
      exact hnew.trans hold.symm
  | clock now =>
    cases h
    exact .idle rfl rfl (fun _ => rfl) rfl rfl

/-- A worker gives one periodic task away, or takes one. -/
theorem holders_update {i : Fin n} {x : Option Int} (h : s'.held = Function.update s.held i x) (d : Int) :
    s'.holders d + (if s.held i = some d then 1 else 0) = s.holders d + if x = some d then 1 else 0 := by
  have hnew : s'.holders d = ∑ j, Function.update (fun j => if s.held j = some d then 1 else 0) i
      (if x = some d then 1 else 0) j := by
    refine Finset.sum_congr rfl fun j _ => ?_
    rw [h]
    by_cases hj : j = i
    · rw [hj, Function.update_self, Function.update_self]
    · rw [Function.update_of_ne hj, Function.update_of_ne hj]
  have hold := Finset.add_sum_erase Finset.univ (fun j => if s.held j = some d then 1 else 0)
      (Finset.mem_univ i)
  rw [hnew, Finset.sum_update_of_mem (Finset.mem_univ i), holders, ← hold, ← Finset.erase_eq]
  omega

/-- A periodic task becomes one more where a client schedules it, and nowhere else. -/
theorem Effect.copies {a : Step n} (h : Effect s a s') (d : Int) :
    s'.copies d = s.copies d + if Step.starts d a then 1 else 0 := by
  unfold Scheduler.copies
  cases h with
  | idle _ _ starts tasks held => simp [tasks, holders, held, starts d]
  | start t _ _ starts tasks held =>
    have hiff := starts d
    by_cases ht : t.interval = some d
    · simp only [tasks, holders, held, List.countP_cons, ht, hiff.mpr ht, decide_true, if_true]
      omega
    · simp [tasks, holders, held, ht, hiff]
  | again i e t _ _ starts tasks has interval held =>
    have hholders := holders_update held d
    rw [has] at hholders
    rw [tasks, List.countP_cons, interval, starts d]
    simp only [reduceCtorEq, if_false, decide_eq_true_eq, Bool.false_eq_true] at hholders ⊢
    omega
  | take i t _ _ starts _ _ top tasks free held =>
    have hholders := holders_update held d
    rw [free] at hholders
    have hcount := (List.perm_cons_erase top.1).countP_eq fun t => decide (t.interval = some d)
    rw [List.countP_cons] at hcount
    rw [tasks, starts d]
    simp only [reduceCtorEq, if_false, decide_eq_true_eq, Bool.false_eq_true] at hholders hcount ⊢
    omega

/-! ## Whole runs -/

/-- The tasks that workers take in a run, and those that are put into the queue. -/
def taken_by (s : Scheduler n) : List (Step n) → List FunctionTimer
  | [] => []
  | a :: steps => (s.step a).elim [] fun s' => (s.taken a).toList ++ taken_by s' steps

def added_by (s : Scheduler n) : List (Step n) → List FunctionTimer
  | [] => []
  | a :: steps => (s.step a).elim [] fun s' => (s.added a).toList ++ added_by s' steps

/-- A task is taken when it is due, the earliest first, and not after the end. -/
def Prompt (s : Scheduler n) : List (Step n) → Prop
  | [] => True
  | a :: steps => ∀ s', s.step a = some s' →
      (∀ t ∈ s.taken a, s.stop = false ∧ t.time ≤ s.now ∧ ∀ x ∈ s.tasks, t.time ≤ x.time) ∧ Prompt s' steps

theorem Effect.perm {a : Step n} (h : Effect s a s') :
    (s'.tasks ++ (s.taken a).toList).Perm (s.tasks ++ (s.added a).toList) := by
  cases h with
  | idle added taken _ tasks _ => rw [added, taken, tasks]
  | start t added taken _ tasks _ =>
    rw [added, taken, tasks]
    simpa using (List.perm_append_singleton t s.tasks).symm
  | again i d t added taken _ tasks _ _ _ =>
    rw [added, taken, tasks]
    simpa using (List.perm_append_singleton t s.tasks).symm
  | take i t added taken _ _ _ top tasks _ _ =>
    rw [added, taken, tasks]
    simpa using (List.perm_append_singleton t _).trans (List.perm_cons_erase top.1).symm

theorem run_perm {steps : List (Step n)} (h : s.run steps = some s') :
    (s'.tasks ++ s.taken_by steps).Perm (s.tasks ++ s.added_by steps) := by
  induction steps generalizing s with
  | nil =>
    cases h
    exact List.Perm.refl _
  | cons a steps ih =>
    obtain ⟨s₁, hs₁, hrest⟩ := Option.bind_eq_some_iff.mp h
    rw [taken_by, added_by, hs₁, Option.elim_some, Option.elim_some]
    calc s'.tasks ++ ((s.taken a).toList ++ s₁.taken_by steps)
      _ ~ (s.taken a).toList ++ (s'.tasks ++ s₁.taken_by steps) := List.perm_append_comm_assoc _ _ _
      _ ~ (s.taken a).toList ++ (s₁.tasks ++ s₁.added_by steps) := (ih hrest).append_left _
      _ = ((s.taken a).toList ++ s₁.tasks) ++ s₁.added_by steps := (List.append_assoc _ _ _).symm
      _ ~ (s₁.tasks ++ (s.taken a).toList) ++ s₁.added_by steps := List.perm_append_comm.append_right _
      _ ~ (s.tasks ++ (s.added a).toList) ++ s₁.added_by steps := (step_effect hs₁).perm.append_right _
      _ = s.tasks ++ ((s.added a).toList ++ s₁.added_by steps) := List.append_assoc _ _ _

theorem run_copies {steps : List (Step n)} (h : s.run steps = some s') (d : Int) :
    s'.copies d = s.copies d + steps.countP (Step.starts d) := by
  induction steps generalizing s with
  | nil =>
    cases h
    rfl
  | cons a steps ih =>
    obtain ⟨s₁, hs₁, hrest⟩ := Option.bind_eq_some_iff.mp h
    rw [ih hrest, (step_effect hs₁).copies d, List.countP_cons]
    omega

theorem run_prompt (s : Scheduler n) (steps : List (Step n)) : s.Prompt steps := by
  induction steps generalizing s with
  | nil => trivial
  | cons a steps ih =>
    refine fun s' hs' => ⟨fun t ht => ?_, ih s'⟩
    cases step_effect hs' with
    | idle _ taken _ _ _ => rw [taken] at ht; cases ht
    | start _ _ taken _ _ _ => rw [taken] at ht; cases ht
    | again _ _ _ _ taken _ _ _ _ _ => rw [taken] at ht; cases ht
    | take i x _ taken _ stop runnable top _ _ _ =>
      rw [taken] at ht
      cases ht
      obtain ⟨y, hy, hdue⟩ := runnable.resolve_left (by simp [stop])
      exact ⟨stop, le_trans (top.2 y hy) hdue, top.2⟩

/-- A periodic task is taken by the second worker and scheduled again, while a client schedules
another one. -/
def two_worker_steps : List (Step 2) :=
  [.schedule_every 5 false none, .clock 6, .loop 1 ⟨5, some 5⟩ none, .schedule 8 true none,
    .reschedule 1 false none]

end Scheduler

end Chord
