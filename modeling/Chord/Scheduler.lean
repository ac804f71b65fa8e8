import Mathlib.Data.Fintype.Basic
import Mathlib.Data.Fintype.Pi
import Mathlib.Logic.Function.Basic

/-!
# The scheduler (`chord.scheduler.h`)

A step is what one thread does while it holds the mutex, or something that happens to a thread that
waits. Which thread is woken is part of the step.
-/

namespace Chord

/-! ## Workers -/

/-- A `function_timer`. A periodic one has its interval. -/
structure FunctionTimer where
  time : Int
  interval : Option Int
  deriving DecidableEq

/-- Where a thread of the pool is in `loop`. -/
inductive Worker where
  /-- Before its first lock. -/
  | ready
  /-- In the function of a task, which it may have to schedule again. -/
  | running (interval : Option Int)
  /-- Blocked on `queue_cv`. -/
  | queue_wait
  | queue_woken
  /-- Blocked on `task_cv`. `wait_until` has a reference to the time of the first element of a vector,
  and reads it when it blocks. -/
  | task_wait (deadline : Int) (storage : Nat)
  | task_woken (storage : Nat) (timeout : Bool)
  | done
  deriving DecidableEq

namespace Worker

def Blocked : Worker → Prop
  | queue_wait => True
  | task_wait _ _ => True
  | _ => False

/-- In `wait_until`. -/
def Timed : Worker → Prop
  | task_wait _ _ => True
  | task_woken _ _ => True
  | _ => False

instance (x : Worker) : Decidable x.Blocked := by
  unfold Blocked
  split <;> infer_instance

/-- What a notification of `queue_cv` makes of a thread that waits there. -/
def queue_cv : Worker → Option Worker
  | queue_wait => some queue_woken
  | _ => none

def task_cv : Worker → Option Worker
  | task_wait _ storage => some (task_woken storage false)
  | _ => none

end Worker

/-! ## The state -/

/-- `storage` tells apart the memory of the vector before and after it grows. -/
structure Scheduler (pool_size : Nat) where
  stop : Bool
  task : Bool
  tasks : List FunctionTimer
  storage : Nat
  now : Int
  workers : Fin pool_size → Worker

namespace Scheduler

variable {n : Nat}

def fresh (n : Nat) (now : Int) : Scheduler n := ⟨false, false, [], 0, now, fun _ => .ready⟩

def is_runnable (s : Scheduler n) : Prop := s.stop = true ∨ ∃ t ∈ s.tasks, t.time ≤ s.now

instance (s : Scheduler n) : Decidable s.is_runnable := inferInstanceAs (Decidable (_ ∨ _))

/-- `tasks.top()`. -/
def IsTop (s : Scheduler n) (t : FunctionTimer) : Prop := t ∈ s.tasks ∧ ∀ x ∈ s.tasks, t.time ≤ x.time

instance (s : Scheduler n) (t : FunctionTimer) : Decidable (s.IsTop t) := inferInstanceAs (Decidable (_ ∧ _))

def set_worker (s : Scheduler n) (i : Fin n) (x : Worker) : Scheduler n :=
  { s with workers := Function.update s.workers i x }

/-- `notify_one`: `woken` is a thread that waits, if there is one. -/
def notify_one (s : Scheduler n) (cv : Worker → Option Worker) (woken : Option (Fin n)) :
    Option (Scheduler n) :=
  match woken with
  | some k => (cv (s.workers k)).map (s.set_worker k)
  | none => if ∀ k, cv (s.workers k) = none then some s else none

/-- `schedule_intern`. `moved` is whether the vector grows. -/
def schedule_intern (s : Scheduler n) (t : FunctionTimer) (moved : Bool) (woken : Option (Fin n)) :
    Option (Scheduler n) :=
  notify_one { s with tasks := t :: s.tasks, storage := if moved then s.storage + 1 else s.storage }
    Worker.queue_cv woken

/-- One turn of the loop: `top` is the task in front. -/
def turn (s : Scheduler n) (i : Fin n) (top : FunctionTimer) (woken : Option (Fin n)) :
    Option (Scheduler n) :=
  if s.stop then some (s.set_worker i .done)
  else if s.is_runnable then
    if s.IsTop top then
      notify_one ({ s with tasks := s.tasks.erase top }.set_worker i (.running top.interval))
        (if s.task then Worker.task_cv else Worker.queue_cv) woken
    else none
  else if s.tasks ≠ [] ∧ ¬ s.task then
    if s.IsTop top then some ({ s with task := true }.set_worker i (.task_wait top.time s.storage)) else none
  else some (s.set_worker i .queue_wait)

inductive Step (n : Nat) where
  | schedule (time : Int) (moved : Bool) (woken : Option (Fin n))
  | schedule_every (interval : Int) (moved : Bool) (woken : Option (Fin n))
  /-- A periodic function has returned, and its wrapper schedules it again. -/
  | reschedule (i : Fin n) (moved : Bool) (woken : Option (Fin n))
  /-- A worker locks the mutex and goes on. -/
  | loop (i : Fin n) (top : FunctionTimer) (woken : Option (Fin n))
  /-- A worker locks the mutex, and waits again because nothing is runnable. -/
  | wait_again (i : Fin n) (deadline : Int)
  | wake (i : Fin n)
  | timeout (i : Fin n)
  | shutdown (woken : Option (Fin n))
  /-- The system clock shows another time. -/
  | clock (now : Int)

/-- `none` for a step that cannot be taken. -/
def step (s : Scheduler n) : Step n → Option (Scheduler n)
  | .schedule time moved woken => s.schedule_intern ⟨time, none⟩ moved woken
  | .schedule_every interval moved woken => s.schedule_intern ⟨s.now + interval, some interval⟩ moved woken
  | .reschedule i moved woken =>
    match s.workers i with
    | .running (some interval) =>
      (s.set_worker i (.running none)).schedule_intern ⟨s.now + interval, some interval⟩ moved woken
    | _ => none
  | .loop i top woken =>
    match s.workers i with
    | .ready | .running none | .queue_woken => s.turn i top woken
    | .task_woken _ timeout =>
      if timeout ∨ s.is_runnable then { s with task := false }.turn i top woken else none
    | _ => none
  | .wait_again i deadline =>
    match s.workers i with
    | .task_woken storage false =>
      if s.is_runnable then none
      -- the reference leads to the task in front, as long as the vector has not grown
      else if storage = s.storage ∧ s.tasks ≠ [] → ∃ t ∈ s.tasks, s.IsTop t ∧ deadline = t.time then
        some (s.set_worker i (.task_wait deadline storage))
      else none
    | _ => none
  | .wake i => (((s.workers i).queue_cv).or ((s.workers i).task_cv)).map (s.set_worker i)
  | .timeout i =>
    match s.workers i with
    | .task_wait deadline storage =>
      if deadline ≤ s.now then some (s.set_worker i (.task_woken storage true)) else none
    | _ => none
  | .shutdown woken =>
    notify_one { s with stop := true, workers := fun k => (s.workers k).queue_cv.getD (s.workers k) }
      Worker.task_cv woken
  | .clock now => some { s with now := now }

def run (s : Scheduler n) (steps : List (Step n)) : Option (Scheduler n) := steps.foldlM step s

/-! ## Who waits for the earliest task -/

/-- If all workers wait, one of them waits for the earliest task. -/
def Watched (s : Scheduler n) : Prop :=
  s.stop = false → s.tasks ≠ [] → (∀ i, (s.workers i).Blocked) →
    ∃ i deadline storage, s.workers i = .task_wait deadline storage ∧ ∀ t ∈ s.tasks, deadline ≤ t.time

/-- Before the end, nobody waits on `task_cv` for a later time. -/
def NoLater (s : Scheduler n) (time : Int) : Prop :=
  s.stop = false → ∀ i deadline storage, s.workers i = .task_wait deadline storage → deadline ≤ time

/-- A step that does not leave a worker in a wait that is too long. -/
def Keeps (s : Scheduler n) : Step n → Prop
  | .schedule time _ _ => s.NoLater time
  | .schedule_every interval _ _ => s.NoLater (s.now + interval)
  | .reschedule i _ _ => ∀ interval, s.workers i = .running (some interval) → s.NoLater (s.now + interval)
  | .wait_again i _ => ∀ storage, s.workers i = .task_woken storage false → s.tasks = [] ∨ storage = s.storage
  | _ => True

def AllKeep (s : Scheduler n) : List (Step n) → Prop
  | [] => True
  | a :: steps => s.Keeps a ∧ ∀ s', s.step a = some s' → AllKeep s' steps

@[simp] theorem set_worker_stop (s : Scheduler n) (i : Fin n) (x : Worker) : (s.set_worker i x).stop =
  s.stop := rfl

@[simp] theorem set_worker_task (s : Scheduler n) (i : Fin n) (x : Worker) : (s.set_worker i x).task =
  s.task := rfl

@[simp] theorem set_worker_tasks (s : Scheduler n) (i : Fin n) (x : Worker) : (s.set_worker i x).tasks =
  s.tasks := rfl

@[simp] theorem set_worker_self (s : Scheduler n) (i : Fin n) (x : Worker) : (s.set_worker i x).workers i =
  x := by
  simp [set_worker]

theorem set_worker_of_ne {s : Scheduler n} {i j : Fin n} (h : j ≠ i) (x : Worker) :
    (s.set_worker i x).workers j = s.workers j := by
  simp [set_worker, h]

/-- The flag stands for a worker in the timed wait, and not all workers sleep without a deadline. -/
structure Guarded (s : Scheduler n) : Prop where
  flag : s.task = true → ∃ i, (s.workers i).Timed
  live : s.stop = false → s.tasks ≠ [] → ∃ i, s.workers i ≠ .queue_wait
  early : ∀ t ∈ s.tasks, s.NoLater t.time

theorem Guarded.watched {s : Scheduler n} (h : s.Guarded) : s.Watched := by
  intro hstop htasks hall
  obtain ⟨i, hi⟩ := h.live hstop htasks
  have hblocked := hall i
  cases hx : s.workers i with
  | task_wait deadline storage =>
    exact ⟨i, deadline, storage, hx, fun t ht => h.early t ht hstop i deadline storage hx⟩
  | queue_wait => exact absurd hx hi
  | _ => rw [hx] at hblocked; exact hblocked.elim

theorem guarded_fresh (n : Nat) (now : Int) : (fresh n now).Guarded := by
  constructor <;> simp [fresh]

/-- A worker that moves on: it does not leave the timed wait, and it does not sleep. -/
theorem Guarded.set_worker {s : Scheduler n} (h : s.Guarded) {i : Fin n} {x : Worker}
    (htimed : (s.workers i).Timed → x.Timed) (hwait : x ≠ .queue_wait)
    (hearly : ∀ deadline storage, x = .task_wait deadline storage → ∀ t ∈ s.tasks, deadline ≤ t.time) :
    (s.set_worker i x).Guarded := by
  constructor
  · intro hflag
    obtain ⟨j, hj⟩ := h.flag hflag
    by_cases heq : j = i
    · subst heq
      exact ⟨j, by rw [set_worker_self]; exact htimed hj⟩
    · exact ⟨j, by rw [set_worker_of_ne heq]; exact hj⟩
  · intro _ _
    exact ⟨i, by rw [set_worker_self]; exact hwait⟩
  · intro t ht hstop j deadline storage hj
    by_cases heq : j = i
    · subst heq
      rw [set_worker_self] at hj
      exact hearly deadline storage hj t ht
    · rw [set_worker_of_ne heq] at hj
      exact h.early t ht hstop j deadline storage hj

/-- What a notification does. -/
theorem notify_one_cases {s s' : Scheduler n} {cv : Worker → Option Worker} {woken : Option (Fin n)}
    (h : s.notify_one cv woken = some s') :
    (∃ k x, cv (s.workers k) = some x ∧ s' = s.set_worker k x) ∨ (∀ k, cv (s.workers k) = none) ∧ s' = s := by
  cases woken with
  | some k =>
    obtain ⟨x, hx, rfl⟩ := Option.map_eq_some_iff.mp h
    exact Or.inl ⟨k, x, hx, rfl⟩
  | none =>
    rw [notify_one] at h
    split at h
    · rename_i hnone
      cases h
      exact Or.inr ⟨hnone, rfl⟩
    · cases h

theorem queue_cv_eq_some {x y : Worker} (h : x.queue_cv = some y) : x = .queue_wait ∧ y = .queue_woken := by
  cases x <;> simp_all [Worker.queue_cv]

theorem task_cv_eq_some {x y : Worker} (h : x.task_cv = some y) :
    ∃ deadline storage, x = .task_wait deadline storage ∧ y = .task_woken storage false := by
  cases x <;> simp_all [Worker.task_cv]

theorem Guarded.queue_cv {s : Scheduler n} (h : s.Guarded) {k : Fin n} {x : Worker}
    (hx : (s.workers k).queue_cv = some x) : (s.set_worker k x).Guarded := by
  obtain ⟨hk, rfl⟩ := queue_cv_eq_some hx
  apply h.set_worker
  · rw [hk]
    exact False.elim
  · simp
  · simp

theorem Guarded.task_cv {s : Scheduler n} (h : s.Guarded) {k : Fin n} {x : Worker}
    (hx : (s.workers k).task_cv = some x) : (s.set_worker k x).Guarded := by
  obtain ⟨deadline, storage, -, rfl⟩ := task_cv_eq_some hx
  apply h.set_worker
  · exact fun _ => trivial
  · simp
  · simp

/-! ### One step -/

/-- A task that nobody has to wait for earlier than before. The notification wakes a worker that sleeps
without a deadline, if all of them do. -/
theorem Guarded.schedule_intern (hn : 0 < n) {s s' : Scheduler n} (h : s.Guarded) {t : FunctionTimer}
    {moved : Bool} {woken : Option (Fin n)} (hlater : s.NoLater t.time)
    (hs : s.schedule_intern t moved woken = some s') :
    s'.Guarded := by
  have hflag := h.flag
  have hearly : ∀ x ∈ t :: s.tasks, s.NoLater x.time := by
    intro x hx
    rcases List.mem_cons.mp hx with rfl | hx
    · exact hlater
    · exact h.early x hx
  rcases notify_one_cases hs with ⟨k, x, hx, rfl⟩ | ⟨hnone, rfl⟩
  · obtain ⟨hk, rfl⟩ := queue_cv_eq_some hx
    have hother : ∀ j, (s.workers j).Timed → j ≠ k := by
      rintro j hj rfl
      rw [hk] at hj
      exact hj
    constructor
    · intro htask
      obtain ⟨j, hj⟩ := hflag htask
      exact ⟨j, by rw [set_worker_of_ne (hother j hj)]; exact hj⟩
    · intro _ _
      exact ⟨k, by rw [set_worker_self]; simp⟩
    · intro y hy hstop j deadline storage hj
      by_cases heq : j = k
      · rw [heq, set_worker_self] at hj
        cases hj
      · rw [set_worker_of_ne heq] at hj
        exact hearly y hy hstop j deadline storage hj
  · refine ⟨hflag, fun _ _ => ⟨⟨0, hn⟩, fun hwait => ?_⟩, hearly⟩
    have hnotified := hnone ⟨0, hn⟩
    rw [hwait] at hnotified
    cases hnotified

/-- A worker that has the mutex is not in the timed wait, and the others are as the flag says. -/
structure Entered (s : Scheduler n) (i : Fin n) : Prop where
  flag : s.task = true → ∃ j, j ≠ i ∧ (s.workers j).Timed
  early : s.stop = false → ∀ t ∈ s.tasks, ∀ j, j ≠ i →
    ∀ deadline storage, s.workers j = .task_wait deadline storage → deadline ≤ t.time

theorem Entered.set_worker {s : Scheduler n} {i : Fin n} (h : s.Entered i) {x : Worker}
    (hlive : s.stop = false → s.tasks ≠ [] → x = .queue_wait → s.task = true)
    (hearly : ∀ deadline storage, x = .task_wait deadline storage → ∀ t ∈ s.tasks, deadline ≤ t.time) :
    (s.set_worker i x).Guarded := by
  constructor
  · intro htask
    obtain ⟨j, hne, hj⟩ := h.flag htask
    exact ⟨j, by rw [set_worker_of_ne hne]; exact hj⟩
  · intro hstop htasks
    by_cases hx : x = .queue_wait
    · obtain ⟨j, hne, hj⟩ := h.flag (hlive hstop htasks hx)
      refine ⟨j, fun hwait => ?_⟩
      rw [set_worker_of_ne hne] at hwait
      rw [hwait] at hj
      exact hj
    · exact ⟨i, by rw [set_worker_self]; exact hx⟩
  · intro t ht hstop j deadline storage hj
    by_cases heq : j = i
    · rw [heq, set_worker_self] at hj
      exact hearly deadline storage hj t ht
    · rw [set_worker_of_ne heq] at hj
      exact h.early hstop t ht j heq deadline storage hj

theorem Entered.turn {s s' : Scheduler n} {i : Fin n} (h : s.Entered i) {top : FunctionTimer}
    {woken : Option (Fin n)} (hs : s.turn i top woken = some s') : s'.Guarded := by
  unfold Scheduler.turn at hs
  split at hs
  · rename_i hstop
    cases hs
    exact h.set_worker (by simp [hstop]) (by simp)
  split at hs
  · split at hs
    · have hpopped : ({ s with tasks := s.tasks.erase top }.set_worker i
        (.running top.interval)).Guarded := by
        apply Entered.set_worker
        · exact ⟨h.flag, fun hstop t ht => h.early hstop t (List.mem_of_mem_erase ht)⟩
        · simp
        · simp
      rcases notify_one_cases hs with ⟨k, x, hx, rfl⟩ | ⟨-, rfl⟩
      · split at hx
        · exact hpopped.task_cv hx
        · exact hpopped.queue_cv hx
      · exact hpopped
    · cases hs
  split at hs
  · rename_i hwait
    split at hs
    · rename_i htop
      cases hs
      constructor
      · exact fun _ => ⟨i, by rw [set_worker_self]; trivial⟩
      · exact fun _ _ => ⟨i, by rw [set_worker_self]; simp⟩
      · intro t ht hstop j deadline storage hj
        by_cases heq : j = i
        · rw [heq, set_worker_self] at hj
          cases hj
          exact htop.2 t ht
        · rw [set_worker_of_ne heq] at hj
          exact h.early hstop t ht j heq deadline storage hj
    · cases hs
  · rename_i hwait
    cases hs
    apply h.set_worker
    · intro _ htasks _
      by_contra htask
      exact hwait ⟨htasks, htask⟩
    · simp

/-- A worker that was not in the timed wait locks the mutex. -/
theorem Guarded.entered {s : Scheduler n} (h : s.Guarded) {i : Fin n} (hi : ¬ (s.workers i).Timed) :
    s.Entered i := by
  refine ⟨fun htask => ?_, fun hstop t ht j _ => h.early t ht hstop j⟩
  obtain ⟨j, hj⟩ := h.flag htask
  exact ⟨j, by rintro rfl; exact hi hj, hj⟩

/-- A worker comes back from the timed wait, and takes the flag down. -/
theorem Guarded.returned {s : Scheduler n} (h : s.Guarded) (i : Fin n) : Entered { s with task := false } i :=
  ⟨fun htask => absurd htask (by simp), fun hstop t ht j _ => h.early t ht hstop j⟩

theorem Guarded.shutdown {s s' : Scheduler n} (h : s.Guarded) {woken : Option (Fin n)}
    (hs : s.step (.shutdown woken) = some s') : s'.Guarded := by
  have hall : Guarded { s with stop := true, workers := fun k => (s.workers k).queue_cv.getD (s.workers k) } := by
    constructor
    · intro htask
      obtain ⟨j, hj⟩ := h.flag htask
      refine ⟨j, ?_⟩
      dsimp only
      cases hx : s.workers j <;> simp_all [Worker.queue_cv, Worker.Timed]
    · exact fun hstop => absurd hstop (by simp)
    · exact fun _ _ hstop => absurd hstop (by simp)
  rcases notify_one_cases hs with ⟨k, x, hx, rfl⟩ | ⟨-, rfl⟩
  · exact hall.task_cv hx
  · exact hall

theorem Guarded.step (hn : 0 < n) {s s' : Scheduler n} (h : s.Guarded) {a : Step n} (hkeeps : s.Keeps a)
    (hs : s.step a = some s') : s'.Guarded := by
  cases a with
  | schedule time moved woken =>
    have hlater : s.NoLater time := hkeeps
    exact h.schedule_intern hn hlater hs
  | schedule_every interval moved woken =>
    have hlater : s.NoLater (s.now + interval) := hkeeps
    exact h.schedule_intern hn hlater hs
  | reschedule i moved woken =>
    rw [Scheduler.step] at hs
    split at hs
    · rename_i interval hi
      have hnext : (s.set_worker i (.running none)).Guarded :=
        h.set_worker (by rw [hi]; exact False.elim) (by simp) (by simp)
      refine hnext.schedule_intern hn (fun hstop j deadline storage hj => ?_) hs
      by_cases heq : j = i
      · rw [heq, set_worker_self] at hj
        cases hj
      · rw [set_worker_of_ne heq] at hj
        exact hkeeps interval hi hstop j deadline storage hj
    · cases hs
  | loop i top woken =>
    rw [Scheduler.step] at hs
    split at hs
    · rename_i hi
      exact (h.entered (by rw [hi]; exact id)).turn hs
    · rename_i hi
      exact (h.entered (by rw [hi]; exact id)).turn hs
    · rename_i hi
      exact (h.entered (by rw [hi]; exact id)).turn hs
    · split at hs
      · exact (h.returned i).turn hs
      · cases hs
    · cases hs
  | wait_again i deadline =>
    rw [Scheduler.step] at hs
    split at hs
    · rename_i storage hi
      split at hs
      · cases hs
      split at hs
      · rename_i hread
        cases hs
        refine h.set_worker (fun _ => trivial) (by simp) ?_
        rintro _ _ ⟨⟩ t ht
        have htasks : s.tasks ≠ [] := List.ne_nil_of_mem ht
        obtain ⟨x, -, hx, rfl⟩ := hread ⟨(hkeeps storage hi).resolve_left htasks, htasks⟩
        exact hx.2 t ht
      · cases hs
    · cases hs
  | wake i =>
    obtain ⟨x, hx, rfl⟩ := Option.map_eq_some_iff.mp hs
    rcases Option.or_eq_some_iff.mp hx with hqueue | ⟨-, htask⟩
    · exact h.queue_cv hqueue
    · exact h.task_cv htask
  | timeout i =>
    rw [Scheduler.step] at hs
    split at hs
    · split at hs
      · cases hs
        exact h.set_worker (fun _ => trivial) (by simp) (by simp)
      · cases hs
    · cases hs
  | shutdown woken => exact h.shutdown hs
  | clock now =>
    cases hs
    exact ⟨h.flag, h.live, h.early⟩

/-! ### Whole runs -/

theorem Guarded.run (hn : 0 < n) {s s' : Scheduler n} (h : s.Guarded) {steps : List (Step n)}
    (hkeep : s.AllKeep steps) (hs : s.run steps = some s') : s'.Guarded := by
  induction steps generalizing s with
  | nil =>
    cases hs
    exact h
  | cons a steps ih =>
    obtain ⟨hfirst, hrest⟩ := hkeep
    obtain ⟨s₁, hs₁, hs'⟩ := Option.bind_eq_some_iff.mp hs
    exact ih (h.step hn hfirst hs₁) (hrest s₁ hs₁) hs'

/-- Some worker waits for the earliest task, as long as no task comes that is earlier than the one a
worker waits for, and the reference of that worker stays valid. -/
theorem watched_of_all_keep (hn : 0 < n) (now : Int) {steps : List (Step n)} {s : Scheduler n}
    (hkeep : (fresh n now).AllKeep steps) (hs : (fresh n now).run steps = some s) : s.Watched :=
  ((guarded_fresh n now).run hn hkeep hs).watched

theorem watched_of_all_keep_one :
    ∃ s, (fresh 1 0).run [.loop 0 ⟨0, none⟩ none, .schedule 500 false (some 0), .loop 0 ⟨500, none⟩ none] =
      some s ∧
    s.Watched := by
  have hkeep : (fresh 1 0).AllKeep [.loop 0 ⟨0, none⟩ none, .schedule 500 false (some 0),
      .loop 0 ⟨500, none⟩ none] := by
    refine ⟨trivial, fun s hs => ⟨?_, fun s' _ => ⟨trivial, fun _ _ => trivial⟩⟩⟩
    cases hs
    intro _ i deadline storage hi
    have hwait : ((fresh 1 0).set_worker 0 .queue_wait).workers i = .queue_wait := by
      rw [Subsingleton.elim i 0, set_worker_self]
    cases hwait.symm.trans hi
  exact ⟨_, rfl, watched_of_all_keep (by decide) 0 hkeep rfl⟩

/-- Both workers wait when a task for `500` comes: the one that is told of it finds the flag, and the
other one waits for `1000`. -/
theorem earlier_task_unwatched : ¬ ∀ (n : Nat) (now : Int) (steps : List (Step n)) (s : Scheduler n), 0 < n →
    (fresh n now).run steps = some s → s.Watched := by
  intro h
  have hwatched := h 2 0 [.loop 0 ⟨0, none⟩ none, .loop 1 ⟨0, none⟩ none, .schedule 1000 false (some 0),
    .loop 0 ⟨1000, none⟩ none, .schedule 500 true (some 1), .loop 1 ⟨500, none⟩ none] _ (by decide) rfl
  obtain ⟨i, deadline, storage, hi, hearly⟩ := hwatched rfl (by decide) (by decide)
  have hdeadline : deadline ≤ 500 := hearly ⟨500, none⟩ (by decide)
  match i, hi with
  | 0, hi =>
    cases hi
    exact absurd hdeadline (by decide)
  | 1, hi => cases hi

end Scheduler

end Chord
