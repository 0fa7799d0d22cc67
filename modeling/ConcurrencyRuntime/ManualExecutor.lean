import ConcurrencyRuntime.TransitionSystem

/-!
# The intrusive manual executor

Submit pushes a task and counts it in one section under the spinlock. Threads
that call RunAtMost or Drain pop tasks in such sections and run them outside of
the lock, so that a running task may submit. The counter of the class hides the
counter of the same name in its base, which nothing here changes.
-/

namespace ConcurrencyRuntime.ManualExecutor

open TransitionSystem

/-- The part of the base class that WaitIdle reads. -/
structure Shutdowner where
  /-- The count_tasks counter of the base. -/
  countTasks : ℕ
  deriving DecidableEq

/-- Program points of a thread that drives the executor. Drain has no limit. -/
inductive RunPc (K : Type*) where
  /-- In no call. -/
  | outside
  /-- At the head of the loop, before the section that pops a task. -/
  | loop (limit : Option ℕ) (done : ℕ)
  /-- In Run of the task. -/
  | run (limit : Option ℕ) (done : ℕ) (task : K)
  /-- The call has returned the number of tasks that it ran. -/
  | returned (done : ℕ)
  /-- Pop has returned null and the task was called. -/
  | fault
  deriving DecidableEq

/-- The executor and the threads that drive it. -/
structure State (τ K : Type*) where
  /-- The base class. -/
  base : Shutdowner
  /-- The task list, oldest first. -/
  tasks : List K
  /-- The count_tasks counter of the class. -/
  countTasks : ℕ
  /-- The threads. -/
  thread : τ → RunPc K

/-- Scheduler choices. -/
inductive Action (τ K : Type*) where
  /-- Submit, from any thread or from a running task. -/
  | submit (task : K)
  /-- A thread calls RunAtMost, or Drain where there is no limit. -/
  | call (t : τ) (limit : Option ℕ)
  /-- The next step of that call. -/
  | thread (t : τ)

variable {τ K : Type*} [DecidableEq τ]

/-- Move a thread. -/
def State.goto (s : State τ K) (t : τ) (pc : RunPc K) : State τ K :=
  { s with thread := Function.update s.thread t pc }

/-- Submit. -/
def State.submit {τ : Type*} (s : State τ K) (task : K) : State τ K :=
  { s with tasks := s.tasks ++ [task], countTasks := s.countTasks + 1 }

/-- One step of RunAtMost and of Drain. -/
def State.threadStep (s : State τ K) (t : τ) : Option (State τ K) :=
  match s.thread t with
  | .loop limit done =>
    if limit = some done then some (s.goto t (.returned done))
    else if s.countTasks = 0 then some (s.goto t (.returned done))
    else
      match s.tasks with
      | task :: rest =>
        some ({ s with tasks := rest, countTasks := s.countTasks - 1 }.goto t (.run limit done task))
      | [] => some ({ s with countTasks := s.countTasks - 1 }.goto t .fault)
  | .run limit done _ => some (s.goto t (.loop limit (done + 1)))
  | .outside | .returned _ | .fault => none

/-- One step of the executor. -/
def step (s : State τ K) : Action τ K → Option (State τ K)
  | .submit task => some (s.submit task)
  | .call t limit =>
    match s.thread t with
    | .outside | .returned _ => some (s.goto t (.loop limit 0))
    | _ => none
  | .thread t => s.threadStep t

/-- A new executor. -/
def initial (τ K : Type*) : State τ K :=
  ⟨⟨0⟩,[],0,fun _ => .outside⟩

/-- The executor under all interleavings. -/
def system (τ K : Type*) [DecidableEq τ] : System (State τ K) (Action τ K) :=
  ⟨initial τ K,step⟩

/-- The counter of the class is exact, the one of the base has never been
touched, and no thread has called a null task. -/
structure Counted {τ : Type*} (s : State τ K) : Prop where
  tasks : s.countTasks = s.tasks.length
  base : s.base.countTasks = 0
  fault : ∀ t, s.thread t ≠ .fault

/-- A thread moves on. -/
theorem Counted.goto {s : State τ K} {t : τ} {pc : RunPc K} (h : Counted s) (hpc : pc ≠ .fault) :
    Counted (s.goto t pc) := by
  refine ⟨h.tasks,h.base,?_⟩
  intro u
  simp only [State.goto,Function.update_apply]
  split
  · exact hpc
  · exact h.fault u

/-- One step of RunAtMost and of Drain. -/
theorem Counted.threadStep {s s' : State τ K} {t : τ} (h : Counted s)
    (hs : s.threadStep t = some s') : Counted s' := by
  simp only [State.threadStep] at hs
  split at hs
  next limit done hpc =>
    split_ifs at hs with hlimit hzero
    · cases hs
      exact h.goto (by rintro ⟨⟩)
    · cases hs
      exact h.goto (by rintro ⟨⟩)
    · have htasks := h.tasks
      split at hs
      next task rest hl =>
        cases hs
        rw [hl,List.length_cons] at htasks
        refine Counted.goto ⟨?_,h.base,h.fault⟩ (by rintro ⟨⟩)
        simp only [htasks,Nat.add_sub_cancel]
      next hl =>
        -- an empty list has been counted as such
        rw [hl] at htasks
        exact absurd htasks hzero
  next =>
    cases hs
    exact h.goto (by rintro ⟨⟩)
  next => cases hs
  next => cases hs
  next => cases hs

/-- The counters in every run. -/
theorem counted_reachable {s : State τ K} (hr : (system τ K).Reachable s) : Counted s := by
  refine System.Reachable.invariant ⟨rfl,rfl,by rintro _ ⟨⟩⟩ ?_ hr
  intro s a s' h hs
  cases a with
  | submit task =>
    cases hs
    refine ⟨?_,h.base,h.fault⟩
    simp only [State.submit,h.tasks,List.length_append,List.length_cons,List.length_nil]
  | call t limit =>
    simp only [system,step] at hs
    split at hs <;> cases hs <;> exact h.goto (by rintro ⟨⟩)
  | thread t => exact h.threadStep hs

end ConcurrencyRuntime.ManualExecutor
