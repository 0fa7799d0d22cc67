import ConcurrencyRuntime.IntrusiveStrand
import ConcurrencyRuntime.IntrusivePool
import ConcurrencyRuntime.ManualExecutor
import ConcurrencyRuntime.DistributedPoolPlaces

/-!
# WaitIdle of every executor

WaitIdle is a method of the base class and waits for the counter of the base to
be zero. Each executor is given here by its transition system, that counter and
the tasks that are queued in it or executing; a thread that calls WaitIdle takes
its steps between those of the executor. The two pools keep the counter of the
base in step with their queues. The manual executor and the strand do not call
AddTask and RemoveTask, so that WaitIdle does not wait for their tasks.
-/

namespace ConcurrencyRuntime.WaitIdle

open TransitionSystem

/-- An executor under all interleavings of its Submit calls and its tasks. -/
structure Executor (S A K : Type*) where
  /-- Its steps. -/
  system : System S A
  /-- The count_tasks counter of the base class. -/
  countTasks : S → ℕ
  /-- The task was accepted by Submit and is queued or executing. -/
  Pending : S → K → Prop

/-- Program points of a thread that calls WaitIdle. In the call it has the tasks
that were pending when it began and have been pending since. -/
inductive WaitPc (K : Type*) where
  /-- Not in WaitIdle. -/
  | outside
  /-- Under the mutex, before the load of count_tasks. -/
  | load (tasks : Set K)
  /-- Asleep on empty_tasks_. -/
  | asleep (tasks : Set K)
  /-- WaitIdle has returned. -/
  | returned (tasks : Set K)

/-- Scheduler choices. -/
inductive Action (A : Type*) where
  /-- A step of the executor. -/
  | act (a : A)
  /-- The thread calls WaitIdle. -/
  | call
  /-- The load of count_tasks. -/
  | load
  /-- The thread wakes up, with a notification or without one. -/
  | wake

variable {S A K : Type*}

/-- Forget the tasks that have left the executor. -/
def WaitPc.keep (P : K → Prop) : WaitPc K → WaitPc K
  | .outside => .outside
  | .load tasks => .load { k | k ∈ tasks ∧ P k }
  | .asleep tasks => .asleep { k | k ∈ tasks ∧ P k }
  | .returned tasks => .returned { k | k ∈ tasks ∧ P k }

/-- One step of the executor or of the thread. -/
def Executor.step (E : Executor S A K) : S × WaitPc K → Action A → Option (S × WaitPc K)
  | (s,pc),.act a => (E.system.step s a).map fun s' => (s',pc.keep (E.Pending s'))
  | (s,.outside),.call => some (s,.load { k | E.Pending s k })
  | (s,.returned _),.call => some (s,.load { k | E.Pending s k })
  | (s,.load tasks),.load =>
    if E.countTasks s = 0 then some (s,.returned tasks) else some (s,.asleep tasks)
  | (s,.asleep tasks),.wake => some (s,.load tasks)
  | _,_ => none

/-- The executor with a thread that calls WaitIdle. -/
def Executor.waiting (E : Executor S A K) : System (S × WaitPc K) (Action A) :=
  ⟨(E.system.start,.outside),E.step⟩

/-- Whenever WaitIdle has returned, no task that was accepted before the call is
still queued or executing. -/
def Executor.Sound (E : Executor S A K) : Prop :=
  ∀ s tasks, E.waiting.Reachable (s,.returned tasks) → tasks = ∅

section Sound

variable {E : Executor S A K} {s : S} {pc : WaitPc K}

/-- The tasks that the thread in WaitIdle still has are pending, and there is
none when it has returned. -/
def Executor.Waits (E : Executor S A K) (s : S) : WaitPc K → Prop
  | .outside => True
  | .load tasks | .asleep tasks => ∀ k ∈ tasks, E.Pending s k
  | .returned tasks => tasks = ∅

/-- A step of the executor leaves the thread with pending tasks. -/
theorem Executor.Waits.keep {s' : S} (h : E.Waits s pc) : E.Waits s' (pc.keep (E.Pending s')) := by
  cases pc with
  | outside => exact trivial
  | load tasks | asleep tasks => exact fun k hk => hk.2
  | returned tasks =>
    refine Set.eq_empty_of_forall_notMem ?_
    intro k hk
    have hempty : tasks = ∅ := h
    rw [hempty] at hk
    exact hk.1

/-- Where the counter is zero only when nothing is pending, every step keeps
what the thread has. -/
theorem Executor.waits_reachable
    (hcount : ∀ s, E.system.Reachable s → E.countTasks s = 0 → ∀ k, ¬E.Pending s k)
    {x : S × WaitPc K} (hr : E.waiting.Reachable x) :
    E.system.Reachable x.1 ∧ E.Waits x.1 x.2 := by
  refine System.Reachable.invariant ⟨.start,trivial⟩ ?_ hr
  rintro ⟨s,pc⟩ a x' ⟨hreach,hwaits⟩ hs
  simp only at hreach hwaits
  cases a with
  | act a =>
    obtain ⟨s',hstep,rfl⟩ := Option.map_eq_some_iff.mp hs
    exact ⟨hreach.next hstep,hwaits.keep⟩
  | call =>
    cases pc <;> cases hs <;> exact ⟨hreach,fun k hk => hk⟩
  | load =>
    cases pc with
    | load tasks =>
      simp only [Executor.waiting,Executor.step] at hs
      split_ifs at hs with hzero <;> cases hs
      · refine ⟨hreach,Set.eq_empty_of_forall_notMem ?_⟩
        exact fun k hk => hcount s hreach hzero k (hwaits k hk)
      · exact ⟨hreach,hwaits⟩
    | outside | asleep tasks | returned tasks => cases hs
  | wake =>
    cases pc with
    | asleep tasks =>
      cases hs
      exact ⟨hreach,hwaits⟩
    | outside | load tasks | returned tasks => cases hs

/-- The executor runs on its own when nobody calls WaitIdle. -/
theorem Executor.reachable_outside (hr : E.system.Reachable s) :
    E.waiting.Reachable (s,.outside) := by
  refine System.Reachable.invariant .start ?_ hr
  intro s a s' h hs
  refine h.next (a := .act a) ?_
  simp [Executor.waiting,Executor.step,hs,WaitPc.keep]

/-- WaitIdle is sound if and only if the counter is not zero while a task is
pending. -/
theorem Executor.sound_iff :
    E.Sound ↔ ∀ s, E.system.Reachable s → E.countTasks s = 0 → ∀ k, ¬E.Pending s k := by
  constructor
  · intro hsound s hr hzero k hk
    have hcall : E.waiting.Reachable (s,.load { k | E.Pending s k }) :=
      (Executor.reachable_outside hr).next (a := .call) rfl
    have hreturned : E.waiting.Reachable (s,.returned { k | E.Pending s k }) := by
      refine hcall.next (a := .load) ?_
      simp [Executor.waiting,Executor.step,hzero]
    have hempty := hsound s _ hreturned
    have hmem : k ∈ { k | E.Pending s k } := hk
    rw [hempty] at hmem
    exact hmem
  · intro hcount s tasks hr
    exact (Executor.waits_reachable hcount hr).2

end Sound

section Executors

/-- The task is in the list of the pool or a worker is in its Run. -/
def poolPending {n : ℕ} {O : Type*} (s : IntrusivePool.State n O K) (k : K) : Prop :=
  k ∈ s.tasks ∨ ∃ w call, s.worker w = .run k call

/-- The task was counted by its first Submit and is in a queue, in the hands of
a worker or of a call of Submit, or parked, or a worker is in its Run. -/
def distributedPending {n : ℕ} {O Q : Type*} (s : DistributedPool.Pool n K O Q) (k : K) : Prop :=
  s.Accepted k ∧ ((∃ p, k ∈ s.holding p) ∨ ∃ w, s.InRun w k)

/-- The task is in the list of the executor or a thread is in its Run. -/
def manualPending {τ : Type*} (s : ManualExecutor.State τ K) (k : K) : Prop :=
  k ∈ s.tasks ∨ ∃ t limit done, s.thread t = .run limit done k

/-- The task is in the list of the strand, a batch has it scheduled, or a batch
is in its Run. -/
def strandPending {ι : Type*} (s : IntrusiveStrand.Strand ι K) (k : K) : Prop :=
  k ∈ s.tasks ∨ (∃ c, k ∈ (s.batch c).scheduled) ∨ ∃ c rest, s.batch c = .executing k rest

/-- The strand with its base class, which no method of the strand calls. -/
def strandStep {ι : Type*} [DecidableEq ι]
    (s : ManualExecutor.Shutdowner × IntrusiveStrand.Strand ι K) (a : IntrusiveStrand.Action ι K) :
    Option (ManualExecutor.Shutdowner × IntrusiveStrand.Strand ι K) :=
  (IntrusiveStrand.step s.2 a).map fun t => (s.1,t)

/-- The intrusive thread pool. -/
def intrusiveThreadPool (n : ℕ) (O K : Type*) [DecidableEq O] :
    Executor (IntrusivePool.State n O K) (IntrusivePool.Action n O K) K :=
  ⟨IntrusivePool.system n O K,IntrusivePool.State.countTasks,poolPending⟩

/-- The distributed pool. -/
def distributedPool (n : ℕ) (K O Q : Type*) [DecidableEq K] [DecidableEq O] [DecidableEq Q]
    (fiber : K → Bool) :
    Executor (DistributedPool.Pool n K O Q) (DistributedPool.Action n K O Q) K :=
  ⟨DistributedPool.system n K O Q fiber,DistributedPool.Pool.countTasks,distributedPending⟩

/-- The manual executor. -/
def intrusiveManualExecutor (τ K : Type*) [DecidableEq τ] :
    Executor (ManualExecutor.State τ K) (ManualExecutor.Action τ K) K :=
  ⟨ManualExecutor.system τ K,fun s => s.base.countTasks,manualPending⟩

/-- The strand. Its underlying executor holds the closures of the strand and
starts each of them once, at any moment or never; the counter of the underlying
executor is not the one that WaitIdle of the strand reads. -/
def intrusiveStrand (ι K : Type*) [DecidableEq ι] :
    Executor (ManualExecutor.Shutdowner × IntrusiveStrand.Strand ι K)
    (IntrusiveStrand.Action ι K) K :=
  ⟨⟨(⟨0⟩,IntrusiveStrand.initial ι K),strandStep⟩,fun s => s.1.countTasks,
    fun s => strandPending s.2⟩

/-- The implementations of IExecutor. -/
inductive Kind where
  | intrusiveThreadPool (workers : ℕ)
  | distributedPool (workers : ℕ)
  | intrusiveManualExecutor
  | intrusiveStrand (underlying : Kind)
  deriving DecidableEq

/-- One of the two thread pools. -/
def Kind.isPool : Kind → Bool
  | .intrusiveThreadPool _ | .distributedPool _ => true
  | .intrusiveManualExecutor | .intrusiveStrand _ => false

/-- WaitIdle means idle for the executor, whatever its tasks and the threads
around it are. -/
def Kind.WaitIdleSound : Kind → Prop
  | .intrusiveThreadPool n =>
    ∀ (O K : Type) [Fintype O] [DecidableEq O], (WaitIdle.intrusiveThreadPool n O K).Sound
  | .distributedPool n =>
    ∀ (K O Q : Type) [DecidableEq K] [DecidableEq O] [DecidableEq Q] (fiber : K → Bool),
      (WaitIdle.distributedPool n K O Q fiber).Sound
  | .intrusiveManualExecutor =>
    ∀ (τ K : Type) [DecidableEq τ], (WaitIdle.intrusiveManualExecutor τ K).Sound
  | .intrusiveStrand _ => ∀ (ι K : Type) [DecidableEq ι], (WaitIdle.intrusiveStrand ι K).Sound

/-- A task of the pool is counted until its Run has returned. -/
theorem intrusiveThreadPool_sound (n : ℕ) (O K : Type) [Fintype O] [DecidableEq O] :
    (intrusiveThreadPool n O K).Sound := by
  rw [Executor.sound_iff]
  intro s hr hzero k hk
  have hcount := (IntrusivePool.accounted_reachable hr).tasks
  have hzero : s.countTasks = 0 := hzero
  rcases hk with hmem | ⟨w,call,hw⟩
  · have hpos := List.length_pos_of_mem hmem
    omega
  · have hle := Tally.le_tally IntrusivePool.WorkerPc.popped s.worker w
    rw [hw] at hle
    simp only [IntrusivePool.WorkerPc.popped] at hle
    omega

/-- A task of the distributed pool is counted until RemoveTask. -/
theorem distributedPool_sound (n : ℕ) (K O Q : Type) [DecidableEq K] [DecidableEq O]
    [DecidableEq Q] (fiber : K → Bool) : (distributedPool n K O Q fiber).Sound := by
  rw [Executor.sound_iff]
  rintro s hr hzero k ⟨haccepted,hk⟩
  have hremoved := (DistributedPool.idle_of_count hr hzero).1 k haccepted
  have hfits := (DistributedPool.accounted hr).sound.fits
  have hheld : s.custody.Held k := by
    rcases hk with ⟨p,hp⟩ | ⟨w,hw⟩
    · exact DistributedTasks.held_of_mem hfits hp
    · have hphase : s.custody.PhaseFits w (s.worker w).phase := hfits (.process w)
      simp only [DistributedPool.Pool.InRun] at hw
      split at hw
      next t stage hpc =>
        subst hw
        rw [hpc] at hphase
        exact Or.inr (Or.inl hphase.1.1)
      next t stage call hpc =>
        subst hw
        rw [hpc] at hphase
        exact Or.inr (Or.inl hphase.1.1)
      next t hpc =>
        subst hw
        rw [hpc] at hphase
        exact Or.inr (Or.inr hphase.1)
      next => exact hw.elim
  have hlife : s.custody.life k = .removed := hremoved
  rw [DistributedTasks.Custody.Held,hlife] at hheld
  simp at hheld

/-- The counter of the base is zero in every state of the manual executor. -/
theorem manual_countTasks {τ : Type*} [DecidableEq τ] {s : ManualExecutor.State τ K}
    (hr : (intrusiveManualExecutor τ K).system.Reachable s) :
    (intrusiveManualExecutor τ K).countTasks s = 0 :=
  (ManualExecutor.counted_reachable hr).base

/-- The counter of the base is zero in every state of the strand. -/
theorem strand_countTasks {ι : Type*} [DecidableEq ι]
    {s : ManualExecutor.Shutdowner × IntrusiveStrand.Strand ι K}
    (hr : (intrusiveStrand ι K).system.Reachable s) : (intrusiveStrand ι K).countTasks s = 0 := by
  refine System.Reachable.invariant rfl ?_ hr
  intro s a s' h hs
  obtain ⟨t,-,rfl⟩ := Option.map_eq_some_iff.mp hs
  exact h

/-- A task that was submitted to a manual executor is pending before anybody
runs it. -/
theorem intrusiveManualExecutor_not_sound :
    ¬(intrusiveManualExecutor Unit Unit).Sound := by
  rw [Executor.sound_iff]
  intro hcount
  have hr : (intrusiveManualExecutor Unit Unit).system.Reachable
      ((ManualExecutor.initial Unit Unit).submit ()) :=
    System.Reachable.next (a := .submit ()) .start rfl
  exact hcount _ hr (manual_countTasks hr) () (Or.inl (List.mem_singleton_self ()))

/-- A task that was submitted to a strand is pending before the underlying
executor runs the closure. -/
theorem intrusiveStrand_not_sound : ¬(intrusiveStrand Unit Unit).Sound := by
  rw [Executor.sound_iff]
  intro hcount
  have hends : (intrusiveStrand Unit Unit).system.Ends (intrusiveStrand Unit Unit).system.start
      [.call () (),.submit (),.submit (),.submit (),.submit ()]
      (fun s => s.2.tasks = [()]) := by
    decide
  obtain ⟨s,hr,htasks⟩ := hends.reachable
  refine hcount s hr (strand_countTasks hr) () (Or.inl ?_)
  rw [htasks]
  exact List.mem_singleton_self ()

end Executors

/-- WaitIdle means idle for the two pools and for no other executor: a strand
breaks it over every underlying executor. -/
theorem waitIdle_sound_iff (kind : Kind) : kind.WaitIdleSound ↔ kind.isPool = true := by
  cases kind with
  | intrusiveThreadPool n =>
    exact iff_of_true (fun O K _ _ => intrusiveThreadPool_sound n O K) rfl
  | distributedPool n =>
    exact iff_of_true (fun K O Q _ _ _ fiber => distributedPool_sound n K O Q fiber) rfl
  | intrusiveManualExecutor =>
    refine iff_of_false ?_ (by rintro ⟨⟩)
    exact fun hsound => intrusiveManualExecutor_not_sound (hsound Unit Unit)
  | intrusiveStrand underlying =>
    refine iff_of_false ?_ (by rintro ⟨⟩)
    exact fun hsound => intrusiveStrand_not_sound (hsound Unit Unit)

/-- A task is submitted to a manual executor and nobody runs it. WaitIdle reads
zero at once and returns with the task queued. -/
theorem waitIdle_returns_with_task_queued :
    (∃ s tasks, (intrusiveManualExecutor Unit Unit).waiting.Reachable (s,.returned tasks) ∧
      () ∈ tasks ∧ s.tasks = [()]) ∧ ¬∀ kind : Kind, kind.WaitIdleSound := by
  constructor
  · have hsubmit : (intrusiveManualExecutor Unit Unit).waiting.Reachable
        ((ManualExecutor.initial Unit Unit).submit (),.outside) :=
      System.Reachable.next (a := .act (.submit ())) .start rfl
    have hcall := hsubmit.next (a := .call) rfl
    exact ⟨_,_,hcall.next (a := .load) rfl,Or.inl (List.mem_singleton_self ()),rfl⟩
  · exact fun hsound => intrusiveManualExecutor_not_sound
      (hsound .intrusiveManualExecutor Unit Unit)

end ConcurrencyRuntime.WaitIdle
