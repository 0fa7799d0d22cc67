import ConcurrencyRuntime.Tally
import ConcurrencyRuntime.TransitionSystem

/-!
# The intrusive thread pool

Workers pop tasks from one list under a mutex, and leave when they find it
empty and then find the shutdown flag set. A running task may submit tasks; so
may threads outside of the pool. One step is one access to an atomic, one
section under a mutex, one wait or one notification. The state keeps no history:
the program points say which tasks are in flight.
-/

namespace ConcurrencyRuntime.IntrusivePool

open TransitionSystem Tally

/-- Program points of Submit. -/
inductive SubmitPc (K : Type*) where
  /-- The load of shutdown_ in IsShutdown. -/
  | check (task : K)
  /-- AddTask. -/
  | add (task : K)
  /-- The section that pushes the task. -/
  | push (task : K)
  deriving DecidableEq

/-- Program points of a worker. -/
inductive WorkerPc (K : Type*) where
  /-- The thread does not exist yet. -/
  | absent
  /-- The section that pops a task. -/
  | pop
  /-- Pop has returned null, before the load of shutdown_. -/
  | empty
  /-- In Run of a task, and there in a call of Submit or not. -/
  | run (task : K) (call : Option (SubmitPc K))
  /-- RemoveTask. -/
  | remove
  /-- NotifyAll. -/
  | notify
  /-- Out of the loop, before the section that counts the worker down. -/
  | leave
  /-- The notify_one of empty_workers_. -/
  | signal
  /-- The thread is over. -/
  | gone
  deriving DecidableEq

/-- Program points of the thread that starts and destroys the pool. -/
inductive OwnerPc where
  /-- Start: the section that counts the next worker. -/
  | count (i : ℕ)
  /-- Start: the creation of its thread. -/
  | spawn (i : ℕ)
  /-- Start has returned. The destructor begins with StartShutdown. -/
  | started
  /-- WaitShutdown, before its section. -/
  | waitShutdown
  /-- Asleep on empty_workers_. -/
  | asleep
  /-- Woken up, before its section. -/
  | woken
  /-- The join of the next worker. -/
  | join (i : ℕ)
  /-- The assert on the number of tasks. -/
  | assertTasks
  /-- The assert in the destructor of the task list. -/
  | assertList
  /-- The pool is destroyed. -/
  | destroyed
  /-- An assert has failed. -/
  | aborted
  deriving DecidableEq

/-- Program points of the thread that calls WaitIdle. -/
inductive WaiterPc where
  /-- Not in WaitIdle. -/
  | outside
  /-- Under the mutex, before the load of count_tasks. -/
  | load
  /-- Under the mutex, has read a number other than zero. -/
  | wait
  /-- Asleep on empty_tasks_. -/
  | asleep
  /-- Notified. -/
  | woken
  deriving DecidableEq

/-- The pool and its threads. -/
structure State (n : ℕ) (O K : Type*) where
  /-- The count_tasks counter. -/
  countTasks : ℕ
  /-- The shutdown_ flag. -/
  shutdown : Bool
  /-- The task list, oldest first. -/
  tasks : List K
  /-- The count_workers_ counter. -/
  countWorkers : ℕ
  /-- The workers. -/
  worker : Fin n → WorkerPc K
  /-- The calls of Submit from outside of the pool. -/
  outside : O → Option (SubmitPc K)
  /-- The thread that owns the pool. -/
  owner : OwnerPc
  /-- The thread in WaitIdle. -/
  waiter : WaiterPc

/-- The steps of the threads. -/
inductive Action (n : ℕ) (O K : Type*) where
  /-- The next step of a worker; a running task is in Submit or returns. -/
  | worker (w : Fin n)
  /-- The task that a worker runs calls Submit. -/
  | callFrom (w : Fin n) (task : K)
  /-- A thread outside of the pool calls Submit. -/
  | call (o : O) (task : K)
  /-- The next step of a call from outside. -/
  | outside (o : O)
  /-- The next step of the owner. -/
  | owner
  /-- The owner wakes up without a notification. -/
  | wake
  /-- The next step of the thread in WaitIdle. -/
  | waiter

variable {n : ℕ} {O K : Type*} [DecidableEq O]

/-- Move a worker to a program point. -/
def State.goto (s : State n O K) (w : Fin n) (pc : WorkerPc K) : State n O K :=
  { s with worker := Function.update s.worker w pc }

/-- Move a call from outside to a program point. -/
def State.gotoOutside (s : State n O K) (o : O) (pc : Option (SubmitPc K)) : State n O K :=
  { s with outside := Function.update s.outside o pc }

/-- One step of Submit, and where the call goes. -/
def State.submit (s : State n O K) : SubmitPc K → State n O K × Option (SubmitPc K)
  | .check task => (s,if s.shutdown then none else some (.add task))
  | .add task => ({ s with countTasks := s.countTasks + 1 },some (.push task))
  | .push task => ({ s with tasks := s.tasks ++ [task] },none)

/-- What a notification does to the owner. -/
def OwnerPc.notified : OwnerPc → OwnerPc
  | .asleep => .woken
  | pc => pc

/-- What a notification does to the thread in WaitIdle. -/
def WaiterPc.notified : WaiterPc → WaiterPc
  | .asleep => .woken
  | pc => pc

/-- One step of a worker. -/
def State.workerStep (s : State n O K) (w : Fin n) : Option (State n O K) :=
  match s.worker w with
  | .absent => none
  | .pop =>
    match s.tasks with
    | [] => some (s.goto w .empty)
    | task :: rest => some ({ s with tasks := rest }.goto w (.run task none))
  | .empty => some (s.goto w (if s.shutdown then .leave else .pop))
  | .run task (some pc) => some ((s.submit pc).1.goto w (.run task (s.submit pc).2))
  | .run _ none => some (s.goto w .remove)
  | .remove => some ({ s with countTasks := s.countTasks - 1 }.goto w .notify)
  | .notify => some ({ s with waiter := s.waiter.notified }.goto w .pop)
  | .leave => some ({ s with countWorkers := s.countWorkers - 1 }.goto w .signal)
  | .signal => some ({ s with owner := s.owner.notified }.goto w .gone)
  | .gone => none

/-- One step of the owner: Start, then the destructor. -/
def State.ownerStep (s : State n O K) : Option (State n O K) :=
  match s.owner with
  | .count i =>
    if i < n then some { s with countWorkers := s.countWorkers + 1, owner := .spawn i }
    else some { s with owner := .started }
  | .spawn i =>
    if h : i < n then some { s.goto ⟨i,h⟩ .pop with owner := .count (i + 1) } else none
  | .started => some { s with shutdown := true, owner := .waitShutdown }
  | .waitShutdown | .woken =>
    some { s with owner := if s.countWorkers = 0 then .join 0 else .asleep }
  | .asleep => none
  | .join i =>
    if h : i < n then
      match s.worker ⟨i,h⟩ with
      | .gone => some { s with owner := .join (i + 1) }
      | _ => none
    else some { s with owner := .assertTasks }
  | .assertTasks =>
    some { s with owner := if s.countTasks = 0 then .assertList else .aborted }
  | .assertList =>
    some { s with owner := if s.tasks.isEmpty then .destroyed else .aborted }
  | .destroyed | .aborted => none

/-- One step of WaitIdle. -/
def State.waiterStep (s : State n O K) : Option (State n O K) :=
  match s.waiter with
  | .outside => some { s with waiter := .load }
  | .load => some { s with waiter := if s.countTasks = 0 then .outside else .wait }
  | .wait => some { s with waiter := .asleep }
  | .asleep => none
  | .woken => some { s with waiter := .load }

/-- One step of the pool. -/
def step (s : State n O K) : Action n O K → Option (State n O K)
  | .worker w => s.workerStep w
  | .callFrom w task =>
    match s.worker w with
    | .run running none => some (s.goto w (.run running (some (.check task))))
    | _ => none
  | .call o task =>
    match s.outside o with
    | none => some (s.gotoOutside o (some (.check task)))
    | some _ => none
  | .outside o =>
    match s.outside o with
    | some pc => some ((s.submit pc).1.gotoOutside o (s.submit pc).2)
    | none => none
  | .owner => s.ownerStep
  | .wake =>
    match s.owner with
    | .asleep => some { s with owner := .woken }
    | _ => none
  | .waiter => s.waiterStep

/-- A new pool, before Start. -/
def initial (n : ℕ) (O K : Type*) : State n O K :=
  ⟨0,false,[],0,fun _ => .absent,fun _ => none,.count 0,.outside⟩

/-- The pool under all interleavings. -/
def system (n : ℕ) (O K : Type*) [DecidableEq O] : System (State n O K) (Action n O K) :=
  ⟨initial n O K,step⟩

/-- A Submit between AddTask and the push. -/
def adding {K : Type*} : Option (SubmitPc K) → ℕ
  | some (.push _) => 1
  | _ => 0

/-- A worker that has popped a task and not run RemoveTask. -/
def WorkerPc.popped {K : Type*} : WorkerPc K → ℕ
  | .run .. | .remove => 1
  | _ => 0

/-- A worker whose task is in Submit between AddTask and the push. -/
def WorkerPc.adding {K : Type*} : WorkerPc K → ℕ
  | .run _ call => IntrusivePool.adding call
  | _ => 0

/-- A worker that count_workers_ counts. -/
def WorkerPc.counted {K : Type*} : WorkerPc K → ℕ
  | .absent | .signal | .gone => 0
  | _ => 1

/-- A worker that has left its loop. -/
def WorkerPc.left {K : Type*} : WorkerPc K → Bool
  | .leave | .signal | .gone => true
  | _ => false

/-- A worker counted by Start whose thread does not exist yet. -/
def OwnerPc.counted : OwnerPc → ℕ
  | .spawn _ => 1
  | _ => 0

/-- Start has created the thread of a worker. -/
def OwnerPc.created (j : ℕ) : OwnerPc → Bool
  | .count i | .spawn i => j < i
  | _ => true

/-- The destructor has begun. -/
def OwnerPc.destroying : OwnerPc → Bool
  | .count _ | .spawn _ | .started => false
  | _ => true

/-- The destructor has joined the thread of a worker. -/
def OwnerPc.joined (j : ℕ) : OwnerPc → Bool
  | .join i => j < i
  | .assertTasks | .assertList | .destroyed | .aborted => true
  | _ => false

/-- The program points account for the counters, and the owner knows how far
the workers can be. -/
structure Accounted [Fintype O] (s : State n O K) : Prop where
  tasks : s.countTasks = s.tasks.length + tally WorkerPc.popped s.worker +
    tally WorkerPc.adding s.worker + tally adding s.outside
  workers : s.countWorkers = tally WorkerPc.counted s.worker + s.owner.counted
  created : ∀ w, s.worker w = .absent ↔ s.owner.created w = false
  shutdown : s.shutdown = s.owner.destroying
  left : ∀ w, (s.worker w).left = true → s.shutdown = true
  joined : ∀ w : Fin n, s.owner.joined w = true → s.worker w = .gone
  asleep : s.owner = .asleep → s.countWorkers = 0 → ∃ w, s.worker w = .signal

section Steps

variable [Fintype O] {s s' : State n O K} {w : Fin n} {o : O} {p p' : WorkerPc K}
  {call call' : Option (SubmitPc K)}

omit [DecidableEq O] in
theorem accounted_initial : Accounted (initial n O K) := by
  have htally : ∀ weight : WorkerPc K → ℕ, weight .absent = 0 →
      tally weight (initial n O K).worker = 0 :=
        fun weight hzero => tally_eq_zero.mpr fun _ => hzero
  have houtside : tally adding (initial n O K).outside = 0 := tally_eq_zero.mpr fun _ => rfl
  constructor
  case tasks =>
    rw [htally _ rfl,htally _ rfl,houtside]
    rfl
  case workers =>
    rw [htally _ rfl]
    rfl
  case shutdown => rfl
  all_goals simp [initial,OwnerPc.created,OwnerPc.joined,WorkerPc.left]

/-- A notification moves the owner within WaitShutdown. -/
theorem OwnerPc.notified_frame (pc : OwnerPc) :
    pc.notified.counted = pc.counted ∧ (∀ j, pc.notified.created j = pc.created j) ∧
      pc.notified.destroying = pc.destroying ∧ (∀ j, pc.notified.joined j = pc.joined j) ∧
      pc.notified ≠ .asleep := by
  cases pc <;> simp [OwnerPc.notified,OwnerPc.counted,OwnerPc.created,OwnerPc.destroying,
    OwnerPc.joined]

omit [DecidableEq O] in
/-- A worker moves on, and the counters with it; only the worker that left last
notifies the owner. -/
theorem Accounted.move (h : Accounted s) (hw : s.worker w = p)
    (hworker : s'.worker = Function.update s.worker w p') (houtside : s'.outside = s.outside)
    (hshutdown : s'.shutdown = s.shutdown)
    (howner : s'.owner = s.owner ∧ p ≠ .signal ∨ s'.owner = s.owner.notified)
    (htasks : s'.countTasks + s.tasks.length + p.popped + p.adding =
      s.countTasks + s'.tasks.length + p'.popped + p'.adding)
    (hworkers : s'.countWorkers + p.counted = s.countWorkers + p'.counted)
    (halive : p ≠ .absent ∧ p ≠ .gone ∧ p' ≠ .absent)
    (hsignal : p' = .signal ∨ s'.countWorkers = s.countWorkers)
    (hleft : p'.left = true → p.left = true ∨ s.shutdown = true) : Accounted s' := by
  obtain ⟨habsent,hgone,habsent'⟩ := halive
  have hpopped := tally_update WorkerPc.popped s.worker w p'
  have hadding := tally_update WorkerPc.adding s.worker w p'
  have hcounted := tally_update WorkerPc.counted s.worker w p'
  rw [hw] at hpopped hadding hcounted
  have htally := h.tasks
  have htallyw := h.workers
  obtain ⟨hcount,hcreated,hdestroying,hjoined⟩ : s'.owner.counted = s.owner.counted ∧
      (∀ j, s'.owner.created j = s.owner.created j) ∧
      s'.owner.destroying = s.owner.destroying ∧ ∀ j, s'.owner.joined j = s.owner.joined j := by
    rcases howner with ⟨howner,-⟩ | howner
    · rw [howner]
      exact ⟨rfl,fun _ => rfl,rfl,fun _ => rfl⟩
    · rw [howner]
      obtain ⟨hcount,hcreated,hdestroying,hjoined,-⟩ := s.owner.notified_frame
      exact ⟨hcount,hcreated,hdestroying,hjoined⟩
  constructor
  case tasks =>
    rw [hworker,houtside]
    omega
  case workers =>
    rw [hworker,hcount]
    omega
  case created =>
    intro v
    rw [hworker,hcreated]
    rcases eq_or_ne v w with rfl | hne
    · rw [Function.update_self,←h.created,hw]
      simp [habsent,habsent']
    · rw [Function.update_of_ne hne]
      exact h.created v
  case shutdown =>
    rw [hshutdown,hdestroying]
    exact h.shutdown
  case left =>
    intro v hv
    rw [hshutdown]
    rw [hworker] at hv
    rcases eq_or_ne v w with rfl | hne
    · rw [Function.update_self] at hv
      rcases hleft hv with hp | hp
      · exact h.left v (by rw [hw]; exact hp)
      · exact hp
    · rw [Function.update_of_ne hne] at hv
      exact h.left v hv
  case joined =>
    intro v hv
    rw [hjoined] at hv
    have hv := h.joined v hv
    have hne : v ≠ w := by
      rintro rfl
      exact hgone (hw.symm.trans hv)
    rw [hworker,Function.update_of_ne hne]
    exact hv
  case asleep =>
    intro hasleep hzero
    rcases hsignal with rfl | hsame
    · exact ⟨w,by rw [hworker,Function.update_self]⟩
    · rcases howner with ⟨howner,hnosignal⟩ | howner
      · obtain ⟨v,hv⟩ := h.asleep (howner ▸ hasleep) (hsame ▸ hzero)
        have hne : v ≠ w := by
          rintro rfl
          exact hnosignal (hw.symm.trans hv)
        exact ⟨v,by rw [hworker,Function.update_of_ne hne,hv]⟩
      · rw [howner] at hasleep
        exact absurd hasleep s.owner.notified_frame.2.2.2.2

omit [DecidableEq O] in
/-- A worker moves on inside of its loop, where it is counted. -/
theorem Accounted.moveLoop (h : Accounted s) (hw : s.worker w = p)
    (hworker : s'.worker = Function.update s.worker w p')
    (hframe : (s'.outside,s'.shutdown,s'.owner,s'.countWorkers) =
      (s.outside,s.shutdown,s.owner,s.countWorkers)) (hcounted : p.counted = 1 ∧ p'.counted = 1)
    (hleft : p'.left = true → s.shutdown = true)
    (htasks : s'.countTasks + s.tasks.length + p.popped + p.adding =
      s.countTasks + s'.tasks.length + p'.popped + p'.adding) : Accounted s' := by
  simp only [Prod.mk.injEq] at hframe
  obtain ⟨houtside,hshutdown,howner,hworkers⟩ := hframe
  have hne : ∀ q : WorkerPc K, q.counted = 1 → q ≠ .absent ∧ q ≠ .gone ∧ q ≠ .signal := by
    intro q hq
    cases q <;> simp_all [WorkerPc.counted]
  obtain ⟨habsent,hgone,hsignal⟩ := hne p hcounted.1
  refine h.move hw hworker houtside hshutdown (Or.inl ⟨howner,hsignal⟩) htasks ?_
    ⟨habsent,hgone,(hne p' hcounted.2).1⟩ (Or.inr hworkers) fun hl => Or.inr (hleft hl)
  rw [hworkers,hcounted.1,hcounted.2]

omit [DecidableEq O] [Fintype O] in
/-- A step of Submit changes the counter and the list by what the call holds. -/
theorem submit_tasks (s : State n O K) (pc : SubmitPc K) :
    (s.submit pc).1.countTasks + s.tasks.length + adding (some pc) =
      s.countTasks + (s.submit pc).1.tasks.length + adding (s.submit pc).2 := by
  cases pc with
  | check task =>
    simp only [State.submit]
    split <;> rfl
  | add task =>
    simp only [State.submit,adding]
    omega
  | push task =>
    simp only [State.submit,adding,List.length_append,List.length_cons,List.length_nil]
    omega

omit [DecidableEq O] [Fintype O] in
/-- Submit moves nobody and sets no other field. -/
theorem submit_frame (s : State n O K) (pc : SubmitPc K) :
    (s.submit pc).1.worker = s.worker ∧ (s.submit pc).1.outside = s.outside ∧
      (s.submit pc).1.shutdown = s.shutdown ∧ (s.submit pc).1.owner = s.owner ∧
      (s.submit pc).1.countWorkers = s.countWorkers ∧ (s.submit pc).1.waiter = s.waiter := by
  cases pc <;> exact ⟨rfl,rfl,rfl,rfl,rfl,rfl⟩

/-- A call from outside moves on. -/
theorem Accounted.moveOutside (h : Accounted s) (ho : s.outside o = call)
    (houtside : s'.outside = Function.update s.outside o call') (hworker : s'.worker = s.worker)
    (hshutdown : s'.shutdown = s.shutdown) (howner : s'.owner = s.owner)
    (hworkers : s'.countWorkers = s.countWorkers)
    (htasks : s'.countTasks + s.tasks.length + adding call =
      s.countTasks + s'.tasks.length + adding call') : Accounted s' := by
  have hadding := tally_update adding s.outside o call'
  rw [ho] at hadding
  have htally := h.tasks
  constructor
  case tasks =>
    rw [hworker,houtside]
    omega
  case workers =>
    rw [hworker,howner,hworkers]
    exact h.workers
  case created =>
    rw [hworker,howner]
    exact h.created
  case shutdown =>
    rw [hshutdown,howner]
    exact h.shutdown
  case left =>
    rw [hworker,hshutdown]
    exact h.left
  case joined =>
    rw [hworker,howner]
    exact h.joined
  case asleep =>
    rw [hworker,howner,hworkers]
    exact h.asleep

/-- Start is over when the destructor runs. -/
theorem OwnerPc.destroying_frame {pc : OwnerPc} (h : pc.destroying = true) :
    pc.counted = 0 ∧ ∀ j, pc.created j = true := by
  cases pc with
  | count i | spawn i | started => cases h
  | waitShutdown | asleep | woken | join i | assertTasks | assertList | destroyed | aborted =>
    exact ⟨rfl,fun _ => rfl⟩

omit [DecidableEq O] in
/-- The owner moves on to a point of the destructor. -/
theorem Accounted.destroy {shutdown : Bool} {pc : OwnerPc} (h : Accounted s)
    (hstart : s.owner.counted = 0 ∧ ∀ j, s.owner.created j = true) (hshutdown : shutdown = true)
    (hpc : pc.destroying = true)
    (hjoined : ∀ w : Fin n, pc.joined w = true → s.worker w = .gone)
    (hasleep : pc = .asleep → s.countWorkers ≠ 0) :
    Accounted { s with shutdown := shutdown, owner := pc } := by
  obtain ⟨hcounted,hcreated⟩ := OwnerPc.destroying_frame hpc
  refine ⟨h.tasks,?_,?_,?_,fun _ _ => hshutdown,hjoined,?_⟩
  · have hworkers := h.workers
    simp only
    omega
  · intro w
    rw [h.created,hstart.2,hcreated]
  · exact hshutdown.trans hpc.symm
  · intro hasleep' hzero
    exact absurd hzero (hasleep hasleep')

omit [DecidableEq O] in
/-- The owner moves on in the destructor. -/
theorem Accounted.moveOwner {pc : OwnerPc} (h : Accounted s) (howner : s.owner.destroying = true)
    (hpc : pc.destroying = true)
    (hjoined : ∀ w : Fin n, pc.joined w = true → s.worker w = .gone)
    (hasleep : pc = .asleep → s.countWorkers ≠ 0) : Accounted { s with owner := pc } :=
  h.destroy (OwnerPc.destroying_frame howner) (h.shutdown.trans howner) hpc hjoined hasleep

omit [DecidableEq O] in
/-- A section of WaitShutdown. -/
theorem Accounted.waitShutdown (h : Accounted s) (howner : s.owner.destroying = true) :
    Accounted { s with owner := if s.countWorkers = 0 then .join 0 else .asleep } := by
  split
  next => exact h.moveOwner howner rfl (by simp [OwnerPc.joined]) (by rintro ⟨⟩)
  next hzero => exact h.moveOwner howner rfl (by rintro _ ⟨⟩) fun _ => hzero

omit [DecidableEq O] in
/-- The thread of WaitIdle does not matter to the counters. -/
theorem Accounted.moveWaiter {pc : WaiterPc} (h : Accounted s) :
    Accounted { s with waiter := pc } :=
  ⟨h.tasks,h.workers,h.created,h.shutdown,h.left,h.joined,h.asleep⟩

omit [DecidableEq O] in
/-- One step of a worker. -/
theorem Accounted.workerStep (h : Accounted s) (hs : s.workerStep w = some s') :
    Accounted s' := by
  have htasks := h.tasks
  have hworkers := h.workers
  have hpopped := le_tally WorkerPc.popped s.worker w
  have hcounted := le_tally WorkerPc.counted s.worker w
  cases hw : s.worker w with
  | absent | gone => simp [State.workerStep,hw] at hs
  | pop =>
    simp only [State.workerStep,hw] at hs
    split at hs <;> cases hs
    next htask => exact h.moveLoop hw rfl rfl ⟨rfl,rfl⟩ (by rintro ⟨⟩) rfl
    next task rest htask =>
      refine h.moveLoop hw rfl rfl ⟨rfl,rfl⟩ (by rintro ⟨⟩) ?_
      simp only [State.goto,htask,List.length_cons,WorkerPc.popped,WorkerPc.adding,adding]
      omega
  | empty =>
    simp only [State.workerStep,hw,Option.some.injEq] at hs
    subst hs
    split
    next hshutdown => exact h.moveLoop hw rfl rfl ⟨rfl,rfl⟩ (fun _ => hshutdown) rfl
    next => exact h.moveLoop hw rfl rfl ⟨rfl,rfl⟩ (by rintro ⟨⟩) rfl
  | run task call =>
    cases call with
    | none =>
      simp only [State.workerStep,hw] at hs
      cases hs
      exact h.moveLoop hw rfl rfl ⟨rfl,rfl⟩ (by rintro ⟨⟩) rfl
    | some pc =>
      simp only [State.workerStep,hw] at hs
      cases hs
      obtain ⟨hworker,houtside,hshutdown,howner,hcount,-⟩ := submit_frame s pc
      have hsubmit := submit_tasks s pc
      have hgoto : ((s.submit pc).1.goto w (.run task (s.submit pc).2)).worker =
          Function.update s.worker w (.run task (s.submit pc).2) := by
        rw [State.goto,hworker]
      refine h.moveLoop hw hgoto ?_ ⟨rfl,rfl⟩ (by rintro ⟨⟩) ?_
      · simp only [State.goto,houtside,hshutdown,howner,hcount]
      · simp only [State.goto,WorkerPc.popped,WorkerPc.adding]
        omega
  | remove =>
    simp only [State.workerStep,hw] at hs
    cases hs
    -- the task of this worker is counted, so the counter is not zero
    rw [hw] at hpopped
    refine h.moveLoop hw rfl rfl ⟨rfl,rfl⟩ (by rintro ⟨⟩) ?_
    simp only [State.goto,WorkerPc.popped,WorkerPc.adding] at hpopped ⊢
    omega
  | notify =>
    simp only [State.workerStep,hw] at hs
    cases hs
    exact h.moveWaiter.moveLoop hw rfl rfl ⟨rfl,rfl⟩ (by rintro ⟨⟩) rfl
  | leave =>
    simp only [State.workerStep,hw] at hs
    cases hs
    rw [hw] at hcounted
    refine h.move hw rfl rfl rfl (Or.inl ⟨rfl,by simp⟩) rfl ?_ (by simp) (Or.inl rfl)
      fun _ => Or.inl rfl
    simp only [State.goto,WorkerPc.counted] at hcounted ⊢
    omega
  | signal =>
    simp only [State.workerStep,hw] at hs
    cases hs
    exact h.move hw rfl rfl rfl (Or.inr rfl) rfl rfl (by simp) (Or.inr rfl) fun _ => Or.inl rfl

omit [DecidableEq O] in
/-- One step of the owner. -/
theorem Accounted.ownerStep (h : Accounted s) (hs : s.ownerStep = some s') : Accounted s' := by
  have hworkers := h.workers
  have hcreated := h.created
  have hdestroying := h.shutdown
  cases howner : s.owner with
  | asleep | destroyed | aborted => simp [State.ownerStep,howner] at hs
  | count i =>
    simp only [howner,OwnerPc.counted,OwnerPc.created,OwnerPc.destroying]
      at hworkers hcreated hdestroying
    simp only [State.ownerStep,howner] at hs
    split at hs <;> cases hs
    next hi =>
      constructor
      case tasks => exact h.tasks
      case workers =>
        simp only [OwnerPc.counted]
        omega
      case created => exact hcreated
      case shutdown => exact hdestroying
      case left => exact h.left
      all_goals simp [OwnerPc.joined]
    next hi =>
      constructor
      case tasks => exact h.tasks
      case workers => exact hworkers
      case created =>
        intro w
        have hlt := w.isLt
        rw [hcreated]
        simp only [OwnerPc.created,decide_eq_false_iff_not,Bool.true_eq_false,iff_false,not_not]
        omega
      case shutdown => exact hdestroying
      case left => exact h.left
      all_goals simp [OwnerPc.joined]
  | spawn i =>
    simp only [howner,OwnerPc.counted,OwnerPc.created,OwnerPc.destroying]
      at hworkers hcreated hdestroying
    simp only [State.ownerStep,howner] at hs
    split at hs <;> cases hs
    next hi =>
      have habsent : s.worker ⟨i,hi⟩ = .absent := by
        rw [hcreated]
        simp
      have hpopped := tally_update WorkerPc.popped s.worker ⟨i,hi⟩ .pop
      have hadding := tally_update WorkerPc.adding s.worker ⟨i,hi⟩ .pop
      have hcounted := tally_update WorkerPc.counted s.worker ⟨i,hi⟩ .pop
      have htasks := h.tasks
      rw [habsent] at hpopped hadding hcounted
      simp only [WorkerPc.popped,WorkerPc.adding,WorkerPc.counted] at hpopped hadding hcounted
      constructor
      case tasks =>
        simp only [State.goto]
        omega
      case workers =>
        simp only [State.goto,OwnerPc.counted]
        omega
      case created =>
        intro w
        simp only [State.goto,OwnerPc.created,Function.update_apply,decide_eq_false_iff_not]
        split
        next hwi =>
          subst hwi
          simp
        next hwi =>
          have hne : (w : ℕ) ≠ i := fun he => hwi (Fin.ext he)
          rw [hcreated]
          simp only [decide_eq_false_iff_not]
          omega
      case shutdown => exact hdestroying
      case left =>
        intro w
        simp only [State.goto,Function.update_apply]
        split
        · rintro ⟨⟩
        · exact h.left w
      all_goals simp [OwnerPc.joined]
  | started =>
    simp only [State.ownerStep,howner] at hs
    cases hs
    have hstart : s.owner.counted = 0 ∧ ∀ j, s.owner.created j = true := by
      rw [howner]
      exact ⟨rfl,fun _ => rfl⟩
    exact h.destroy hstart rfl rfl (by simp [OwnerPc.joined]) (by simp)
  | waitShutdown | woken =>
    simp only [State.ownerStep,howner] at hs
    cases hs
    exact h.waitShutdown (by rw [howner]; rfl)
  | join i =>
    simp only [State.ownerStep,howner] at hs
    have hjoined : ∀ w : Fin n, (w : ℕ) < i → s.worker w = .gone := by
      intro w hw
      refine h.joined w ?_
      rw [howner]
      exact decide_eq_true hw
    split at hs
    next hi =>
      split at hs <;> cases hs
      next hgone =>
        refine h.moveOwner (by rw [howner]; rfl) rfl ?_ (by simp)
        intro w hw
        rcases Nat.lt_succ_iff_lt_or_eq.mp (of_decide_eq_true hw) with hlt | heq
        · exact hjoined w hlt
        · exact (congrArg s.worker (Fin.ext heq)).trans hgone
    next hi =>
      cases hs
      refine h.moveOwner (by rw [howner]; rfl) rfl ?_ (by simp)
      intro w _
      exact hjoined w (by omega)
  | assertTasks | assertList =>
    simp only [State.ownerStep,howner] at hs
    cases hs
    have hjoined : ∀ w : Fin n, s.worker w = .gone := fun w => h.joined w (by rw [howner]; rfl)
    split <;> exact h.moveOwner (by rw [howner]; rfl) rfl (fun w _ => hjoined w) (by simp)

/-- Each step of the pool. -/
theorem Accounted.step {a : Action n O K} (h : Accounted s) (hs : step s a = some s') :
    Accounted s' := by
  cases a with
  | worker w => exact h.workerStep hs
  | callFrom w task =>
    simp only [IntrusivePool.step] at hs
    split at hs <;> cases hs
    next hw =>
      exact h.moveLoop hw rfl rfl ⟨rfl,rfl⟩ (by rintro ⟨⟩) rfl
  | call o task =>
    simp only [IntrusivePool.step] at hs
    split at hs <;> cases hs
    next ho => exact h.moveOutside ho rfl rfl rfl rfl rfl rfl
  | outside o =>
    simp only [IntrusivePool.step] at hs
    split at hs <;> cases hs
    next pc ho =>
      obtain ⟨hworker,houtside,hshutdown,howner,hcount,-⟩ := submit_frame s pc
      refine h.moveOutside ho ?_ hworker hshutdown howner hcount (submit_tasks s pc)
      rw [State.gotoOutside,houtside]
  | owner => exact h.ownerStep hs
  | wake =>
    simp only [IntrusivePool.step] at hs
    split at hs <;> cases hs
    next howner => exact h.moveOwner (by rw [howner]; rfl) rfl (by rintro _ ⟨⟩) (by rintro ⟨⟩)
  | waiter =>
    simp only [IntrusivePool.step,State.waiterStep] at hs
    split at hs <;> cases hs <;> exact h.moveWaiter

/-- The program points account for the counters in every run. -/
theorem accounted_reachable (hr : (system n O K).Reachable s) : Accounted s := by
  refine System.Reachable.invariant accounted_initial ?_ hr
  exact fun s a s' hi hs => hi.step hs

end Steps

end ConcurrencyRuntime.IntrusivePool
