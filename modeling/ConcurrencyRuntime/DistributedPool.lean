import ConcurrencyRuntime.TransitionSystem

/-!
# The distributed pool

Each worker has a queue of its own and takes tasks from the global queue onto
it. Submit counts a task at its first call and sends it to the worker that ran
it before, if there is one. The loop of a worker runs as a coroutine that is
suspended when there is nothing to do. The queues are atomic FIFO queues; one
step is one access to a queue, an atomic, a field of a task or a semaphore. A
parked fiber is scheduled at most once: the call takes it from the parked ones.
Tasks are constructed once, and their names are not used again.
-/

namespace ConcurrencyRuntime.DistributedPool

open TransitionSystem

/-- The state of a task. -/
inductive StateTask where
  | planned
  | running
  | finished
  deriving DecidableEq

/-- History: how far a task has come. -/
inductive Life where
  /-- Not constructed yet. -/
  | absent
  /-- Constructed, before AddTask of its first Submit. -/
  | created
  /-- AddTask was executed for it. -/
  | added
  /-- Its routine has returned. -/
  | completed
  /-- RemoveTask was executed for it. -/
  | removed
  deriving DecidableEq

/-- Program points of Submit and of Worker::Push. -/
inductive SubmitPc (n : ℕ) (K : Type*) where
  /-- GetState of the task. -/
  | state (task : K)
  /-- AddTask. -/
  | add (task : K)
  /-- ProgressState of the task. -/
  | progress (task : K)
  /-- GetWorker of the task. -/
  | route (task : K)
  /-- The push to the global queue. -/
  | global (task : K)
  /-- Push: the push to the queue of the worker. -/
  | enqueue (w : Fin n) (task : K)
  /-- Push: the store to counter_empty_tasks. -/
  | reset (w : Fin n)
  /-- Push: WakeUpSuspendedWorker. -/
  | wakeUp (w : Fin n)
  /-- Push: the release of the semaphore. -/
  | release (w : Fin n)
  deriving DecidableEq

/-- How far Run of a task has come. -/
inductive Stage where
  /-- In the routine, or in AwaitSuspend before it has enqueued or parked the fiber. -/
  | executing
  /-- In AwaitSuspend after that. -/
  | handedOver
  deriving DecidableEq

/-- Program points of a worker. -/
inductive WorkerPc (n : ℕ) (K : Type*) where
  /-- The thread does not exist yet. -/
  | absent
  /-- Loop: Resume of the coroutine, constructed before where there is none. -/
  | resume
  /-- Loop: the load of shutdown_ in CanCloseWorker. -/
  | loopShutdown
  /-- Loop: the load of count_tasks there. -/
  | loopCount
  /-- Loop: the load of the shutdown flag of the worker. -/
  | loopFlag
  /-- Loop: try_acquire_for. -/
  | sleep
  /-- The thread is over. -/
  | gone
  /-- Process: TryPop of the own queue. -/
  | popLocal
  /-- Process: SetWorker of the task. -/
  | setWorker (task : K)
  /-- Process: the call of Run. -/
  | enter (task : K)
  /-- In Run of the task. -/
  | running (task : K) (stage : Stage)
  /-- In a Submit that is called in Run of the task. -/
  | submitting (task : K) (stage : Stage) (call : SubmitPc n K)
  /-- In Run of a fiber that has completed: ProgressState and delete. -/
  | completing (task : K)
  /-- Process: RemoveTask for the task. -/
  | remove (task : K)
  /-- Process: TryPop of the global queue. -/
  | popGlobal
  /-- Process: in Push of the task from the global queue. -/
  | push (call : SubmitPc n K)
  /-- Process: the load of shutdown_ in CanCloseWorker. -/
  | processShutdown
  /-- Process: the load of count_tasks there. -/
  | processCount
  /-- Process: the fetch_sub of counter_empty_tasks. -/
  | emptySub
  /-- Process: its load. -/
  | emptyLoad
  /-- Process: the load of the shutdown flag of the worker. -/
  | processFlag
  /-- Process: AddSuspendedWorker. -/
  | addSuspended
  /-- Process: Suspend of the coroutine. -/
  | suspend
  /-- Process: NotifyAll. -/
  | notifyAll
  deriving DecidableEq

/-- The coroutine of a worker. -/
inductive Coro where
  /-- Not constructed. -/
  | none
  /-- Process has not returned. -/
  | active
  /-- Process has returned. -/
  | completed
  deriving DecidableEq

/-- Program points of the thread that owns the pool. -/
inductive OwnerPc where
  /-- Before Start. -/
  | fresh
  /-- Start: the next worker. -/
  | start (i : ℕ)
  /-- Start has returned. -/
  | started
  /-- WaitShutdown: WakUpForShutdown of the next worker. -/
  | wake (i : ℕ)
  /-- WaitShutdown: its Join. -/
  | join (i : ℕ)
  /-- WaitShutdown has returned. -/
  | closed
  /-- The destructor of the next worker: the store to its shutdown flag. -/
  | flag (i : ℕ)
  /-- The destructor of a worker: the release of its semaphore. -/
  | release (i : ℕ)
  /-- The destructor of a worker: Join. -/
  | joinAgain (i : ℕ)
  /-- The destructor of a worker: the assert on the number of tasks. -/
  | assertTasks (i : ℕ)
  /-- All workers are destroyed. -/
  | destroyed
  /-- The assert has failed. -/
  | aborted
  deriving DecidableEq

/-- Program points of a call of WaitIdle. -/
inductive WaiterPc where
  /-- Not called yet. -/
  | outside
  /-- Before the lock of the mutex. -/
  | lock
  /-- Under the mutex, before the load of count_tasks. -/
  | load
  /-- Under the mutex, has read a number other than zero. -/
  | wait
  /-- Asleep on empty_tasks_. -/
  | asleep
  /-- Under the mutex, has read zero. -/
  | unlock
  /-- The call has returned. -/
  | returned
  deriving DecidableEq

/-- The pool, its tasks and its threads. -/
structure Pool (n : ℕ) (K O Q : Type*) where
  /-- The count_tasks counter. -/
  countTasks : ℕ
  /-- The shutdown_ flag. -/
  shutdown : Bool
  /-- The suspended_workers counter. -/
  suspendedWorkers : UInt64
  /-- The global queue, oldest first. -/
  globalTasks : List K
  /-- The queue of each worker, oldest first. -/
  localTasks : Fin n → List K
  /-- The counter_empty_tasks counter of each worker. -/
  counterEmptyTasks : Fin n → UInt64
  /-- The semaphore of each worker. -/
  smph : Fin n → ℕ
  /-- The shutdown flag of each worker. -/
  workerShutdown : Fin n → Bool
  /-- The coroutine of each worker. -/
  coro : Fin n → Coro
  /-- The threads of the workers. -/
  worker : Fin n → WorkerPc n K
  /-- The state field of each task. -/
  state : K → StateTask
  /-- The worker field of each task. -/
  taskWorker : K → Option (Fin n)
  /-- The fibers that are parked. -/
  parked : List K
  /-- The calls of Submit from outside of the pool. -/
  outside : O → Option (SubmitPc n K)
  /-- The thread that owns the pool. -/
  owner : OwnerPc
  /-- The holder of the mutex of WaitIdle. -/
  holder : Option Q
  /-- The calls of WaitIdle. -/
  waiter : Q → WaiterPc
  /-- History: how far each task has come. -/
  life : K → Life
  /-- History: the workers that entered Run of the task, in order. -/
  runs : K → List (Fin n)
  /-- History: the task in whose Run the task was constructed. -/
  spawnedBy : K → Option K
  /-- ProgressState has thrown. -/
  thrown : Bool
  /-- A coroutine was resumed after Process had returned. -/
  resumedAfterExit : Bool

/-- What Run of a task can do. -/
inductive Op (K : Type*) where
  /-- Construct a task and submit it. -/
  | go (task : K)
  /-- Schedule a parked fiber. -/
  | wake (task : K)
  /-- AwaitSuspend submits the fiber itself. -/
  | yield
  /-- AwaitSuspend parks the fiber. -/
  | park
  /-- The routine returns. -/
  | finish
  /-- Run returns after AwaitSuspend. -/
  | leave

/-- Scheduler choices. -/
inductive Action (n : ℕ) (K O Q : Type*) where
  /-- The next step of a worker. -/
  | worker (w : Fin n)
  /-- The task that runs on a worker performs an operation. -/
  | op (w : Fin n) (op : Op K)
  /-- The try_acquire_for of a worker times out. -/
  | timeout (w : Fin n)
  /-- A thread outside of the pool constructs a task and submits it. -/
  | go (o : O) (task : K)
  /-- A thread outside of the pool schedules a parked fiber. -/
  | wake (o : O) (task : K)
  /-- The next step of that call. -/
  | outside (o : O)
  /-- Start. -/
  | start
  /-- WaitShutdown, with its StartShutdown. -/
  | waitShutdown
  /-- The destructors of the workers, after WaitShutdown. -/
  | destroy
  /-- The next step of the owner in one of these. -/
  | owner
  /-- The next step of a call of WaitIdle. -/
  | waiter (q : Q)
  /-- A call of WaitIdle wakes up without a notification. -/
  | spurious (q : Q)

variable {n : ℕ} {K O Q : Type*} [DecidableEq K] [DecidableEq O] [DecidableEq Q]

/-- Move a worker. -/
def Pool.goto (s : Pool n K O Q) (w : Fin n) (pc : WorkerPc n K) : Pool n K O Q :=
  { s with worker := Function.update s.worker w pc }

/-- Move a call from outside. -/
def Pool.gotoOutside (s : Pool n K O Q) (o : O) (call : Option (SubmitPc n K)) : Pool n K O Q :=
  { s with outside := Function.update s.outside o call }

/-- Move a call of WaitIdle. -/
def Pool.gotoWaiter (s : Pool n K O Q) (q : Q) (pc : WaiterPc) : Pool n K O Q :=
  { s with waiter := Function.update s.waiter q pc }

/-- Change how far a task has come. -/
def Pool.setLife (s : Pool n K O Q) (task : K) (life : Life) : Pool n K O Q :=
  { s with life := Function.update s.life task life }

/-- ProgressState of a task. -/
def Pool.progressState (s : Pool n K O Q) (task : K) : Pool n K O Q :=
  match s.state task with
  | .planned => { s with state := Function.update s.state task .running }
  | .running => { s with state := Function.update s.state task .finished }
  | .finished => { s with thrown := true }

/-- SetWorker of a task. -/
def Pool.setWorker (s : Pool n K O Q) (task : K) (w : Fin n) : Pool n K O Q :=
  match s.taskWorker task with
  | none => { s with taskWorker := Function.update s.taskWorker task (some w) }
  | some _ => s

/-- One step of Submit, and where the call goes. -/
def Pool.submit (s : Pool n K O Q) : SubmitPc n K → Pool n K O Q × Option (SubmitPc n K)
  | .state task =>
    match s.state task with
    | .planned => (s,some (.add task))
    | _ => (s,some (.route task))
  | .add task =>
    ({ s with countTasks := s.countTasks + 1 }.setLife task .added,some (.progress task))
  | .progress task => (s.progressState task,some (.route task))
  | .route task =>
    match s.taskWorker task with
    | some w => (s,some (.enqueue w task))
    | none => (s,some (.global task))
  | .global task => ({ s with globalTasks := s.globalTasks ++ [task] },none)
  | .enqueue w task =>
    ({ s with localTasks := Function.update s.localTasks w (s.localTasks w ++ [task]) },
      some (.reset w))
  | .reset w =>
    ({ s with counterEmptyTasks := Function.update s.counterEmptyTasks w 0 },some (.wakeUp w))
  | .wakeUp w => ({ s with suspendedWorkers := s.suspendedWorkers - 1 },some (.release w))
  | .release w => ({ s with smph := Function.update s.smph w (s.smph w + 1) },none)

/-- The constructor of a task. -/
def Pool.construct (s : Pool n K O Q) (task : K) (parent : Option K) : Pool n K O Q :=
  { s.setLife task .created with
    state := Function.update s.state task .planned
    taskWorker := Function.update s.taskWorker task none
    spawnedBy := Function.update s.spawnedBy task parent }

/-- An operation in Run of a task. Only fibers suspend. -/
def Pool.perform (fiber : K → Bool) (s : Pool n K O Q) (w : Fin n) (task : K) :
    Stage → Op K → Option (Pool n K O Q)
  | stage,.go child =>
    match s.life child with
    | .absent =>
      some ((s.construct child (some task)).goto w (.submitting task stage (.state child)))
    | _ => none
  | stage,.wake other =>
    if other ∈ s.parked then
      some ({ s with parked := s.parked.erase other }.goto w (.submitting task stage (.state other)))
    else none
  | .executing,.yield =>
    if fiber task then some (s.goto w (.submitting task .handedOver (.state task))) else none
  | .executing,.park =>
    if fiber task then
      some ({ s with parked := s.parked ++ [task] }.goto w (.running task .handedOver))
    else none
  | .executing,.finish =>
    some ((s.setLife task .completed).goto w
      (if fiber task then .completing task else .remove task))
  | .handedOver,.leave => some (s.goto w .notifyAll)
  | _,_ => none

/-- Run of a task goes on in Submit, or Submit has returned. -/
def WorkerPc.afterSubmit {n : ℕ} {K : Type*} (task : K) (stage : Stage) :
    Option (SubmitPc n K) → WorkerPc n K
  | some call => .submitting task stage call
  | none => .running task stage

/-- Process goes on in Push, or Push has returned. -/
def WorkerPc.afterPush {n : ℕ} {K : Type*} : Option (SubmitPc n K) → WorkerPc n K
  | some call => .push call
  | none => .notifyAll

/-- What NotifyAll does to a call of WaitIdle. -/
def WaiterPc.notified : WaiterPc → WaiterPc
  | .asleep => .lock
  | pc => pc

/-- The next step of a worker that is not in a routine. -/
def Pool.workerStep (s : Pool n K O Q) (w : Fin n) : Option (Pool n K O Q) :=
  match s.worker w with
  | .absent => none
  | .resume =>
    match s.coro w with
    | .none => some ({ s with coro := Function.update s.coro w .active }.goto w .popLocal)
    | .active => some (s.goto w .notifyAll)
    | .completed => some { s with resumedAfterExit := true }
  | .loopShutdown => some (s.goto w (if s.shutdown then .loopCount else .loopFlag))
  | .loopCount => some (s.goto w (if s.countTasks = 0 then .gone else .loopFlag))
  | .loopFlag => some (s.goto w (if s.workerShutdown w then .resume else .sleep))
  | .sleep =>
    if 0 < s.smph w then
      some ({ s with smph := Function.update s.smph w (s.smph w - 1) }.goto w .resume)
    else none
  | .gone => none
  | .popLocal =>
    match s.localTasks w with
    | [] => some (s.goto w .popGlobal)
    | task :: rest =>
      some ({ s with localTasks := Function.update s.localTasks w rest }.goto w (.setWorker task))
  | .setWorker task => some ((s.setWorker task w).goto w (.enter task))
  | .enter task =>
    some ({ s with runs := Function.update s.runs task (s.runs task ++ [w]) }.goto w
      (.running task .executing))
  | .running _ _ => none
  | .submitting task stage call =>
    some ((s.submit call).1.goto w (.afterSubmit task stage (s.submit call).2))
  | .completing task => some ((s.progressState task).goto w (.remove task))
  | .remove task =>
    some (({ s with countTasks := s.countTasks - 1 }.setLife task .removed).goto w .notifyAll)
  | .popGlobal =>
    match s.globalTasks with
    | [] => some (s.goto w .processShutdown)
    | task :: rest => some ({ s with globalTasks := rest }.goto w (.push (.enqueue w task)))
  | .push call => some ((s.submit call).1.goto w (.afterPush (s.submit call).2))
  | .processShutdown => some (s.goto w (if s.shutdown then .processCount else .emptySub))
  | .processCount =>
    if s.countTasks = 0 then
      some ({ s with coro := Function.update s.coro w .completed }.goto w .loopShutdown)
    else some (s.goto w .emptySub)
  | .emptySub =>
    some ({ s with counterEmptyTasks :=
        Function.update s.counterEmptyTasks w (s.counterEmptyTasks w - 1) }.goto w .emptyLoad)
  | .emptyLoad => some (s.goto w (if 1 ≤ s.counterEmptyTasks w then .processFlag else .notifyAll))
  | .processFlag => some (s.goto w (if s.workerShutdown w then .notifyAll else .addSuspended))
  | .addSuspended => some ({ s with suspendedWorkers := s.suspendedWorkers + 1 }.goto w .suspend)
  | .suspend => some (s.goto w .loopShutdown)
  | .notifyAll => some ({ s with waiter := fun q => (s.waiter q).notified }.goto w .popLocal)

/-- Join of a worker returns: its thread is over, or was never created. -/
def WorkerPc.joinable {n : ℕ} {K : Type*} : WorkerPc n K → Bool
  | .absent | .gone => true
  | _ => false

/-- The next step of the owner. -/
def Pool.ownerStep (s : Pool n K O Q) : Option (Pool n K O Q) :=
  match s.owner with
  | .start i =>
    if h : i < n then some { s.goto ⟨i,h⟩ .resume with owner := .start (i + 1) }
    else some { s with owner := .started }
  | .wake i =>
    if h : i < n then
      some { s with smph := Function.update s.smph ⟨i,h⟩ (s.smph ⟨i,h⟩ + 1), owner := .join i }
    else some { s with owner := .closed }
  | .join i =>
    if h : i < n then
      if (s.worker ⟨i,h⟩).joinable then some { s with owner := .wake (i + 1) } else none
    else none
  | .flag i =>
    if h : i < n then
      some { s with
        workerShutdown := Function.update s.workerShutdown ⟨i,h⟩ true
        owner := .release i }
    else some { s with owner := .destroyed }
  | .release i =>
    if h : i < n then
      some { s with smph := Function.update s.smph ⟨i,h⟩ (s.smph ⟨i,h⟩ + 1), owner := .joinAgain i }
    else none
  | .joinAgain i =>
    if h : i < n then
      if (s.worker ⟨i,h⟩).joinable then some { s with owner := .assertTasks i } else none
    else none
  | .assertTasks i =>
    some { s with owner := if s.countTasks = 0 then .flag (i + 1) else .aborted }
  | .fresh | .started | .closed | .destroyed | .aborted => none

/-- The next step of a call of WaitIdle. -/
def Pool.waiterStep (s : Pool n K O Q) (q : Q) : Option (Pool n K O Q) :=
  match s.waiter q with
  | .outside => some (s.gotoWaiter q .lock)
  | .lock =>
    match s.holder with
    | none => some ({ s with holder := some q }.gotoWaiter q .load)
    | some _ => none
  | .load => some (s.gotoWaiter q (if s.countTasks = 0 then .unlock else .wait))
  | .wait => some ({ s with holder := none }.gotoWaiter q .asleep)
  | .asleep => none
  | .unlock => some ({ s with holder := none }.gotoWaiter q .returned)
  | .returned => none

/-- One scheduled step. -/
def step (fiber : K → Bool) (s : Pool n K O Q) : Action n K O Q → Option (Pool n K O Q)
  | .worker w => s.workerStep w
  | .op w op =>
    match s.worker w with
    | .running task stage => s.perform fiber w task stage op
    | _ => none
  | .timeout w =>
    match s.worker w with
    | .sleep => some (s.goto w .resume)
    | _ => none
  | .go o task =>
    match s.outside o,s.life task with
    | none,.absent => some ((s.construct task none).gotoOutside o (some (.state task)))
    | _,_ => none
  | .wake o task =>
    match s.outside o with
    | none =>
      if task ∈ s.parked then
        some ({ s with parked := s.parked.erase task }.gotoOutside o (some (.state task)))
      else none
    | some _ => none
  | .outside o =>
    match s.outside o with
    | some call => some ((s.submit call).1.gotoOutside o (s.submit call).2)
    | none => none
  | .start =>
    match s.owner with
    | .fresh => some { s with owner := .start 0 }
    | _ => none
  | .waitShutdown =>
    match s.owner with
    | .fresh | .started | .closed => some { s with shutdown := true, owner := .wake 0 }
    | _ => none
  | .destroy =>
    match s.owner with
    | .closed => some { s with owner := .flag 0 }
    | _ => none
  | .owner => s.ownerStep
  | .waiter q => s.waiterStep q
  | .spurious q =>
    match s.waiter q with
    | .asleep => some (s.gotoWaiter q .lock)
    | _ => none

/-- A new pool, before Start. -/
def initial (n : ℕ) (K O Q : Type*) : Pool n K O Q where
  countTasks := 0
  shutdown := false
  suspendedWorkers := 0
  globalTasks := []
  localTasks _ := []
  counterEmptyTasks _ := 0
  smph _ := 0
  workerShutdown _ := false
  coro _ := .none
  worker _ := .absent
  state _ := .planned
  taskWorker _ := none
  parked := []
  outside _ := none
  owner := .fresh
  holder := none
  waiter _ := .outside
  life _ := .absent
  runs _ := []
  spawnedBy _ := none
  thrown := false
  resumedAfterExit := false

/-- The pool as a transition system; fiber tells the fibers from the free functions. -/
def system (n : ℕ) (K O Q : Type*) [DecidableEq K] [DecidableEq O] [DecidableEq Q]
    (fiber : K → Bool) : System (Pool n K O Q) (Action n K O Q) :=
  ⟨initial n K O Q,step fiber⟩

end ConcurrencyRuntime.DistributedPool
