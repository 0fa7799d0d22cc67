import ConcurrencyRuntime.ExclusivePlaces
import ConcurrencyRuntime.IntrusiveList
import ConcurrencyRuntime.IntrusivePool

/-!
# Fibers on the intrusive thread pool

Fibers yield, spawn fibers and use any number of mutexes, wait groups and
events, and are run by the workers of one pool that may be shut down at any
time. A section under a lock is one step, for the spinlocks of the mutexes and
wait groups as in the runs of pool_of_guards; the section of an operation that
suspends ends after Park in AwaitSuspend. Fire holds the lock of its event
while it schedules one waiter after another, so it is a loop of steps. The task
list and the lists of waiters are the linked structures of the source: a fiber
is a node of the task list, its waiter a node of the lists of waiters. Addresses
of deleted fibers may be used again. The counter of tasks is not repeated here.
-/

namespace ConcurrencyRuntime.PoolFibers

open TransitionSystem IntrusiveList IntrusivePool

/-- The objects with a list of waiters. -/
inductive Object (κ γ ε : Type*) where
  /-- An AsyncMutex. -/
  | mutex (m : κ)
  /-- A WaitGroup. -/
  | group (g : γ)
  /-- An Event. -/
  | event (e : ε)
  deriving DecidableEq

/-- The state of the fiber at an address and of its coroutine. -/
inductive Coro where
  /-- There is no fiber: it was not constructed, or is deleted. -/
  | absent
  /-- Not started, or suspended. -/
  | stopped
  /-- Running. -/
  | running
  /-- The routine has returned. -/
  | completed
  deriving DecidableEq

/-- What follows when a call of Submit returns. -/
inductive After (ι ε : Type*) where
  /-- The routine of the running fiber goes on. -/
  | body
  /-- Done goes on with the next waiter. -/
  | walk (next : Option ι)
  /-- Fire goes on with its loop. -/
  | fire (e : ε)
  /-- AwaitSuspend of a yield returns, and Run with it. -/
  | returned
  deriving DecidableEq

/-- Program points of a worker. -/
inductive WorkerPc (ι ε : Type*) where
  /-- The section that pops a task. -/
  | pop
  /-- Pop has returned null, before the load of shutdown_. -/
  | empty
  /-- In Run of a fiber, before the Resume in Switch. -/
  | resume (f : ι)
  /-- In the routine of a fiber. -/
  | body (f : ι)
  /-- In Done of a fiber, before it reads Next of a waiter. -/
  | walk (f w : ι)
  /-- Before Schedule of a waiter, called by the fiber. -/
  | schedule (f w : ι) (after : After ι ε)
  /-- In Submit, called by the fiber or for it. -/
  | submit (f : ι) (call : SubmitPc ι) (after : After ι ε)
  /-- In the loop of Fire of a fiber. -/
  | fire (f : ι) (e : ε)
  /-- In Run of a fiber whose coroutine has completed, before its delete. -/
  | completed (f : ι)
  /-- Out of the loop. -/
  | left
  deriving DecidableEq

/-- The pool, the fibers and the objects. -/
structure Runtime (ω ι κ γ ε O : Type*) where
  /-- The shutdown_ flag. -/
  shutdown : Bool
  /-- The header of the task list. -/
  tasks : Header ι
  /-- The next field of each fiber as a task. -/
  next : ι → Option ι
  /-- The locked_ flag of each mutex. -/
  locked : κ → Bool
  /-- The counter of each wait group, a 64-bit word. -/
  counter : γ → ℕ
  /-- Whether a Fire holds the lock of the event. -/
  firing : ε → Bool
  /-- The header of the list of waiters of each object. -/
  waiters : Object κ γ ε → Header ι
  /-- The next field of the waiter on the stack of each fiber. -/
  link : ι → Option ι
  /-- The stopped handle of that waiter. -/
  handle : ι → Option ι
  /-- The state of each fiber. -/
  coro : ι → Coro
  /-- The workers. -/
  worker : ω → WorkerPc ι ε
  /-- The calls of Go from outside of the pool, in Submit. -/
  outside : O → Option (SubmitPc ι)
  /-- History: the first Submit of the fiber was accepted. -/
  accepted : ι → Bool
  /-- History: the waiters that the Done on a worker has yet to visit. -/
  detached : ω → List ι
  /-- A validity assert has failed, null was dereferenced, or a coroutine was
  resumed that was not stopped. -/
  fault : Bool

/-- What a fiber can do in its routine. -/
inductive Op (ι κ γ ε : Type*) where
  /-- Yield. -/
  | yield
  /-- Go, with the address of the new fiber. -/
  | go (g : ι)
  /-- Lock of a mutex. -/
  | lock (m : κ)
  /-- Unlock of a mutex. -/
  | unlock (m : κ)
  /-- Add of a wait group. -/
  | add (g : γ) (amount : ℕ)
  /-- Done of a wait group. -/
  | done (g : γ)
  /-- Wait of a wait group. -/
  | wait (g : γ)
  /-- Wait of an event. -/
  | await (e : ε)
  /-- Fire of an event. -/
  | fire (e : ε)
  /-- The routine returns. -/
  | finish

/-- Scheduler choices. -/
inductive Action (ω ι κ γ ε O : Type*) where
  /-- The next step of a worker that is not in a routine. -/
  | worker (v : ω)
  /-- The routine on a worker performs an operation. -/
  | op (v : ω) (op : Op ι κ γ ε)
  /-- A thread outside of the pool calls Go. -/
  | go (o : O) (f : ι)
  /-- The next step of that call. -/
  | outside (o : O)
  /-- The destructor of the pool runs StartShutdown. -/
  | startShutdown

variable {ω ι κ γ ε O : Type*} [DecidableEq ω] [DecidableEq ι] [DecidableEq κ] [DecidableEq γ]
  [DecidableEq ε] [DecidableEq O]

/-- Move a worker. -/
def Runtime.goto (s : Runtime ω ι κ γ ε O) (v : ω) (pc : WorkerPc ι ε) : Runtime ω ι κ γ ε O :=
  { s with worker := Function.update s.worker v pc }

/-- Change the state of a fiber. -/
def Runtime.setCoro (s : Runtime ω ι κ γ ε O) (f : ι) (c : Coro) : Runtime ω ι κ γ ε O :=
  { s with coro := Function.update s.coro f c }

/-- Write the header of a list of waiters. -/
def Runtime.setWaiters (s : Runtime ω ι κ γ ε O) (o : Object κ γ ε) (l : Header ι) :
    Runtime ω ι κ γ ε O :=
  { s with waiters := Function.update s.waiters o l }

/-- The constructor of a fiber. -/
def Runtime.construct (s : Runtime ω ι κ γ ε O) (f : ι) : Runtime ω ι κ γ ε O :=
  { s with
    coro := Function.update s.coro f .stopped
    next := Function.update s.next f none
    accepted := Function.update s.accepted f false }

/-- A fiber suspends in a section: its waiter is constructed and takes the
handle of the fiber, and Park pushes it. -/
def Runtime.park (s : Runtime ω ι κ γ ε O) (f : ι) (o : Object κ γ ε) : Runtime ω ι κ γ ε O :=
  { s with
    coro := Function.update s.coro f .stopped
    handle := Function.update s.handle f (some f)
    link := (s.waiters o).pushLinks (Function.update s.link f none) f
    waiters := Function.update s.waiters o ((s.waiters o).push f) }

/-- One step of Submit, and where the call goes. -/
def Runtime.submit (s : Runtime ω ι κ γ ε O) :
    SubmitPc ι → Runtime ω ι κ γ ε O × Option (SubmitPc ι)
  | .check f =>
    if s.shutdown then (s,none)
    else ({ s with accepted := Function.update s.accepted f true },some (.add f))
  | .add f => (s,some (.push f))
  | .push f =>
    ({ s with tasks := s.tasks.push f, next := s.tasks.pushLinks s.next f },none)

/-- Where the worker goes when Submit returns. -/
@[grind =]
def After.resume {ι ε : Type*} (f : ι) : After ι ε → WorkerPc ι ε
  | .body | .walk none => .body f
  | .walk (some w) => .walk f w
  | .fire e => .fire f e
  | .returned => .pop

/-- An operation of the routine of a fiber. -/
def Runtime.perform (s : Runtime ω ι κ γ ε O) (v : ω) (f : ι) :
    Op ι κ γ ε → Option (Runtime ω ι κ γ ε O)
  | .yield => some ((s.setCoro f .stopped).goto v (.submit f (.check f) .returned))
  | .go g =>
    match s.coro g with
    | .absent => some ((s.construct g).goto v (.submit f (.check g) .body))
    | _ => none
  | .lock m =>
    if s.locked m then some ((s.park f (.mutex m)).goto v .pop)
    else some { s with locked := Function.update s.locked m true }
  | .unlock m =>
    if (s.waiters (.mutex m)).isEmpty then
      some { s with locked := Function.update s.locked m false }
    else
      match (s.waiters (.mutex m)).popped with
      | some w =>
        some ((s.setWaiters (.mutex m) ((s.waiters (.mutex m)).pop s.link)).goto v
          (.schedule f w .body))
      | none => some (s.setWaiters (.mutex m) ((s.waiters (.mutex m)).pop s.link))
  | .add g amount =>
    some { s with counter := Function.update s.counter g ((s.counter g + amount) % 2 ^ 64) }
  | .done g =>
    let s' :=
      { s with counter := Function.update s.counter g ((s.counter g + 2 ^ 64 - 1) % 2 ^ 64) }
    if (s.counter g + 2 ^ 64 - 1) % 2 ^ 64 = 0 then
      match (s.waiters (.group g)).popped with
      | some w =>
        some ({ s'.setWaiters (.group g) .clear with
          detached := Function.update s.detached v ((s.waiters (.group g)).contents s.link) }.goto v
            (.walk f w))
      | none => some (s'.setWaiters (.group g) .clear)
    else some s'
  | .wait g =>
    if 0 < s.counter g then some ((s.park f (.group g)).goto v .pop) else some s
  | .await e =>
    if s.firing e then none else some ((s.park f (.event e)).goto v .pop)
  | .fire e =>
    if s.firing e then none
    else some ({ s with firing := Function.update s.firing e true }.goto v (.fire f e))
  | .finish => some ((s.setCoro f .completed).goto v (.completed f))

/-- The next step of a worker outside of routines. -/
def Runtime.workerStep (s : Runtime ω ι κ γ ε O) (v : ω) : Option (Runtime ω ι κ γ ε O) :=
  match s.worker v with
  | .pop =>
    match s.tasks.popped with
    | some f => some ({ s with tasks := s.tasks.pop s.next }.goto v (.resume f))
    | none => some ({ s with tasks := s.tasks.pop s.next }.goto v .empty)
  | .empty => some (s.goto v (if s.shutdown then .left else .pop))
  | .resume f =>
    match s.coro f with
    | .stopped => some ((s.setCoro f .running).goto v (.body f))
    | _ => some { s with fault := true }
  | .body _ => none
  | .walk f w =>
    some ({ s with detached := Function.update s.detached v (s.detached v).tail }.goto v
      (.schedule f w (.walk (s.link w))))
  | .schedule f w after =>
    match s.handle w with
    | some g =>
      some ({ s with handle := Function.update s.handle w none }.goto v (.submit f (.check g) after))
    | none => some { s with fault := true }
  | .submit f call after =>
    some ((s.submit call).1.goto v
      (match (s.submit call).2 with
      | some call' => .submit f call' after
      | none => after.resume f))
  | .fire f e =>
    if (s.waiters (.event e)).isEmpty then
      some ({ s with firing := Function.update s.firing e false }.goto v (.body f))
    else
      match (s.waiters (.event e)).popped with
      | some w =>
        some ((s.setWaiters (.event e) ((s.waiters (.event e)).pop s.link)).goto v
          (.schedule f w (.fire e)))
      | none => some { s with fault := true }
  | .completed f => some ((s.setCoro f .absent).goto v .pop)
  | .left => none

/-- One scheduled step. -/
def step (s : Runtime ω ι κ γ ε O) : Action ω ι κ γ ε O → Option (Runtime ω ι κ γ ε O)
  | .worker v => s.workerStep v
  | .op v op =>
    match s.worker v with
    | .body f => s.perform v f op
    | _ => none
  | .go o f =>
    match s.outside o,s.coro f with
    | none,.absent =>
      some { s.construct f with outside := Function.update s.outside o (some (.check f)) }
    | _,_ => none
  | .outside o =>
    match s.outside o with
    | some call =>
      some { (s.submit call).1 with outside := Function.update s.outside o (s.submit call).2 }
    | none => none
  | .startShutdown => some { s with shutdown := true }

/-- New objects and a started pool without fibers. -/
def initial (ω ι κ γ ε O : Type*) : Runtime ω ι κ γ ε O where
  shutdown := false
  tasks := .clear
  next _ := none
  locked _ := false
  counter _ := 0
  firing _ := false
  waiters _ := .clear
  link _ := none
  handle _ := none
  coro _ := .absent
  worker _ := .pop
  outside _ := none
  accepted _ := false
  detached _ := []
  fault := false

/-- The fibers as a transition system. -/
def fibers (ω ι κ γ ε O : Type*) [DecidableEq ω] [DecidableEq ι] [DecidableEq κ] [DecidableEq γ]
    [DecidableEq ε] [DecidableEq O] : System (Runtime ω ι κ γ ε O) (Action ω ι κ γ ε O) :=
  ⟨initial ω ι κ γ ε O,step⟩

/-- The fiber that a worker has popped, until it is enqueued or parked. -/
@[grind =]
def WorkerPc.hand {ι ε : Type*} : WorkerPc ι ε → List ι
  | .resume f | .body f | .walk f _ | .fire f _ | .completed f => [f]
  | .schedule f _ after | .submit f _ after =>
    match after with
    | .returned => []
    | _ => [f]
  | .pop | .empty | .left => []

/-- The fiber that a call of Submit is about. -/
@[grind =]
def task {ι : Type*} : SubmitPc ι → ι
  | .check f | .add f | .push f => f

/-- The fiber that a Schedule or Submit on a worker is about. -/
@[grind =]
def WorkerPc.call {ι ε : Type*} : WorkerPc ι ε → List ι
  | .schedule _ w _ => [w]
  | .submit _ call _ => [task call]
  | _ => []

/-- Where a fiber can be. -/
inductive Place (ω κ γ ε O : Type*) where
  /-- In the queue of the pool. -/
  | tasks
  /-- In the hands of a worker. -/
  | hand (v : ω)
  /-- In the hands of a Schedule or a Submit on a worker. -/
  | call (v : ω)
  /-- In the hands of a Done on a worker. -/
  | walk (v : ω)
  /-- In a list of waiters. -/
  | list (o : Object κ γ ε)
  /-- In the hands of a Go from outside. -/
  | outside (o : O)
  deriving DecidableEq

/-- The fibers at each place. -/
def Runtime.content {ω ι κ γ ε O : Type*} (s : Runtime ω ι κ γ ε O) : Place ω κ γ ε O → List ι
  | .tasks => s.tasks.contents s.next
  | .hand v => (s.worker v).hand
  | .call v => (s.worker v).call
  | .walk v => s.detached v
  | .list o => (s.waiters o).contents s.link
  | .outside o => ((s.outside o).map task).toList

end ConcurrencyRuntime.PoolFibers
