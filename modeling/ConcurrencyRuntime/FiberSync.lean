import ConcurrencyRuntime.QueueSpinLock
import ConcurrencyRuntime.TransitionSystem

/-!
# Fibers that park under the queue spinlock

Fibers on a pool use any number of mutexes and wait groups. Every operation
runs its section under a guard of the queue spinlock of the object; a Lock or
a Wait that has to wait suspends the fiber inside of the section. The worker
that ran the fiber then parks its waiter and releases the guard, which lives
on the stack of the fiber, while another worker may resume the fiber and run
the destructor of the guard. One step is one atomic access of the spinlock, one
section on the data that it protects, or one operation on the queue of the
pool. The lists of waiters are their contents.
-/

namespace ConcurrencyRuntime.FiberSync

open TransitionSystem QueueSpinLock

/-- The operations of the mutexes and of the wait groups. -/
inductive Op (κ γ : Type*) where
  /-- Lock of a mutex. -/
  | lock (m : κ)
  /-- Unlock of a mutex. -/
  | unlock (m : κ)
  /-- Add of a wait group. -/
  | add (w : γ) (amount : ℕ)
  /-- Done of a wait group. -/
  | done (w : γ)
  /-- Wait of a wait group. -/
  | wait (w : γ)
  deriving DecidableEq

/-- The object whose spinlock an operation takes. -/
def Op.host {κ γ : Type*} : Op κ γ → κ ⊕ γ
  | .lock m | .unlock m => .inl m
  | .add w _ | .done w | .wait w => .inr w

/-- Program points of a fiber. A guard is named by its fiber and by the number
of guards that the fiber destroyed before. -/
inductive FiberPc (ι κ γ : Type*) where
  /-- Not submitted to the pool. -/
  | fresh
  /-- Submitted and not run yet. -/
  | ready
  /-- Outside of the operations. -/
  | running
  /-- The constructor of the guard: Acquire. -/
  | acquire (op : Op κ γ) (pc : AcquirePc (ι × ℕ))
  /-- The section under the spinlock. -/
  | body (op : Op κ γ)
  /-- Suspended inside of the section. -/
  | suspended (op : Op κ γ)
  /-- Resumed: the destructor of the guard loads is_owner. -/
  | resumed (op : Op κ γ)
  /-- After the section: the destructor of the guard loads is_owner. -/
  | destroy (op : Op κ γ) (popped : List ι)
  /-- The destructor of the guard: Release. -/
  | release (op : Op κ γ) (popped : List ι) (pc : ReleasePc (ι × ℕ))
  /-- Unlock or Done: the popped waiters are scheduled in turn. -/
  | schedule (popped : List ι)
  /-- Finished. -/
  | done
  deriving DecidableEq

/-- Program points of a worker of the pool. -/
inductive WorkerPc (ι κ γ : Type*) where
  /-- Looking for a task. -/
  | idle
  /-- Running a fiber. -/
  | running (f : ι)
  /-- AwaitSuspend of the fiber it ran: Park. -/
  | parking (f : ι) (op : Op κ γ)
  /-- AwaitSuspend: Release of the guard. -/
  | releasing (h : κ ⊕ γ) (g : ι × ℕ) (pc : ReleasePc (ι × ℕ))
  deriving DecidableEq

/-- The objects, the fibers and the pool. -/
structure Runtime (ω ι κ γ : Type*) where
  /-- The spinlock of each object, with the fields of its guards. -/
  lock : κ ⊕ γ → Lock (ι × ℕ)
  /-- The flag of each mutex. -/
  locked : κ → Bool
  /-- The counter of each wait group, a 64-bit word. -/
  counter : γ → ℕ
  /-- The waiters of each object. -/
  waiters : κ ⊕ γ → List ι
  /-- Where each fiber stands. -/
  fiber : ι → FiberPc ι κ γ
  /-- What each worker is doing. -/
  worker : ω → WorkerPc ι κ γ
  /-- The queue of the pool. -/
  tasks : List ι
  /-- The number of guards that each fiber destroyed. -/
  guards : ι → ℕ
  /-- History: the owner of each mutex. -/
  owner : κ → Option ι
  /-- History: the calls of Release for each guard. -/
  releases : ι × ℕ → ℕ
  /-- History: the writes to guards that are destroyed. -/
  staleWrites : ℕ

/-- Scheduler choices. -/
inductive Action (ω ι κ γ : Type*) where
  /-- A new fiber is submitted to the pool. -/
  | submit (f : ι)
  /-- An idle worker takes the first task. -/
  | take (v : ω)
  /-- The fiber of a worker calls an operation. -/
  | call (v : ω) (op : Op κ γ)
  /-- A worker takes its next step; a weak compare-exchange reads the flag. -/
  | step (v : ω) (spurious : Bool)
  /-- The fiber of a worker ends. -/
  | finish (v : ω)

variable {ω ι κ γ : Type*} [DecidableEq ω] [DecidableEq ι] [DecidableEq κ] [DecidableEq γ]

/-- Move a fiber. -/
def Runtime.goto (s : Runtime ω ι κ γ) (f : ι) (pc : FiberPc ι κ γ) : Runtime ω ι κ γ :=
  { s with fiber := Function.update s.fiber f pc }

/-- Move a worker. -/
def Runtime.setWorker (s : Runtime ω ι κ γ) (v : ω) (pc : WorkerPc ι κ γ) : Runtime ω ι κ γ :=
  { s with worker := Function.update s.worker v pc }

/-- Write a spinlock and the fields of its guards. -/
def Runtime.setLock (s : Runtime ω ι κ γ) (h : κ ⊕ γ) (l : Lock (ι × ℕ)) : Runtime ω ι κ γ :=
  { s with lock := Function.update s.lock h l }

/-- Write the list of waiters of an object. -/
def Runtime.setWaiters (s : Runtime ω ι κ γ) (h : κ ⊕ γ) (ws : List ι) : Runtime ω ι κ γ :=
  { s with waiters := Function.update s.waiters h ws }

/-- Write a mutex and its owner. -/
def Runtime.setMutex (s : Runtime ω ι κ γ) (m : κ) (locked : Bool) (owner : Option ι) :
    Runtime ω ι κ γ :=
  { s with
    locked := Function.update s.locked m locked
    owner := Function.update s.owner m owner }

/-- Write the counter of a wait group. -/
def Runtime.setCounter (s : Runtime ω ι κ γ) (w : γ) (counter : ℕ) : Runtime ω ι κ γ :=
  { s with counter := Function.update s.counter w counter }

/-- The guard that a fiber has, or constructs next. -/
def Runtime.guard {ω ι κ γ : Type*} (s : Runtime ω ι κ γ) (f : ι) : ι × ℕ := (f,s.guards f)

/-- The destructor of the guard has run. -/
def Runtime.destroyed {ω ι κ γ : Type*} (s : Runtime ω ι κ γ) (g : ι × ℕ) : Prop :=
  g.2 < s.guards g.1

/-- Record a write to a guard. -/
def Runtime.noteWrite {ω ι κ γ : Type*} (s : Runtime ω ι κ γ) (written : Option (ι × ℕ)) :
    Runtime ω ι κ γ :=
  { s with
    staleWrites :=
      match written with
      | some g => if g.2 < s.guards g.1 then s.staleWrites + 1 else s.staleWrites
      | none => s.staleWrites }

/-- Record a call of Release. -/
def Runtime.noteRelease (s : Runtime ω ι κ γ) (g : ι × ℕ) : Runtime ω ι κ γ :=
  { s with releases := Function.update s.releases g (s.releases g + 1) }

/-- What a fiber does after its guard is destroyed. -/
def afterwards {ι κ γ : Type*} (popped : List ι) : FiberPc ι κ γ :=
  if popped.isEmpty then .running else .schedule popped

/-- The destructor of the guard of a fiber ends. -/
def Runtime.dropGuard (s : Runtime ω ι κ γ) (f : ι) (popped : List ι) : Runtime ω ι κ γ :=
  { s with guards := Function.update s.guards f (s.guards f + 1) }.goto f (afterwards popped)

/-- The destructor of the guard of a fiber loads is_owner, and calls Release
when it is set. -/
def destroyGuard (s : Runtime ω ι κ γ) (f : ι) (op : Op κ γ) (popped : List ι) : Runtime ω ι κ γ :=
  if (s.lock op.host).isOwner (s.guard f) then
    (s.noteRelease (s.guard f)).goto f (.release op popped .hasNext)
  else s.dropGuard f popped

/-- Suspend: the worker leaves the fiber and goes on with AwaitSuspend. -/
def suspend (s : Runtime ω ι κ γ) (v : ω) (f : ι) (op : Op κ γ) : Runtime ω ι κ γ :=
  (s.goto f (.suspended op)).setWorker v (.parking f op)

/-- The sections under the spinlock. -/
def runBody (s : Runtime ω ι κ γ) (v : ω) (f : ι) (op : Op κ γ) : Runtime ω ι κ γ :=
  match op with
  | .lock m =>
    if s.locked m then suspend s v f op else (s.setMutex m true (some f)).goto f (.destroy op [])
  | .unlock m =>
    match s.waiters (.inl m) with
    | [] => (s.setMutex m false none).goto f (.destroy op [])
    | w :: rest =>
      ((s.setMutex m (s.locked m) (some w)).setWaiters (.inl m) rest).goto f (.destroy op [w])
  | .add w amount => (s.setCounter w ((s.counter w + amount) % 2 ^ 64)).goto f (.destroy op [])
  | .done w =>
    if (s.counter w + 2 ^ 64 - 1) % 2 ^ 64 = 0 then
      ((s.setCounter w 0).setWaiters (.inr w) []).goto f (.destroy op (s.waiters (.inr w)))
    else (s.setCounter w ((s.counter w + 2 ^ 64 - 1) % 2 ^ 64)).goto f (.destroy op [])
  | .wait w => if 0 < s.counter w then suspend s v f op else s.goto f (.destroy op [])

/-- The next step of a fiber on its worker. -/
def fiberStep (s : Runtime ω ι κ γ) (v : ω) (f : ι) (spurious : Bool) : Option (Runtime ω ι κ γ) :=
  match s.fiber f with
  | .fresh | .ready | .running | .suspended _ | .done => none
  | .acquire op pc =>
    some (((s.noteWrite (pc.writes (s.guard f))).setLock op.host
      ((s.lock op.host).acquire (s.guard f) pc).1).goto f
        (match ((s.lock op.host).acquire (s.guard f) pc).2 with
        | .returned => .body op
        | pc' => .acquire op pc'))
  | .body op => some (runBody s v f op)
  | .resumed op => some (destroyGuard s f op [])
  | .destroy op popped => some (destroyGuard s f op popped)
  | .release op popped pc =>
    let s' := (s.noteWrite (pc.writes (s.guard f))).setLock op.host
      ((s.lock op.host).release (s.guard f) spurious pc).1
    match ((s.lock op.host).release (s.guard f) spurious pc).2 with
    | .returned => some (s'.dropGuard f popped)
    | pc' => some (s'.goto f (.release op popped pc'))
  | .schedule [] => some (s.goto f .running)
  | .schedule (w :: rest) => some ({ s with tasks := s.tasks ++ [w] }.goto f (afterwards rest))

/-- The next step of a worker. -/
def workerStep (s : Runtime ω ι κ γ) (v : ω) (spurious : Bool) : Option (Runtime ω ι κ γ) :=
  match s.worker v with
  | .idle => none
  | .running f => fiberStep s v f spurious
  | .parking f op =>
    some (((s.setWaiters op.host (s.waiters op.host ++ [f])).noteRelease (s.guard f)).setWorker v
      (.releasing op.host (s.guard f) .hasNext))
  | .releasing h g pc =>
    some (((s.noteWrite (pc.writes g)).setLock h ((s.lock h).release g spurious pc).1).setWorker v
      (match ((s.lock h).release g spurious pc).2 with
      | .returned => .idle
      | pc' => .releasing h g pc'))

/-- Unlock is called by the owner only. -/
def permitted (s : Runtime ω ι κ γ) (f : ι) : Op κ γ → Bool
  | .unlock m => s.owner m = some f
  | _ => true

/-- One scheduled step. -/
def step (s : Runtime ω ι κ γ) : Action ω ι κ γ → Option (Runtime ω ι κ γ)
  | .submit f =>
    if s.fiber f = .fresh then some ({ s with tasks := s.tasks ++ [f] }.goto f .ready) else none
  | .take v =>
    match s.worker v,s.tasks with
    | .idle,f :: rest =>
      match s.fiber f with
      | .ready => some (({ s with tasks := rest }.goto f .running).setWorker v (.running f))
      | .suspended op => some (({ s with tasks := rest }.goto f (.resumed op)).setWorker v (.running f))
      | _ => none
    | _,_ => none
  | .call v op =>
    match s.worker v with
    | .running f =>
      if s.fiber f = .running ∧ permitted s f op = true then
        some ((s.setLock op.host ((s.lock op.host).construct (s.guard f))).goto f
          (.acquire op .exchange))
      else none
    | _ => none
  | .step v spurious => workerStep s v spurious
  | .finish v =>
    match s.worker v with
    | .running f =>
      if s.fiber f = .running then some ((s.goto f .done).setWorker v .idle) else none
    | _ => none

/-- New objects and an idle pool. -/
def initial (ω ι κ γ : Type*) : Runtime ω ι κ γ where
  lock _ := .new (ι × ℕ)
  locked _ := false
  counter _ := 0
  waiters _ := []
  fiber _ := .fresh
  worker _ := .idle
  tasks := []
  guards _ := 0
  owner _ := none
  releases _ := 0
  staleWrites := 0

/-- The fibers as a transition system. -/
def fibers (ω ι κ γ : Type*) [DecidableEq ω] [DecidableEq ι] [DecidableEq κ] [DecidableEq γ] :
    System (Runtime ω ι κ γ) (Action ω ι κ γ) :=
  ⟨initial ω ι κ γ,step⟩

/-- Every guard is released once and not written after its destructor. -/
structure ReleasedOnce {ω ι κ γ : Type*} (s : Runtime ω ι κ γ) : Prop where
  /-- No guard is released twice. -/
  once : ∀ g, s.releases g ≤ 1
  /-- A guard was released when its destructor has run. -/
  destroyed : ∀ g, s.destroyed g → s.releases g = 1
  /-- The guard of a resumed fiber was released by the worker. -/
  resumed : ∀ f op, s.fiber f = .resumed op → s.releases (s.guard f) = 1
  /-- No step wrote a destroyed guard. -/
  stale : s.staleWrites = 0

/-- The fiber was resumed and is about to destroy its guard. -/
def FiberPc.returning {ι κ γ : Type*} : FiberPc ι κ γ → Bool
  | .resumed _ => true
  | _ => false

/-- The guard in whose Release a worker is. -/
def WorkerPc.guard {ι κ γ : Type*} : WorkerPc ι κ γ → Option (ι × ℕ)
  | .releasing _ g _ => some g
  | _ => none

/-- The destructor run by a resumed fiber loads is_owner only when no worker
is still in the Release of that guard. -/
def Cleared {ω ι κ γ : Type*} (s : Runtime ω ι κ γ) : Action ω ι κ γ → Prop
  | .step v _ => ∀ f, s.worker v = .running f → (s.fiber f).returning = true →
      ∀ u, (s.worker u).guard ≠ some (s.guard f)
  | _ => True

end ConcurrencyRuntime.FiberSync
