import ConcurrencyRuntime.TransitionSystem

/-!
# The hazard manager, its mutators and its collector

Each thread has at most one live mutator at a time and runs Acquire, Release
and Retire on it, on the shared pointers of the clients. The collector passes
over the states of all threads: it reads every protected pointer, then empties
every list of retired pointers, runs the deleters and puts back what it found
protected. One step is one access to an atomic variable, one critical section
of the mutex that holds no such access, or one round of the walk over a
retired list. A weak compare-exchange may fail spuriously, and the allocator
hands out the addresses of deleted nodes again.
-/

namespace ConcurrencyRuntime.HazardManager

open TransitionSystem

/-- Program points of a thread, in the order of the source. -/
inductive Pc (L V N : Type*) where
  /-- The thread has no mutator. -/
  | absent
  /-- MakeMutator: the load of cancel_collect in the assertion. -/
  | makeAssert
  /-- MakeMutator: the thread state is inserted under the mutex. -/
  | makeInsert
  /-- MakeMutator: the increment of mutators_count. -/
  | makeCount
  /-- RegisterThread: the lookup of the thread state under the mutex. -/
  | register
  /-- Outside of the mutator, which is live. -/
  | idle
  /-- Acquire: the first load of the shared pointer. -/
  | acquireLoad (ptr : L)
  /-- Acquire: the store of the protected pointer. -/
  | acquireStore (ptr : L) (before : Option V)
  /-- Acquire: the load that validates the store. -/
  | acquireCheck (ptr : L) (before : Option V)
  /-- Release: the store of null. -/
  | releaseStore
  /-- Retire: the new RetirePtr, which loads retired_ptrs. -/
  | retireNew (v : V)
  /-- Retire: the weak compare-exchange of retired_ptrs. -/
  | retireCas (retire : N)
  /-- Retire: IncreaseRetired. -/
  | retireCount
  /-- The destructor of the mutator: the store of null by Release. -/
  | destroyStore
  /-- The destructor of the mutator: the decrement of mutators_count. -/
  | destroyCount
  deriving DecidableEq

/-- The two callers of CheckToDelete. -/
inductive Caller where
  /-- A pass of Collect. -/
  | collect
  /-- The destructor of the manager. -/
  | destroy
  deriving DecidableEq

/-- A loop over the thread states that calls CheckToDelete. -/
structure Pass (τ V : Type*) where
  /-- The function that runs the loop. -/
  caller : Caller
  /-- The threads whose retired list is not exchanged yet. -/
  todo : List τ
  /-- The protected pointers that were found. -/
  found : List V
  deriving DecidableEq

/-- Program points of the collector thread and, once it is joined, of the
destructor of the manager. -/
inductive CollectorPc (τ V N : Type*) where
  /-- Collect: the load of cancel_collect in the loop condition. -/
  | guardCancel
  /-- Collect: the load of mutators_count in the loop condition. -/
  | guardCount
  /-- Collect: the store that resets approximate_free_list_size. -/
  | reset
  /-- Collect: the lock of the mutex. -/
  | lock
  /-- Collect: the load of the protected pointer of the next thread. -/
  | scan (order todo : List τ) (found : List V)
  /-- CheckToDelete of the next thread: the exchange of its retired list. -/
  | exchange (pass : Pass τ V)
  /-- CheckToDelete: the loop condition and the test of a candidate. -/
  | walk (pass : Pass τ V) (i : τ) (candidate : Option N)
  /-- CheckToDelete, putting back: the load of retired_ptrs. -/
  | putLoad (pass : Pass τ V) (i : τ) (candidate : N) (next : Option N)
  /-- CheckToDelete, putting back: the weak compare-exchange. -/
  | putCas (pass : Pass τ V) (i : τ) (candidate : N) (next : Option N)
  /-- CheckToDelete, putting back: the increment of the free list size. -/
  | putCount (pass : Pass τ V) (i : τ) (next : Option N)
  /-- Collect: the load of approximate_free_list_size between two passes. -/
  | sleepCount
  /-- Collect: the load of cancel_collect between two passes. -/
  | sleepCancel
  /-- Collect: sleep_for. -/
  | sleep
  /-- Collect has returned. -/
  | returned
  /-- The destructor: the load of the next protected pointer in the assertion. -/
  | assertProtected (pass : Pass τ V)
  /-- The destructor: the load of the retired list in the assertion. -/
  | assertRetired (pass : Pass τ V) (i : τ)
  /-- The destructor: threads.clear() and the load of mutators_count. -/
  | clear
  /-- The manager is destroyed. -/
  | destroyed
  /-- A deleted RetirePtr was read. -/
  | fault
  deriving DecidableEq

/-- The manager, its thread states, the heap of RetirePtr nodes and the
pointers that the clients share. A thread state has null fields until its
thread is listed. -/
structure Manager (τ L V N : Type*) where
  /-- The shared atomic pointers. -/
  shared : L → Option V
  /-- The keys of the map of thread states. -/
  threads : List τ
  /-- The protected pointer of each thread state. -/
  protectedPtr : τ → Option V
  /-- The retired list of each thread state. -/
  retiredPtrs : τ → Option N
  /-- The value field of each RetirePtr, none where none is allocated. -/
  value : N → Option V
  /-- The next field of each RetirePtr. -/
  next : N → Option N
  /-- The atomic counter that wakes the collector. -/
  approximateFreeListSize : ℕ
  /-- The atomic count of live mutators. -/
  mutatorsCount : ℕ
  /-- The atomic flag of the destructor. -/
  cancelCollect : Bool
  /-- Where each thread stands. -/
  pc : τ → Pc L V N
  /-- Where the collector stands. -/
  collector : CollectorPc τ V N
  /-- History: what the last Acquire of each thread returned, until the
  thread calls Release or Acquire again. -/
  held : τ → Option V
  /-- History: the values handed to Retire. -/
  retired : V → Bool
  /-- History: the times the deleter of each value ran. -/
  deleted : V → ℕ

/-- Scheduler choices. -/
inductive Action (τ L V N : Type*) where
  /-- A client writes a shared pointer. -/
  | write (ptr : L) (x : Option V)
  /-- A thread calls MakeMutator. -/
  | makeMutator (t : τ)
  /-- A thread calls Acquire. -/
  | acquire (t : τ) (ptr : L)
  /-- A thread calls Release. -/
  | release (t : τ)
  /-- A thread calls Retire. -/
  | retire (t : τ) (v : Option V)
  /-- The mutator of a thread is destroyed. -/
  | destroyMutator (t : τ)
  /-- The allocator serves the new expression of a Retire with an address. -/
  | alloc (t : τ) (node : N)
  /-- A thread takes its next step; a weak compare-exchange reads the flag. -/
  | step (t : τ) (spurious : Bool)
  /-- The mutex is taken for a loop over the thread states in some order. -/
  | lock (order : List τ)
  /-- The collector takes its next step; a weak compare-exchange reads the flag. -/
  | collect (spurious : Bool)
  /-- The destructor of the manager is called. -/
  | destroy

/-- The size of the free list that wakes the collector. -/
def limitFreeList : ℕ := 8

/-- The program points at which the mutex is held across steps. -/
def CollectorPc.locked {τ V N : Type*} : CollectorPc τ V N → Bool
  | .scan .. | .exchange _ | .walk .. | .putLoad .. | .putCas .. | .putCount .. => true
  | .assertProtected _ | .assertRetired .. | .clear | .destroyed => true
  | _ => false

variable {τ L V N : Type*} [DecidableEq τ] [DecidableEq L] [DecidableEq V] [DecidableEq N]

/-- Move a thread. -/
def Manager.goto (s : Manager τ L V N) (t : τ) (pc : Pc L V N) : Manager τ L V N :=
  { s with pc := Function.update s.pc t pc }

/-- Move the collector. -/
def Manager.moveCollector {τ L V N : Type*} (s : Manager τ L V N) (pc : CollectorPc τ V N) :
    Manager τ L V N :=
  { s with collector := pc }

/-- Write the protected pointer of a thread. -/
def Manager.protect (s : Manager τ L V N) (t : τ) (p : Option V) : Manager τ L V N :=
  { s with protectedPtr := Function.update s.protectedPtr t p }

/-- Write the head of a retired list. -/
def Manager.setRetiredPtrs (s : Manager τ L V N) (t : τ) (p : Option N) : Manager τ L V N :=
  { s with retiredPtrs := Function.update s.retiredPtrs t p }

/-- Write the next field of a RetirePtr. -/
def Manager.setNext (s : Manager τ L V N) (n : N) (p : Option N) : Manager τ L V N :=
  { s with next := Function.update s.next n p }

/-- Record what a thread may use. -/
def Manager.hold (s : Manager τ L V N) (t : τ) (x : Option V) : Manager τ L V N :=
  { s with held := Function.update s.held t x }

/-- The next step of a thread. A failed assertion ends the program. -/
def threadStep (s : Manager τ L V N) (t : τ) (spurious : Bool) : Option (Manager τ L V N) :=
  match s.pc t with
  | .absent | .idle | .retireNew _ => none
  | .makeAssert => if s.cancelCollect then none else some (s.goto t .makeInsert)
  | .makeInsert =>
    if s.collector.locked then none
    else
      some ({ s with threads := if t ∈ s.threads then s.threads else t :: s.threads }.goto t
        .makeCount)
  | .makeCount => some ({ s with mutatorsCount := s.mutatorsCount + 1 }.goto t .register)
  | .register => if s.collector.locked then none else some (s.goto t .idle)
  | .acquireLoad ptr => some (s.goto t (.acquireStore ptr (s.shared ptr)))
  | .acquireStore ptr before => some ((s.protect t before).goto t (.acquireCheck ptr before))
  | .acquireCheck ptr before =>
    if s.shared ptr = before then some ((s.hold t before).goto t .idle)
    else some (s.goto t (.acquireStore ptr (s.shared ptr)))
  | .releaseStore => some ((s.protect t none).goto t .idle)
  | .retireCas retire =>
    if s.retiredPtrs t = s.next retire ∧ spurious = false then
      some ((s.setRetiredPtrs t (some retire)).goto t .retireCount)
    else some (s.setNext retire (s.retiredPtrs t))
  | .retireCount =>
    some ({ s with approximateFreeListSize := s.approximateFreeListSize + 1 }.goto t .idle)
  | .destroyStore => some ((s.protect t none).goto t .destroyCount)
  | .destroyCount =>
    if s.mutatorsCount = 0 then none
    else some ({ s with mutatorsCount := s.mutatorsCount - 1 }.goto t .absent)

/-- The next step of CheckToDelete on the list of a thread. -/
def checkToDelete (s : Manager τ L V N) (spurious : Bool) : Option (Manager τ L V N) :=
  match s.collector with
  | .exchange pass =>
    match pass.todo,pass.caller with
    | i :: rest,_ =>
      some ((s.setRetiredPtrs i none).moveCollector
        (.walk { pass with todo := rest } i (s.retiredPtrs i)))
    | [],.collect => some (s.moveCollector .sleepCount)
    | [],.destroy => some (s.moveCollector .clear)
  | .walk pass i none =>
    match pass.caller with
    | .collect => some (s.moveCollector (.exchange pass))
    | .destroy => some (s.moveCollector (.assertRetired pass i))
  | .walk pass i (some candidate) =>
    match s.value candidate with
    | none => some (s.moveCollector .fault)
    | some v =>
      if v ∈ pass.found then
        some (s.moveCollector (.putLoad pass i candidate (s.next candidate)))
      else
        some ({ s with
          deleted := Function.update s.deleted v (s.deleted v + 1)
          value := Function.update s.value candidate none }.moveCollector
            (.walk pass i (s.next candidate)))
  | .putLoad pass i candidate next =>
    some ((s.setNext candidate (s.retiredPtrs i)).moveCollector (.putCas pass i candidate next))
  | .putCas pass i candidate next =>
    if s.retiredPtrs i = s.next candidate ∧ spurious = false then
      some ((s.setRetiredPtrs i (some candidate)).moveCollector (.putCount pass i next))
    else some (s.setNext candidate (s.retiredPtrs i))
  | .putCount pass i next =>
    some ({ s with approximateFreeListSize := s.approximateFreeListSize + 1 }.moveCollector
      (.walk pass i next))
  | _ => none

/-- The next step of the collector, or of the destructor that joined it. -/
def collectorStep (s : Manager τ L V N) (spurious : Bool) : Option (Manager τ L V N) :=
  match s.collector with
  | .guardCancel =>
    some (s.moveCollector (if s.cancelCollect then .returned else .guardCount))
  | .guardCount => some (s.moveCollector (if s.mutatorsCount = 0 then .returned else .reset))
  | .reset => some ({ s with approximateFreeListSize := 0 }.moveCollector .lock)
  | .lock | .returned | .destroyed | .fault => none
  | .scan order (i :: rest) found =>
    some (s.moveCollector (.scan order rest ((s.protectedPtr i).toList ++ found)))
  | .scan order [] found => some (s.moveCollector (.exchange ⟨.collect,order,found⟩))
  | .exchange _ | .walk .. | .putLoad .. | .putCas .. | .putCount .. => checkToDelete s spurious
  | .sleepCount =>
    some (s.moveCollector
      (if s.approximateFreeListSize < limitFreeList then .sleepCancel else .guardCancel))
  | .sleepCancel => some (s.moveCollector (if s.cancelCollect then .guardCancel else .sleep))
  | .sleep => some (s.moveCollector .sleepCount)
  | .assertProtected pass =>
    match pass.todo with
    | i :: _ => if s.protectedPtr i = none then some (s.moveCollector (.exchange pass)) else none
    | [] => some (s.moveCollector (.exchange pass))
  | .assertRetired pass i =>
    if s.retiredPtrs i = none then some (s.moveCollector (.assertProtected pass)) else none
  | .clear =>
    if s.mutatorsCount = 0 then some ({ s with threads := [] }.moveCollector .destroyed) else none

/-- The call of a function of the mutator by a thread outside of it. -/
def call (s : Manager τ L V N) (t : τ) (pc : Pc L V N) : Option (Manager τ L V N) :=
  if s.pc t = .idle then some (s.goto t pc) else none

/-- One scheduled step. -/
def step (s : Manager τ L V N) : Action τ L V N → Option (Manager τ L V N)
  | .write ptr x => some { s with shared := Function.update s.shared ptr x }
  | .makeMutator t => if s.pc t = .absent then some (s.goto t .makeAssert) else none
  | .acquire t ptr => call (s.hold t none) t (.acquireLoad ptr)
  | .release t => call (s.hold t none) t .releaseStore
  | .retire t none => call s t .idle
  | .retire t (some v) => call { s with retired := Function.update s.retired v true } t (.retireNew v)
  | .destroyMutator t => call (s.hold t none) t .destroyStore
  | .alloc t node =>
    match s.pc t,s.value node with
    | .retireNew v,none =>
      some (({ s with value := Function.update s.value node (some v) }.setNext node
        (s.retiredPtrs t)).goto t (.retireCas node))
    | _,_ => none
  | .step t spurious => threadStep s t spurious
  | .lock order =>
    if order.Perm s.threads then
      match s.collector,s.cancelCollect with
      | .lock,_ => some (s.moveCollector (.scan order order []))
      | .returned,true => some (s.moveCollector (.assertProtected ⟨.destroy,order,[]⟩))
      | _,_ => none
    else none
  | .collect spurious => collectorStep s spurious
  | .destroy => if s.cancelCollect then none else some { s with cancelCollect := true }

/-- The constructor: no thread is known and the collector thread starts. -/
def initial (τ L V N : Type*) : Manager τ L V N where
  shared _ := none
  threads := []
  protectedPtr _ := none
  retiredPtrs _ := none
  value _ := none
  next _ := none
  approximateFreeListSize := 0
  mutatorsCount := 0
  cancelCollect := false
  pc _ := .absent
  collector := .guardCancel
  held _ := none
  retired _ := false
  deleted _ := 0

/-- The hazard manager as a transition system. -/
def manager (τ L V N : Type*) [DecidableEq τ] [DecidableEq L] [DecidableEq V] [DecidableEq N] :
    System (Manager τ L V N) (Action τ L V N) :=
  ⟨initial τ L V N,step⟩

/-- What the clients promise: a value is retired at most once, after it was
unlinked from every shared pointer, and not published again; the manager is
destroyed after all mutators, and makes none from then on. -/
def Contract {τ L V N : Type*} (s : Manager τ L V N) : Action τ L V N → Prop
  | .write _ (some v) => s.retired v = false
  | .retire _ (some v) => s.retired v = false ∧ ∀ ptr, s.shared ptr ≠ some v
  | .makeMutator _ => s.cancelCollect = false
  | .destroy => ∀ t, s.pc t = .absent
  | _ => True

end ConcurrencyRuntime.HazardManager
