import ConcurrencyRuntime.TransitionSystem

/-!
# The atomic steps of the simple Michael-Scott queue

Any number of threads run Push and TryPop, each TryPop with the mutator of its
thread. One step is one atomic load, store or compare-exchange on head, tail,
a next field or a protected pointer, one allocation, one move of a value, or
one Retire. A weak compare-exchange may fail spuriously. Addresses are reused:
an allocation takes any address that is not allocated, and a separate action
deletes a retired node, under conditions that the runs impose and the queue
does not check.
-/

namespace ConcurrencyRuntime.SimpleMSQueue

open TransitionSystem

/-- What the allocator and the mutators know of an address. -/
inductive Life where
  /-- Not allocated: never handed out, or deleted. -/
  | free
  /-- Allocated and not retired. -/
  | live
  /-- Handed to Retire and not deleted yet. -/
  | retired
  deriving DecidableEq

/-- Program points of a thread, in the order of the source. -/
inductive Pc (N T : Type*) where
  /-- Outside the queue. -/
  | idle
  /-- Push: new Node{item, nullptr} is next. -/
  | pushNew (item : T)
  /-- Push: the load of tail is next. -/
  | pushTail (new : N)
  /-- Push: the load of old_tail->next that looks for a concurrent push. -/
  | pushNext (new oldTail : N)
  /-- Push, helping: the second load of old_tail->next. -/
  | pushHelp (new oldTail : N)
  /-- Push, helping: the weak compare-exchange of tail. -/
  | pushSwing (new oldTail : N) (after : Option N)
  /-- Push: the weak compare-exchange of old_tail->next from null. -/
  | pushLink (new oldTail : N)
  /-- Push: the strong compare-exchange of tail after the link. -/
  | pushFinish (new oldTail : N)
  /-- Push: about to return. -/
  | pushDone
  /-- Acquire: the first load of head. -/
  | popLoad
  /-- Acquire: the store of the protected pointer. -/
  | popProtect (before : Option N)
  /-- Acquire: the load of head that validates the store. -/
  | popValidate (before : Option N)
  /-- TryPop: the load of old_head->next that tests for the empty queue. -/
  | popNext (oldHead : N)
  /-- TryPop on an empty queue: Release is next. -/
  | popReleaseEmpty
  /-- TryPop: the load of tail. -/
  | popTail (oldHead : N)
  /-- TryPop, helping: the load of old_tail->next, old_tail being old_head. -/
  | popHelp (oldHead : N)
  /-- TryPop, helping: the weak compare-exchange of tail. -/
  | popSwing (oldHead : N) (after : Option N)
  /-- TryPop: the load of old_head->next for the compare-exchange. -/
  | popHeadNext (oldHead : N)
  /-- TryPop: the weak compare-exchange of head. -/
  | popHead (oldHead : N) (after : Option N)
  /-- TryPop: the load of old_head->next after the compare-exchange. -/
  | popSuccessor (oldHead : N)
  /-- TryPop: the move out of next->value. -/
  | popValue (oldHead succ : N)
  /-- TryPop: Release with the result in hand. -/
  | popRelease (oldHead : N) (result : T)
  /-- TryPop: Retire(old_head) with the result in hand. -/
  | popRetire (oldHead : N) (result : T)
  /-- TryPop: about to return. -/
  | popDone (result : Option T)
  /-- A null pointer or an empty optional was dereferenced. -/
  | fault
  deriving DecidableEq

/-- The queue, its memory and the threads on it. -/
structure Queue (ι N T : Type*) where
  /-- The atomic pointer to the dummy node. -/
  head : Option N
  /-- The atomic pointer to the last node, or one before it. -/
  tail : Option N
  /-- The next field of each address. -/
  next : N → Option N
  /-- The value field of each address, none once it is moved out. -/
  value : N → Option T
  /-- The allocator's view of each address. -/
  life : N → Life
  /-- The protected pointer of each thread's mutator. -/
  protectedPtr : ι → Option N
  /-- Where each thread stands. -/
  pc : ι → Pc N T

/-- Scheduler choices. -/
inductive Action (ι N T : Type*) where
  /-- A thread calls Push. -/
  | push (t : ι) (item : T)
  /-- A thread calls TryPop. -/
  | pop (t : ι)
  /-- The allocator serves the new expression of a Push with an address. -/
  | alloc (t : ι) (node : N)
  /-- A thread takes its next step; a weak compare-exchange reads the flag. -/
  | step (t : ι) (spurious : Bool)
  /-- A retired node is deleted. -/
  | delete (node : N)

variable {ι N T : Type*} [DecidableEq ι] [DecidableEq N]

/-- Move a thread. -/
def Queue.goto (s : Queue ι N T) (t : ι) (pc : Pc N T) : Queue ι N T :=
  { s with pc := Function.update s.pc t pc }

/-- Write the protected pointer of a thread. -/
def Queue.protect (s : Queue ι N T) (t : ι) (p : Option N) : Queue ι N T :=
  { s with protectedPtr := Function.update s.protectedPtr t p }

/-- A compare-exchange of tail from a node, with a spurious failure or not. -/
def Queue.swingTail (s : Queue ι N T) (old : N) (new : Option N) (spurious : Bool) :
    Queue ι N T :=
  if s.tail = some old ∧ spurious = false then { s with tail := new } else s

/-- The next step of a thread. -/
def threadStep (s : Queue ι N T) (t : ι) (spurious : Bool) : Option (Queue ι N T) :=
  match s.pc t with
  | .idle | .pushNew _ | .fault => none
  | .pushTail new =>
    match s.tail with
    | some oldTail => some (s.goto t (.pushNext new oldTail))
    | none => some (s.goto t .fault)
  | .pushNext new oldTail =>
    match s.next oldTail with
    | some _ => some (s.goto t (.pushHelp new oldTail))
    | none => some (s.goto t (.pushLink new oldTail))
  | .pushHelp new oldTail => some (s.goto t (.pushSwing new oldTail (s.next oldTail)))
  | .pushSwing new oldTail after =>
    some ((s.swingTail oldTail after spurious).goto t (.pushTail new))
  | .pushLink new oldTail =>
    if s.next oldTail = none ∧ spurious = false then
      some ({ s with next := Function.update s.next oldTail (some new) }.goto t
        (.pushFinish new oldTail))
    else some (s.goto t (.pushTail new))
  | .pushFinish new oldTail => some ((s.swingTail oldTail (some new) false).goto t .pushDone)
  | .pushDone => some (s.goto t .idle)
  | .popLoad => some (s.goto t (.popProtect s.head))
  | .popProtect before => some ((s.protect t before).goto t (.popValidate before))
  | .popValidate before =>
    if s.head = before then
      match before with
      | some oldHead => some (s.goto t (.popNext oldHead))
      | none => some (s.goto t .fault)
    else some (s.goto t (.popProtect s.head))
  | .popNext oldHead =>
    match s.next oldHead with
    | none => some (s.goto t .popReleaseEmpty)
    | some _ => some (s.goto t (.popTail oldHead))
  | .popReleaseEmpty => some ((s.protect t none).goto t (.popDone none))
  | .popTail oldHead =>
    if s.tail = some oldHead then some (s.goto t (.popHelp oldHead))
    else some (s.goto t (.popHeadNext oldHead))
  | .popHelp oldHead => some (s.goto t (.popSwing oldHead (s.next oldHead)))
  | .popSwing oldHead after => some ((s.swingTail oldHead after spurious).goto t .popLoad)
  | .popHeadNext oldHead => some (s.goto t (.popHead oldHead (s.next oldHead)))
  | .popHead oldHead after =>
    if s.head = some oldHead ∧ spurious = false then
      some ({ s with head := after }.goto t (.popSuccessor oldHead))
    else some (s.goto t .popLoad)
  | .popSuccessor oldHead =>
    match s.next oldHead with
    | some succ => some (s.goto t (.popValue oldHead succ))
    | none => some (s.goto t .fault)
  | .popValue oldHead succ =>
    match s.value succ with
    | some result =>
      some ({ s with value := Function.update s.value succ none }.goto t
        (.popRelease oldHead result))
    | none => some (s.goto t .fault)
  | .popRelease oldHead result => some ((s.protect t none).goto t (.popRetire oldHead result))
  | .popRetire oldHead result =>
    some ({ s with life := Function.update s.life oldHead .retired }.goto t (.popDone (some result)))
  | .popDone _ => some (s.goto t .idle)

/-- One scheduled step of the queue. -/
def step (s : Queue ι N T) : Action ι N T → Option (Queue ι N T)
  | .push t item =>
    match s.pc t with
    | .idle => some (s.goto t (.pushNew item))
    | _ => none
  | .pop t =>
    match s.pc t with
    | .idle => some (s.goto t .popLoad)
    | _ => none
  | .alloc t node =>
    match s.pc t with
    | .pushNew item =>
      if s.life node = .free then
        some ({ s with
          life := Function.update s.life node .live,
          next := Function.update s.next node none,
          value := Function.update s.value node (some item) }.goto t (.pushTail node))
      else none
    | _ => none
  | .step t spurious => threadStep s t spurious
  | .delete node =>
    if s.life node = .retired then
      some { s with life := Function.update s.life node .free }
    else none

/-- The constructor: head and tail point to an allocated dummy node. -/
def initial (ι T : Type*) (dummy : N) : Queue ι N T where
  head := some dummy
  tail := some dummy
  next _ := none
  value _ := none
  life := Function.update (fun _ => .free) dummy .live
  protectedPtr _ := none
  pc _ := .idle

/-- The queue as a transition system. -/
def queue (ι T : Type*) [DecidableEq ι] (dummy : N) :
    System (Queue ι N T) (Action ι N T) :=
  ⟨initial ι T dummy,step⟩

/-- The node whose next or value field a step of Push or TryPop loads,
compare-exchanges or moves from. -/
def Pc.touched {N T : Type*} : Pc N T → Option N
  | .pushNext _ oldTail | .pushHelp _ oldTail | .pushLink _ oldTail => some oldTail
  | .popNext oldHead | .popHelp oldHead | .popHeadNext oldHead | .popSuccessor oldHead =>
    some oldHead
  | .popValue _ succ => some succ
  | _ => none

/-- The old_tail of a Push, from its load until the last compare-exchange
that mentions it. -/
def Pc.oldTail {N T : Type*} : Pc N T → Option N
  | .pushNext _ oldTail | .pushHelp _ oldTail | .pushSwing _ oldTail _ | .pushLink _ oldTail
  | .pushFinish _ oldTail => some oldTail
  | _ => none

/-- The node that a successful TryPop made the new head and still has to
move the value out of. -/
def Pc.successor {N T : Type*} (next : N → Option N) : Pc N T → Option N
  | .popSuccessor oldHead => next oldHead
  | .popValue _ succ => some succ
  | _ => none

/-- Ideal reclamation: a node is deleted only while no protected pointer
equals it. -/
def Ideal {ι N T : Type*} (s : Queue ι N T) : Action ι N T → Prop
  | .delete node => ∀ t, s.protectedPtr t ≠ some node
  | _ => True

/-- No Push holds the node as its old_tail, and no TryPop still has to move
the value out of it. -/
def Unheld {ι N T : Type*} (s : Queue ι N T) (node : N) : Prop :=
  ∀ t, (s.pc t).oldTail ≠ some node ∧ (s.pc t).successor s.next ≠ some node

/-- Ideal reclamation that also waits for the pointers the queue holds
without protecting them. -/
def Sheltered {ι N T : Type*} (s : Queue ι N T) : Action ι N T → Prop
  | .delete node => (∀ t, s.protectedPtr t ≠ some node) ∧ Unheld s node
  | _ => True

/-- Nodes are never deleted, hence never reused. -/
def NeverDelete {ι N T : Type*} : Queue ι N T → Action ι N T → Prop
  | _, .delete _ => False
  | _, _ => True

end ConcurrencyRuntime.SimpleMSQueue
