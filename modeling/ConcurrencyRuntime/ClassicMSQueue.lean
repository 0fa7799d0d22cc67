import ConcurrencyRuntime.TransitionSystem

/-!
# The atomic steps of the classic Michael-Scott queue

Any number of threads run Push and TryPop on counted pointers. One step is one
load or compare-exchange of head, tail or a next field, one allocation, one copy
of a value, or the delete at the end of TryPop. Either the delete does nothing,
as with the allocator that the class comment asks for, or it returns the address
to the allocator, which may hand it out again with a fresh next field. A counter
is kept as a number without bound and compared by its residue modulo 2^64, which
is all that the machine has of it.
-/

namespace ConcurrencyRuntime.ClassicMSQueue

open TransitionSystem

/-- A pointer with the counter that is changed with it. -/
structure NodePointer (N : Type*) where
  /-- The address, none being null. -/
  nodePtr : Option N
  /-- The modification counter. -/
  counter : ℕ
  deriving DecidableEq

/-- The comparison of two counted pointers, by address and 64-bit counter. -/
def NodePointer.Same {N : Type*} (p q : NodePointer N) : Prop :=
  p.nodePtr = q.nodePtr ∧ p.counter % 2 ^ 64 = q.counter % 2 ^ 64

instance {N : Type*} [DecidableEq N] (p q : NodePointer N) : Decidable (p.Same q) :=
  inferInstanceAs (Decidable (_ ∧ _))

/-- Program points of a thread, in the order of the source. -/
inductive Pc (N T : Type*) where
  /-- Outside the queue. -/
  | idle
  /-- Push: new Node is next. -/
  | pushNew (item : T)
  /-- Push: the load of tail. -/
  | pushTail (new : N)
  /-- Push: the load of old_tail.node_ptr->next. -/
  | pushNext (new : N) (oldTail : NodePointer N)
  /-- Push: the second load of tail, compared with old_tail. -/
  | pushCheck (new : N) (oldTail after : NodePointer N)
  /-- Push: the compare-exchange of old_tail.node_ptr->next. -/
  | pushLink (new : N) (oldTail after : NodePointer N)
  /-- Push, helping: the compare-exchange of tail. -/
  | pushSwing (new : N) (oldTail after : NodePointer N)
  /-- Push: the compare-exchange of tail after the link. -/
  | pushFinish (new : N) (oldTail : NodePointer N)
  /-- Push: about to return. -/
  | pushDone
  /-- TryPop: the load of head. -/
  | popHead
  /-- TryPop: the load of tail. -/
  | popTail (oldHead : NodePointer N)
  /-- TryPop: the load of old_head.node_ptr->next. -/
  | popNext (oldHead oldTail : NodePointer N)
  /-- TryPop: the second load of head, compared with old_head. -/
  | popCheck (oldHead oldTail after : NodePointer N)
  /-- TryPop, helping: the compare-exchange of tail. -/
  | popSwing (oldTail after : NodePointer N)
  /-- TryPop: the copy of next_after_old_head.node_ptr->value. -/
  | popValue (oldHead after : NodePointer N)
  /-- TryPop: the compare-exchange of head with the result in hand. -/
  | popCas (oldHead after : NodePointer N) (result : T)
  /-- TryPop: the delete of old_head.node_ptr. -/
  | popDelete (oldHead : NodePointer N) (result : T)
  /-- TryPop: about to return. -/
  | popDone (result : Option T)
  /-- A null pointer was dereferenced. -/
  | fault
  deriving DecidableEq

/-- The queue, its memory and the threads on it. -/
structure Queue (ι N T : Type*) where
  /-- The atomic pointer to the dummy node. -/
  head : NodePointer N
  /-- The atomic pointer to the last node, or one before it. -/
  tail : NodePointer N
  /-- The next field of each address. -/
  next : N → NodePointer N
  /-- The value field of each address. -/
  value : N → T
  /-- The address belongs to a node that was not deleted. -/
  allocated : N → Bool
  /-- Where each thread stands. -/
  pc : ι → Pc N T

/-- Scheduler choices. -/
inductive Action (ι N T : Type*) where
  /-- A thread calls Push. -/
  | push (t : ι) (item : T)
  /-- A thread calls TryPop. -/
  | pop (t : ι)
  /-- The allocator serves the new expression of a Push with an address. -/
  | alloc (t : ι) (node : N)
  /-- A thread takes its next step. -/
  | step (t : ι)

variable {ι N T : Type*} [DecidableEq ι] [DecidableEq N]

/-- Move a thread. -/
def Queue.goto (s : Queue ι N T) (t : ι) (pc : Pc N T) : Queue ι N T :=
  { s with pc := Function.update s.pc t pc }

/-- The compare-exchange of tail to the node behind an old tail. -/
def Queue.swingTail {ι : Type*} (s : Queue ι N T) (old : NodePointer N) (node : Option N) :
    Queue ι N T :=
  if s.tail.Same old then { s with tail := ⟨node,old.counter + 1⟩ } else s

/-- The next step of a thread. -/
def threadStep (frees : Bool) (s : Queue ι N T) (t : ι) : Option (Queue ι N T) :=
  match s.pc t with
  | .idle | .pushNew _ | .fault => none
  | .pushTail new => some (s.goto t (.pushNext new s.tail))
  | .pushNext new oldTail =>
    match oldTail.nodePtr with
    | some n => some (s.goto t (.pushCheck new oldTail (s.next n)))
    | none => some (s.goto t .fault)
  | .pushCheck new oldTail after =>
    if s.tail.Same oldTail then
      match after.nodePtr with
      | none => some (s.goto t (.pushLink new oldTail after))
      | some _ => some (s.goto t (.pushSwing new oldTail after))
    else some (s.goto t (.pushTail new))
  | .pushLink new oldTail after =>
    match oldTail.nodePtr with
    | some n =>
      if (s.next n).Same after then
        some ({ s with next := Function.update s.next n ⟨some new,after.counter + 1⟩ }.goto t
          (.pushFinish new oldTail))
      else some (s.goto t (.pushTail new))
    | none => some (s.goto t .fault)
  | .pushSwing new oldTail after =>
    some ((s.swingTail oldTail after.nodePtr).goto t (.pushTail new))
  | .pushFinish new oldTail => some ((s.swingTail oldTail (some new)).goto t .pushDone)
  | .pushDone => some (s.goto t .idle)
  | .popHead => some (s.goto t (.popTail s.head))
  | .popTail oldHead => some (s.goto t (.popNext oldHead s.tail))
  | .popNext oldHead oldTail =>
    match oldHead.nodePtr with
    | some n => some (s.goto t (.popCheck oldHead oldTail (s.next n)))
    | none => some (s.goto t .fault)
  | .popCheck oldHead oldTail after =>
    if s.head.Same oldHead then
      if oldHead.nodePtr = oldTail.nodePtr then
        match after.nodePtr with
        | none => some (s.goto t (.popDone none))
        | some _ => some (s.goto t (.popSwing oldTail after))
      else some (s.goto t (.popValue oldHead after))
    else some (s.goto t .popHead)
  | .popSwing oldTail after => some ((s.swingTail oldTail after.nodePtr).goto t .popHead)
  | .popValue oldHead after =>
    match after.nodePtr with
    | some m => some (s.goto t (.popCas oldHead after (s.value m)))
    | none => some (s.goto t .fault)
  | .popCas oldHead after result =>
    if s.head.Same oldHead then
      some ({ s with head := ⟨after.nodePtr,oldHead.counter + 1⟩ }.goto t (.popDelete oldHead result))
    else some (s.goto t .popHead)
  | .popDelete oldHead result =>
    match frees,oldHead.nodePtr with
    | true,some n =>
      some ({ s with allocated := Function.update s.allocated n false }.goto t (.popDone (some result)))
    | _,_ => some (s.goto t (.popDone (some result)))
  | .popDone _ => some (s.goto t .idle)

/-- One scheduled step of the queue. -/
def step (frees : Bool) (s : Queue ι N T) : Action ι N T → Option (Queue ι N T)
  | .push t item =>
    match s.pc t with
    | .idle => some (s.goto t (.pushNew item))
    | _ => none
  | .pop t =>
    match s.pc t with
    | .idle => some (s.goto t .popHead)
    | _ => none
  | .alloc t node =>
    match s.pc t with
    | .pushNew item =>
      if s.allocated node = false then
        some ({ s with
          allocated := Function.update s.allocated node true,
          next := Function.update s.next node ⟨none,0⟩,
          value := Function.update s.value node item }.goto t (.pushTail node))
      else none
    | _ => none
  | .step t => threadStep frees s t

/-- The constructor: head and tail point to an allocated dummy node. -/
def initial (ι T : Type*) [Inhabited T] (dummy : N) : Queue ι N T where
  head := ⟨some dummy,0⟩
  tail := ⟨some dummy,0⟩
  next _ := ⟨none,0⟩
  value _ := default
  allocated := Function.update (fun _ => false) dummy true
  pc _ := .idle

/-- The queue as a transition system, with a delete that returns nodes to the
allocator or one that does nothing. -/
def queue (frees : Bool) (ι T : Type*) [DecidableEq ι] [Inhabited T] (dummy : N) :
    System (Queue ι N T) (Action ι N T) :=
  ⟨initial ι T dummy,step frees⟩

/-- The node whose next or value field the next step loads, compare-exchanges or
copies. -/
def Pc.touched {N T : Type*} : Pc N T → Option N
  | .pushNext _ oldTail | .pushLink _ oldTail _ => oldTail.nodePtr
  | .popNext oldHead _ => oldHead.nodePtr
  | .popValue _ after => after.nodePtr
  | _ => none

/-- The node that a call is going to dereference whatever the others do: its
next or value field is accessed with no comparison before. -/
def Pc.awaits {N T : Type*} : Pc N T → Option N
  | .popTail oldHead => oldHead.nodePtr
  | pc => pc.touched

/-- A delete takes no node that another call is going to dereference. -/
def Sheltered {ι N T : Type*} (s : Queue ι N T) : Action ι N T → Prop
  | .step t =>
    match s.pc t with
    | .popDelete oldHead _ => ∀ n, oldHead.nodePtr = some n → ∀ u, (s.pc u).awaits ≠ some n
    | _ => True
  | _ => True

/-- A comparison with an old head or an old tail does not succeed because the
counter has gone around. -/
def Unwrapped {ι N T : Type*} (s : Queue ι N T) : Action ι N T → Prop
  | .step t =>
    match s.pc t with
    | .pushCheck _ oldTail _ | .pushSwing _ oldTail _ | .pushFinish _ oldTail
    | .popSwing oldTail _ =>
      s.tail.Same oldTail → s.tail = oldTail
    | .popCheck oldHead _ _ | .popCas oldHead _ _ => s.head.Same oldHead → s.head = oldHead
    | _ => True
  | _ => True

end ConcurrencyRuntime.ClassicMSQueue
