import ConcurrencyRuntime.TransitionSystem

/-!
# An atomic first-in first-out queue with overlapping calls

Every thread enters a call, takes effect in one indivisible step at some
moment of the call, and returns what that step decided. A concurrent queue is
linearisable when its runs are answered by runs of this machine with the same
calls and returns.
-/

namespace ConcurrencyRuntime.AtomicQueue

open TransitionSystem

/-- Progress of one call. -/
inductive Call (T : Type*) where
  /-- No call is in progress. -/
  | idle
  /-- An enqueue that has not taken effect. -/
  | pushing (item : T)
  /-- An enqueue that has taken effect. -/
  | pushed
  /-- A dequeue that has not taken effect. -/
  | popping
  /-- A dequeue that has taken effect with this result. -/
  | popped (result : Option T)

/-- The items, the calls and the history of effects. -/
structure Fifo (ι T : Type*) where
  /-- Queued items, oldest first. -/
  items : List T
  /-- The call of each thread. -/
  call : ι → Call T
  /-- History: items in the order of their enqueues. -/
  enqueued : List T
  /-- History: items in the order of their dequeues. -/
  dequeued : List T

/-- Calls, effects and returns. -/
inductive Label (ι T : Type*) where
  /-- A thread calls the enqueue of an item. -/
  | callPush (t : ι) (item : T)
  /-- The enqueue of a thread takes effect. -/
  | enqueue (t : ι)
  /-- The enqueue of a thread returns. -/
  | returnPush (t : ι)
  /-- A thread calls the dequeue. -/
  | callPop (t : ι)
  /-- The dequeue of a thread takes effect with this result. -/
  | dequeue (t : ι) (result : Option T)
  /-- The dequeue of a thread returns this result. -/
  | returnPop (t : ι) (result : Option T)

variable {ι T : Type*} [DecidableEq ι] [DecidableEq T]

/-- One step of the atomic queue. A dequeue yields the oldest item, and
nothing exactly when there is none. -/
def step (s : Fifo ι T) : Label ι T → Option (Fifo ι T)
  | .callPush t item =>
    match s.call t with
    | .idle => some { s with call := Function.update s.call t (.pushing item) }
    | _ => none
  | .enqueue t =>
    match s.call t with
    | .pushing item => some { s with
        items := s.items ++ [item], enqueued := s.enqueued ++ [item],
        call := Function.update s.call t .pushed }
    | _ => none
  | .returnPush t =>
    match s.call t with
    | .pushed => some { s with call := Function.update s.call t .idle }
    | _ => none
  | .callPop t =>
    match s.call t with
    | .idle => some { s with call := Function.update s.call t .popping }
    | _ => none
  | .dequeue t result =>
    match s.call t with
    | .popping =>
      if s.items.head? = result then some { s with
        items := s.items.tail, dequeued := s.dequeued ++ result.toList,
        call := Function.update s.call t (.popped result) }
      else none
    | _ => none
  | .returnPop t result =>
    match s.call t with
    | .popped result' =>
      if result' = result then some { s with call := Function.update s.call t .idle }
      else none
    | _ => none

/-- An empty queue with no call in progress. -/
def initial (ι T : Type*) : Fifo ι T := ⟨[],fun _ => .idle,[],[]⟩

/-- The atomic queue as a transition system. -/
def fifo (ι T : Type*) [DecidableEq ι] [DecidableEq T] : System (Fifo ι T) (Label ι T) :=
  ⟨initial ι T,step⟩

section Steps

variable {s : Fifo ι T} {t : ι} {item : T} {result : Option T}

theorem step_callPush (h : s.call t = .idle) : step s (.callPush t item) =
    some { s with call := Function.update s.call t (.pushing item) } := by
  rw [step,h]

theorem step_enqueue (h : s.call t = .pushing item) : step s (.enqueue t) =
    some { s with
      items := s.items ++ [item], enqueued := s.enqueued ++ [item],
      call := Function.update s.call t .pushed } := by
  rw [step,h]

theorem step_returnPush (h : s.call t = .pushed) : step s (.returnPush t) =
    some { s with call := Function.update s.call t .idle } := by
  rw [step,h]

theorem step_callPop (h : s.call t = .idle) : step s (.callPop t) =
    some { s with call := Function.update s.call t .popping } := by
  rw [step,h]

theorem step_dequeue (h : s.call t = .popping) (hitems : s.items.head? = result) :
    step s (.dequeue t result) =
      some { s with
        items := s.items.tail, dequeued := s.dequeued ++ result.toList,
        call := Function.update s.call t (.popped result) } := by
  simp only [step,h,if_pos hitems]

theorem step_returnPop (h : s.call t = .popped result) : step s (.returnPop t result) =
    some { s with call := Function.update s.call t .idle } := by
  simp only [step,h,if_true]

end Steps

/-- The dequeued items followed by the queued ones are the enqueued ones, in
order: none is lost, duplicated or reordered. -/
def Balanced {ι T : Type*} (s : Fifo ι T) : Prop :=
  s.enqueued = s.dequeued ++ s.items

/-- One step keeps the balance. -/
theorem balanced_step {s s' : Fifo ι T} {a : Label ι T} (h : Balanced s)
    (hs : step s a = some s') : Balanced s' := by
  unfold Balanced at h ⊢
  cases a with
  | enqueue t =>
    simp only [step] at hs
    split at hs <;> cases hs
    simp [h]
  | dequeue t result =>
    simp only [step] at hs
    split at hs
    · split at hs <;> cases hs
      next hr =>
        subst hr
        cases hi : s.items <;> simp [h,hi]
    · cases hs
  | callPush t item | returnPush t | callPop t =>
    simp only [step] at hs
    split at hs <;> cases hs
    exact h
  | returnPop t result =>
    simp only [step] at hs
    split at hs
    · split at hs <;> cases hs
      exact h
    · cases hs

/-- Every run keeps the balance. -/
theorem balanced_run {acts : List (Label ι T)} {s : Fifo ι T}
    (hr : (fifo ι T).run (initial ι T) acts = some s) : Balanced s := by
  refine System.Reachable.invariant ?_ ?_ (System.Reachable.run .start hr)
  · rfl
  · exact fun _ _ _ => balanced_step

end ConcurrencyRuntime.AtomicQueue
