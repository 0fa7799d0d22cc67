import ConcurrencyRuntime.ClassicMSQueueRefinement
import ConcurrencyRuntime.ClientRefinement
import ConcurrencyRuntime.SimpleMSQueueReclamation
import ConcurrencyRuntime.SimpleMSQueueRefinement

/-!
# Programs over the Michael-Scott queues

A program sees of a queue the calls and the returns of Push and TryPop. Whatever a
program comes to with one of the two queues, it can come to with the atomic queue; so
what it never does with the atomic queue, it never does with them.
-/

namespace ConcurrencyRuntime

open TransitionSystem AtomicQueue ClientRefinement

/-- The calls and returns of a queue. -/
inductive QueueEvent (ι T : Type*) where
  /-- A thread calls Push. -/
  | callPush (t : ι) (item : T)
  /-- The Push of a thread returns. -/
  | returnPush (t : ι)
  /-- A thread calls TryPop. -/
  | callPop (t : ι)
  /-- The TryPop of a thread returns. -/
  | returnPop (t : ι) (result : Option T)
  deriving DecidableEq

variable {ι N T Program Own : Type*}

/-- What a program sees of the atomic queue: not the effects. -/
def AtomicQueue.Label.seen : Label ι T → Option (QueueEvent ι T)
  | .callPush t item => some (.callPush t item)
  | .returnPush t => some (.returnPush t)
  | .callPop t => some (.callPop t)
  | .returnPop t result => some (.returnPop t result)
  | .enqueue _ | .dequeue .. => none

/-- A program that writes down what it sees. -/
def recorder (ι T : Type*) : Client (List (QueueEvent ι T)) Empty (QueueEvent ι T) where
  start := []
  own _ o := o.elim
  take events e := some (events ++ [e])

namespace SimpleMSQueue

/-- What a program sees of the queue. -/
def event (s : Queue ι N T) : Action ι N T → Option (QueueEvent ι T)
  | .push t item => some (.callPush t item)
  | .pop t => some (.callPop t)
  | .alloc .. | .delete _ => none
  | .step t _ =>
    match s.pc t with
    | .pushDone => some (.returnPush t)
    | .popDone result => some (.returnPop t result)
    | _ => none

/-- The calls and returns are among the labels of a step. -/
theorem seen_label [DecidableEq N] (s : Queue ι N T) (a : Action ι N T) :
    (label s a).filterMap Label.seen = (event s a).toList := by
  cases a with
  | push t item | pop t | alloc t node | delete node => rfl
  | step t spurious =>
    cases hpc : s.pc t with
    | pushLink new oldTail | popHead oldHead after =>
      simp only [label,event,hpc]
      split <;> rfl
    | popNext oldHead =>
      simp only [label,event,hpc]
      split <;> rfl
    | _ => simp [label,event,hpc,Label.seen]

variable [DecidableEq ι] [DecidableEq N]

theorem seen_image (dummy : N) (s : Queue ι N T) (acts : List (Action ι N T)) :
    ((queue ι T dummy).image label s acts).filterMap Label.seen =
      trace (queue ι T dummy) event s acts := by
  induction acts generalizing s with
  | nil => rfl
  | cons a rest ih =>
    rw [trace,System.image,System.image,List.filterMap_append,seen_label]
    cases (queue ι T dummy).step s a with
    | none => rfl
    | some t => exact congrArg _ (ih t)

/-- Whatever a program comes to with the queue, it can come to with the atomic queue,
when every delete is sheltered. -/
theorem queue_clients_refine [DecidableEq T] {dummy : N} {P : Client Program Own (QueueEvent ι T)}
    {acts : List (Joint Own (Action ι N T))} {p : Program} {s : Queue ι N T}
    (hm : (P.on (queue ι T dummy) event).Meets (OnObject Sheltered)
      (P.start,(queue ι T dummy).start) acts)
    (hr : (P.on (queue ι T dummy) event).run (P.start,(queue ι T dummy).start) acts = some (p,s)) :
    ∃ acts' x, (P.on (fifo ι T) fun _ l => l.seen).run (P.start,(fifo ι T).start) acts' =
      some (p,x) := by
  refine Client.refines ?_ hm hr
  intro moves s hmeets hmoves
  obtain ⟨x,hx,-⟩ := represents_run hmeets hmoves
  exact ⟨_,x,seen_image dummy _ moves,hx⟩

/-- Thread 2 pops what thread 1 has pushed; neither Push has returned. -/
def overlappingEvents : List (QueueEvent (Fin 3) ℕ) :=
  [.callPush 0 7,.callPush 1 8,.callPop 2,.returnPop 2 (some 8)]

def overlappingActions : List (Joint Empty (Action (Fin 3) ℕ ℕ)) :=
  (overlapping ++ [Action.step 2 false]).map .object

theorem queue_clients_refine_overlapping :
    ∃ acts x, ((recorder (Fin 3) ℕ).on (fifo (Fin 3) ℕ) fun _ l => l.seen).run
      ([],(fifo (Fin 3) ℕ).start) acts = some (overlappingEvents,x) := by
  have hends : ((recorder (Fin 3) ℕ).on (queue (Fin 3) ℕ (0 : ℕ)) event).Ends
      ([],(queue (Fin 3) ℕ 0).start) overlappingActions
      fun q => q.1 = overlappingEvents := by
    decide +kernel
  have hmeets : ((recorder (Fin 3) ℕ).on (queue (Fin 3) ℕ (0 : ℕ)) event).Meets (OnObject Sheltered)
      ([],(queue (Fin 3) ℕ 0).start) overlappingActions := by
    decide +kernel
  obtain ⟨⟨events,s⟩,hr,rfl⟩ := hends.exists_run
  exact queue_clients_refine hmeets hr

end SimpleMSQueue

namespace ClassicMSQueue

/-- What a program sees of the queue. -/
def event (s : Queue ι N T) : Action ι N T → Option (QueueEvent ι T)
  | .push t item => some (.callPush t item)
  | .pop t => some (.callPop t)
  | .alloc .. => none
  | .step t =>
    match s.pc t with
    | .pushDone => some (.returnPush t)
    | .popDone result => some (.returnPop t result)
    | _ => none

/-- The calls and returns are among the labels of a step. -/
theorem seen_label [DecidableEq N] (s : Queue ι N T) (a : Action ι N T) :
    (label s a).filterMap Label.seen = (event s a).toList := by
  cases a with
  | push t item | pop t | alloc t node => rfl
  | step t =>
    cases hpc : s.pc t with
    | pushLink new oldTail after =>
      simp only [label,event,hpc]
      split
      · split <;> rfl
      · rfl
    | popCas oldHead after result =>
      simp only [label,event,hpc]
      split <;> rfl
    | _ => simp [label,event,hpc,Label.seen]

/-- A dequeue that finds the queue empty is not seen. -/
theorem seen_visible (labels : List (Label ι T)) :
    (labels.filter visible).filterMap Label.seen = labels.filterMap Label.seen := by
  induction labels with
  | nil => rfl
  | cons l rest ih =>
    rw [List.filter_cons]
    split
    next hl => rw [List.filterMap_cons,List.filterMap_cons,ih]
    next hl =>
      have hnone : l.seen = none := by
        cases l with
        | dequeue => rfl
        | callPush | returnPush | callPop | returnPop | enqueue => exact absurd rfl hl
      rw [List.filterMap_cons,hnone,ih]

variable [DecidableEq ι] [DecidableEq N] [Inhabited T]

theorem seen_image (frees : Bool) (dummy : N) (s : Queue ι N T) (acts : List (Action ι N T)) :
    ((queue frees ι T dummy).image label s acts).filterMap Label.seen =
      trace (queue frees ι T dummy) event s acts := by
  induction acts generalizing s with
  | nil => rfl
  | cons a rest ih =>
    rw [trace,System.image,System.image,List.filterMap_append,seen_label]
    cases (queue frees ι T dummy).step s a with
    | none => rfl
    | some t => exact congrArg _ (ih t)

/-- Whatever a program comes to with the queue, it can come to with the atomic queue,
when the delete does nothing. -/
theorem classic_clients_refine [DecidableEq T] {dummy : N}
    {P : Client Program Own (QueueEvent ι T)} {acts : List (Joint Own (Action ι N T))} {p : Program}
    {s : Queue ι N T}
    (hr : (P.on (queue false ι T dummy) event).run (P.start,(queue false ι T dummy).start) acts =
      some (p,s)) :
    ∃ acts' x, (P.on (fifo ι T) fun _ l => l.seen).run (P.start,(fifo ι T).start) acts' =
      some (p,x) := by
  have hfree : ∀ q act, OnObject (fun _ _ => True) (q : Program × Queue ι N T)
      (act : Joint Own (Action ι N T)) := by
    intro q act
    cases act <;> exact trivial
  refine Client.refines ?_ (System.meets_of_forall hfree _ acts) hr
  intro moves s _ hmoves
  have hguarded := guarded_run moves (System.ReachableUnder.start :
    (queue false ι T dummy).Reachable _)
  obtain ⟨labels,x,hlabels,hx,-⟩ := answered hguarded hmoves
  refine ⟨labels,x,?_,hx⟩
  rw [← seen_visible,hlabels]
  exact seen_image false dummy _ moves

/-- Thread 2 finds the queue empty, and says so after the Push of thread 0 has returned. -/
def overtakenEvents : List (QueueEvent (Fin 3) ℕ) :=
  [.callPop 2,.callPush 0 7,.returnPush 0,.callPop 1,.returnPop 1 (some 7),.returnPop 2 none]

def overtakenActions : List (Joint Empty (Action (Fin 3) ℕ ℕ)) :=
  (overtaken ++ [Action.step 1,Action.step 2]).map .object

theorem classic_clients_refine_overtaken :
    ∃ acts x, ((recorder (Fin 3) ℕ).on (fifo (Fin 3) ℕ) fun _ l => l.seen).run
      ([],(fifo (Fin 3) ℕ).start) acts = some (overtakenEvents,x) := by
  have hends : ((recorder (Fin 3) ℕ).on (queue false (Fin 3) ℕ (0 : ℕ)) event).Ends
      ([],(queue false (Fin 3) ℕ 0).start) overtakenActions
      fun q => q.1 = overtakenEvents := by
    decide +kernel
  obtain ⟨⟨events,s⟩,hr,rfl⟩ := hends.exists_run
  exact classic_clients_refine hr

end ClassicMSQueue

end ConcurrencyRuntime
