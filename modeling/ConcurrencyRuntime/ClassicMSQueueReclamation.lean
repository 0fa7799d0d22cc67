import ConcurrencyRuntime.ClassicMSQueueRefinement

/-!
# The delete of the classic Michael-Scott queue

TryPop deletes the node it has taken off head at once, and the address may be
handed out again. A call that has loaded head or tail before dereferences its old
pointer without any protection, so that it may touch a deleted node. Deletes that
take no node under such a call are enough: what else a call remembers is compared
with head or tail before it is used.
-/

namespace ConcurrencyRuntime.ClassicMSQueue

open TransitionSystem LinkedPath AtomicQueue

variable {ι N T : Type*}

/-- No step is about to touch a deleted node. -/
def TouchesAllocated (s : Queue ι N T) : Prop :=
  ∀ t n, (s.pc t).touched = some n → s.allocated n = true

/-- A delete takes no node that another call is going to dereference, and no
comparison succeeds because its counter has gone around. -/
def DeletesSheltered (s : Queue ι N T) (a : Action ι N T) : Prop :=
  Sheltered s a ∧ Unwrapped s a

variable [DecidableEq N]

/-- Under the representation invariant only allocated nodes are touched. -/
theorem Sound.touchesAllocated {s : Queue ι N T} {h : N} {rest : List N} (hS : Sound s h rest) :
    TouchesAllocated s := by
  intro t n hn
  have hL := hS.locals t
  rcases Pc.awaits_cases (Pc.touched_awaits hn) with htail | hhead | hread
  · exact (hL.oldTail n htail).1
  · exact (hL.oldHead n hhead).1
  · exact hL.reading n hread

variable [DecidableEq ι] [Inhabited T] {dummy : N} {acts : List (Action ι N T)} {s s' : Queue ι N T}

/-- In every run whose deletes are sheltered, no step touches a deleted node, and
the values along the chain from head are the items that were enqueued and not
dequeued, in order: an item whose Push has returned stays reachable until it is
popped. -/
theorem delete_safe [DecidableEq T]
    (hm : (queue true ι T dummy).Meets DeletesSheltered (initial ι T dummy) acts)
    (hr : (queue true ι T dummy).run (initial ι T dummy) acts = some s) :
    TouchesAllocated s ∧
      ∃ labels x, labels.filter visible =
          (queue true ι T dummy).image label (initial ι T dummy) acts ∧
        (fifo ι T).run (AtomicQueue.initial ι T) labels = some x ∧
        Contents s x.items ∧ x.call = s.calls ∧ Balanced x := by
  have hg : (queue true ι T dummy).Meets (Guarded true) (initial ι T dummy) acts :=
    hm.mono fun _ _ ha => ⟨fun _ => ha.1,ha.2⟩
  obtain ⟨h,rest,hS⟩ := sound_reachable (System.ReachableUnder.run .start hg hr)
  exact ⟨hS.touchesAllocated,answered hg hr⟩

instance decidableSheltered {ι : Type*} [Fintype ι] (s : Queue ι N T) : ∀ a,
    Decidable (Sheltered s a)
  | .push .. | .pop .. | .alloc .. => isTrue trivial
  | .step t =>
    match hpc : s.pc t with
    | .popDelete ⟨some n,_⟩ _ =>
      decidable_of_iff (∀ u, (s.pc u).awaits ≠ some n) (by simp [Sheltered,hpc])
    | .popDelete ⟨none,_⟩ _ => isTrue (by simp [Sheltered,hpc])
    | .idle | .pushNew _ | .pushTail _ | .pushNext .. | .pushCheck .. | .pushLink .. | .pushSwing ..
    | .pushFinish .. | .pushDone | .popHead | .popTail _ | .popNext .. | .popCheck .. | .popSwing ..
    | .popValue .. | .popCas .. | .popDone _ | .fault => isTrue (by simp [Sheltered,hpc])

instance decidableUnwrapped {ι : Type*} (s : Queue ι N T) : ∀ a, Decidable (Unwrapped s a)
  | .push .. | .pop .. | .alloc .. => isTrue trivial
  | .step t =>
    match hpc : s.pc t with
    | .pushCheck _ old _ | .pushSwing _ old _ | .pushFinish _ old | .popSwing old _ =>
      decidable_of_iff (s.tail.Same old → s.tail = old) (by simp [Unwrapped,hpc])
    | .popCheck old _ _ | .popCas old _ _ =>
      decidable_of_iff (s.head.Same old → s.head = old) (by simp [Unwrapped,hpc])
    | .idle | .pushNew _ | .pushTail _ | .pushNext .. | .pushLink .. | .pushDone
    | .popHead | .popTail _
    | .popNext .. | .popValue .. | .popDelete .. | .popDone _ | .fault =>
      isTrue (by simp [Unwrapped,hpc])

instance {ι : Type*} [Fintype ι] (s : Queue ι N T) (a : Action ι N T) :
    Decidable (DeletesSheltered s a) :=
  inferInstanceAs (Decidable (_ ∧ _))

/-- Thread 0 pushes 7, thread 1 pops it and deletes the dummy node, and thread 0
pushes 9 in a node at the address of the dummy node. -/
def reuse : List (Action (Fin 2) ℕ ℕ) :=
  [[.push 0 7,.alloc 0 1],List.replicate 6 (.step 0),[.pop 1],List.replicate 8 (.step 1),
    [.push 0 9,.alloc 0 0],List.replicate 5 (.step 0)].flatten

theorem reuse_meets :
    (queue true (Fin 2) ℕ 0).Meets DeletesSheltered (initial (Fin 2) ℕ 0) reuse := by
  decide +kernel

theorem reuse_ends : (queue true (Fin 2) ℕ 0).Ends (initial (Fin 2) ℕ 0) reuse
    fun s => s.pc 0 = .pushDone ∧ s.head.nodePtr = some 1 ∧ s.succ 1 = some 0 := by
  decide +kernel

/-- The theorem at a run that reuses an address. -/
theorem delete_safe_reuse :
    ∃ s, (queue true (Fin 2) ℕ 0).run (initial (Fin 2) ℕ 0) reuse = some s ∧
      s.succ 1 = some 0 ∧ TouchesAllocated s ∧
      ∃ labels x, labels.filter visible =
          (queue true (Fin 2) ℕ 0).image label (initial (Fin 2) ℕ 0) reuse ∧
        (fifo (Fin 2) ℕ).run (AtomicQueue.initial (Fin 2) ℕ) labels = some x ∧
        Contents s x.items := by
  obtain ⟨s,hr,-,-,hsucc⟩ := reuse_ends.exists_run
  obtain ⟨hsafe,labels,x,hlabels,hx,hitems,-⟩ := delete_safe reuse_meets hr
  exact ⟨s,hr,hsucc,hsafe,labels,x,hlabels,hx,hitems⟩

omit [Inhabited T] in
/-- A delete that is not sheltered leaves a call at most one step before the touch
of a deleted node: the condition leaves out no delete that is harmless. -/
theorem unsheltered_touches {t : ι} (hs : threadStep true s t = some s')
    (hunsheltered : ¬Sheltered s (.step t)) :
    ∃ u n, s'.allocated n = false ∧ ((s'.pc u).touched = some n ∨
      ∃ s'', threadStep true s' u = some s'' ∧ (s''.pc u).touched = some n ∧
        s''.allocated n = false) := by
  simp only [Sheltered] at hunsheltered
  split at hunsheltered
  next oldHead result hpc =>
    simp only [not_forall,not_not] at hunsheltered
    obtain ⟨n,hn,u,hu⟩ := hunsheltered
    have hut : u ≠ t := by
      rintro rfl
      rw [hpc] at hu
      cases hu
    simp only [threadStep,hpc,hn] at hs
    cases hs
    refine ⟨u,n,Function.update_self ..,?_⟩
    have hpcu : ({ s with allocated := Function.update s.allocated n false }.goto t
        (.popDone (some result))).pc u = s.pc u := Function.update_of_ne hut ..
    cases hu' : s.pc u with
    | popTail oldHead' =>
      rw [hu'] at hu hpcu
      have hload : ∀ x : Queue ι N T, x.pc u = .popTail oldHead' →
          threadStep true x u = some (x.goto u (.popNext oldHead' x.tail)) := by
        intro x hx
        rw [threadStep,hx]
      refine Or.inr ⟨_,hload _ hpcu,?_,Function.update_self ..⟩
      simp only [Queue.goto,Function.update_self]
      exact hu
    | _ =>
      rw [hu'] at hu hpcu
      left
      rw [hpcu]
      exact hu
  next => exact absurd trivial hunsheltered

/-- Thread 0 loads tail in a Push and stops; thread 1 pushes behind the dummy node,
and thread 2 pops that item and deletes the dummy node. -/
def stalledPush : List (Action (Fin 3) ℕ ℕ) :=
  [[.push 0 7,.alloc 0 1,.step 0,.push 1 8,.alloc 1 2],List.replicate 6 (.step 1),
    [.pop 2],List.replicate 7 (.step 2)].flatten

theorem stalledPush_ends : (queue true (Fin 3) ℕ 0).Ends (initial (Fin 3) ℕ 0) stalledPush
    fun s => s.pc 0 = .pushNext 1 ⟨some 0,0⟩ ∧ s.allocated 0 = false := by
  decide +kernel

/-- Thread 0 goes on to its compare-exchange before the others begin; after the
delete, thread 1 gets the address for a new node, which thread 0 then links its own
node to. The Push of thread 0 returns. -/
def strayedPush : List (Action (Fin 3) ℕ ℕ) :=
  [[.push 0 7,.alloc 0 1,.step 0,.step 0,.step 0,.push 1 8,.alloc 1 2],List.replicate 6 (.step 1),
    [.pop 2],List.replicate 8 (.step 2),[.push 1 9,.alloc 1 0,.step 0,.step 0,.step 0]].flatten

theorem strayedPush_ends : (queue true (Fin 3) ℕ 0).Ends (initial (Fin 3) ℕ 0) strayedPush
    fun s => s.pc 0 = .idle ∧ s.pc 2 = .idle ∧ s.head.nodePtr = some 2 ∧ s.succ 2 = none := by
  decide +kernel

/-- The delete is not safe: the Push of thread 0 is about to load the next field of
the deleted node. In another run the Push has returned, its item was not popped, and
the chain from head is empty. -/
theorem delete_under_push :
    (∃ s, (queue true (Fin 3) ℕ 0).Reachable s ∧ (s.pc 0).touched = some 0 ∧
      s.allocated 0 = false ∧ ¬TouchesAllocated s) ∧
    ∃ s, (queue true (Fin 3) ℕ 0).run (initial (Fin 3) ℕ 0) strayedPush = some s ∧
      s.pc 0 = .idle ∧ Contents s [] := by
  constructor
  · obtain ⟨s,hr,hpc,hfree⟩ := stalledPush_ends.reachable
    have htouched : (s.pc 0).touched = some 0 := by
      rw [hpc]
      rfl
    refine ⟨s,hr,htouched,hfree,?_⟩
    intro hsafe
    rw [hsafe 0 0 htouched] at hfree
    cases hfree
  · obtain ⟨s,hr,hidle,-,hhead,hnull⟩ := strayedPush_ends.exists_run
    exact ⟨s,hr,hidle,2,[],hhead,hnull,rfl⟩

end ConcurrencyRuntime.ClassicMSQueue
