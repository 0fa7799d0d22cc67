import ConcurrencyRuntime.AtomicQueue
import ConcurrencyRuntime.SimpleMSQueueInvariant

/-!
# The simple Michael-Scott queue refines the atomic queue

The compare-exchange of a null next is the enqueue, the compare-exchange of
head is the dequeue, and the load of a null next on the validated head is the
dequeue on the empty queue. Each program point determines the progress of its
call, so the abstraction is a function of the state and the proof is a forward
simulation.
-/

namespace ConcurrencyRuntime.SimpleMSQueue

open TransitionSystem LinkedPath AtomicQueue

variable {ι N T : Type*}

/-- The progress of the call that a program point stands for, with the values
and links it depends on read from memory. -/
@[simp]
def Pc.call (value : N → Option T) (next : N → Option N) : Pc N T → Call T
  | .idle | .fault => .idle
  | .pushNew item => .pushing item
  | .pushTail new | .pushNext new _ | .pushHelp new _ | .pushSwing new _ _ | .pushLink new _ =>
    match value new with
    | some item => .pushing item
    | none => .idle
  | .pushFinish .. | .pushDone => .pushed
  | .popLoad | .popProtect _ | .popValidate _ | .popNext _ | .popTail _ | .popHelp _
  | .popSwing .. | .popHeadNext _ | .popHead .. => .popping
  | .popReleaseEmpty => .popped none
  | .popSuccessor oldHead => .popped ((next oldHead).bind value)
  | .popValue _ succ => .popped (value succ)
  | .popRelease _ result | .popRetire _ result => .popped (some result)
  | .popDone result => .popped result

/-- The progress of all calls. -/
def Queue.calls (s : Queue ι N T) (t : ι) : Call T :=
  (s.pc t).call s.value s.next

/-- A call depends on memory only through the unlinked node of a Push and
the awaited node of a TryPop. -/
theorem Pc.call_congr {value value' : N → Option T} {next next' : N → Option N} {pc : Pc N T}
    (hnew : ∀ n, pc.newNode = some n → value' n = value n)
    (hsucc : pc.successor next' = pc.successor next)
    (hval : ∀ n, pc.successor next = some n → value' n = value n) :
    pc.call value' next' = pc.call value next := by
  cases pc with
  | popSuccessor oldHead =>
    simp only [Pc.successor] at hsucc hval
    cases hn : next oldHead with
    | none => simp [hsucc,hn]
    | some n => simp [hsucc,hn,hval n hn]
  | _ => simp_all

variable [DecidableEq ι]

@[simp]
theorem calls_goto (s : Queue ι N T) (t : ι) (q : Pc N T) :
    (s.goto t q).calls = Function.update s.calls t (q.call s.value s.next) := by
  funext u
  by_cases hu : u = t
  · subst hu
    simp [Queue.calls,Queue.goto]
  · simp [Queue.calls,Queue.goto,hu]

@[simp]
theorem calls_protect (s : Queue ι N T) (t : ι) (p : Option N) : (s.protect t p).calls = s.calls :=
  rfl

variable [DecidableEq N]

omit [DecidableEq ι] in
@[simp]
theorem calls_swingTail (s : Queue ι N T) (old : N) (new : Option N) (spurious : Bool) :
    (s.swingTail old new spurious).calls = s.calls := by
  unfold Queue.swingTail
  split <;> rfl

omit [DecidableEq ι] in
@[simp]
theorem value_swingTail (s : Queue ι N T) (old : N) (new : Option N) (spurious : Bool) :
    (s.swingTail old new spurious).value = s.value := by
  unfold Queue.swingTail
  split <;> rfl

omit [DecidableEq ι] in
@[simp]
theorem next_swingTail (s : Queue ι N T) (old : N) (new : Option N) (spurious : Bool) :
    (s.swingTail old new spurious).next = s.next := by
  unfold Queue.swingTail
  split <;> rfl

/-- The effects of the atomic queue that a step stands for. -/
def label (s : Queue ι N T) : Action ι N T → List (Label ι T)
  | .push t item => [.callPush t item]
  | .pop t => [.callPop t]
  | .alloc .. | .delete _ => []
  | .step t spurious =>
    match s.pc t with
    | .pushLink _ oldTail =>
      if s.next oldTail = none ∧ spurious = false then [.enqueue t] else []
    | .pushDone => [.returnPush t]
    | .popNext oldHead => if s.next oldHead = none then [.dequeue t none] else []
    | .popHead oldHead after =>
      if s.head = some oldHead ∧ spurious = false then [.dequeue t (after.bind s.value)] else []
    | .popDone result => [.returnPop t result]
    | _ => []

/-- The values along the chain behind the dummy node are these items. -/
def Contents (s : Queue ι N T) (items : List T) : Prop :=
  ∃ h rest, s.head = some h ∧ Path s.next h rest ∧ rest.map s.value = items.map some

/-- A sound queue stands for the atomic queue with the values along its chain
as items and the same progress of every call. -/
structure Represents (s : Queue ι N T) (h : N) (rest : List N) (x : Fifo ι T) : Prop extends
    Sound s h rest where
  items : rest.map s.value = x.items.map some
  calls : x.call = s.calls

section Frames

variable {s s' : Queue ι N T} {h : N} {rest : List N} {t : ι}

omit [DecidableEq ι] in
/-- An allocation is invisible to every call in progress. -/
theorem calls_alloc {node : N} {item : T} (hS : Sound s h rest) (hfree : s.life node = .free) :
    Queue.calls { s with
      life := Function.update s.life node .live, next := Function.update s.next node none,
      value := Function.update s.value node (some item) } = s.calls := by
  have hne : ∀ n, s.life n ≠ .free → n ≠ node := fun n hn he => hn (he ▸ hfree)
  funext u
  have hL := hS.locals u
  have hval : ∀ n, s.life n ≠ .free →
      Function.update s.value node (some item) n = s.value n :=
    fun n hn => Function.update_of_ne (hne n hn) ..
  refine Pc.call_congr (fun n hn => hval n (by simp [(hL.newNode n hn).1])) ?_
    fun n hn => hval n (hL.successor n hn).1
  change (s.pc u).successor (Function.update s.next node none) = (s.pc u).successor s.next
  cases hu : s.pc u with
  | popSuccessor oldHead =>
    have ho := (hL.oldHead oldHead (by simp [hu])).2.1
    simp [hne _ ho]
  | _ => simp

omit [DecidableEq ι] in
/-- Writing a null next is invisible to every call in progress: the node that
a TryPop has popped has its next set. -/
theorem calls_link {old : N} {new : Option N} (hS : Sound s h rest) (hnull : s.next old = none) :
    Queue.calls { s with next := Function.update s.next old new } = s.calls := by
  funext u
  refine Pc.call_congr (fun _ _ => rfl) ?_ fun _ _ => rfl
  change (s.pc u).successor (Function.update s.next old new) = (s.pc u).successor s.next
  cases hu : s.pc u with
  | popSuccessor oldHead =>
    have ho := (hS.locals u).hasNext oldHead (by simp [hu])
    have hne : oldHead ≠ old := fun he => ho (he ▸ hnull)
    simp [hne]
  | _ => simp

/-- The move of a value is invisible to every other call. -/
theorem calls_popValue {oldHead succ : N} {c : Call T} (hS : Sound s h rest)
    (hpc : s.pc t = .popValue oldHead succ) :
    Function.update (Queue.calls { s with value := Function.update s.value succ none }) t c =
      Function.update s.calls t c := by
  have hL := hS.locals t
  rw [hpc] at hL
  obtain ⟨-,hb,-⟩ := hL.successor succ rfl
  funext u
  by_cases hu : u = t
  · subst hu
    simp
  simp only [Function.update_of_ne hu]
  refine Pc.call_congr (fun n hn => Function.update_of_ne ?_ ..) rfl fun n hn =>
    Function.update_of_ne ?_ ..
  · rintro rfl
    obtain ⟨-,hnull,hout,-⟩ := (hS.locals u).newNode n hn
    rcases hb with rfl | ⟨-,hs⟩
    · exact hout List.mem_cons_self
    · exact hs hnull
  · rintro rfl
    exact hu (hS.successorUnique u t n hn (by simp [hpc]))

omit [DecidableEq ι] [DecidableEq N] in
/-- The load of a null next on the validated head finds the queue empty. -/
theorem Sound.rest_empty {oldHead : N} (hS : Sound s h rest) (hpc : s.pc t = .popNext oldHead)
    (hnull : s.next oldHead = none) : oldHead = h ∧ rest = [] := by
  obtain ⟨-,-,hb⟩ := (hS.locals t).oldHead oldHead (by simp [hpc])
  rcases hb with rfl | ⟨-,hset⟩
  · exact ⟨rfl,path_unique hS.path hnull⟩
  · exact absurd hnull hset

omit [DecidableEq N] in
/-- Moving a thread within one stage of its call changes no call. -/
theorem calls_goto_same {q : Pc N T} (hc : s'.calls = s.calls)
    (hq : q.call s'.value s'.next = (s.pc t).call s.value s.next) :
    (s'.goto t q).calls = s.calls := by
  rw [calls_goto,hc,hq]
  exact Function.update_eq_self ..

end Frames

section Steps

variable [DecidableEq T] {s s' : Queue ι N T} {x : Fifo ι T} {h h' : N}
  {rest rest' : List N} {t : ι}
  {spurious : Bool}

omit [DecidableEq N] in
/-- A step that changes no call is answered by nothing. -/
theorem run_quiet (hx : x.call = s.calls) (hc : s'.calls = s.calls) :
    (fifo ι T).run x [] = some { x with call := s'.calls } := by
  rw [hc,←hx]
  rfl

/-- A step that keeps the chain is answered by the calls and returns it
stands for, or by a dequeue on the empty queue. -/
theorem run_keep (hR : Represents s h rest x) (hs : threadStep s t spurious = some s')
    (hlink : ∀ new oldTail, s.pc t = .pushLink new oldTail →
      ¬(s.next oldTail = none ∧ spurious = false))
    (hpop : ∀ oldHead after, s.pc t = .popHead oldHead after →
      ¬(s.head = some oldHead ∧ spurious = false)) :
    (fifo ι T).run x (label s (.step t spurious)) = some { x with call := s'.calls } := by
  have hL := hR.locals t
  have hct : x.call t = (s.pc t).call s.value s.next := by rw [hR.calls]; rfl
  have hx := hR.calls
  unfold threadStep at hs
  split at hs
  iterate 3 cases hs
  next new hpc =>
    rw [label,hpc]
    obtain ⟨tl,-,htl,-⟩ := hR.tail
    rw [htl] at hs
    cases hs
    exact run_quiet hx (calls_goto_same rfl (by simp [hpc]))
  next new oldTail hpc =>
    rw [label,hpc]
    split at hs <;> cases hs <;> exact run_quiet hx (calls_goto_same rfl (by simp [hpc]))
  next new oldTail hpc =>
    rw [label,hpc]
    cases hs
    exact run_quiet hx (calls_goto_same rfl (by simp [hpc]))
  next new oldTail after hpc =>
    rw [label,hpc]
    cases hs
    exact run_quiet hx (calls_goto_same (by simp) (by simp [hpc]))
  next new oldTail hpc =>
    have hc := hlink new oldTail hpc
    rw [label,hpc]
    simp only [if_neg hc] at hs ⊢
    cases hs
    exact run_quiet hx (calls_goto_same rfl (by simp [hpc]))
  next new oldTail hpc =>
    rw [label,hpc]
    cases hs
    exact run_quiet hx (calls_goto_same (by simp) (by simp [hpc]))
  next hpc =>
    rw [label,hpc]
    cases hs
    simp [System.run,fifo,AtomicQueue.step,hct,hpc,hx]
  next hpc =>
    rw [label,hpc]
    cases hs
    exact run_quiet hx (calls_goto_same rfl (by simp [hpc]))
  next before hpc =>
    rw [label,hpc]
    cases hs
    exact run_quiet hx (calls_goto_same rfl (by simp [hpc]))
  next before hpc =>
    rw [label,hpc]
    split at hs
    next hb =>
      rw [hR.head] at hb
      subst hb
      cases hs
      exact run_quiet hx (calls_goto_same rfl (by simp [hpc]))
    next hb =>
      cases hs
      exact run_quiet hx (calls_goto_same rfl (by simp [hpc]))
  next oldHead hpc =>
    rw [label,hpc]
    split at hs <;> cases hs
    next hnull =>
      obtain ⟨-,rfl⟩ := hR.rest_empty hpc hnull
      have hitems : x.items = [] := by simpa using hR.items.symm
      simp [System.run,fifo,AtomicQueue.step,hct,hpc,hx,hnull,hitems]
    next k hk =>
      simp only [hk,reduceCtorEq,if_false]
      exact run_quiet hx (calls_goto_same rfl (by simp [hpc]))
  next hpc =>
    rw [label,hpc]
    cases hs
    exact run_quiet hx (calls_goto_same rfl (by simp [hpc]))
  next oldHead hpc =>
    rw [label,hpc]
    split at hs <;> cases hs <;> exact run_quiet hx (calls_goto_same rfl (by simp [hpc]))
  next oldHead hpc =>
    rw [label,hpc]
    cases hs
    exact run_quiet hx (calls_goto_same rfl (by simp [hpc]))
  next oldHead after hpc =>
    rw [label,hpc]
    cases hs
    exact run_quiet hx (calls_goto_same (by simp) (by simp [hpc]))
  next oldHead hpc =>
    rw [label,hpc]
    cases hs
    exact run_quiet hx (calls_goto_same rfl (by simp [hpc]))
  next oldHead after hpc =>
    have hc := hpop oldHead after hpc
    rw [label,hpc]
    simp only [if_neg hc] at hs ⊢
    cases hs
    exact run_quiet hx (calls_goto_same rfl (by simp [hpc]))
  next oldHead hpc =>
    rw [label,hpc]
    rw [hpc] at hL
    obtain ⟨k,hk⟩ := Option.ne_none_iff_exists'.mp (hL.hasNext oldHead rfl)
    rw [hk] at hs
    cases hs
    exact run_quiet hx (calls_goto_same rfl (by simp [hpc,hk]))
  next oldHead succ hpc =>
    rw [label,hpc]
    rw [hpc] at hL
    obtain ⟨v,hv⟩ := Option.ne_none_iff_exists'.mp (hL.successor succ rfl).2.2
    rw [hv] at hs
    cases hs
    refine run_quiet hx ?_
    rw [calls_goto,calls_popValue hR.toSound hpc]
    have hsame : s.calls t = .popped (some v) := by simp [Queue.calls,hpc,hv]
    simp [←hsame]
  next oldHead result hpc =>
    rw [label,hpc]
    cases hs
    exact run_quiet hx (calls_goto_same rfl (by simp [hpc]))
  next oldHead result hpc =>
    rw [label,hpc]
    cases hs
    exact run_quiet hx (calls_goto_same rfl (by simp [hpc]))
  next result hpc =>
    rw [label,hpc]
    cases hs
    simp [System.run,fifo,AtomicQueue.step,hct,hpc,hx]

omit [DecidableEq T] in
/-- Only the move of a result changes a value. -/
theorem value_threadStep (hs : threadStep s t spurious = some s') :
    s'.value = s.value ∨ ∃ oldHead succ, s.pc t = .popValue oldHead succ ∧
      s'.value = Function.update s.value succ none := by
  cases hpc : s.pc t with
  | popValue oldHead succ =>
    simp only [threadStep,hpc] at hs
    split at hs <;> cases hs
    · exact Or.inr ⟨oldHead,succ,rfl,rfl⟩
    · exact Or.inl rfl
  | _ =>
    left
    rw [threadStep,hpc] at hs
    dsimp only at hs
    repeat' split at hs
    all_goals cases hs
    all_goals simp [Queue.goto,Queue.protect]

omit [DecidableEq T] in
/-- No step moves a value of the chain. -/
theorem value_chain (hS : Sound s h rest) (hs : threadStep s t spurious = some s') {n : N}
    (hn : n ∈ rest) : s'.value n = s.value n := by
  rcases value_threadStep hs with hv | ⟨oldHead,succ,hpc,hv⟩
  · rw [hv]
  · have hL := hS.locals t
    rw [hpc] at hL
    obtain ⟨-,hb,-⟩ := hL.successor succ rfl
    rw [hv,Function.update_of_ne]
    rintro rfl
    exact hb.not_mem hS.toShared hn

/-- Every step of a thread is answered by the effects it stands for. -/
theorem represents_threadStep (hR : Represents s h rest x)
    (hs : threadStep s t spurious = some s') :
    ∃ x', (fifo ι T).run x (label s (.step t spurious)) = some x' ∧
      ∃ h' rest', Represents s' h' rest' x' := by
  obtain ⟨h',rest',hS',hchain⟩ := sound_threadStep hR.toSound hs
  have hval := fun n hn => value_chain (n := n) hR.toSound hs hn
  have hct : x.call t = (s.pc t).call s.value s.next := by rw [hR.calls]; rfl
  cases hchain with
  | keep hlink hpop =>
    refine ⟨_,run_keep hR hs hlink hpop,h,rest,hS',?_,rfl⟩
    rw [List.map_congr_left hval]
    exact hR.items
  | link new oldTail hpc hnull hsp =>
    have hL := hR.locals t
    rw [hpc] at hL
    obtain ⟨v,hv⟩ := Option.ne_none_iff_exists'.mp (hL.newNode new rfl).2.2.2
    have hs0 : threadStep s t spurious = some ({ s with
        next := Function.update s.next oldTail (some new) }.goto t (.pushFinish new oldTail)) := by
      simp [threadStep,hpc,hnull,hsp]
    rw [hs0] at hs
    cases hs
    refine ⟨{ x with
      items := x.items ++ [v], enqueued := x.enqueued ++ [v],
      call := Function.update x.call t .pushed },?_,h,rest ++ [new],hS',?_,?_⟩
    · simp [label,hpc,hnull,hsp,System.run,fifo,AtomicQueue.step,hct,hv]
    · simp [Queue.goto,hR.items,hv]
    · rw [calls_goto,calls_link hR.toSound hnull,hR.calls]
      rfl
  | pop oldHead _ _ hpc hhead hsp hrest =>
    have hs0 : threadStep s t spurious =
        some ({ s with head := some h' }.goto t (.popSuccessor oldHead)) := by
      simp [threadStep,hpc,hhead,hsp]
    rw [hs0] at hs
    cases hs
    have hL := hR.locals t
    rw [hpc] at hL
    have hnext := (hL.link oldHead (some h') rfl).1
    have hitems := hR.items
    rw [hrest] at hitems
    cases hi : x.items with
    | nil => simp [hi] at hitems
    | cons v items =>
      rw [hi] at hitems
      simp only [List.map_cons,List.cons.injEq] at hitems
      refine ⟨{ x with
        items := items, dequeued := x.dequeued ++ [v],
        call := Function.update x.call t (.popped (some v)) },?_,h',rest',hS',?_,?_⟩
      · simp [label,hpc,hhead,hsp,System.run,fifo,AtomicQueue.step,hct,hitems.1,hi]
      · exact hitems.2
      · rw [calls_goto,hR.calls]
        simp only [Pc.call,hnext,Option.bind_some,hitems.1]
        rfl

/-- Every sheltered step is answered by the effects it stands for. -/
theorem represents_step {a : Action ι N T} (hR : Represents s h rest x) (ha : Sheltered s a)
    (hs : step s a = some s') :
    ∃ x', (fifo ι T).run x (label s a) = some x' ∧ ∃ h' rest', Represents s' h' rest' x' := by
  have hct : ∀ u, x.call u = (s.pc u).call s.value s.next := fun u => by rw [hR.calls]; rfl
  cases a with
  | step t spurious => exact represents_threadStep hR hs
  | push t item =>
    simp only [step] at hs
    split at hs <;> cases hs
    next hpc =>
      refine ⟨{ x with call := Function.update x.call t (.pushing item) },?_,h,rest,
        hR.outside (by constructor <;> simp) rfl rfl rfl,hR.items,?_⟩
      · simp [label,System.run,fifo,AtomicQueue.step,hct,hpc]
      · rw [calls_goto,hR.calls]
        rfl
  | pop t =>
    simp only [step] at hs
    split at hs <;> cases hs
    next hpc =>
      refine ⟨{ x with call := Function.update x.call t .popping },?_,h,rest,
        hR.outside (by constructor <;> simp) rfl rfl rfl,hR.items,?_⟩
      · simp [label,System.run,fifo,AtomicQueue.step,hct,hpc]
      · rw [calls_goto,hR.calls]
        rfl
  | alloc t node =>
    simp only [step] at hs
    split at hs
    next item hpc =>
      split at hs <;> cases hs
      next hfree =>
        refine ⟨x,rfl,h,rest,hR.alloc hfree,?_,?_⟩
        · have hval : ∀ n ∈ rest, Function.update s.value node (some item) n = s.value n := by
            intro n hn
            have hl := hR.live n (List.mem_cons_of_mem _ hn)
            rw [Function.update_of_ne]
            rintro rfl
            rw [hfree] at hl
            cases hl
          rw [←hR.items]
          exact List.map_congr_left hval
        · refine (hR.calls.trans (calls_goto_same (calls_alloc hR.toSound hfree) ?_).symm)
          simp [hpc]
    next => cases hs
  | delete node =>
    simp only [step] at hs
    split at hs <;> cases hs
    next hlife => exact ⟨x,rfl,h,rest,hR.delete hlife ha.1 ha.2,hR.items,hR.calls⟩

end Steps

/-- The chain from head is null-terminated, and tail is its last node or its
second-to-last. -/
def TailNearEnd (s : Queue ι N T) : Prop :=
  ∃ h rest tl front, s.head = some h ∧ Path s.next h rest ∧ s.tail = some tl ∧
    (h :: rest = front ++ [tl] ∨ ∃ last, h :: rest = front ++ [tl,last])

omit [DecidableEq ι] [DecidableEq N] in
theorem Shared.tailNearEnd {s : Queue ι N T} {h : N} {rest : List N} (hS : Shared s h rest) :
    TailNearEnd s := by
  obtain ⟨tl,hmem,htl,hlast⟩ := hS.tail
  obtain ⟨front,back,he,hb⟩ : ∃ front back, h :: rest = front ++ tl :: back ∧
      Path s.next tl back := by
    rcases List.mem_cons.mp hmem with rfl | hmem
    · exact ⟨[],rest,rfl,hS.path⟩
    · obtain ⟨front,back,he,hb⟩ := path_suffix hS.path hmem
      exact ⟨h :: front,back,by rw [he,List.cons_append],hb⟩
  refine ⟨h,rest,tl,front,hS.head,hS.path,htl,?_⟩
  cases back with
  | nil => exact Or.inl he
  | cons k back =>
    have hk : back = [] := path_unique hb.2 (hlast k hb.1)
    exact Or.inr ⟨k,hk ▸ he⟩

/-- At some moment of the schedule, and after the last call of TryPop by the
thread, the queue was empty. -/
def EmptyDuringCall (dummy : N) (acts : List (Action ι N T)) (t : ι) : Prop :=
  ∃ front back u, acts = front ++ back ∧ (queue ι T dummy).run (initial ι T dummy) front = some u ∧
    Contents u [] ∧ .pop t ∉ back

/-- A TryPop that has found the queue empty and not returned. -/
@[simp]
def Pc.foundEmpty {N T : Type*} : Pc N T → Bool
  | .popReleaseEmpty | .popDone none => true
  | _ => false

section Empty

variable {s s' : Queue ι N T} {t u : ι} {spurious : Bool} {dummy : N}

/-- A step of a thread moves no other thread. -/
theorem pc_threadStep (hs : threadStep s t spurious = some s') (hu : u ≠ t) :
    s'.pc u = s.pc u := by
  rw [threadStep] at hs
  split at hs
  all_goals repeat' split at hs
  all_goals cases hs
  all_goals simp [Queue.goto,Queue.protect,swingTail_pc,hu]

/-- A TryPop finds the queue empty only by its load of a null next. -/
theorem foundEmpty_threadStep (hs : threadStep s t spurious = some s')
    (hfound : (s'.pc t).foundEmpty = true) : (s.pc t).foundEmpty = true ∨
      ∃ oldHead, s.pc t = .popNext oldHead ∧ s.next oldHead = none := by
  rw [threadStep] at hs
  split at hs
  all_goals repeat' split at hs
  all_goals cases hs
  all_goals simp_all [Queue.goto,Queue.protect]

/-- Any step after which a TryPop has found the queue empty, and which does
not find it empty itself, comes after the call and after the finding. -/
theorem foundEmpty_step {a : Action ι N T} (hs : step s a = some s')
    (hfound : (s'.pc t).foundEmpty = true) : ((s.pc t).foundEmpty = true ∧ a ≠ .pop t) ∨
      ∃ oldHead spurious, a = .step t spurious ∧ s.pc t = .popNext oldHead ∧
        s.next oldHead = none := by
  cases a with
  | step u spurious =>
    by_cases hu : t = u
    · subst hu
      rcases foundEmpty_threadStep hs hfound with hf | ⟨oldHead,hpc,hnull⟩
      · exact Or.inl ⟨hf,by rintro ⟨⟩⟩
      · exact Or.inr ⟨oldHead,spurious,rfl,hpc,hnull⟩
    · rw [pc_threadStep hs hu] at hfound
      exact Or.inl ⟨hfound,by rintro ⟨⟩⟩
  | push u item | pop u =>
    simp only [step] at hs
    split at hs <;> cases hs
    by_cases hu : t = u
    · subst hu
      simp [Queue.goto] at hfound
    · exact Or.inl ⟨by simpa [Queue.goto,hu] using hfound,by simp [Ne.symm hu]⟩
  | alloc u node =>
    simp only [step] at hs
    split at hs
    · split at hs <;> cases hs
      by_cases hu : t = u
      · subst hu
        simp [Queue.goto] at hfound
      · exact Or.inl ⟨by simpa [Queue.goto,hu] using hfound,by rintro ⟨⟩⟩
    · cases hs
  | delete node =>
    simp only [step] at hs
    split at hs <;> cases hs
    exact Or.inl ⟨hfound,by rintro ⟨⟩⟩

/-- In a sheltered run, a TryPop that has found the queue empty did so during
its call. -/
theorem emptyDuringCall_run {acts : List (Action ι N T)}
    (hm : (queue ι T dummy).Meets Sheltered (initial ι T dummy) acts)
    (hr : (queue ι T dummy).run (initial ι T dummy) acts = some s)
    (hfound : (s.pc t).foundEmpty = true) : EmptyDuringCall dummy acts t := by
  -- the schedule grows at its end: the finding is its last step, or an earlier one
  induction acts using List.reverseRecOn generalizing s with
  | nil =>
    cases hr
    cases hfound
  | append_singleton front a ih =>
    obtain ⟨u,hu,hs⟩ := System.run_snoc hr
    rcases foundEmpty_step hs hfound with ⟨hf,hne⟩ | ⟨oldHead,spurious,rfl,hpc,hnull⟩
    · obtain ⟨front',back,v,rfl,hv,hempty,hback⟩ := ih hm.front hu hf
      refine ⟨front',back ++ [a],v,by simp,hv,hempty,?_⟩
      simp [hback,hne.symm]
    · obtain ⟨h,rest,hS⟩ := sound_reachable (System.ReachableUnder.run .start hm.front hu)
      obtain ⟨rfl,rfl⟩ := hS.rest_empty hpc hnull
      exact ⟨front,[.step t spurious],u,rfl,hu,⟨oldHead,[],hS.head,hS.path,rfl⟩,by simp⟩

end Empty

section Runs

variable [DecidableEq T] {dummy : N} {acts : List (Action ι N T)} {s : Queue ι N T}

omit [DecidableEq ι] [DecidableEq T] in
/-- The empty queue stands for the empty atomic queue. -/
theorem represents_initial (dummy : N) :
    Represents (initial ι T dummy) dummy [] (AtomicQueue.initial ι T) :=
  ⟨sound_initial dummy,rfl,rfl⟩

/-- Every sheltered run is answered by the run of the atomic queue over the
effects it stands for. -/
theorem represents_run (hm : (queue ι T dummy).Meets Sheltered (initial ι T dummy) acts)
    (hr : (queue ι T dummy).run (initial ι T dummy) acts = some s) :
    ∃ x, (fifo ι T).run (AtomicQueue.initial ι T)
      ((queue ι T dummy).image label (initial ι T dummy) acts) = some x ∧
      ∃ h rest, Represents s h rest x := by
  refine System.simulation (R := fun s x => ∃ h rest, Represents s h rest x) ?_
    ⟨dummy,[],represents_initial dummy⟩ hm hr
  rintro s x a s' ⟨h,rest,hR⟩ ha hs
  exact represents_step hR ha hs

omit [DecidableEq ι] [DecidableEq N] [DecidableEq T] in
/-- Nodes that are never deleted need no shelter. -/
theorem neverDelete_sheltered (s : Queue ι N T) (a : Action ι N T) (ha : NeverDelete s a) :
    Sheltered s a := by
  cases a with
  | delete node => exact ha.elim
  | push | pop | alloc | step => exact trivial

/-- When nodes are never deleted, every run of the queue is a run of the
atomic queue: with the enqueues, dequeues and returns in the order of the
compare-exchanges and loads that decide them, with the values along the chain
as its items, and with nothing lost, duplicated or reordered. The chain stays
null-terminated with tail at its end or one before, and a TryPop that returns
nothing has seen the queue empty during its call. -/
theorem queue_refines_fifo
    (hm : (queue ι T dummy).Meets NeverDelete (initial ι T dummy) acts)
    (hr : (queue ι T dummy).run (initial ι T dummy) acts = some s) :
    (∃ x, (fifo ι T).run (AtomicQueue.initial ι T)
        ((queue ι T dummy).image label (initial ι T dummy) acts) = some x ∧
      Contents s x.items ∧ x.call = s.calls ∧ Balanced x) ∧
    TailNearEnd s ∧ ∀ t, s.pc t = .popDone none → EmptyDuringCall dummy acts t := by
  have hms := hm.mono neverDelete_sheltered
  obtain ⟨x,hx,h,rest,hR⟩ := represents_run hms hr
  refine ⟨⟨x,hx,⟨h,rest,hR.head,hR.path,hR.items⟩,hR.calls,balanced_run hx⟩,hR.tailNearEnd,?_⟩
  intro t ht
  exact emptyDuringCall_run hms hr (by simp [ht])

instance (s : Queue ι N T) : ∀ a, Decidable (NeverDelete s a)
  | .delete _ => isFalse id
  | .push .. | .pop .. | .alloc .. | .step .. => isTrue trivial

/-- Two pushes overlap: thread 0 loads tail first, thread 1 links first and
stops before it swings tail, thread 0 helps and links behind it, and a TryPop
takes the item of thread 1. -/
def overlapping : List (Action (Fin 3) ℕ ℕ) :=
  [[.push 0 7,.alloc 0 1,.push 1 8,.alloc 1 2,.step 0 false,.step 1 false,.step 1 false,
    .step 1 true,.step 1 false,.step 1 false,.step 1 false],List.replicate 7 (.step 0 false),
    [.pop 2],List.replicate 11 (.step 2 false)].flatten

theorem overlapping_ends : (queue (Fin 3) ℕ 0).Ends (initial (Fin 3) ℕ 0) overlapping
    fun s => s.pc 2 = .popDone (some 8) := by
  decide +kernel

theorem overlapping_neverDelete :
    (queue (Fin 3) ℕ 0).Meets NeverDelete (initial (Fin 3) ℕ 0) overlapping := by
  decide +kernel

theorem queue_refines_fifo_overlapping :
    ∃ acts s x, (queue (Fin 3) ℕ (0 : ℕ)).run (initial (Fin 3) ℕ 0) acts = some s ∧
      s.pc 2 = .popDone (some 8) ∧
      (fifo (Fin 3) ℕ).run (AtomicQueue.initial (Fin 3) ℕ)
        ((queue (Fin 3) ℕ 0).image label (initial (Fin 3) ℕ 0) acts) = some x ∧
      Contents s x.items := by
  obtain ⟨s,hr,hpc⟩ := overlapping_ends.exists_run
  obtain ⟨⟨x,hx,hc,-⟩,-⟩ := queue_refines_fifo overlapping_neverDelete hr
  exact ⟨_,s,x,hr,hpc,hx,hc⟩

end Runs

end ConcurrencyRuntime.SimpleMSQueue
