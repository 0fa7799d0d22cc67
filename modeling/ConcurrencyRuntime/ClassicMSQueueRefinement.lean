import ConcurrencyRuntime.AtomicQueue
import ConcurrencyRuntime.ClassicMSQueueCounters

/-!
# The classic Michael-Scott queue refines the atomic queue

The compare-exchange of a null next is the enqueue and the compare-exchange of
head is the dequeue. A TryPop that returns nothing takes effect at its load of a
null next, but only the later comparison of head decides that it does, so that
the effect is not a function of the state. Until then the run is answered in two
ways, with the effect and without it: for every set of undecided calls there is a
run of the atomic queue in which just these have found the queue empty.
-/

namespace ConcurrencyRuntime.ClassicMSQueue

open TransitionSystem LinkedPath AtomicQueue

variable {ι N T : Type*}

/-- The progress of the call that a program point stands for. -/
@[simp]
def Pc.call (value : N → T) : Pc N T → Call T
  | .idle | .fault => .idle
  | .pushNew item => .pushing item
  | .pushTail new | .pushNext new _ | .pushCheck new _ _ | .pushLink new _ _ | .pushSwing new _ _ =>
    .pushing (value new)
  | .pushFinish .. | .pushDone => .pushed
  | .popHead | .popTail _ | .popNext .. | .popCheck .. | .popSwing .. | .popValue .. | .popCas .. =>
    .popping
  | .popDelete _ result => .popped (some result)
  | .popDone result => .popped result

/-- The progress of all calls. -/
def Queue.calls (s : Queue ι N T) (t : ι) : Call T :=
  (s.pc t).call s.value

/-- A call depends on memory only through the unlinked node of a Push. -/
theorem Pc.call_congr {value value' : N → T} {pc : Pc N T}
    (hnew : ∀ n, pc.newNode = some n → value' n = value n) : pc.call value' = pc.call value := by
  cases pc <;> simp_all

/-- A TryPop that has loaded a null next and returns nothing if it finds head as
it is now. -/
def Undecided (s : Queue ι N T) (t : ι) : Prop :=
  ∃ oldTail after, s.pc t = .popCheck s.head oldTail after ∧ s.head.nodePtr = oldTail.nodePtr ∧
    after.nodePtr = none

/-- The values along the chain behind the dummy node are these items. -/
def Contents (s : Queue ι N T) (items : List T) : Prop :=
  ∃ h rest, s.head.nodePtr = some h ∧ Path s.succ h rest ∧ rest.map s.value = items

/-- The chain from head is null-terminated, and tail is its last node or its
second-to-last. -/
def TailNearEnd (s : Queue ι N T) : Prop :=
  ∃ h rest tl front, s.head.nodePtr = some h ∧ Path s.succ h rest ∧ s.tail.nodePtr = some tl ∧
    (h :: rest = front ++ [tl] ∨ ∃ last, h :: rest = front ++ [tl,last])

theorem Shared.tailNearEnd {s : Queue ι N T} {h : N} {rest : List N} (hS : Shared s h rest) :
    TailNearEnd s := by
  obtain ⟨tl,hmem,htl,hlast⟩ := hS.tail
  obtain ⟨front,back,he,hb⟩ : ∃ front back, h :: rest = front ++ tl :: back ∧
      Path s.succ tl back := by
    rcases List.mem_cons.mp hmem with rfl | hmem
    · exact ⟨[],rest,rfl,hS.path⟩
    · obtain ⟨front,back,he,hb⟩ := path_suffix hS.path hmem
      exact ⟨h :: front,back,by rw [he,List.cons_append],hb⟩
  refine ⟨h,rest,tl,front,hS.head,hS.path,htl,?_⟩
  cases back with
  | nil => exact Or.inl he
  | cons k back =>
    have hk : back = [] := path_unique hb.2 (hlast k hb.1)
    exact Or.inr ⟨k,hk ▸ he⟩

variable [DecidableEq ι] [DecidableEq N]

/-- The effects of the atomic queue that a step stands for, but for dequeues that
find it empty. -/
def label (s : Queue ι N T) : Action ι N T → List (Label ι T)
  | .push t item => [.callPush t item]
  | .pop t => [.callPop t]
  | .alloc .. => []
  | .step t =>
    match s.pc t with
    | .pushLink _ oldTail after =>
      match oldTail.nodePtr with
      | some n => if (s.next n).Same after then [.enqueue t] else []
      | none => []
    | .pushDone => [.returnPush t]
    | .popCas oldHead _ result => if s.head.Same oldHead then [.dequeue t (some result)] else []
    | .popDone result => [.returnPop t result]
    | _ => []

/-- All labels but the dequeues that find the queue empty. -/
def visible {ι T : Type*} : Label ι T → Bool
  | .dequeue _ none => false
  | _ => true

section Undecided

variable {frees : Bool} {s s' : Queue ι N T} {h : N} {rest : List N} {t u : ι}

omit [DecidableEq ι] [DecidableEq N] in
/-- The thread that is undecided has loaded the present head. -/
theorem Undecided.headSnap (hu : Undecided s u) : (s.pc u).headSnap = some s.head := by
  obtain ⟨oldTail,after,hpc,-⟩ := hu
  rw [hpc]
  rfl

omit [DecidableEq N] in
/-- A thread that is moved to a point without an old head is not undecided, and the
others stay as they are. -/
theorem undecided_goto {q : Pc N T} (hq : q.headSnap = none) (hu : Undecided (s.goto t q) u) :
    u ≠ t ∧ Undecided s u := by
  have hsnap : (s.pc u).headSnap = some s.head := snap_goto hq hu.headSnap
  obtain ⟨oldTail,after,hpc,hrest⟩ := hu
  have hne : u ≠ t := by
    rintro rfl
    simp only [Queue.goto,Function.update_self] at hpc
    rw [hpc] at hq
    cases hq
  simp only [Queue.goto,Function.update_of_ne hne] at hpc hrest
  exact ⟨hne,oldTail,after,hpc,hrest⟩

/-- Only an allocation writes a value. -/
theorem value_threadStep (hs : threadStep frees s t = some s') : s'.value = s.value := by
  rw [threadStep] at hs
  split at hs
  all_goals repeat' split at hs
  all_goals cases hs
  all_goals simp only [Queue.goto,Queue.swingTail]
  all_goals split <;> rfl

/-- Only a pop writes head. -/
theorem head_threadStep (hs : threadStep frees s t = some s') :
    s'.head = s.head ∨ ∃ oldHead after result, s.pc t = .popCas oldHead after result ∧
      s.head.Same oldHead ∧ s'.head = ⟨after.nodePtr,oldHead.counter + 1⟩ := by
  cases hpc : s.pc t with
  | popCas oldHead after result =>
    simp only [threadStep,hpc] at hs
    split at hs <;> cases hs
    next hsame => exact Or.inr ⟨oldHead,after,result,rfl,hsame,rfl⟩
    next => exact Or.inl rfl
  | _ =>
    left
    simp only [threadStep,hpc] at hs
    repeat' split at hs
    all_goals cases hs
    all_goals simp only [Queue.goto,Queue.swingTail]
    all_goals split <;> rfl

/-- The comparison of head comes after the load of next. -/
theorem popCheck_threadStep {oldHead oldTail after : NodePointer N}
    (hs : threadStep frees s t = some s') (hpc : s'.pc t = .popCheck oldHead oldTail after) :
    s.pc t = .popNext oldHead oldTail ∧ ∃ n, oldHead.nodePtr = some n ∧ after = s.next n := by
  rw [threadStep] at hs
  split at hs
  all_goals repeat' split at hs
  all_goals cases hs
  all_goals simp_all [Queue.goto]

/-- A call is undecided after a step if it was before, or if it loads a null next
while the queue is empty. -/
theorem undecided_threadStep (hS : Sound s h rest) (hunwrapped : Unwrapped s (.step t))
    (hs : threadStep frees s t = some s') (hu : Undecided s' u) :
    u ≠ t ∧ Undecided s u ∨ u = t ∧ rest = [] ∧ ∃ oldHead oldTail,
      s.pc t = .popNext oldHead oldTail := by
  have hhead : s'.head = s.head := by
    rcases head_threadStep hs with heq | ⟨oldHead,after,result,hpc,hsame,heq⟩
    · exact heq
    · simp only [Unwrapped,hpc] at hunwrapped
      have hold := hunwrapped hsame
      -- the counter of a head that was loaded before is behind
      have hle : s'.head.counter ≤ s.head.counter := by
        rcases headSnap_threadStep hs hu.headSnap with hsnap | hsnap
        · exact (hS.locals u).headSnap _ hsnap
        · exact Nat.le_of_eq (congrArg _ hsnap.symm)
      rw [heq,hold] at hle
      exact absurd hle (Nat.not_succ_le_self _)
  obtain ⟨oldTail,after,hpc,heq,hnull⟩ := hu
  by_cases hut : u = t
  · subst hut
    obtain ⟨hnext,n,hn,hafter⟩ := popCheck_threadStep hs hpc
    refine Or.inr ⟨rfl,?_,_,_,hnext⟩
    have he : h = n := Option.some.inj (hS.head.symm.trans (by rw [←hhead,hn]))
    subst he
    exact path_unique hS.path (by rw [LinkedPath.Path,Queue.succ,←hafter,hnull])
  · rw [pc_threadStep hs hut] at hpc
    rw [hhead] at hpc heq
    exact Or.inl ⟨hut,oldTail,after,hpc,heq,hnull⟩

end Undecided

section Answers

variable [DecidableEq T]

/-- The atomic queue has the values along the chain as its items and the same
progress of every call, but for the calls of a set that have found it empty. -/
structure Represents (s : Queue ι N T) (rest : List N) (found : Set ι) (x : Fifo ι T) : Prop where
  items : x.items = rest.map s.value
  empty : ∀ t ∈ found, x.call t = .popped none
  calls : ∀ t, t ∉ found → x.call t = s.calls t

/-- For every set of undecided calls there is a run of the atomic queue with these
effects in which just these calls have found it empty. -/
def Answers (s : Queue ι N T) (rest : List N) (labels : List (Label ι T)) : Prop :=
  ∀ found : Set ι, (∀ t ∈ found, Undecided s t) → ∃ all x, all.filter visible = labels ∧
    (fifo ι T).run (AtomicQueue.initial ι T) all = some x ∧ Represents s rest found x

variable {frees : Bool} {s s' : Queue ι N T} {h h' : N} {rest rest' : List N} {t u : ι}
  {labels more : List (Label ι T)} {x : Fifo ι T}

omit [DecidableEq N] in
/-- A step is answered when, for every set of calls that are undecided after it,
the runs for some set of calls undecided before it go on. -/
theorem Answers.extend (hA : Answers s rest labels)
    (hstep : ∀ found : Set ι, (∀ u ∈ found, Undecided s' u) → ∃ before : Set ι,
      (∀ u ∈ before, Undecided s u) ∧ ∀ x, Represents s rest before x →
        ∃ all x', all.filter visible = more ∧ (fifo ι T).run x all = some x' ∧
          Represents s' rest' found x') : Answers s' rest' (labels ++ more) := by
  intro found hfound
  obtain ⟨before,hbefore,hgo⟩ := hstep found hfound
  obtain ⟨all,x,hall,hx,hR⟩ := hA before hbefore
  obtain ⟨all',x',hall',hx',hR'⟩ := hgo x hR
  refine ⟨all ++ all',x',?_,?_,hR'⟩
  · rw [List.filter_append,hall,hall']
  · rw [System.run_append,hx]
    exact hx'

omit [DecidableEq N] in
/-- A step that changes neither items nor calls, and after which no further call
is undecided, is answered by nothing. -/
theorem Answers.quiet (hA : Answers s rest labels) (hitems : rest'.map s'.value = rest.map s.value)
    (hcalls : s'.calls = s.calls) (hundecided : ∀ u, Undecided s' u → Undecided s u) :
    Answers s' rest' (labels ++ []) := by
  refine hA.extend fun found hfound => ⟨found,fun u hu => hundecided u (hfound u hu),?_⟩
  intro x hR
  refine ⟨[],x,rfl,rfl,?_,hR.empty,?_⟩
  · rw [hitems]
    exact hR.items
  · rw [hcalls]
    exact hR.calls

/-- A step of a thread that stays at one stage of its call. -/
theorem Answers.stay (hA : Answers s rest labels) (hS : Sound s h rest)
    (hunwrapped : Unwrapped s (.step t)) (hs : threadStep frees s t = some s')
    (hcall : (s'.pc t).call s.value = (s.pc t).call s.value)
    (hnext : ∀ p q, s.pc t ≠ .popNext p q) : Answers s' rest (labels ++ []) := by
  have hvalue := value_threadStep hs
  refine hA.quiet (by rw [hvalue]) ?_ ?_
  · funext u
    rw [Queue.calls,Queue.calls,hvalue]
    by_cases hu : u = t
    · subst hu
      exact hcall
    · rw [pc_threadStep hs hu]
  · intro u hu
    rcases undecided_threadStep hS hunwrapped hs hu with ⟨-,hu'⟩ | ⟨-,-,p,q,hpc⟩
    · exact hu'
    · exact absurd hpc (hnext p q)

omit [DecidableEq N] in
/-- A step of a thread that takes effect or returns, and after which it is not
undecided. -/
theorem Answers.effect {l : Label ι T} (hA : Answers s rest labels) (hl : visible l = true)
    (hself : ¬Undecided s' t) (hbefore : ∀ u, Undecided s' u → u ≠ t → Undecided s u)
    (hpc : ∀ u, u ≠ t → s'.calls u = s.calls u)
    (hstep : ∀ x, x.items = rest.map s.value → x.call t = s.calls t →
      ∃ x', AtomicQueue.step x l = some x' ∧ x'.items = rest'.map s'.value ∧
        x'.call = Function.update x.call t (s'.calls t)) : Answers s' rest' (labels ++ [l]) := by
  refine hA.extend fun found hfound => ?_
  have hnot : t ∉ found := fun ht => hself (hfound t ht)
  have hne : ∀ u ∈ found, u ≠ t := by
    rintro u hu rfl
    exact hnot hu
  refine ⟨found,fun u hu => hbefore u (hfound u hu) (hne u hu),?_⟩
  intro x hR
  obtain ⟨x',hx',hitems,hcall⟩ := hstep x hR.items (hR.calls t hnot)
  refine ⟨[l],x',by simp [hl],by simp [System.run,fifo,hx'],hitems,?_,?_⟩
  · intro u hu
    rw [hcall,Function.update_of_ne (hne u hu)]
    exact hR.empty u hu
  · intro u hu
    rw [hcall]
    by_cases hut : u = t
    · subst hut
      rw [Function.update_self]
    · rw [Function.update_of_ne hut,hpc u hut]
      exact hR.calls u hu

/-- The load of a null next in an empty queue: both answers are prepared. -/
theorem Answers.popNext {oldHead oldTail : NodePointer N} (hA : Answers s rest labels)
    (hS : Sound s h rest) (hunwrapped : Unwrapped s (.step t))
    (hs : threadStep frees s t = some s') (hpc : s.pc t = .popNext oldHead oldTail) :
    Answers s' rest (labels ++ []) := by
  have hvalue := value_threadStep hs
  have hcalls : s'.calls = s.calls := by
    funext u
    rw [Queue.calls,Queue.calls,hvalue]
    by_cases hu : u = t
    · subst hu
      simp only [threadStep,hpc] at hs
      obtain ⟨n,hn⟩ := Option.ne_none_iff_exists'.mp (hpc ▸ (hS.locals u).shaped)
      rw [hn] at hs
      cases hs
      simp [Queue.goto,hpc]
    · rw [pc_threadStep hs hu]
  refine hA.extend fun found hfound => ⟨{ u | u ∈ found ∧ u ≠ t },?_,?_⟩
  · rintro u ⟨hu,hne⟩
    rcases undecided_threadStep hS hunwrapped hs (hfound u hu) with ⟨-,hu'⟩ | ⟨he,-⟩
    · exact hu'
    · exact absurd he hne
  · intro x hR
    have hcall : x.call t = .popping := by
      rw [hR.calls t fun hmem => hmem.2 rfl,Queue.calls,hpc]
      rfl
    by_cases ht : t ∈ found
    · -- the thread is to find the queue empty at this step
      have hempty : rest = [] := by
        rcases undecided_threadStep hS hunwrapped hs (hfound t ht) with ⟨hne,-⟩ | ⟨-,hrest,-⟩
        · exact absurd rfl hne
        · exact hrest
      have hitems : x.items = [] := by rw [hR.items,hempty,List.map_nil]
      refine ⟨[.dequeue t none],{ x with call := Function.update x.call t (.popped none) },rfl,?_,?_,?_,?_⟩
      · simp [System.run,fifo,AtomicQueue.step,hcall,hitems]
      · rw [hvalue]
        exact hR.items
      · intro u hu
        by_cases hut : u = t
        · subst hut
          exact Function.update_self ..
        · simp only [Function.update_of_ne hut]
          exact hR.empty u ⟨hu,hut⟩
      · intro u hu
        have hut : u ≠ t := by
          rintro rfl
          exact hu ht
        simp only [Function.update_of_ne hut]
        rw [hcalls]
        exact hR.calls u fun hmem => hu hmem.1
    · refine ⟨[],x,rfl,rfl,by rw [hvalue]; exact hR.items,?_,?_⟩
      · intro u hu
        refine hR.empty u ⟨hu,?_⟩
        rintro rfl
        exact ht hu
      · rw [hcalls]
        exact fun u hu => hR.calls u fun hmem => hu hmem.1

omit [DecidableEq N] in
/-- The comparison of head decides that the call has found the queue empty. -/
theorem Answers.decide {oldTail after : NodePointer N} (hA : Answers s rest labels)
    (hpc : s.pc t = .popCheck s.head oldTail after) (heq : s.head.nodePtr = oldTail.nodePtr)
    (hnull : after.nodePtr = none) :
    Answers (s.goto t (.popDone none)) rest (labels ++ []) := by
  refine hA.extend fun found hfound => ⟨insert t found,?_,?_⟩
  · intro u hu
    rcases Set.mem_insert_iff.mp hu with rfl | hmem
    · exact ⟨oldTail,after,hpc,heq,hnull⟩
    · obtain ⟨oldTail',after',hpc',hrest⟩ := hfound u hmem
      by_cases hut : u = t
      · subst hut
        simp [Queue.goto] at hpc'
      · simp only [Queue.goto,Function.update_of_ne hut] at hpc' hrest
        exact ⟨oldTail',after',hpc',hrest⟩
  · intro x hR
    refine ⟨[],x,rfl,rfl,hR.items,fun u hu => hR.empty u (Set.mem_insert_of_mem t hu),?_⟩
    intro u hu
    by_cases hut : u = t
    · subst hut
      rw [hR.empty u (Set.mem_insert u found)]
      simp [Queue.calls,Queue.goto]
    · rw [hR.calls u (by simp [hut,hu])]
      simp [Queue.calls,Queue.goto,hut]

/-- Every step of a thread is answered. -/
theorem Answers.threadStep (hA : Answers s rest labels) (hS : Sound s h rest)
    (hsheltered : frees = true → Sheltered s (.step t)) (hunwrapped : Unwrapped s (.step t))
    (hs : threadStep frees s t = some s') :
    ∃ h' rest', Sound s' h' rest' ∧ Answers s' rest' (labels ++ label s (.step t)) := by
  obtain ⟨h',rest',hS',hchain⟩ := sound_threadStep hS hsheltered hunwrapped hs
  refine ⟨h',rest',hS',?_⟩
  have hvalue := value_threadStep hs
  have hcalls : ∀ u, u ≠ t → s'.calls u = s.calls u := by
    intro u hu
    rw [Queue.calls,Queue.calls,hvalue,pc_threadStep hs hu]
  have hbefore : ∀ u, Undecided s' u → u ≠ t → Undecided s u := by
    intro u hu hne
    rcases undecided_threadStep hS hunwrapped hs hu with ⟨-,hu'⟩ | ⟨he,-⟩
    · exact hu'
    · exact absurd he hne
  have hself : (∀ p q, s.pc t ≠ .popNext p q) → ¬Undecided s' t := by
    intro hnext hu
    rcases undecided_threadStep hS hunwrapped hs hu with ⟨hne,-⟩ | ⟨-,-,p,q,hpc⟩
    · exact hne rfl
    · exact hnext p q hpc
  cases hchain with
  | link new n oldTail after hpc hn hsame hnull =>
    simp only [ClassicMSQueue.threadStep,hpc,hn,if_pos hsame] at hs
    cases hs
    simp only [label,hpc,hn,if_pos hsame]
    refine hA.effect rfl (hself (by simp [hpc])) hbefore hcalls ?_
    intro x hitems hcall
    simp only [Queue.calls,hpc,Pc.call] at hcall
    refine ⟨_,step_enqueue hcall,?_,?_⟩
    · simp [hitems,Queue.goto]
    · simp [Queue.calls,Queue.goto]
  | pop oldHead after result m rest' hpc hsame hm hvalue' hrest =>
    subst hrest
    simp only [ClassicMSQueue.threadStep,hpc,if_pos hsame] at hs
    cases hs
    simp only [label,hpc,if_pos hsame]
    refine hA.effect rfl (hself (by simp [hpc])) hbefore hcalls ?_
    intro x hitems hcall
    simp only [Queue.calls,hpc,Pc.call] at hcall
    have hfirst : x.items.head? = some result := by simp [hitems,hvalue']
    refine ⟨_,step_dequeue hcall hfirst,?_,?_⟩
    · simp [hitems,Queue.goto]
    · simp [Queue.calls,Queue.goto]
  | keep hlink hpop =>
    cases hpc : s.pc t with
    | pushDone =>
      simp only [ClassicMSQueue.threadStep,hpc] at hs
      cases hs
      simp only [label,hpc]
      refine hA.effect rfl (hself (by simp [hpc])) hbefore hcalls ?_
      intro x hitems hcall
      simp only [Queue.calls,hpc,Pc.call] at hcall
      exact ⟨_,step_returnPush hcall,hitems,by simp [Queue.calls,Queue.goto]⟩
    | popDone result =>
      simp only [ClassicMSQueue.threadStep,hpc] at hs
      cases hs
      simp only [label,hpc]
      refine hA.effect rfl (hself (by simp [hpc])) hbefore hcalls ?_
      intro x hitems hcall
      simp only [Queue.calls,hpc,Pc.call] at hcall
      exact ⟨_,step_returnPop hcall,hitems,by simp [Queue.calls,Queue.goto]⟩
    | popNext oldHead oldTail =>
      simp only [label,hpc]
      exact hA.popNext hS hunwrapped hs hpc
    | popCheck oldHead oldTail after =>
      simp only [label,hpc]
      simp only [Unwrapped,hpc] at hunwrapped
      have hs0 := hs
      simp only [ClassicMSQueue.threadStep,hpc] at hs0
      by_cases hempty : s.head.Same oldHead ∧ oldHead.nodePtr = oldTail.nodePtr ∧
        after.nodePtr = none
      · obtain ⟨hsame,heq,hnull⟩ := hempty
        rw [if_pos hsame,if_pos heq,hnull] at hs0
        cases hs0
        have hold := hunwrapped hsame
        rw [←hold] at hpc heq
        exact hA.decide hpc heq hnull
      · refine hA.stay hS (by simpa only [Unwrapped,hpc] using hunwrapped) hs ?_ (by simp [hpc])
        rw [hpc]
        repeat' split at hs0
        all_goals cases hs0
        all_goals simp_all [Queue.goto]
    | pushLink new oldTail after =>
      obtain ⟨n,hn⟩ := Option.ne_none_iff_exists'.mp (hpc ▸ (hS.locals t).shaped).1
      have hsame := hlink new oldTail after hpc n hn
      simp only [label,hpc,hn,if_neg hsame]
      refine hA.stay hS hunwrapped hs ?_ (by simp [hpc])
      simp only [ClassicMSQueue.threadStep,hpc,hn,if_neg hsame] at hs
      cases hs
      simp [Queue.goto,hpc]
    | popCas oldHead after result =>
      have hsame := hpop oldHead after result hpc
      simp only [label,hpc,if_neg hsame]
      refine hA.stay hS hunwrapped hs ?_ (by simp [hpc])
      simp only [ClassicMSQueue.threadStep,hpc,if_neg hsame] at hs
      cases hs
      simp [Queue.goto,hpc]
    | pushNext | popValue =>
      simp only [label,hpc]
      obtain ⟨n,hn⟩ := Option.ne_none_iff_exists'.mp (hpc ▸ (hS.locals t).shaped)
      refine hA.stay hS hunwrapped hs ?_ (by simp [hpc])
      simp only [ClassicMSQueue.threadStep,hpc,hn] at hs
      cases hs
      simp [Queue.goto,hpc]
    | idle | pushNew | fault =>
      simp only [ClassicMSQueue.threadStep,hpc] at hs
      cases hs
    | pushTail | pushCheck | pushSwing | pushFinish | popHead | popTail | popSwing | popDelete =>
      simp only [label,hpc]
      refine hA.stay hS hunwrapped hs ?_ (by simp [hpc])
      simp only [ClassicMSQueue.threadStep,hpc] at hs
      repeat' split at hs
      all_goals cases hs
      all_goals simp [Queue.goto,hpc]

/-- Every guarded step is answered. -/
theorem Answers.step {a : Action ι N T} (hA : Answers s rest labels) (hS : Sound s h rest)
    (ha : Guarded frees s a) (hs : step frees s a = some s') :
    ∃ h' rest', Sound s' h' rest' ∧ Answers s' rest' (labels ++ label s a) := by
  cases a with
  | step t => exact hA.threadStep hS ha.1 ha.2 hs
  | push t item =>
    simp only [ClassicMSQueue.step] at hs
    split at hs <;> cases hs
    next hpc =>
      refine ⟨h,rest,hS.outside rfl rfl rfl rfl trivial,?_⟩
      refine hA.effect (t := t) rfl (fun hu => (undecided_goto rfl hu).1 rfl)
        (fun u hu _ => (undecided_goto rfl hu).2)
          (fun u hu => by simp [Queue.calls,Queue.goto,hu]) ?_
      intro x hitems hcall
      simp only [Queue.calls,hpc,Pc.call] at hcall
      exact ⟨_,step_callPush hcall,hitems,by simp [Queue.calls,Queue.goto]⟩
  | pop t =>
    simp only [ClassicMSQueue.step] at hs
    split at hs <;> cases hs
    next hpc =>
      refine ⟨h,rest,hS.outside rfl rfl rfl rfl trivial,?_⟩
      refine hA.effect (t := t) rfl (fun hu => (undecided_goto rfl hu).1 rfl)
        (fun u hu _ => (undecided_goto rfl hu).2)
          (fun u hu => by simp [Queue.calls,Queue.goto,hu]) ?_
      intro x hitems hcall
      simp only [Queue.calls,hpc,Pc.call] at hcall
      exact ⟨_,step_callPop hcall,hitems,by simp [Queue.calls,Queue.goto]⟩
  | alloc t node =>
    simp only [ClassicMSQueue.step] at hs
    split at hs
    next item hpc =>
      split at hs <;> cases hs
      next hfree =>
        have hne : ∀ n, s.allocated n = true → n ≠ node := by
          rintro n hn rfl
          rw [hfree] at hn
          cases hn
        refine ⟨h,rest,hS.alloc hfree,hA.quiet ?_ ?_ ?_⟩
        · refine List.map_congr_left fun n hn => Function.update_of_ne (hne n ?_) ..
          exact hS.live n (List.mem_cons_of_mem _ hn)
        · funext u
          by_cases hu : u = t
          · subst hu
            simp [Queue.calls,Queue.goto,hpc]
          · have hL := hS.locals u
            simp only [Queue.calls,Queue.goto,Function.update_of_ne hu]
            refine Pc.call_congr fun n hn => Function.update_of_ne (hne n (hL.newNode n hn).1) ..
        · exact fun u hu => (undecided_goto rfl hu).2
    next => cases hs

end Answers

section FindsEmpty

variable {frees : Bool} {s s' : Queue ι N T} {h : N} {rest : List N} {t : ι}

/-- A TryPop that has found the queue empty, or does so unless head is changed. -/
def FindsEmpty (s : Queue ι N T) (t : ι) : Prop :=
  s.pc t = .popDone none ∨ Undecided s t

/-- A TryPop returns nothing only after its comparison of head. -/
theorem popDone_threadStep (hs : threadStep frees s t = some s') (hpc : s'.pc t = .popDone none) :
    ∃ oldHead oldTail after, s.pc t = .popCheck oldHead oldTail after ∧ s.head.Same oldHead ∧
      oldHead.nodePtr = oldTail.nodePtr ∧ after.nodePtr = none := by
  rw [threadStep] at hs
  split at hs
  all_goals repeat' split at hs
  all_goals cases hs
  all_goals simp_all [Queue.goto]

/-- A TryPop comes to find the queue empty only by its load of a null next, while
the queue is empty. -/
theorem findsEmpty_threadStep {u : ι} (hS : Sound s h rest) (hunwrapped : Unwrapped s (.step u))
    (hs : threadStep frees s u = some s') (hfinds : FindsEmpty s' t) :
    FindsEmpty s t ∨ rest = [] := by
  rcases hfinds with hpc | hundecided
  · by_cases htu : t = u
    · subst htu
      obtain ⟨oldHead,oldTail,after,hcheck,hsame,heq,hnull⟩ := popDone_threadStep hs hpc
      simp only [Unwrapped,hcheck] at hunwrapped
      have hold := hunwrapped hsame
      rw [←hold] at hcheck heq
      exact Or.inl (Or.inr ⟨oldTail,after,hcheck,heq,hnull⟩)
    · rw [pc_threadStep hs htu] at hpc
      exact Or.inl (Or.inl hpc)
  · rcases undecided_threadStep hS hunwrapped hs hundecided with ⟨-,hu⟩ | ⟨-,hrest,-⟩
    · exact Or.inl (Or.inr hu)
    · exact Or.inr hrest

omit [DecidableEq N] in
/-- A call that is entered has not found the queue empty. -/
theorem findsEmpty_goto {u : ι} {q : Pc N T} (hfinds : FindsEmpty (s.goto u q) t)
    (hq : q.headSnap = none) (hdone : q ≠ .popDone none) : t ≠ u ∧ FindsEmpty s t := by
  rcases hfinds with hpc | hundecided
  · have hne : t ≠ u := by
      rintro rfl
      rw [Queue.goto] at hpc
      simp only [Function.update_self] at hpc
      exact hdone hpc
    simp only [Queue.goto,Function.update_of_ne hne] at hpc
    exact ⟨hne,Or.inl hpc⟩
  · obtain ⟨hne,hu⟩ := undecided_goto hq hundecided
    exact ⟨hne,Or.inr hu⟩

/-- Any step after which a TryPop finds the queue empty comes after its call, and
the call found it empty before, or the queue is empty now. -/
theorem findsEmpty_step {a : Action ι N T} (hS : Sound s h rest) (ha : Guarded frees s a)
    (hs : step frees s a = some s') (hfinds : FindsEmpty s' t) :
    a ≠ .pop t ∧ (FindsEmpty s t ∨ rest = []) := by
  cases a with
  | step u => exact ⟨by rintro ⟨⟩,findsEmpty_threadStep hS ha.2 hs hfinds⟩
  | push u item =>
    simp only [step] at hs
    split at hs <;> cases hs
    exact ⟨by rintro ⟨⟩,Or.inl (findsEmpty_goto hfinds rfl (by rintro ⟨⟩)).2⟩
  | pop u =>
    simp only [step] at hs
    split at hs <;> cases hs
    obtain ⟨hne,hf⟩ := findsEmpty_goto hfinds rfl (by rintro ⟨⟩)
    refine ⟨?_,Or.inl hf⟩
    rintro ⟨⟩
    exact hne rfl
  | alloc u node =>
    simp only [step] at hs
    split at hs
    · split at hs <;> cases hs
      exact ⟨by rintro ⟨⟩,Or.inl (findsEmpty_goto hfinds rfl (by rintro ⟨⟩)).2⟩
    · cases hs

end FindsEmpty

/-- At some moment of the schedule, and after the last call of TryPop by the
thread, the queue was empty. -/
def EmptyDuringCall [Inhabited T] (frees : Bool) (dummy : N) (acts : List (Action ι N T)) (t : ι) :
    Prop :=
  ∃ front back u, acts = front ++ back ∧
    (queue frees ι T dummy).run (initial ι T dummy) front = some u ∧ Contents u [] ∧ .pop t ∉ back

section Runs

variable [Inhabited T] {frees : Bool} {dummy : N} {acts : List (Action ι N T)} {s : Queue ι N T}
  {t : ι}

/-- Every guarded run is answered. -/
theorem answers_run [DecidableEq T]
    (hm : (queue frees ι T dummy).Meets (Guarded frees) (initial ι T dummy) acts)
    (hr : (queue frees ι T dummy).run (initial ι T dummy) acts = some s) :
    ∃ h rest, Sound s h rest ∧
      Answers s rest ((queue frees ι T dummy).image label (initial ι T dummy) acts) := by
  induction acts using List.reverseRecOn generalizing s with
  | nil =>
    cases hr
    refine ⟨dummy,[],sound_initial dummy,?_⟩
    intro found hfound
    refine ⟨[],AtomicQueue.initial ι T,rfl,rfl,rfl,?_,fun _ _ => rfl⟩
    intro t ht
    obtain ⟨oldTail,after,hpc,-⟩ := hfound t ht
    cases hpc
  | append_singleton front a ih =>
    obtain ⟨u,hu,hs⟩ := System.run_snoc hr
    obtain ⟨h,rest,hS,hA⟩ := ih hm.front hu
    obtain ⟨h',rest',hS',hA'⟩ := hA.step hS (hm.last hu) hs
    refine ⟨h',rest',hS',?_⟩
    rw [System.image_append hu]
    have hone : (queue frees ι T dummy).image label u [a] = label u a := by
      simp [System.image,hs]
    rw [hone]
    exact hA'

/-- In a guarded run, a TryPop that finds the queue empty does so at a moment of
its call. -/
theorem emptyDuringCall_run
    (hm : (queue frees ι T dummy).Meets (Guarded frees) (initial ι T dummy) acts)
    (hr : (queue frees ι T dummy).run (initial ι T dummy) acts = some s) (hfinds : FindsEmpty s t) :
    EmptyDuringCall frees dummy acts t := by
  -- the schedule grows at its end: the finding is its last step, or an earlier one
  induction acts using List.reverseRecOn generalizing s with
  | nil =>
    cases hr
    rcases hfinds with hpc | ⟨oldTail,after,hpc,-⟩ <;> cases hpc
  | append_singleton front a ih =>
    obtain ⟨u,hu,hs⟩ := System.run_snoc hr
    obtain ⟨h,rest,hS⟩ := sound_reachable (System.ReachableUnder.run .start hm.front hu)
    obtain ⟨hne,hbefore⟩ := findsEmpty_step hS (hm.last hu) hs hfinds
    rcases hbefore with hf | rfl
    · obtain ⟨front',back,v,rfl,hv,hempty,hback⟩ := ih hm.front hu hf
      refine ⟨front',back ++ [a],v,by simp,hv,hempty,?_⟩
      simp [hback,hne.symm]
    · exact ⟨front,[a],u,rfl,hu,⟨h,[],hS.head,hS.path,rfl⟩,by simp [hne.symm]⟩

/-- A guarded run with its effects is a run of the atomic queue, with the values
along the chain as its items. -/
theorem answered [DecidableEq T]
    (hm : (queue frees ι T dummy).Meets (Guarded frees) (initial ι T dummy) acts)
    (hr : (queue frees ι T dummy).run (initial ι T dummy) acts = some s) :
    ∃ labels x, labels.filter visible =
        (queue frees ι T dummy).image label (initial ι T dummy) acts ∧
      (fifo ι T).run (AtomicQueue.initial ι T) labels = some x ∧
      Contents s x.items ∧ x.call = s.calls ∧ Balanced x := by
  obtain ⟨h,rest,hS,hA⟩ := answers_run hm hr
  obtain ⟨labels,x,hlabels,hx,hR⟩ := hA ∅ (fun t ht => ht.elim)
  refine ⟨labels,x,hlabels,hx,⟨h,rest,hS.head,hS.path,hR.items.symm⟩,?_,balanced_run hx⟩
  funext t
  exact hR.calls t (Set.notMem_empty t)

/-- When the delete does nothing, every schedule meets the conditions. -/
theorem guarded_run (acts : List (Action ι N T)) {s : Queue ι N T}
    (hr : (queue false ι T dummy).Reachable s) :
    (queue false ι T dummy).Meets (Guarded false) s acts := by
  induction acts generalizing s with
  | nil => exact trivial
  | cons a rest ih =>
    refine ⟨guarded_reachable hr a,?_⟩
    cases hs : (queue false ι T dummy).step s a with
    | none => exact trivial
    | some u => exact ih (hr.next hs)

/-- When the delete does nothing, every run of the queue is a run of the atomic
queue: with the compare-exchange of a null next as the enqueue, the compare-exchange
of head as the dequeue of the oldest item, and further dequeues on the empty queue
only; the values along the chain are its items, the calls are the same, and nothing
is lost, duplicated or reordered. Tail is the last or the second-to-last node of the
chain from head, no null pointer is dereferenced, the one that is read for its value
included, and a TryPop that returns nothing has seen the queue empty during its
call. -/
theorem classic_refines_fifo [DecidableEq T]
    (hr : (queue false ι T dummy).run (initial ι T dummy) acts = some s) :
    (∃ labels x, labels.filter visible =
        (queue false ι T dummy).image label (initial ι T dummy) acts ∧
      (fifo ι T).run (AtomicQueue.initial ι T) labels = some x ∧
      Contents s x.items ∧ x.call = s.calls ∧ Balanced x) ∧
    TailNearEnd s ∧
    (∀ t, s.pc t ≠ .fault ∧ ∀ oldHead after, s.pc t = .popValue oldHead after →
      after.nodePtr ≠ none) ∧
    ∀ t, s.pc t = .popDone none → EmptyDuringCall false dummy acts t := by
  have hm := guarded_run acts (System.ReachableUnder.start : (queue false ι T dummy).Reachable _)
  obtain ⟨h,rest,hS⟩ := sound_reachable (System.ReachableUnder.run .start hm hr)
  refine ⟨answered hm hr,hS.tailNearEnd,?_,fun t ht => emptyDuringCall_run hm hr (Or.inl ht)⟩
  intro t
  have hshaped := (hS.locals t).shaped
  refine ⟨?_,?_⟩
  · intro hpc
    rw [hpc] at hshaped
    exact hshaped
  · intro oldHead after hpc
    rw [hpc] at hshaped
    exact hshaped

/-- Thread 2 loads a null next, thread 0 pushes 7 and returns, thread 2 compares
head and returns nothing, and thread 1 pops 7. -/
def overtaken : List (Action (Fin 3) ℕ ℕ) :=
  [[.pop 2,.step 2,.step 2,.step 2,.push 0 7,.alloc 0 1],List.replicate 6 (.step 0),
    [.step 2,.pop 1],List.replicate 7 (.step 1)].flatten

theorem overtaken_ends : (queue false (Fin 3) ℕ 0).Ends (initial (Fin 3) ℕ 0) overtaken
    fun s => s.pc 0 = .idle ∧ s.pc 1 = .popDone (some 7) ∧ s.pc 2 = .popDone none := by
  decide +kernel

/-- The theorem at this run: the call of thread 2 takes effect before the Push that
has returned before it. -/
theorem classic_refines_fifo_overtaken :
    ∃ s labels x, (queue false (Fin 3) ℕ 0).run (initial (Fin 3) ℕ 0) overtaken = some s ∧
      s.pc 1 = .popDone (some 7) ∧ s.pc 2 = .popDone none ∧
      labels.filter visible = (queue false (Fin 3) ℕ 0).image label
        (initial (Fin 3) ℕ 0) overtaken ∧
      (fifo (Fin 3) ℕ).run (AtomicQueue.initial (Fin 3) ℕ) labels = some x ∧ Contents s x.items ∧
      EmptyDuringCall false 0 overtaken 2 := by
  obtain ⟨s,hr,-,hone,htwo⟩ := overtaken_ends.exists_run
  obtain ⟨⟨labels,x,hlabels,hx,hitems,-⟩,-,-,hempty⟩ := classic_refines_fifo hr
  exact ⟨s,labels,x,hr,hone,htwo,hlabels,hx,hitems,hempty 2 htwo⟩

end Runs

end ConcurrencyRuntime.ClassicMSQueue
