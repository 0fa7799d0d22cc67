import ConcurrencyRuntime.ClassicMSQueueInvariant

/-!
# Counted pointers without reuse

When the delete does nothing, a node that head or tail has left never comes back
to it. An old head or an old tail is then equal to the present one, counter
included, or differs from it in the address, so that no comparison is mistaken,
however far the counters have gone.
-/

namespace ConcurrencyRuntime.ClassicMSQueue

open TransitionSystem LinkedPath

variable {ι N T : Type*}

/-- The old head is the present one, or its node has left the chain. -/
def HeadKnown (s : Queue ι N T) (h : N) (rest : List N) (p : NodePointer N) : Prop :=
  s.head = p ∨ ∃ n, p.nodePtr = some n ∧ s.allocated n = true ∧ n ∉ h :: rest ∧ s.succ n ≠ none

/-- The old tail is the present one, or tail has gone past its node. -/
def TailKnown (s : Queue ι N T) (h : N) (rest : List N) (p : NodePointer N) : Prop :=
  s.tail = p ∨ ∃ n, p.nodePtr = some n ∧ s.allocated n = true ∧ s.tail.nodePtr ≠ some n ∧
    (n ∈ h :: rest ∨ s.succ n ≠ none) ∧ ∀ tl, s.tail.nodePtr = some tl → s.succ tl ≠ some n

/-- What is known of every pointer that a thread has loaded. -/
structure Fresh (s : Queue ι N T) (h : N) (rest : List N) : Prop where
  head : ∀ t p, (s.pc t).headSnap = some p → HeadKnown s h rest p
  tail : ∀ t p, (s.pc t).tailSnap = some p → TailKnown s h rest p

section Compare

variable {s : Queue ι N T} {h : N} {rest : List N} {p : NodePointer N}

/-- A comparison with a known old head is not mistaken. -/
theorem HeadKnown.eq_of_same (hp : HeadKnown s h rest p) (hhead : s.head.nodePtr = some h)
    (hsame : s.head.Same p) : s.head = p := by
  rcases hp with heq | ⟨n,hn,-,hout,-⟩
  · exact heq
  · have he : h = n := Option.some.inj (hhead.symm.trans (hsame.1.trans hn))
    exact absurd (he ▸ List.mem_cons_self) hout

/-- A comparison with a known old tail is not mistaken. -/
theorem TailKnown.eq_of_same (hp : TailKnown s h rest p) (hsame : s.tail.Same p) : s.tail = p := by
  rcases hp with heq | ⟨n,hn,-,hne,-⟩
  · exact heq
  · exact absurd (hsame.1.trans hn) hne

/-- Every comparison is right where all pointers are known. -/
theorem Fresh.unwrapped (hF : Fresh s h rest) (hhead : s.head.nodePtr = some h)
    (a : Action ι N T) : Unwrapped s a := by
  cases a with
  | push | pop | alloc => exact trivial
  | step t =>
    simp only [Unwrapped]
    split
    next hpc => exact fun hsame => (hF.tail t _ (by rw [hpc]; rfl)).eq_of_same hsame
    next hpc => exact fun hsame => (hF.tail t _ (by rw [hpc]; rfl)).eq_of_same hsame
    next hpc => exact fun hsame => (hF.tail t _ (by rw [hpc]; rfl)).eq_of_same hsame
    next hpc => exact fun hsame => (hF.tail t _ (by rw [hpc]; rfl)).eq_of_same hsame
    next hpc => exact fun hsame => (hF.head t _ (by rw [hpc]; rfl)).eq_of_same hhead hsame
    next hpc => exact fun hsame => (hF.head t _ (by rw [hpc]; rfl)).eq_of_same hhead hsame
    next => exact trivial

end Compare

section Snapshots

variable [DecidableEq ι] [DecidableEq N] {frees : Bool} {s s' : Queue ι N T} {t u : ι}
  {p : NodePointer N}

/-- A step of a thread moves no other thread. -/
theorem pc_threadStep (hs : threadStep frees s t = some s') (hu : u ≠ t) : s'.pc u = s.pc u := by
  rw [threadStep] at hs
  split at hs
  all_goals repeat' split at hs
  all_goals cases hs
  all_goals simp [Queue.goto,hu]

/-- A thread has loaded an old head before, or loads the present one. -/
theorem headSnap_threadStep (hs : threadStep frees s t = some s')
    (hp : (s'.pc u).headSnap = some p) : (s.pc u).headSnap = some p ∨ s.head = p := by
  by_cases hu : u = t
  · subst hu
    rw [threadStep] at hs
    split at hs
    all_goals repeat' split at hs
    all_goals cases hs
    all_goals simp_all [Queue.goto]
  · rw [pc_threadStep hs hu] at hp
    exact Or.inl hp

/-- A thread has loaded an old tail before, or loads the present one. -/
theorem tailSnap_threadStep (hs : threadStep frees s t = some s')
    (hp : (s'.pc u).tailSnap = some p) : (s.pc u).tailSnap = some p ∨ s.tail = p := by
  by_cases hu : u = t
  · subst hu
    rw [threadStep] at hs
    split at hs
    all_goals repeat' split at hs
    all_goals cases hs
    all_goals simp_all [Queue.goto]
  · rw [pc_threadStep hs hu] at hp
    exact Or.inl hp

omit [DecidableEq N] in
/-- A thread that is moved to a point without pointers has loaded nothing. -/
theorem snap_goto {α : Type*} {snap : Pc N T → Option α} {q : Pc N T} {x : α} (hq : snap q = none)
    (hx : snap ((s.goto t q).pc u) = some x) : snap (s.pc u) = some x := by
  simp only [Queue.goto,Function.update_apply] at hx
  split at hx
  · rw [hq] at hx
    cases hx
  · exact hx

end Snapshots

section Memory

variable {s s' : Queue ι N T} {h : N} {rest : List N} {p : NodePointer N}

/-- An old head stays known while head, next fields and allocations stay. -/
theorem HeadKnown.congr (hp : HeadKnown s h rest p) (hhead : s'.head = s.head)
    (hnext : s'.next = s.next) (halloc : s'.allocated = s.allocated) : HeadKnown s' h rest p := by
  simp only [HeadKnown,Queue.succ,hhead,hnext,halloc] at hp ⊢
  exact hp

/-- An old tail stays known while tail, next fields and allocations stay. -/
theorem TailKnown.congr (hp : TailKnown s h rest p) (htail : s'.tail = s.tail)
    (hnext : s'.next = s.next) (halloc : s'.allocated = s.allocated) : TailKnown s' h rest p := by
  simp only [TailKnown,Queue.succ,htail,hnext,halloc] at hp ⊢
  exact hp

/-- Tail goes past its node. -/
theorem TailKnown.swing {n x : N} {count : ℕ} (hp : TailKnown s h rest p) (hS : Shared s h rest)
    (htail : s.tail.nodePtr = some n) (hx : s.succ n = some x)
    (htail' : s'.tail = ⟨some x,count⟩) (hnext : s'.next = s.next)
    (halloc : s'.allocated = s.allocated) : TailKnown s' h rest p := by
  obtain ⟨hmem,hnull⟩ := hS.succ_tail htail hx
  have hsucc : s'.succ = s.succ := by
    funext m
    rw [Queue.succ,Queue.succ,hnext]
  right
  rcases hp with heq | ⟨m,hm,hl,hne,hin,hbehind⟩
  · obtain ⟨tl,htm,htl,-⟩ := hS.tail
    have he : tl = n := Option.some.inj (htl.symm.trans htail)
    subst he
    refine ⟨tl,by rw [←heq,htail],by rw [halloc]; exact hS.live tl htm,?_,Or.inl htm,?_⟩
    · rw [htail']
      rintro ⟨⟩
      rw [hnull] at hx
      cases hx
    · intro y hy
      rw [htail'] at hy
      cases hy
      rw [hsucc,hnull]
      rintro ⟨⟩
  · refine ⟨m,hm,by rw [halloc]; exact hl,?_,by rw [hsucc]; exact hin,?_⟩
    · rw [htail']
      rintro ⟨⟩
      exact hbehind n htail hx
    · intro y hy
      rw [htail'] at hy
      cases hy
      rw [hsucc,hnull]
      rintro ⟨⟩

/-- Head goes past its node. -/
theorem HeadKnown.pop {m : N} (hp : HeadKnown s h (m :: rest) p) (hS : Shared s h (m :: rest))
    (hnext : s'.next = s.next) (halloc : s'.allocated = s.allocated) : HeadKnown s' m rest p := by
  have hsucc : s'.succ = s.succ := by
    funext n
    rw [Queue.succ,Queue.succ,hnext]
  rw [HeadKnown,hsucc,halloc]
  right
  rcases hp with heq | ⟨n,hn,hl,hout,hset⟩
  · refine ⟨h,by rw [←heq,hS.head],hS.live h List.mem_cons_self,hS.head_not_mem,?_⟩
    rw [hS.path.1]
    rintro ⟨⟩
  · exact ⟨n,hn,hl,fun hmem => hout (List.mem_cons_of_mem _ hmem),hset⟩

/-- Head leaves a node that tail has left before. -/
theorem TailKnown.pop {m : N} (hp : TailKnown s h (m :: rest) p) (hS : Shared s h (m :: rest))
    (htail : s'.tail = s.tail) (hnext : s'.next = s.next) (halloc : s'.allocated = s.allocated) :
    TailKnown s' m rest p := by
  have hsucc : s'.succ = s.succ := by
    funext n
    rw [Queue.succ,Queue.succ,hnext]
  rw [TailKnown,hsucc,halloc,htail]
  refine hp.imp_right ?_
  rintro ⟨n,hn,hl,hne,hin,hbehind⟩
  refine ⟨n,hn,hl,hne,?_,hbehind⟩
  rcases hin with hin | hset
  · rcases List.mem_cons.mp hin with rfl | hmem
    · right
      rw [hS.path.1]
      rintro ⟨⟩
    · exact Or.inl hmem
  · exact Or.inr hset

variable [DecidableEq N]

/-- A new node is linked behind the chain. -/
theorem HeadKnown.link {n new : N} {count : ℕ} (hp : HeadKnown s h rest p)
    (hnull : s.succ n = none) (hnew : s.succ new = none) (hhead : s'.head = s.head)
    (hnext : s'.next = Function.update s.next n ⟨some new,count⟩)
    (halloc : s'.allocated = s.allocated) : HeadKnown s' h (rest ++ [new]) p := by
  rw [HeadKnown,hhead,halloc]
  refine hp.imp_right ?_
  rintro ⟨m,hm,hl,hout,hset⟩
  have hmn : m ≠ n := fun he => hset (he ▸ hnull)
  have hmnew : m ≠ new := fun he => hset (he ▸ hnew)
  refine ⟨m,hm,hl,?_,?_⟩
  · simp only [List.mem_cons,List.mem_append,List.not_mem_nil,or_false] at hout ⊢
    tauto
  · rw [Queue.succ,hnext,Function.update_of_ne hmn]
    exact hset

/-- A new node is linked behind tail. -/
theorem TailKnown.link {n new : N} {count : ℕ} (hp : TailKnown s h rest p)
    (hnull : s.succ n = none) (hnew : s.succ new = none) (hout : new ∉ h :: rest)
    (htail : s'.tail = s.tail) (hn : s.tail.nodePtr = some n)
    (hnext : s'.next = Function.update s.next n ⟨some new,count⟩)
    (halloc : s'.allocated = s.allocated) : TailKnown s' h (rest ++ [new]) p := by
  rw [TailKnown,htail,halloc]
  refine hp.imp_right ?_
  rintro ⟨m,hm,hl,hne,hin,hbehind⟩
  have hmnew : m ≠ new := by
    rintro rfl
    rcases hin with hin | hset
    · exact hout hin
    · exact hset hnew
  refine ⟨m,hm,hl,hne,?_,?_⟩
  · rcases hin with hin | hset
    · left
      simp only [List.mem_cons,List.mem_append] at hin ⊢
      tauto
    · right
      have hmn : m ≠ n := fun he => hset (he ▸ hnull)
      rw [Queue.succ,hnext,Function.update_of_ne hmn]
      exact hset
  · intro tl htl
    have he : n = tl := Option.some.inj (hn.symm.trans htl)
    subst he
    rw [Queue.succ,hnext,Function.update_self]
    exact fun he => hmnew (Option.some.inj he).symm

/-- An address that was never handed out is allocated. -/
theorem HeadKnown.alloc {node : N} (hp : HeadKnown s h rest p) (hfree : s.allocated node = false)
    (hhead : s'.head = s.head) (hnext : s'.next = Function.update s.next node ⟨none,0⟩)
    (halloc : s'.allocated = Function.update s.allocated node true) : HeadKnown s' h rest p := by
  rw [HeadKnown,hhead]
  refine hp.imp_right ?_
  rintro ⟨m,hm,hl,hout,hset⟩
  have hne : m ≠ node := by
    rintro rfl
    rw [hfree] at hl
    cases hl
  refine ⟨m,hm,?_,hout,?_⟩
  · rw [halloc,Function.update_of_ne hne,hl]
  · rw [Queue.succ,hnext,Function.update_of_ne hne]
    exact hset

/-- An address that was never handed out is allocated. -/
theorem TailKnown.alloc {node : N} (hp : TailKnown s h rest p) (hS : Shared s h rest)
    (hfree : s.allocated node = false) (htail : s'.tail = s.tail)
    (hnext : s'.next = Function.update s.next node ⟨none,0⟩)
    (halloc : s'.allocated = Function.update s.allocated node true) : TailKnown s' h rest p := by
  have hkeep : ∀ n, s.allocated n = true → n ≠ node := by
    rintro n hn rfl
    rw [hfree] at hn
    cases hn
  rw [TailKnown,htail]
  refine hp.imp_right ?_
  rintro ⟨m,hm,hl,hne,hin,hbehind⟩
  refine ⟨m,hm,?_,hne,?_,?_⟩
  · rw [halloc,Function.update_of_ne (hkeep m hl),hl]
  · rw [Queue.succ,hnext,Function.update_of_ne (hkeep m hl)]
    exact hin
  · intro tl htl
    obtain ⟨tl',htm,htl',-⟩ := hS.tail
    have he : tl' = tl := Option.some.inj (htl'.symm.trans htl)
    subst he
    rw [Queue.succ,hnext,Function.update_of_ne (hkeep tl' (hS.live tl' htm))]
    exact hbehind tl' htl

end Memory

section Steps

variable [DecidableEq ι] [DecidableEq N] {s s' : Queue ι N T} {h h' : N}
  {rest rest' : List N} {t : ι}

/-- A step that is neither a link nor a pop changes nothing but tail, which it
moves to the node that the thread knows behind it. -/
theorem keep_memory (hshaped : (s.pc t).Shaped)
    (hlink : ∀ new oldTail after, s.pc t = .pushLink new oldTail after →
      ∀ n, oldTail.nodePtr = some n → ¬(s.next n).Same after)
    (hpop : ∀ oldHead after result, s.pc t = .popCas oldHead after result → ¬s.head.Same oldHead)
    (hs : threadStep false s t = some s') :
    s'.head = s.head ∧ s'.next = s.next ∧ s'.allocated = s.allocated ∧ s'.value = s.value ∧
      (s'.tail = s.tail ∨ ∃ old x, (s.pc t).tailLink = some (old,x) ∧ s.tail.Same old ∧
        s'.tail = ⟨some x,old.counter + 1⟩) := by
  have hswing : ∀ old node q, (∃ x, node = some x ∧ (s.pc t).tailLink = some (old,x)) →
      s' = (s.swingTail old node).goto t q →
      s'.head = s.head ∧ s'.next = s.next ∧ s'.allocated = s.allocated ∧ s'.value = s.value ∧
        (s'.tail = s.tail ∨ ∃ old x, (s.pc t).tailLink = some (old,x) ∧ s.tail.Same old ∧
          s'.tail = ⟨some x,old.counter + 1⟩) := by
    rintro old node q ⟨x,rfl,hx⟩ rfl
    simp only [Queue.goto,Queue.swingTail]
    split
    next hsame => exact ⟨rfl,rfl,rfl,rfl,Or.inr ⟨old,x,hx,hsame,rfl⟩⟩
    next => exact ⟨rfl,rfl,rfl,rfl,Or.inl rfl⟩
  cases hpc : s.pc t with
  | pushSwing new oldTail after =>
    rw [threadStep,hpc] at hs
    rw [hpc] at hshaped
    obtain ⟨x,hx⟩ := Option.ne_none_iff_exists'.mp hshaped
    exact hpc ▸ hswing oldTail after.nodePtr _ ⟨x,hx,by simp [hpc,hx]⟩ (Option.some.inj hs).symm
  | popSwing oldTail after =>
    rw [threadStep,hpc] at hs
    rw [hpc] at hshaped
    obtain ⟨x,hx⟩ := Option.ne_none_iff_exists'.mp hshaped
    exact hpc ▸ hswing oldTail after.nodePtr _ ⟨x,hx,by simp [hpc,hx]⟩ (Option.some.inj hs).symm
  | pushFinish new oldTail =>
    rw [threadStep,hpc] at hs
    exact hpc ▸ hswing oldTail (some new) _ ⟨new,rfl,by simp [hpc]⟩ (Option.some.inj hs).symm
  | pushLink new oldTail after =>
    simp only [threadStep,hpc] at hs
    split at hs
    next n hn =>
      rw [if_neg (hlink new oldTail after hpc n hn)] at hs
      cases hs
      exact ⟨rfl,rfl,rfl,rfl,Or.inl rfl⟩
    next =>
      cases hs
      exact ⟨rfl,rfl,rfl,rfl,Or.inl rfl⟩
  | popCas oldHead after result =>
    simp only [threadStep,hpc] at hs
    rw [if_neg (hpop oldHead after result hpc)] at hs
    cases hs
    exact ⟨rfl,rfl,rfl,rfl,Or.inl rfl⟩
  | idle | pushNew | fault =>
    rw [threadStep,hpc] at hs
    cases hs
  | pushTail | pushNext | pushCheck | pushDone | popHead | popTail | popNext | popCheck | popValue
  | popDelete | popDone =>
    simp only [threadStep,hpc] at hs
    repeat' split at hs
    all_goals cases hs
    all_goals exact ⟨rfl,rfl,rfl,rfl,Or.inl rfl⟩

/-- Every step of a thread keeps the pointers known. -/
theorem Fresh.threadStep (hF : Fresh s h rest) (hS : Sound s h rest)
    (hs : threadStep false s t = some s') :
    ∃ h' rest', Sound s' h' rest' ∧ Fresh s' h' rest' := by
  have hunwrapped := hF.unwrapped hS.head (.step t)
  obtain ⟨h',rest',hS',hchain⟩ := sound_threadStep hS (by simp) hunwrapped hs
  have hhead : ∀ u p, (s'.pc u).headSnap = some p → HeadKnown s h rest p := by
    intro u p hp
    exact (headSnap_threadStep hs hp).elim (hF.head u p) Or.inl
  have htail : ∀ u p, (s'.pc u).tailSnap = some p → TailKnown s h rest p := by
    intro u p hp
    exact (tailSnap_threadStep hs hp).elim (hF.tail u p) Or.inl
  have hL := hS.locals t
  refine ⟨h',rest',hS',?_⟩
  cases hchain with
  | link new n oldTail after hpc hn hsame hnull =>
    rw [hpc] at hL
    obtain ⟨-,hnnull,hnout⟩ := hL.newNode new rfl
    obtain ⟨-,hin,hbehind⟩ := hL.oldTail n hn
    have hmem := hin.resolve_right (by simp [hnull])
    have hntail := hS.tail_of_last hmem hnull hbehind
    have hs0 : s' = { s with next := Function.update s.next n ⟨some new,after.counter + 1⟩ }.goto t
        (.pushFinish new oldTail) := by
      simp only [ClassicMSQueue.threadStep,hpc,hn,if_pos hsame] at hs
      exact (Option.some.inj hs).symm
    refine ⟨fun u p hp => ?_,fun u p hp => ?_⟩
    · exact (hhead u p hp).link hnull hnnull (by rw [hs0]; rfl) (by rw [hs0]; rfl)
        (by rw [hs0]; rfl)
    · exact (htail u p hp).link hnull hnnull hnout (by rw [hs0]; rfl) hntail (by rw [hs0]; rfl)
        (by rw [hs0]; rfl)
  | pop oldHead after result m rest' hpc hsame hm hvalue hrest =>
    subst hrest
    have hs0 : s' = { s with head := ⟨after.nodePtr,oldHead.counter + 1⟩ }.goto t
        (.popDelete oldHead result) := by
      simp only [ClassicMSQueue.threadStep,hpc,if_pos hsame] at hs
      exact (Option.some.inj hs).symm
    refine ⟨fun u p hp => ?_,fun u p hp => ?_⟩
    · exact (hhead u p hp).pop hS.toShared (by rw [hs0]; rfl) (by rw [hs0]; rfl)
    · exact (htail u p hp).pop hS.toShared (by rw [hs0]; rfl) (by rw [hs0]; rfl) (by rw [hs0]; rfl)
  | keep hlink hpop =>
    obtain ⟨hhead',hnext,halloc,-,htail'⟩ := keep_memory hL.shaped hlink hpop hs
    refine ⟨fun u p hp => (hhead u p hp).congr hhead' hnext halloc,fun u p hp => ?_⟩
    rcases htail' with heq | ⟨old,x,hx,hsame,heq⟩
    · exact (htail u p hp).congr heq hnext halloc
    · have hold := (hF.tail t old (Pc.tailLink_tailSnap hx)).eq_of_same hsame
      obtain ⟨n,hn,hsucc⟩ := hL.tailLink old x hx hold
      exact (htail u p hp).swing hS.toShared (by rw [hold,hn]) hsucc heq hnext halloc

/-- Every step of a queue that frees nothing keeps the pointers known. -/
theorem Fresh.step {a : Action ι N T} (hF : Fresh s h rest) (hS : Sound s h rest)
    (hs : step false s a = some s') : ∃ h' rest', Sound s' h' rest' ∧ Fresh s' h' rest' := by
  cases a with
  | push t item =>
    simp only [ClassicMSQueue.step] at hs
    split at hs <;> cases hs
    refine ⟨h,rest,hS.outside rfl rfl rfl rfl trivial,fun u p hp => ?_,fun u p hp => ?_⟩
    · exact (hF.head u p (snap_goto rfl hp)).congr rfl rfl rfl
    · exact (hF.tail u p (snap_goto rfl hp)).congr rfl rfl rfl
  | pop t =>
    simp only [ClassicMSQueue.step] at hs
    split at hs <;> cases hs
    refine ⟨h,rest,hS.outside rfl rfl rfl rfl trivial,fun u p hp => ?_,fun u p hp => ?_⟩
    · exact (hF.head u p (snap_goto rfl hp)).congr rfl rfl rfl
    · exact (hF.tail u p (snap_goto rfl hp)).congr rfl rfl rfl
  | alloc t node =>
    simp only [ClassicMSQueue.step] at hs
    split at hs
    next item hpc =>
      split at hs <;> cases hs
      next hfree =>
        refine ⟨h,rest,hS.alloc hfree,fun u p hp => ?_,fun u p hp => ?_⟩
        · exact (hF.head u p (snap_goto rfl hp)).alloc hfree rfl rfl rfl
        · exact (hF.tail u p (snap_goto rfl hp)).alloc hS.toShared hfree rfl rfl rfl
    next => cases hs
  | step t => exact hF.threadStep hS hs

end Steps

section Runs

variable [DecidableEq ι] [DecidableEq N] [Inhabited T] {dummy : N} {s : Queue ι N T}

/-- When nothing is freed, the invariant holds and all pointers are known in every
reachable state. -/
theorem fresh_reachable (hr : (queue false ι T dummy).Reachable s) :
    ∃ h rest, Sound s h rest ∧ Fresh s h rest := by
  refine System.Reachable.invariant ?_ ?_ hr
  · exact ⟨dummy,[],sound_initial dummy,by rintro _ _ ⟨⟩,by rintro _ _ ⟨⟩⟩
  · rintro s a s' ⟨h,rest,hS,hF⟩ hs
    exact hF.step hS hs

/-- When nothing is freed, every step is guarded. -/
theorem guarded_reachable (hr : (queue false ι T dummy).Reachable s) (a : Action ι N T) :
    Guarded false s a := by
  obtain ⟨h,rest,hS,hF⟩ := fresh_reachable hr
  exact ⟨by rintro ⟨⟩,hF.unwrapped hS.head a⟩

end Runs

end ConcurrencyRuntime.ClassicMSQueue
