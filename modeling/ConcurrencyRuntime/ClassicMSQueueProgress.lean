import ConcurrencyRuntime.ClassicMSQueueRefinement
import ConcurrencyRuntime.StepCount

/-!
# Progress of the classic Michael-Scott queue

A loop goes around again only when head, tail or the next field that it looks at has
been changed by a successful compare-exchange since it was loaded, or by its own swing
of tail. Tail is swung at most once for each link. A next field that is null has never
been written since its node was constructed, so that its counter is zero.
-/

namespace ConcurrencyRuntime.ClassicMSQueue

open TransitionSystem LinkedPath

section Weights

variable {ι N T : Type*}

/-- The most steps until the call returns or its loop goes around. -/
def Pc.rank : Pc N T → ℕ
  | .idle | .fault => 0
  | .pushDone | .pushSwing .. | .popDone _ | .popSwing .. => 1
  | .pushFinish .. | .popDelete .. => 2
  | .pushLink .. | .popCas .. => 3
  | .pushCheck .. | .popValue .. => 4
  | .pushNext .. | .popCheck .. => 5
  | .pushTail _ | .popNext .. => 6
  | .pushNew _ | .popTail _ => 7
  | .popHead => 8

/-- The next field that a Push has loaded and is going to compare. -/
@[simp]
def Pc.nextSnap : Pc N T → Option (NodePointer N)
  | .pushCheck _ _ after | .pushLink _ _ after => some after
  | _ => none

/-- Null pointers in next fields have the counter that the constructor gave them. -/
structure Untouched (s : Queue ι N T) : Prop where
  next : ∀ n, s.succ n = none → (s.next n).counter = 0
  snaps : ∀ t p, (s.pc t).nextSnap = some p → p.nodePtr = none → p.counter = 0

variable [DecidableEq ι] [DecidableEq N]

/-- The calls of a thread. -/
def callsOf (t : ι) (_ : Queue ι N T) : Action ι N T → ℕ
  | .push u _ | .pop u => if u = t then 1 else 0
  | _ => 0

/-- The steps of a thread in its calls. -/
def stepsOf (t : ι) (_ : Queue ι N T) : Action ι N T → ℕ
  | .alloc u _ | .step u => if u = t then 1 else 0
  | _ => 0

/-- The enqueues: successful compare-exchanges of a next field. -/
def enqueues (s : Queue ι N T) : Action ι N T → ℕ
  | .step u =>
    match s.pc u with
    | .pushLink _ oldTail after =>
      match oldTail.nodePtr with
      | some n => if (s.next n).Same after then 1 else 0
      | none => 0
    | _ => 0
  | _ => 0

/-- The dequeues of an item: successful compare-exchanges of head. -/
def dequeues (s : Queue ι N T) : Action ι N T → ℕ
  | .step u =>
    match s.pc u with
    | .popCas oldHead _ _ => if s.head.Same oldHead then 1 else 0
    | _ => 0
  | _ => 0

/-- The successful compare-exchanges of tail. -/
def swings (s : Queue ι N T) : Action ι N T → ℕ
  | .step u =>
    match s.pc u with
    | .pushSwing _ oldTail _ | .pushFinish _ oldTail | .popSwing oldTail _ =>
      if s.tail.Same oldTail then 1 else 0
    | _ => 0
  | _ => 0

/-- The next step of a thread ends a round of its loop without success. -/
def Queue.failing (s : Queue ι N T) : Pc N T → ℕ
  | .pushSwing .. | .popSwing .. => 1
  | .pushCheck _ oldTail _ => if s.tail.Same oldTail then 0 else 1
  | .pushLink _ oldTail after =>
    match oldTail.nodePtr with
    | some n => if (s.next n).Same after then 0 else 1
    | none => 0
  | .popCheck oldHead _ _ | .popCas oldHead _ _ => if s.head.Same oldHead then 0 else 1
  | _ => 0

/-- The rounds of a thread that end without success. -/
def retriesOf (t : ι) (s : Queue ι N T) : Action ι N T → ℕ
  | .step u => if u = t then s.failing (s.pc u) else 0
  | _ => 0

/-- What a thread loaded in this round has changed since. -/
def Queue.stale (s : Queue ι N T) : Pc N T → ℕ
  | .pushNext _ oldTail | .pushSwing _ oldTail _ | .popSwing oldTail _ =>
    if s.tail.Same oldTail then 0 else 1
  | .pushCheck _ oldTail after =>
    if s.tail.Same oldTail ∧ (after.nodePtr = none → oldTail.nodePtr.bind s.succ = none) then 0
    else 1
  | .pushLink _ oldTail _ => if oldTail.nodePtr.bind s.succ = none then 0 else 1
  | .popTail oldHead | .popValue oldHead _ | .popCas oldHead _ _ =>
    if s.head.Same oldHead then 0 else 1
  | .popNext oldHead oldTail | .popCheck oldHead oldTail _ =>
    if s.head.Same oldHead ∧ s.tail.Same oldTail then 0 else 1
  | _ => 0

/-- Tail is behind the last node. -/
def Queue.lag (s : Queue ι N T) : ℕ := if s.tail.nodePtr.bind s.succ = none then 0 else 1

end Weights

section Steps

variable {ι N T : Type*} [DecidableEq ι] [DecidableEq N] {s s' : Queue ι N T} {a : Action ι N T}
  {t : ι} {frees : Bool}

omit [DecidableEq N] in
@[simp]
theorem goto_pc_self (s : Queue ι N T) (t : ι) (q : Pc N T) : (s.goto t q).pc t = q :=
  Function.update_self ..

omit [DecidableEq N] in
theorem goto_pc_of_ne {u : ι} (s : Queue ι N T) (q : Pc N T) (hu : u ≠ t) :
    (s.goto t q).pc u = s.pc u :=
  Function.update_of_ne hu ..

omit [DecidableEq N] in
@[simp]
theorem goto_tail (s : Queue ι N T) (t : ι) (q : Pc N T) : (s.goto t q).tail = s.tail :=
  rfl

omit [DecidableEq N] in
@[simp]
theorem goto_head (s : Queue ι N T) (t : ι) (q : Pc N T) : (s.goto t q).head = s.head :=
  rfl

omit [DecidableEq N] in
@[simp]
theorem goto_succ (s : Queue ι N T) (t : ι) (q : Pc N T) : (s.goto t q).succ = s.succ :=
  rfl

/-- What a step of a thread leaves alone. -/
theorem frame_threadStep (hs : threadStep frees s t = some s') :
    (swings s (.step t) = 0 → s'.tail = s.tail) ∧
      (dequeues s (.step t) = 0 → s'.head = s.head) ∧
      (enqueues s (.step t) = 0 → s'.next = s.next) := by
  cases hpc : s.pc t with
  | idle | pushNew _ | fault => simp [threadStep,hpc] at hs
  | pushNext _ _ | popNext _ _ | popValue _ _ | popCas _ _ _ | popDelete _ _ =>
    simp only [threadStep,hpc] at hs
    split at hs <;> cases hs
    all_goals
      refine ⟨?_,?_,?_⟩
      all_goals simp_all [swings,dequeues,enqueues,Queue.goto]
  | pushCheck _ _ _ | pushLink _ _ _ =>
    simp only [threadStep,hpc] at hs
    split at hs
    · split at hs <;> cases hs
      all_goals
        refine ⟨?_,?_,?_⟩
        all_goals simp_all [swings,dequeues,enqueues,Queue.goto]
    · cases hs
      exact ⟨fun _ => rfl,fun _ => rfl,fun _ => rfl⟩
  | popCheck _ _ _ =>
    simp only [threadStep,hpc] at hs
    split at hs
    · split at hs
      · split at hs <;> cases hs
        all_goals exact ⟨fun _ => rfl,fun _ => rfl,fun _ => rfl⟩
      · cases hs
        exact ⟨fun _ => rfl,fun _ => rfl,fun _ => rfl⟩
    · cases hs
      exact ⟨fun _ => rfl,fun _ => rfl,fun _ => rfl⟩
  | pushSwing _ _ _ | pushFinish _ _ | popSwing _ _ =>
    simp only [threadStep,hpc,Queue.swingTail] at hs
    split at hs <;> cases hs
    all_goals
      refine ⟨?_,fun _ => rfl,fun _ => rfl⟩
      all_goals simp_all [swings,Queue.goto]
  | _ =>
    simp only [threadStep,hpc] at hs
    cases hs
    exact ⟨fun _ => rfl,fun _ => rfl,fun _ => rfl⟩

/-- A step of a thread uses up its rank, or ends a round. -/
theorem rank_threadStep (hs : threadStep frees s t = some s') :
    1 + (s'.pc t).rank ≤ (s.pc t).rank + 8 * s.failing (s.pc t) := by
  cases hpc : s.pc t with
  | idle | pushNew _ | fault => simp [threadStep,hpc] at hs
  | pushNext _ _ | popNext _ _ | popValue _ _ | popCas _ _ _ | popDelete _ _ =>
    simp only [threadStep,hpc] at hs
    split at hs <;> cases hs
    all_goals simp [Pc.rank,Queue.failing, *]
  | pushCheck _ _ _ | pushLink _ _ _ =>
    simp only [threadStep,hpc] at hs
    split at hs
    · split at hs <;> cases hs
      all_goals simp [Pc.rank,Queue.failing, *]
    · cases hs
      simp [Pc.rank,Queue.failing, *]
  | popCheck _ _ _ =>
    simp only [threadStep,hpc] at hs
    split at hs
    · split at hs
      · split at hs <;> cases hs
        all_goals simp [Pc.rank,Queue.failing, *]
      · cases hs
        simp [Pc.rank,Queue.failing, *]
    · cases hs
      simp [Pc.rank,Queue.failing, *]
  | _ =>
    simp only [threadStep,hpc] at hs
    cases hs
    simp [Pc.rank,Queue.failing]

/-- The steps of a thread are paid by its calls and its rounds. -/
theorem rank_step (hs : step frees s a = some s') :
    stepsOf t s a + (s'.pc t).rank ≤ (s.pc t).rank + 8 * (callsOf t s a + retriesOf t s a) := by
  cases a with
  | push u item | pop u =>
    simp only [step] at hs
    split at hs <;> cases hs
    by_cases hu : u = t
    · subst hu
      simp [stepsOf,callsOf,retriesOf,Queue.goto,Pc.rank]
    · simp [stepsOf,callsOf,retriesOf,Queue.goto,Function.update_of_ne (Ne.symm hu),hu]
  | alloc u node =>
    simp only [step] at hs
    split at hs
    next item hpc =>
      split at hs <;> cases hs
      by_cases hu : u = t
      · subst hu
        simp [stepsOf,callsOf,retriesOf,Queue.goto,Pc.rank,hpc]
      · simp [stepsOf,callsOf,retriesOf,Queue.goto,Function.update_of_ne (Ne.symm hu),hu]
    next => cases hs
  | step u =>
    by_cases hu : u = t
    · subst hu
      have hrank := rank_threadStep hs
      simp only [stepsOf,callsOf,retriesOf,if_true]
      omega
    · have hpc := pc_threadStep hs (Ne.symm hu)
      simp [stepsOf,callsOf,retriesOf,hu,hpc]

omit [DecidableEq ι] in
/-- What a thread has loaded becomes stale by a successful compare-exchange only. -/
theorem stale_le {q : Pc N T} (htail : s'.tail = s.tail) (hhead : s'.head = s.head)
    (hnext : ∀ n, s.succ n = none → s'.succ n = none) : s'.stale q ≤ s.stale q := by
  have hbind : ∀ p : Option N, p.bind s.succ = none → p.bind s'.succ = none := by
    intro p hp
    cases p with
    | none => rfl
    | some n => exact hnext n hp
  cases q <;> simp only [Queue.stale,htail,hhead] <;> grind

omit [DecidableEq ι] in
theorem stale_le_one (s : Queue ι N T) (q : Pc N T) : s.stale q ≤ 1 := by
  cases q <;> simp only [Queue.stale] <;> grind

omit [DecidableEq N] in
theorem NodePointer.same_refl (p : NodePointer N) : p.Same p := ⟨rfl,rfl⟩

/-- A round that ends without success was stale, or ends with a swing of tail. The next
one begins with a load. -/
theorem stale_threadStep (hU : Untouched s) (hshaped : (s.pc t).Shaped)
    (hs : threadStep frees s t = some s') :
    s.failing (s.pc t) + s'.stale (s'.pc t) ≤ s.stale (s.pc t) + swings s (.step t) := by
  cases hpc : s.pc t with
  | idle | pushNew _ | fault => simp [threadStep,hpc] at hs
  | pushTail _ | popHead | popTail _ =>
    simp only [threadStep,hpc] at hs
    cases hs
    simp only [goto_pc_self,goto_head,goto_tail,Queue.failing,Queue.stale]
    grind [NodePointer.same_refl]
  | pushNext _ _ | popNext _ _ | popValue _ _ | popCas _ _ _ | popDelete _ _ =>
    simp only [threadStep,hpc] at hs
    split at hs <;> cases hs
    all_goals
      simp only [goto_pc_self,goto_head,goto_tail,goto_succ,Queue.failing,Queue.stale]
      grind [Queue.succ]
  | pushCheck _ _ _ =>
    simp only [threadStep,hpc] at hs
    split at hs
    · split at hs <;> cases hs
      all_goals
        simp only [goto_pc_self,goto_tail,goto_succ,Queue.failing,Queue.stale]
        grind
    · cases hs
      simp only [goto_pc_self,Queue.failing,Queue.stale]
      grind
  | pushLink new oldTail after =>
    rw [hpc] at hshaped
    obtain ⟨-,hafter⟩ := hshaped
    have hsnap := hU.snaps t after (by rw [hpc]; rfl) hafter
    simp only [threadStep,hpc] at hs
    split at hs
    next n hn =>
      split at hs <;> cases hs
      · simp only [goto_pc_self,Queue.failing,Queue.stale,hn]
        grind
      next hdiffer =>
        -- a next field that is still null is the one that was loaded
        have hset : s.succ n ≠ none := by
          intro hnull
          refine hdiffer ⟨hnull.trans hafter.symm,?_⟩
          rw [hU.next n hnull,hsnap]
        simp [goto_pc_self,Queue.failing,Queue.stale,hn,hset,hdiffer]
    next hn =>
      cases hs
      simp [goto_pc_self,Queue.failing,Queue.stale,hn]
  | popCheck _ _ _ =>
    simp only [threadStep,hpc] at hs
    split at hs
    · split at hs
      · split at hs <;> cases hs
        all_goals
          simp only [goto_pc_self,goto_tail,Queue.failing,Queue.stale]
          grind
      · cases hs
        simp only [goto_pc_self,goto_head,Queue.failing,Queue.stale]
        grind
    · cases hs
      simp only [goto_pc_self,Queue.failing,Queue.stale]
      grind
  | pushSwing _ _ _ | pushFinish _ _ | popSwing _ _ =>
    simp only [threadStep,hpc,Queue.swingTail] at hs
    split at hs <;> cases hs
    all_goals
      simp only [goto_pc_self,Queue.failing,Queue.stale,swings,hpc]
      grind
  | pushDone | popDone _ =>
    simp only [threadStep,hpc] at hs
    cases hs
    simp [goto_pc_self,Queue.failing,Queue.stale]

/-- A step of a thread writes a next field only to link a node. -/
theorem next_threadStep (hs : threadStep frees s t = some s') (n : N) :
    s'.next n = s.next n ∨ s'.succ n ≠ none := by
  by_cases hno : enqueues s (.step t) = 0
  · exact .inl (congrFun ((frame_threadStep hs).2.2 hno) n)
  · cases hpc : s.pc t with
    | pushLink new oldTail after =>
      simp only [threadStep,hpc] at hs
      split at hs
      · split at hs <;> cases hs
        · simp only [Queue.succ,Queue.goto,Function.update_apply]
          grind
        · exact .inl rfl
      · cases hs
        exact .inl rfl
    | _ => simp [enqueues,hpc] at hno

/-- A thread comes to compare a next field after loading it. -/
theorem nextSnap_threadStep {p : NodePointer N} (hs : threadStep frees s t = some s')
    (hp : (s'.pc t).nextSnap = some p) : (s.pc t).nextSnap = some p ∨ ∃ n, p = s.next n := by
  cases hpc : s.pc t with
  | idle | pushNew _ | fault => simp [threadStep,hpc] at hs
  | pushNext _ _ | popNext _ _ | popValue _ _ | popCas _ _ _ | popDelete _ _ =>
    simp only [threadStep,hpc] at hs
    split at hs <;> cases hs
    all_goals
      simp only [goto_pc_self,Pc.nextSnap] at hp
      grind
  | pushCheck _ _ _ | pushLink _ _ _ =>
    simp only [threadStep,hpc] at hs
    split at hs
    · split at hs <;> cases hs
      all_goals
        simp only [goto_pc_self,Pc.nextSnap] at hp
        grind [Pc.nextSnap]
    · cases hs
      simp [goto_pc_self] at hp
  | popCheck _ _ _ =>
    simp only [threadStep,hpc] at hs
    split at hs
    · split at hs
      · split at hs <;> cases hs
        all_goals simp [goto_pc_self] at hp
      · cases hs
        simp [goto_pc_self] at hp
    · cases hs
      simp [goto_pc_self] at hp
  | _ =>
    simp only [threadStep,hpc] at hs
    cases hs
    simp [goto_pc_self] at hp

/-- Every step keeps the counters of null pointers. -/
theorem untouched_step (hU : Untouched s) (hs : step frees s a = some s') : Untouched s' := by
  cases a with
  | push u item | pop u =>
    simp only [step] at hs
    split at hs <;> cases hs
    refine ⟨hU.next,fun t p hp => ?_⟩
    by_cases ht : t = u
    · subst ht
      simp [Queue.goto] at hp
    · simp only [Queue.goto,Function.update_of_ne ht] at hp
      exact hU.snaps t p hp
  | alloc u node =>
    simp only [step] at hs
    split at hs
    next item hpc =>
      split at hs <;> cases hs
      refine ⟨fun n hn => ?_,fun t p hp => ?_⟩
      · simp only [Queue.succ,Queue.goto,Function.update_apply] at hn ⊢
        split
        · rfl
        next hne => exact hU.next n (by simpa [Queue.succ,hne] using hn)
      · by_cases ht : t = u
        · subst ht
          simp [Queue.goto] at hp
        · simp only [Queue.goto,Function.update_of_ne ht] at hp
          exact hU.snaps t p hp
    next => cases hs
  | step u =>
    refine ⟨fun n hn => ?_,fun t p hp hnull => ?_⟩
    · rcases next_threadStep hs n with hsame | hset
      · rw [hsame]
        refine hU.next n ?_
        rw [Queue.succ,←hsame]
        exact hn
      · exact absurd hn hset
    · by_cases ht : t = u
      · subst ht
        rcases nextSnap_threadStep hs hp with hold | ⟨n,rfl⟩
        · exact hU.snaps t p hold hnull
        · exact hU.next n hnull
      · rw [pc_threadStep hs ht] at hp
        exact hU.snaps t p hp hnull

/-- The rounds of a thread that end without success are paid by successful
compare-exchanges of all threads. -/
theorem stale_step (hU : Untouched s) (hshaped : (s.pc t).Shaped) (hs : step frees s a = some s') :
    retriesOf t s a + s'.stale (s'.pc t) ≤ s.stale (s.pc t) +
      (enqueues s a + dequeues s a + swings s a) := by
  cases a with
  | push u item | pop u =>
    simp only [step] at hs
    split at hs <;> cases hs
    by_cases hu : u = t
    · subst hu
      simp [retriesOf,Queue.stale]
    · rw [goto_pc_of_ne _ _ (Ne.symm hu)]
      refine (Nat.zero_add _).trans_le (le_trans ?_ (Nat.le_add_right ..))
      exact stale_le rfl rfl fun _ hn => hn
  | alloc u node =>
    simp only [step] at hs
    split at hs
    next item hpc =>
      split at hs <;> cases hs
      by_cases hu : u = t
      · subst hu
        simp [retriesOf,Queue.stale]
      · rw [goto_pc_of_ne _ _ (Ne.symm hu)]
        refine (Nat.zero_add _).trans_le (le_trans ?_ (Nat.le_add_right ..))
        refine stale_le rfl rfl fun n hn => ?_
        simp only [Queue.succ,Queue.goto,Function.update_apply]
        split
        · rfl
        · exact hn
    next => cases hs
  | step u =>
    by_cases hu : u = t
    · subst hu
      have hround := stale_threadStep hU hshaped hs
      simp only [retriesOf,if_true]
      omega
    · obtain ⟨htail,hhead,hnext⟩ := frame_threadStep hs
      rw [pc_threadStep hs (Ne.symm hu)]
      simp only [retriesOf,if_neg hu]
      by_cases hsuccess : enqueues s (.step u) + dequeues s (.step u) + swings s (.step u) = 0
      · have hsame := stale_le (q := s.pc t) (htail (by omega)) (hhead (by omega))
          fun n hn => (congrArg NodePointer.nodePtr (congrFun (hnext (by omega)) n)).trans hn
        omega
      · have hone := stale_le_one s' (s.pc t)
        omega

omit [DecidableEq ι] [DecidableEq N] in
/-- Tail falls behind by a link only. -/
theorem lag_le (htail : s'.tail = s.tail) (hnext : ∀ n, s.succ n = none → s'.succ n = none) :
    s'.lag ≤ s.lag := by
  simp only [Queue.lag,htail]
  cases htl : s.tail.nodePtr with
  | none => simp
  | some tl =>
    simp only [Option.bind_some]
    grind

/-- A swing of tail, when it succeeds, catches up with the last node. -/
theorem Sound.lag_swing {h : N} {rest : List N} {old : NodePointer N} {x : N} {q : Pc N T}
    (hS : Sound s h rest) (hlink : s.tail = old → ∃ n, old.nodePtr = some n ∧ s.succ n = some x)
    (hwrap : s.tail.Same old → s.tail = old) :
    (if s.tail.Same old then 1 else 0) + ((s.swingTail old (some x)).goto t q).lag ≤ s.lag := by
  by_cases hc : s.tail.Same old
  · obtain ⟨n,hn,hx⟩ := hlink (hwrap hc)
    have htail : s.tail.nodePtr = some n := (congrArg NodePointer.nodePtr (hwrap hc)).trans hn
    have hlast := (hS.succ_tail htail hx).2
    have hlag : s.lag = 1 := by simp [Queue.lag,htail,hx]
    have hcaught : ((s.swingTail old (some x)).goto t q).lag = 0 := by
      rw [Queue.swingTail,if_pos hc]
      exact if_pos hlast
    rw [if_pos hc]
    omega
  · rw [if_neg hc,Queue.swingTail,if_neg hc]
    exact (Nat.zero_add _).trans_le (lag_le rfl fun _ hn => hn)

/-- Every swing of tail is paid by a link. -/
theorem lag_step {h : N} {rest : List N} (hS : Sound s h rest) (hwrap : Unwrapped s a)
    (hs : step frees s a = some s') : swings s a + s'.lag ≤ s.lag + enqueues s a := by
  cases a with
  | push u item | pop u =>
    simp only [step] at hs
    split at hs <;> cases hs
    exact (Nat.zero_add _).trans_le (lag_le rfl fun _ hn => hn)
  | alloc u node =>
    simp only [step] at hs
    split at hs
    next item hpc =>
      split at hs <;> cases hs
      refine (Nat.zero_add _).trans_le (lag_le rfl ?_)
      intro n hn
      simp only [Queue.succ,Queue.goto,Function.update_apply]
      split
      · rfl
      · exact hn
    next => cases hs
  | step u =>
    obtain ⟨htail,-,hnext⟩ := frame_threadStep hs
    have hL := hS.locals u
    have hone : s'.lag ≤ 1 := by
      rw [Queue.lag]
      split <;> omega
    cases hpc : s.pc u with
    | pushSwing new old after | popSwing old after =>
      rw [hpc] at hL
      simp only [Unwrapped,hpc] at hwrap
      obtain ⟨x,hx⟩ := Option.ne_none_iff_exists'.mp hL.shaped
      simp only [step,threadStep,hpc,hx] at hs
      cases hs
      simp only [swings,hpc,enqueues]
      exact hS.lag_swing (hL.tailLink old x (by simp [hx])) hwrap
    | pushFinish new old =>
      rw [hpc] at hL
      simp only [Unwrapped,hpc] at hwrap
      simp only [step,threadStep,hpc] at hs
      cases hs
      simp only [swings,hpc,enqueues]
      exact hS.lag_swing (hL.tailLink old new (by simp)) hwrap
    | _ =>
      have hnone : swings s (.step u) = 0 := by simp [swings,hpc]
      by_cases hno : enqueues s (.step u) = 0
      · have hle : s'.lag ≤ s.lag := lag_le (htail hnone) fun n hn =>
          (congrArg NodePointer.nodePtr (congrFun (hnext hno) n)).trans hn
        omega
      · omega

end Steps

section Runs

variable {ι N T : Type*} [DecidableEq ι] [DecidableEq N] [Inhabited T] {dummy : N}
  {acts : List (Action ι N T)} {s : Queue ι N T}

/-- What a run without reuse keeps, for the counting below. -/
structure Paying (s : Queue ι N T) : Prop where
  sound : ∃ h rest, Sound s h rest
  untouched : Untouched s

/-- Lock-freedom of the queue whose delete does nothing. Whatever the other threads do,
and also when some of them stop in the middle of a call for good, a thread executes no
more than eight steps for each of its calls and for each compare-exchange of an enqueue,
a dequeue or a swing of tail that succeeds, of which there are at most two for an
enqueue and one for a dequeue. -/
theorem classic_lock_free (t : ι)
    (hr : (queue false ι T dummy).run (initial ι T dummy) acts = some s) :
    (queue false ι T dummy).total (stepsOf t) (initial ι T dummy) acts ≤
      8 * ((queue false ι T dummy).total (callsOf t) (initial ι T dummy) acts +
        2 * (queue false ι T dummy).total enqueues (initial ι T dummy) acts +
        (queue false ι T dummy).total dequeues (initial ι T dummy) acts) := by
  have hm := guarded_run acts (System.ReachableUnder.start : (queue false ι T dummy).Reachable _)
  have hkeep : ∀ (s : Queue ι N T) a s', Paying s → Guarded false s a →
      (queue false ι T dummy).step s a = some s' → Paying s' := by
    rintro s a s' ⟨⟨h,rest,hS⟩,hU⟩ ha hs
    exact ⟨sound_step hS ha hs,untouched_step hU hs⟩
  have hstart : Paying (initial ι T dummy) :=
    ⟨⟨dummy,[],sound_initial dummy⟩,fun _ _ => rfl,by rintro _ _ ⟨⟩⟩
  have hswings : (queue false ι T dummy).total swings (initial ι T dummy) acts + _ ≤ _ :=
    System.total_le Queue.lag hkeep (by
      rintro s a s' ⟨⟨h,rest,hS⟩,-⟩ ha hs
      exact lag_step hS ha.2 hs) hstart hm hr
  have hrounds : (queue false ι T dummy).total (retriesOf t) (initial ι T dummy) acts + _ ≤ _ :=
    System.total_le (fun s => s.stale (s.pc t)) hkeep (by
      rintro s a s' ⟨⟨h,rest,hS⟩,hU⟩ - hs
      exact stale_step hU (hS.locals t).shaped hs) hstart hm hr
  have hsteps : (queue false ι T dummy).total (stepsOf t) (initial ι T dummy) acts + _ ≤ _ :=
    System.total_le_of_forall (fun s => (s.pc t).rank) (fun _ _ _ hs => rank_step hs) hr
  have hlag : (initial ι T dummy).lag = 0 := rfl
  have hfresh : (initial ι T dummy).stale ((initial ι T dummy).pc t) = 0 := rfl
  have hidle : ((initial ι T dummy).pc t).rank = 0 := rfl
  simp only [System.total_add,System.total_mul] at hrounds hsteps
  omega

/-- A Push has loaded tail and a null next when another thread pushes; it goes around. -/
def contended : List (Action (Fin 2) ℕ ℕ) :=
  List.flatten [[.push 0 7,.alloc 0 1,.step 0,.step 0],[.push 1 8,.alloc 1 2],
    List.replicate 6 (.step 1),List.replicate 7 (.step 0)]

theorem classic_lock_free_contended :
    (queue false (Fin 2) ℕ 0).total (stepsOf 0) (initial (Fin 2) ℕ 0) contended ≤
      8 * ((queue false (Fin 2) ℕ 0).total (callsOf 0) (initial (Fin 2) ℕ 0) contended +
        2 * (queue false (Fin 2) ℕ 0).total enqueues (initial (Fin 2) ℕ 0) contended +
        (queue false (Fin 2) ℕ 0).total dequeues (initial (Fin 2) ℕ 0) contended) := by
  have hends : (queue false (Fin 2) ℕ 0).Ends (initial (Fin 2) ℕ 0) contended
      fun s => s.pc 0 = .idle := by decide +kernel
  obtain ⟨s,hr,-⟩ := hends.exists_run
  exact classic_lock_free 0 hr

end Runs

end ConcurrencyRuntime.ClassicMSQueue
