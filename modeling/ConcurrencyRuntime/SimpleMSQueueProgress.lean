import ConcurrencyRuntime.SimpleMSQueueReclamation
import ConcurrencyRuntime.StepCount

/-!
# Progress of the simple Michael-Scott queue

A loop of Push or TryPop goes around again only when a compare-exchange has
succeeded since it loaded its pointer, its own or that of another thread, or when
its own has failed spuriously. Tail is swung at most once for each link. So what a
thread executes is bounded by its calls, its spurious failures, and the enqueues and
dequeues of all threads that take effect: no call waits for a thread that has stopped.
-/

namespace ConcurrencyRuntime.SimpleMSQueue

open TransitionSystem LinkedPath

section Weights

variable {ι N T : Type*}

/-- The compare-exchange that comes next may fail spuriously. -/
def Pc.weak : Pc N T → Bool
  | .pushSwing .. | .pushLink .. | .popSwing .. | .popHead .. => true
  | _ => false

/-- The most steps until the call returns or its loop goes around. -/
def Pc.rank : Pc N T → ℕ
  | .idle | .fault => 0
  | .pushDone | .pushSwing .. | .popDone _ | .popSwing .. => 1
  | .pushFinish .. | .pushHelp .. | .popRetire .. | .popHelp _ | .popReleaseEmpty => 2
  | .pushLink .. | .popRelease .. => 3
  | .pushNext .. | .popValue .. => 4
  | .pushTail _ | .popSuccessor _ => 5
  | .pushNew _ | .popHead .. => 6
  | .popHeadNext _ => 7
  | .popTail _ => 8
  | .popNext _ => 9
  | .popValidate _ => 10
  | .popProtect _ => 11
  | .popLoad => 12

variable [DecidableEq ι] [DecidableEq N]

/-- The calls of a thread. -/
def callsOf (t : ι) (_ : Queue ι N T) : Action ι N T → ℕ
  | .push u _ | .pop u => if u = t then 1 else 0
  | _ => 0

/-- The steps of a thread in its calls. -/
def stepsOf (t : ι) (_ : Queue ι N T) : Action ι N T → ℕ
  | .alloc u _ | .step u _ => if u = t then 1 else 0
  | _ => 0

/-- The spurious failures of a thread. -/
def spuriousOf (t : ι) (s : Queue ι N T) : Action ι N T → ℕ
  | .step u spurious => if u = t ∧ (s.pc u).weak = true ∧ spurious = true then 1 else 0
  | _ => 0

/-- The enqueues: successful compare-exchanges of a null next. -/
def enqueues (s : Queue ι N T) : Action ι N T → ℕ
  | .step u spurious =>
    match s.pc u with
    | .pushLink _ oldTail => if s.next oldTail = none ∧ spurious = false then 1 else 0
    | _ => 0
  | _ => 0

/-- The dequeues of an item: successful compare-exchanges of head. -/
def dequeues (s : Queue ι N T) : Action ι N T → ℕ
  | .step u spurious =>
    match s.pc u with
    | .popHead oldHead _ => if s.head = some oldHead ∧ spurious = false then 1 else 0
    | _ => 0
  | _ => 0

/-- The successful compare-exchanges of tail. -/
def swings (s : Queue ι N T) : Action ι N T → ℕ
  | .step u spurious =>
    match s.pc u with
    | .pushSwing _ old _ | .popSwing old _ =>
      if s.tail = some old ∧ spurious = false then 1 else 0
    | .pushFinish _ oldTail => if s.tail = some oldTail then 1 else 0
    | _ => 0
  | _ => 0

/-- The next step of a thread ends a round of its loop without success. -/
def Queue.failing (s : Queue ι N T) (spurious : Bool) : Pc N T → ℕ
  | .pushSwing .. | .popSwing .. => 1
  | .pushLink _ oldTail => if s.next oldTail = none ∧ spurious = false then 0 else 1
  | .popValidate before => if s.head = before then 0 else 1
  | .popHead oldHead _ => if s.head = some oldHead ∧ spurious = false then 0 else 1
  | _ => 0

/-- The rounds of a thread that end without success. -/
def retriesOf (t : ι) (s : Queue ι N T) : Action ι N T → ℕ
  | .step u spurious => if u = t then s.failing spurious (s.pc u) else 0
  | _ => 0

/-- What a thread loaded in this round has changed since. -/
def Queue.stale (s : Queue ι N T) : Pc N T → ℕ
  | .pushNext _ old | .pushHelp _ old | .pushSwing _ old _ | .popHelp old | .popSwing old _ =>
    if s.tail = some old then 0 else 1
  | .pushLink _ oldTail => if s.next oldTail = none then 0 else 1
  | .popProtect before | .popValidate before => if s.head = before then 0 else 1
  | .popNext oldHead | .popTail oldHead | .popHeadNext oldHead | .popHead oldHead _ =>
    if s.head = some oldHead then 0 else 1
  | _ => 0

/-- Tail is behind the last node. -/
def Queue.lag (s : Queue ι N T) : ℕ := if s.tail.bind s.next = none then 0 else 1

end Weights

section Steps

variable {ι N T : Type*} [DecidableEq ι] [DecidableEq N] {s s' : Queue ι N T} {a : Action ι N T}
  {t : ι} {spurious : Bool}

omit [DecidableEq N] in
@[simp]
theorem goto_pc_self (s : Queue ι N T) (t : ι) (q : Pc N T) : (s.goto t q).pc t = q :=
  Function.update_self ..

omit [DecidableEq N] in
theorem goto_pc_of_ne {u : ι} (s : Queue ι N T) (q : Pc N T) (hu : u ≠ t) :
    (s.goto t q).pc u = s.pc u :=
  Function.update_of_ne hu ..

/-- What a step of a thread leaves alone. -/
theorem frame_threadStep (hs : threadStep s t spurious = some s') :
    (∀ u, u ≠ t → s'.pc u = s.pc u) ∧
      (swings s (.step t spurious) = 0 → s'.tail = s.tail) ∧
      (dequeues s (.step t spurious) = 0 → s'.head = s.head) ∧
      (enqueues s (.step t spurious) = 0 → s'.next = s.next) := by
  cases hpc : s.pc t with
  | idle | pushNew _ | fault => simp [threadStep,hpc] at hs
  | pushTail _ | pushNext _ _ | popNext _ | popTail _ | popSuccessor _ | popValue _ _
  | pushLink _ _ | popHead _ _ =>
    simp only [threadStep,hpc] at hs
    split at hs <;> cases hs
    all_goals
      refine ⟨fun u hu => goto_pc_of_ne _ _ hu,?_,?_,?_⟩
      all_goals simp_all [swings,dequeues,enqueues,Queue.goto]
  | popValidate before =>
    simp only [threadStep,hpc] at hs
    split at hs
    · split at hs <;> cases hs
      all_goals exact ⟨fun u hu => goto_pc_of_ne _ _ hu,fun _ => rfl,fun _ => rfl,fun _ => rfl⟩
    · cases hs
      exact ⟨fun u hu => goto_pc_of_ne _ _ hu,fun _ => rfl,fun _ => rfl,fun _ => rfl⟩
  | pushSwing _ _ _ | pushFinish _ _ | popSwing _ _ =>
    simp only [threadStep,hpc,Queue.swingTail] at hs
    split at hs <;> cases hs
    all_goals
      refine ⟨fun u hu => goto_pc_of_ne _ _ hu,?_,fun _ => rfl,fun _ => rfl⟩
      all_goals simp_all [swings,Queue.goto]
  | _ =>
    simp only [threadStep,hpc] at hs
    cases hs
    exact ⟨fun u hu => goto_pc_of_ne _ _ hu,fun _ => rfl,fun _ => rfl,fun _ => rfl⟩

/-- A step of a thread uses up its rank, or ends a round. -/
theorem rank_threadStep (hs : threadStep s t spurious = some s') :
    1 + (s'.pc t).rank ≤ (s.pc t).rank + 12 * s.failing spurious (s.pc t) := by
  cases hpc : s.pc t with
  | idle | pushNew _ | fault => simp [threadStep,hpc] at hs
  | pushTail _ | pushNext _ _ | popNext _ | popTail _ | popSuccessor _ | popValue _ _
  | pushLink _ _ | popHead _ _ =>
    simp only [threadStep,hpc] at hs
    split at hs <;> cases hs <;> simp [Pc.rank,Queue.failing, *]
  | popValidate before =>
    simp only [threadStep,hpc] at hs
    split at hs
    · split at hs <;> cases hs
      all_goals
        rw [goto_pc_self]
        simp only [Pc.rank]
        omega
    · cases hs
      simp [Pc.rank,Queue.failing, *]
  | _ =>
    simp only [threadStep,hpc] at hs
    cases hs
    simp [Pc.rank,Queue.failing]

/-- The steps of a thread are paid by its calls and its rounds. -/
theorem rank_step (hs : step s a = some s') :
    stepsOf t s a + (s'.pc t).rank ≤ (s.pc t).rank + 12 * (callsOf t s a + retriesOf t s a) := by
  cases a with
  | push u item | pop u =>
    simp only [step] at hs
    split at hs <;> cases hs
    by_cases hu : u = t
    · subst hu
      simp [stepsOf,callsOf,retriesOf,Queue.goto,Pc.rank]
    · simp [stepsOf,callsOf,retriesOf,Queue.goto,Function.update_of_ne (Ne.symm hu),hu]
  | alloc u node =>
    simp only [step] at hs
    split at hs
    next item hpc =>
      split at hs <;> cases hs
      by_cases hu : u = t
      · subst hu
        simp [stepsOf,callsOf,retriesOf,Queue.goto,Pc.rank,hpc]
      · simp [stepsOf,callsOf,retriesOf,Queue.goto,Function.update_of_ne (Ne.symm hu),hu]
    next => cases hs
  | step u spurious =>
    by_cases hu : u = t
    · subst hu
      have hrank := rank_threadStep hs
      simp only [stepsOf,callsOf,retriesOf,if_true]
      omega
    · have hpc := (frame_threadStep hs).1 t (Ne.symm hu)
      simp [stepsOf,callsOf,retriesOf,hu,hpc]
  | delete node =>
    simp only [step] at hs
    split at hs <;> cases hs
    simp [stepsOf,callsOf,retriesOf]

omit [DecidableEq ι] in
/-- What a thread has loaded becomes stale by a successful compare-exchange only. -/
theorem stale_le {q : Pc N T} (htail : s'.tail = s.tail) (hhead : s'.head = s.head)
    (hnext : ∀ n, s.next n = none → s'.next n = none) : s'.stale q ≤ s.stale q := by
  cases q <;> simp only [Queue.stale,htail,hhead] <;> grind

omit [DecidableEq ι] in
theorem stale_le_one (s : Queue ι N T) (q : Pc N T) : s.stale q ≤ 1 := by
  cases q <;> simp only [Queue.stale] <;> grind

/-- A round that ends without success was stale, or ends with a swing of tail or a
spurious failure. The next one begins with a load. -/
theorem stale_threadStep (hs : threadStep s t spurious = some s') :
    s.failing spurious (s.pc t) + s'.stale (s'.pc t) ≤ s.stale (s.pc t) +
      (swings s (.step t spurious) + spuriousOf t s (.step t spurious)) := by
  cases hpc : s.pc t with
  | idle | pushNew _ | fault => simp [threadStep,hpc] at hs
  | pushTail _ | pushNext _ _ | popNext _ | popTail _ | popSuccessor _ | popValue _ _
  | pushLink _ _ | popHead _ _ =>
    simp only [threadStep,hpc] at hs
    split at hs <;> cases hs
    all_goals
      simp only [Queue.failing,Queue.stale,swings,spuriousOf,Pc.weak,Queue.goto,hpc]
      grind
  | popValidate before =>
    simp only [threadStep,hpc] at hs
    split at hs
    · split at hs <;> cases hs
      all_goals
        simp only [Queue.failing,Queue.stale,Queue.goto]
        grind
    · cases hs
      simp only [Queue.failing,Queue.stale,Queue.goto]
      grind
  | pushSwing _ _ _ | pushFinish _ _ | popSwing _ _ =>
    simp only [threadStep,hpc,Queue.swingTail] at hs
    split at hs <;> cases hs
    all_goals
      simp only [goto_pc_self,Queue.failing,Queue.stale,swings,spuriousOf,Pc.weak,hpc]
      grind
  | _ =>
    simp only [threadStep,hpc] at hs
    cases hs
    simp only [Queue.failing,Queue.stale,Queue.goto,Queue.protect]
    grind

/-- The rounds of a thread that end without success are paid by successful
compare-exchanges of all threads and by its own spurious failures. -/
theorem stale_step (hs : step s a = some s') :
    retriesOf t s a + s'.stale (s'.pc t) ≤ s.stale (s.pc t) +
      (enqueues s a + dequeues s a + swings s a + spuriousOf t s a) := by
  cases a with
  | push u item | pop u =>
    simp only [step] at hs
    split at hs <;> cases hs
    by_cases hu : u = t
    · subst hu
      simp [retriesOf,Queue.goto,Queue.stale]
    · rw [goto_pc_of_ne _ _ (Ne.symm hu)]
      exact (Nat.zero_add _).trans_le
        ((stale_le rfl rfl fun _ hn => hn).trans (Nat.le_add_right ..))
  | alloc u node =>
    simp only [step] at hs
    split at hs
    next item hpc =>
      split at hs <;> cases hs
      by_cases hu : u = t
      · subst hu
        simp [retriesOf,Queue.goto,Queue.stale]
      · rw [goto_pc_of_ne _ _ (Ne.symm hu)]
        have hnext : ∀ n, s.next n = none → Function.update s.next node none n = none := by
          intro n hn
          rw [Function.update_apply]
          split <;> simp [hn]
        refine (Nat.zero_add _).trans_le (le_trans ?_ (Nat.le_add_right ..))
        exact stale_le rfl rfl hnext
    next => cases hs
  | step u spurious =>
    by_cases hu : u = t
    · subst hu
      have hround := stale_threadStep hs
      simp only [retriesOf,if_true]
      omega
    · obtain ⟨hpc,htail,hhead,hnext⟩ := frame_threadStep hs
      rw [hpc t (Ne.symm hu)]
      simp only [retriesOf,if_neg hu]
      by_cases hsuccess : enqueues s (.step u spurious) + dequeues s (.step u spurious) +
          swings s (.step u spurious) = 0
      · have hsame := stale_le (q := s.pc t) (htail (by omega)) (hhead (by omega))
          fun n hn => (congrFun (hnext (by omega)) n).trans hn
        omega
      · have hone := stale_le_one s' (s.pc t)
        omega
  | delete node =>
    simp only [step] at hs
    split at hs <;> cases hs
    exact (Nat.zero_add _).trans_le (Nat.le_add_right ..)

omit [DecidableEq ι] [DecidableEq N] in
/-- Tail falls behind by a link only. -/
theorem lag_le (htail : s'.tail = s.tail) (hnext : ∀ n, s.next n = none → s'.next n = none) :
    s'.lag ≤ s.lag := by
  simp only [Queue.lag,htail]
  cases htl : s.tail with
  | none => simp
  | some tl =>
    simp only [Option.bind_some]
    grind

omit [DecidableEq ι] [DecidableEq N] in
/-- A swing of tail catches up with the last node. -/
theorem Sound.lag_swing {h : N} {rest : List N} {old : N} {x : Option N} (hS : Sound s h rest)
    (htail : s.tail = some old) (hlink : s.next old = x ∧ x ≠ none) :
    s.lag = 1 ∧ x.bind s.next = none := by
  obtain ⟨n,hn⟩ := Option.ne_none_iff_exists'.mp hlink.2
  have hnext : s.next old = some n := hlink.1.trans hn
  refine ⟨?_,?_⟩
  · simp [Queue.lag,htail,hnext]
  · rw [hn]
    exact (hS.succ_tail htail hnext).2

/-- Every swing of tail is paid by a link. -/
theorem lag_step {h : N} {rest : List N} (hS : Sound s h rest) (hs : step s a = some s') :
    swings s a + s'.lag ≤ s.lag + enqueues s a := by
  cases a with
  | push u item | pop u =>
    simp only [step] at hs
    split at hs <;> cases hs
    exact (Nat.zero_add _).trans_le (lag_le rfl fun _ hn => hn)
  | alloc u node =>
    simp only [step] at hs
    split at hs
    next item hpc =>
      split at hs <;> cases hs
      refine (Nat.zero_add _).trans_le (lag_le rfl ?_)
      intro n hn
      simp only [Queue.goto,Function.update_apply]
      split <;> simp [hn]
    next => cases hs
  | delete node =>
    simp only [step] at hs
    split at hs <;> cases hs
    exact (Nat.zero_add _).trans_le (lag_le rfl fun _ hn => hn)
  | step u spurious =>
    obtain ⟨-,htail,-,hnext⟩ := frame_threadStep hs
    have hlink := (hS.locals u).link
    have hone : s'.lag ≤ 1 := by
      rw [Queue.lag]
      split <;> omega
    have hquiet : swings s (.step u spurious) = 0 → enqueues s (.step u spurious) = 0 →
        s'.lag ≤ s.lag := fun h0 h1 =>
      lag_le (htail h0) fun n hn => (congrFun (hnext h1) n).trans hn
    have henqueue : enqueues s (.step u spurious) ≤ 1 := by
      simp only [enqueues]
      split
      · split <;> omega
      · omega
    cases hpc : s.pc u with
    | pushSwing new old after | popSwing old after =>
      have hno : enqueues s (.step u spurious) = 0 := by simp [enqueues,hpc]
      by_cases hc : s.tail = some old ∧ spurious = false
      · obtain ⟨hlag,hlast⟩ := hS.lag_swing hc.1 (hlink old after (by simp [hpc]))
        have hcaught : s'.lag = 0 := by
          simp only [step,threadStep,hpc,Queue.swingTail,if_pos hc] at hs
          cases hs
          simp [Queue.lag,Queue.goto,hlast]
        have hswing : swings s (.step u spurious) = 1 := by simp [swings,hpc,hc]
        omega
      · have hnone : swings s (.step u spurious) = 0 := by simp [swings,hpc,hc]
        have hle := hquiet hnone hno
        omega
    | pushFinish new old =>
      have hno : enqueues s (.step u spurious) = 0 := by simp [enqueues,hpc]
      by_cases hc : s.tail = some old
      · obtain ⟨hlag,hlast⟩ := hS.lag_swing hc (hlink old (some new) (by simp [hpc]))
        have hcaught : s'.lag = 0 := by
          simp only [step,threadStep,hpc,Queue.swingTail] at hs
          cases hs
          simp only [Option.bind_some] at hlast
          simp [Queue.lag,Queue.goto,hc,hlast]
        have hswing : swings s (.step u spurious) = 1 := by simp [swings,hpc,hc]
        omega
      · have hnone : swings s (.step u spurious) = 0 := by simp [swings,hpc,hc]
        have hle := hquiet hnone hno
        omega
    | _ =>
      have hnone : swings s (.step u spurious) = 0 := by simp [swings,hpc]
      by_cases h1 : enqueues s (.step u spurious) = 0
      · have hle := hquiet hnone h1
        omega
      · omega

end Steps

section Runs

variable {ι N T : Type*} [DecidableEq ι] [DecidableEq N] {dummy : N} {acts : List (Action ι N T)}
  {s : Queue ι N T}

/-- Tail is swung at most once for each enqueue. -/
theorem swings_le (hm : (queue ι T dummy).Meets Sheltered (initial ι T dummy) acts)
    (hr : (queue ι T dummy).run (initial ι T dummy) acts = some s) :
    (queue ι T dummy).total swings (initial ι T dummy) acts ≤
      (queue ι T dummy).total enqueues (initial ι T dummy) acts := by
  have hkeep : ∀ (s : Queue ι N T) a s', (∃ h rest, Sound s h rest) → Sheltered s a →
      (queue ι T dummy).step s a = some s' → ∃ h rest, Sound s' h rest := by
    rintro s a s' ⟨h,rest,hS⟩ ha hs
    exact sound_step hS ha hs
  have hpay : ∀ (s : Queue ι N T) a s', (∃ h rest, Sound s h rest) → Sheltered s a →
      (queue ι T dummy).step s a = some s' → swings s a + s'.lag ≤ s.lag + enqueues s a := by
    rintro s a s' ⟨h,rest,hS⟩ - hs
    exact lag_step hS hs
  have hstart : (initial ι T dummy).lag = 0 := rfl
  have htotal := System.total_le Queue.lag hkeep hpay ⟨dummy,[],sound_initial dummy⟩ hm hr
  omega

/-- Lock-freedom, when every delete is sheltered and a Retire counts as one step.
Whatever the other threads do, and also when some of them stop in the middle of a call
for good, a thread executes no more than twelve steps for each of its calls, for each of
its spurious failures, and for each compare-exchange of an enqueue, a dequeue or a swing
of tail that succeeds, of which there are at most two for an enqueue and one for a
dequeue. -/
theorem queue_lock_free (t : ι) (hm : (queue ι T dummy).Meets Sheltered (initial ι T dummy) acts)
    (hr : (queue ι T dummy).run (initial ι T dummy) acts = some s) :
    (queue ι T dummy).total (stepsOf t) (initial ι T dummy) acts ≤
      12 * ((queue ι T dummy).total (callsOf t) (initial ι T dummy) acts +
        (queue ι T dummy).total (spuriousOf t) (initial ι T dummy) acts +
        2 * (queue ι T dummy).total enqueues (initial ι T dummy) acts +
        (queue ι T dummy).total dequeues (initial ι T dummy) acts) := by
  have hswings := swings_le hm hr
  have hrounds : (queue ι T dummy).total (retriesOf t) (initial ι T dummy) acts + _ ≤ _ :=
    System.total_le_of_forall (fun s => s.stale (s.pc t)) (fun _ _ _ hs => stale_step hs) hr
  have hsteps : (queue ι T dummy).total (stepsOf t) (initial ι T dummy) acts + _ ≤ _ :=
    System.total_le_of_forall (fun s => (s.pc t).rank) (fun _ _ _ hs => rank_step hs) hr
  have hfresh : (initial ι T dummy).stale ((initial ι T dummy).pc t) = 0 := rfl
  have hidle : ((initial ι T dummy).pc t).rank = 0 := rfl
  simp only [System.total_add,System.total_mul] at hrounds hsteps
  omega

end Runs

/-- A Push has found a null next when another thread pushes; it fails and goes around. -/
def contended : List (Action (Fin 2) ℕ ℕ) :=
  List.flatten [.push 0 7 :: .alloc 0 1 :: steps 0 2,pushRun 1 8 2,steps 0 6]

theorem queue_lock_free_contended :
    (queue (Fin 2) ℕ 0).total (stepsOf 0) (initial (Fin 2) ℕ 0) contended ≤
      12 * ((queue (Fin 2) ℕ 0).total (callsOf 0) (initial (Fin 2) ℕ 0) contended +
        (queue (Fin 2) ℕ 0).total (spuriousOf 0) (initial (Fin 2) ℕ 0) contended +
        2 * (queue (Fin 2) ℕ 0).total enqueues (initial (Fin 2) ℕ 0) contended +
        (queue (Fin 2) ℕ 0).total dequeues (initial (Fin 2) ℕ 0) contended) := by
  have hends : (queue (Fin 2) ℕ 0).Ends (initial (Fin 2) ℕ 0) contended
      fun s => s.pc 0 = .idle := by decide
  have hmeets : (queue (Fin 2) ℕ 0).Meets Sheltered (initial (Fin 2) ℕ 0) contended := by decide
  obtain ⟨s,hr,-⟩ := hends.exists_run
  exact queue_lock_free 0 hmeets hr

end ConcurrencyRuntime.SimpleMSQueue
