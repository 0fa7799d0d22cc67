import ConcurrencyRuntime.DistributedPoolControl

/-!
# The signals of the distributed pool

What a step does to the queues of the workers, their counters and semaphores, and to
the threads that are on their way to a release. A Push is due at a worker from its
push to the queue to its release of the semaphore; a worker comes back to its queue
before it sleeps, or has found it empty.
-/

namespace ConcurrencyRuntime.DistributedPool

open TransitionSystem

/-- The queues of the workers, their counters and semaphores. -/
structure Signals (n : ℕ) (K : Type*) where
  localTasks : Fin n → List K
  counterEmptyTasks : Fin n → UInt64
  suspendedWorkers : UInt64
  smph : Fin n → ℕ

/-- The threads that call Submit or Push. -/
inductive Thread (n : ℕ) (O : Type*) where
  | worker (w : Fin n)
  | outside (o : O)
  deriving DecidableEq

/-- Where a worker is between its queue and its semaphore. -/
inductive Spot where
  | absent
  /-- Comes to TryPop of its queue before it sleeps. -/
  | busy
  /-- TryPop of its queue. -/
  | popLocal
  /-- Has found its queue empty, up to CanCloseWorker. -/
  | looking
  /-- The fetch_sub of counter_empty_tasks. -/
  | emptySub
  /-- Up to the load of its shutdown flag. -/
  | counted
  /-- AddSuspendedWorker. -/
  | addSuspended
  /-- Up to the load of its shutdown flag in Loop. -/
  | leaving
  /-- In try_acquire_for. -/
  | sleep
  | gone
  deriving DecidableEq

variable {n : ℕ} {K O Q : Type*}

def WorkerPc.spot : WorkerPc n K → Spot
  | .absent => .absent
  | .popLocal => .popLocal
  | .popGlobal | .processShutdown | .processCount => .looking
  | .emptySub => .emptySub
  | .emptyLoad | .processFlag => .counted
  | .addSuspended => .addSuspended
  | .suspend | .loopShutdown | .loopCount | .loopFlag => .leaving
  | .sleep => .sleep
  | .gone => .gone
  | _ => .busy

/-- The call of Submit or Push that a worker is in. -/
def WorkerPc.inCall : WorkerPc n K → Option (SubmitPc n K)
  | .submitting _ _ call | .push call => some call
  | _ => none

/-- The worker whose queue a Push has reached and whose semaphore it has not. -/
def SubmitPc.due : SubmitPc n K → Option (Fin n)
  | .reset w | .wakeUp w | .release w => some w
  | _ => none

/-- The same after the next step of the call. -/
def SubmitPc.dueNext : SubmitPc n K → Option (Fin n)
  | .enqueue w _ | .reset w | .wakeUp w => some w
  | _ => none

/-- The next step of a thread in a call. -/
def Thread.action : Thread n O → Action n K O Q
  | .worker w => .worker w
  | .outside o => .outside o

def Pool.signals (s : Pool n K O Q) : Signals n K :=
  ⟨s.localTasks,s.counterEmptyTasks,s.suspendedWorkers,s.smph⟩

def Pool.spot (s : Pool n K O Q) (w : Fin n) : Spot := (s.worker w).spot

/-- The call of Submit or Push that a thread is in. -/
def Pool.inCall (s : Pool n K O Q) : Thread n O → Option (SubmitPc n K)
  | .worker w => (s.worker w).inCall
  | .outside o => s.outside o

/-- The worker at which a Push of the thread is due. -/
def Pool.due (s : Pool n K O Q) (t : Thread n O) : Option (Fin n) :=
  (s.inCall t).bind SubmitPc.due

/-- A worker of the list. -/
def workerAt (n i : ℕ) : Option (Fin n) :=
  if h : i < n then some ⟨i,h⟩ else none

/-- The worker whose semaphore the owner releases next. -/
def Pool.ownerDue (s : Pool n K O Q) : Option (Fin n) :=
  match s.owner with
  | .wake i | .release i => workerAt n i
  | _ => none

/-- The worker at which the owner becomes due: WaitShutdown comes to it, or its
destructor begins. -/
def Pool.ownerBegins (s : Pool n K O Q) : Action n K O Q → Option (Fin n)
  | .waitShutdown => workerAt n 0
  | .owner =>
    match s.owner with
    | .join i => workerAt n (i + 1)
    | .flag i => workerAt n i
    | _ => none
  | _ => none

/-- What a step of Submit does to the signals. -/
def Signals.submit (g : Signals n K) : SubmitPc n K → Signals n K
  | .enqueue w task =>
    { g with localTasks := Function.update g.localTasks w (g.localTasks w ++ [task]) }
  | .reset w => { g with counterEmptyTasks := Function.update g.counterEmptyTasks w 0 }
  | .wakeUp _ => { g with suspendedWorkers := g.suspendedWorkers - 1 }
  | .release w => { g with smph := Function.update g.smph w (g.smph w + 1) }
  | _ => g

/-- Where a worker goes outside of calls, and what it does to the signals. -/
inductive WorkerTurn (g : Signals n K) (w : Fin n) : Spot → Signals n K → Spot → Prop
  | busy : WorkerTurn g w .busy g .busy
  | ready : WorkerTurn g w .busy g .popLocal
  | pop {task : K} {rest : List K} : g.localTasks w = task :: rest →
      WorkerTurn g w .popLocal { g with localTasks := Function.update g.localTasks w rest } .busy
  | empty : g.localTasks w = [] → WorkerTurn g w .popLocal g .looking
  | look : WorkerTurn g w .looking g .looking
  | found : WorkerTurn g w .looking g .busy
  | poll : WorkerTurn g w .looking g .emptySub
  | exit : WorkerTurn g w .looking g .leaving
  | emptySub : WorkerTurn g w .emptySub
      { g with
        counterEmptyTasks :=
          Function.update g.counterEmptyTasks w (g.counterEmptyTasks w - 1) } .counted
  | check : WorkerTurn g w .counted g .counted
  | stay : WorkerTurn g w .counted g .busy
  | suspend : WorkerTurn g w .counted g .addSuspended
  | addSuspended :
      WorkerTurn g w .addSuspended { g with suspendedWorkers := g.suspendedWorkers + 1 } .leaving
  | leave : WorkerTurn g w .leaving g .leaving
  | flagged : WorkerTurn g w .leaving g .busy
  | doze : WorkerTurn g w .leaving g .sleep
  | finish : WorkerTurn g w .leaving g .gone
  | acquire : 0 < g.smph w →
      WorkerTurn g w .sleep { g with smph := Function.update g.smph w (g.smph w - 1) } .busy
  | timeout : WorkerTurn g w .sleep g .busy

variable [DecidableEq K] [DecidableEq O] [DecidableEq Q]

/-- What a step does to the signals and to the threads around them. -/
inductive Signalled (s : Pool n K O Q) (a : Action n K O Q) (s' : Pool n K O Q) : Prop
  /-- A thread goes on in a call. -/
  | call {t : Thread n O} {call : SubmitPc n K} (action : a = t.action)
      (inCall : s.inCall t = some call) (signals : s'.signals = s.signals.submit call)
      (due : s'.due = Function.update s.due t call.dueNext) (spot : s'.spot = s.spot)
      (owner : s'.ownerDue = s.ownerDue)
  /-- A worker goes on outside of calls. -/
  | worker {w : Fin n} {spot' : Spot} (action : a = .worker w ∨ s.spot w ≠ .emptySub)
      (turn : WorkerTurn s.signals w (s.spot w) s'.signals spot') (due : s'.due = s.due)
      (spot : s'.spot = Function.update s.spot w spot') (owner : s'.ownerDue = s.ownerDue)
  /-- Start creates a thread. -/
  | create {w : Fin n} (signals : s'.signals = s.signals) (due : s'.due = s.due)
      (spot : s'.spot = Function.update s.spot w .busy) (owner : s'.ownerDue = none)
  /-- The owner releases a semaphore. -/
  | release {w : Fin n} (ownerDue : s.ownerDue = some w)
      (signals : s'.signals = s.signals.submit (.release w)) (due : s'.due = s.due)
      (spot : s'.spot = s.spot) (owner : s'.ownerDue = none)
  /-- The owner goes on, or a thread outside of the pool does. -/
  | other (signals : s'.signals = s.signals) (due : s'.due = s.due) (spot : s'.spot = s.spot)
      (owner : s'.ownerDue = s.ownerDue ∨ s'.ownerDue = none ∨ s'.ownerDue = s.ownerBegins a)

section Steps

variable {s s' t : Pool n K O Q} {w : Fin n} {pc pc' : WorkerPc n K} {a : Action n K O Q}

omit [DecidableEq K] in
/-- A release of a semaphore leaves queues alone, and a token behind. -/
theorem submit_release (g : Signals n K) (v w : Fin n) :
    (g.submit (.release v)).localTasks = g.localTasks ∧
      (0 < g.smph w ∨ v = w → 0 < (g.submit (.release v)).smph w) := by
  refine ⟨rfl,fun h => ?_⟩
  simp only [Signals.submit,Function.update_apply]
  split
  next => exact Nat.succ_pos _
  next hne => exact h.resolve_right fun he => hne he.symm

omit [DecidableEq O] [DecidableEq Q] in
theorem submit_signals (s : Pool n K O Q) (call : SubmitPc n K) :
    (s.submit call).1.signals = s.signals.submit call := by
  cases call with
  | state task | route task =>
    rw [Pool.submit]
    split <;> rfl
  | progress task =>
    rw [Pool.submit,Pool.progressState]
    split <;> rfl
  | add | global | enqueue | reset | wakeUp | release => rfl

omit [DecidableEq O] [DecidableEq Q] in
theorem submit_due (s : Pool n K O Q) (call : SubmitPc n K) :
    (s.submit call).2.bind SubmitPc.due = call.dueNext := by
  cases call with
  | state task | route task =>
    rw [Pool.submit]
    split <;> rfl
  | add | progress | global | enqueue | reset | wakeUp | release => rfl

omit [DecidableEq K] [DecidableEq O] [DecidableEq Q] in
theorem spot_goto (t : Pool n K O Q) (w : Fin n) (pc : WorkerPc n K) :
    (t.goto w pc).spot = Function.update t.spot w pc.spot := by
  funext v
  simp only [Pool.spot,Pool.goto,Function.update_apply]
  split <;> rfl

omit [DecidableEq K] [DecidableEq Q] in
theorem due_goto (t : Pool n K O Q) (w : Fin n) (pc : WorkerPc n K) :
    (t.goto w pc).due = Function.update t.due (.worker w) (pc.inCall.bind SubmitPc.due) := by
  funext u
  cases u with
  | worker v =>
    simp only [Pool.due,Pool.inCall,Pool.goto,Function.update_apply,Thread.worker.injEq]
    split <;> rfl
  | outside o => rfl

omit [DecidableEq K] [DecidableEq Q] in
theorem due_gotoOutside (t : Pool n K O Q) (o : O) (call : Option (SubmitPc n K)) :
    (t.gotoOutside o call).due = Function.update t.due (.outside o) (call.bind SubmitPc.due) := by
  funext u
  cases u with
  | worker v => rfl
  | outside o' =>
    simp only [Pool.due,Pool.inCall,Pool.gotoOutside,Function.update_apply,Thread.outside.injEq]
    split <;> rfl

omit [DecidableEq K] [DecidableEq O] [DecidableEq Q] in
/-- The threads decide what is due and where the workers are. -/
theorem due_congr (hworker : t.worker = s.worker) (houtside : t.outside = s.outside) :
    t.due = s.due ∧ t.spot = s.spot := by
  refine ⟨?_,?_⟩
  · funext u
    cases u with
    | worker v => simp only [Pool.due,Pool.inCall,hworker]
    | outside o => simp only [Pool.due,Pool.inCall,houtside]
  · funext v
    simp only [Pool.spot,hworker]

omit [DecidableEq K] [DecidableEq Q] in
/-- A worker goes on, and no Push of it is due before or after. -/
theorem Signalled.goto (hw : s.worker w = pc) (haction : a = .worker w ∨ pc.spot ≠ .emptySub)
    (hturn : WorkerTurn s.signals w pc.spot t.signals pc'.spot)
    (hsame : t.worker = s.worker ∧ t.outside = s.outside ∧ t.owner = s.owner)
    (hdue : pc.inCall.bind SubmitPc.due = none) (hdue' : pc'.inCall.bind SubmitPc.due = none) :
    Signalled s a (t.goto w pc') := by
  obtain ⟨hworker,houtside,howner⟩ := hsame
  obtain ⟨hdues,hspots⟩ := due_congr hworker houtside
  have hspot : s.spot w = pc.spot := congrArg WorkerPc.spot hw
  have hnone : s.due (.worker w) = none := by
    rw [Pool.due,Pool.inCall,hw]
    exact hdue
  refine .worker (w := w) ?_ (?_ : WorkerTurn _ _ _ _ pc'.spot) ?_ ?_ ?_
  · rwa [hspot]
  · rw [hspot]
    exact hturn
  · rw [due_goto,hdues,hdue',←hnone,Function.update_eq_self]
  · rw [spot_goto,hspots]
  · simp only [Pool.ownerDue,Pool.goto,howner]

omit [DecidableEq Q] in
/-- A worker goes on in a call. -/
theorem Signalled.submit {call : SubmitPc n K} (hw : s.worker w = pc)
    (hcall : pc.inCall = some call)
    (hcall' : pc'.inCall = (s.submit call).2) (hspot : pc'.spot = pc.spot) :
    Signalled s (.worker w) ((s.submit call).1.goto w pc') := by
  obtain ⟨hworker,houtside,howner,-⟩ := submit_threads s call
  obtain ⟨hdues,hspots⟩ := due_congr hworker houtside
  refine .call (t := .worker w) rfl ?_ (submit_signals s call) ?_ ?_ ?_
  · exact (congrArg WorkerPc.inCall hw).trans hcall
  · rw [due_goto,hdues,hcall',submit_due]
  · rw [spot_goto,hspots,hspot,←hw]
    exact Function.update_eq_self ..
  · simp only [Pool.ownerDue,Pool.goto,howner]

omit [DecidableEq Q] in
/-- Each step of a worker outside of routines. -/
theorem workerStep_signalled (h : s.workerStep w = some s') : Signalled s (.worker w) s' := by
  cases hw : s.worker w with
  | absent | gone | running =>
    rw [Pool.workerStep,hw] at h
    cases h
  | resume =>
    rw [Pool.workerStep,hw] at h
    cases hcoro : s.coro w with
    | none =>
      simp only [hcoro] at h
      cases h
      exact .goto hw (Or.inl rfl) .ready ⟨rfl,rfl,rfl⟩ rfl rfl
    | active =>
      simp only [hcoro] at h
      cases h
      exact .goto hw (Or.inl rfl) .busy ⟨rfl,rfl,rfl⟩ rfl rfl
    | completed =>
      simp only [hcoro] at h
      cases h
      exact .other rfl rfl rfl (Or.inl rfl)
  | loopShutdown =>
    rw [Pool.workerStep,hw] at h
    cases h
    split <;> exact .goto hw (Or.inl rfl) .leave ⟨rfl,rfl,rfl⟩ rfl rfl
  | loopCount =>
    rw [Pool.workerStep,hw] at h
    cases h
    split
    · exact .goto hw (Or.inl rfl) .finish ⟨rfl,rfl,rfl⟩ rfl rfl
    · exact .goto hw (Or.inl rfl) .leave ⟨rfl,rfl,rfl⟩ rfl rfl
  | loopFlag =>
    rw [Pool.workerStep,hw] at h
    cases h
    split
    · exact .goto hw (Or.inl rfl) .flagged ⟨rfl,rfl,rfl⟩ rfl rfl
    · exact .goto hw (Or.inl rfl) .doze ⟨rfl,rfl,rfl⟩ rfl rfl
  | sleep =>
    rw [Pool.workerStep,hw] at h
    obtain ⟨hsmph,⟨⟩⟩ := Option.ite_none_right_eq_some.mp h
    exact .goto hw (Or.inl rfl) (.acquire hsmph) ⟨rfl,rfl,rfl⟩ rfl rfl
  | popLocal =>
    rw [Pool.workerStep,hw] at h
    cases hlocal : s.localTasks w with
    | nil =>
      simp only [hlocal] at h
      cases h
      exact .goto hw (Or.inl rfl) (.empty hlocal) ⟨rfl,rfl,rfl⟩ rfl rfl
    | cons task rest =>
      simp only [hlocal] at h
      cases h
      exact .goto hw (Or.inl rfl) (.pop hlocal) ⟨rfl,rfl,rfl⟩ rfl rfl
  | popGlobal =>
    rw [Pool.workerStep,hw] at h
    simp only at h
    split at h <;> cases h
    · exact .goto hw (Or.inl rfl) .look ⟨rfl,rfl,rfl⟩ rfl rfl
    · exact .goto hw (Or.inl rfl) .found ⟨rfl,rfl,rfl⟩ rfl rfl
  | processShutdown =>
    rw [Pool.workerStep,hw] at h
    cases h
    split
    · exact .goto hw (Or.inl rfl) .look ⟨rfl,rfl,rfl⟩ rfl rfl
    · exact .goto hw (Or.inl rfl) .poll ⟨rfl,rfl,rfl⟩ rfl rfl
  | processCount =>
    rw [Pool.workerStep,hw] at h
    simp only at h
    split at h <;> cases h
    · exact .goto hw (Or.inl rfl) .exit ⟨rfl,rfl,rfl⟩ rfl rfl
    · exact .goto hw (Or.inl rfl) .poll ⟨rfl,rfl,rfl⟩ rfl rfl
  | emptySub =>
    rw [Pool.workerStep,hw] at h
    cases h
    exact .goto hw (Or.inl rfl) .emptySub ⟨rfl,rfl,rfl⟩ rfl rfl
  | emptyLoad =>
    rw [Pool.workerStep,hw] at h
    cases h
    split
    · exact .goto hw (Or.inl rfl) .check ⟨rfl,rfl,rfl⟩ rfl rfl
    · exact .goto hw (Or.inl rfl) .stay ⟨rfl,rfl,rfl⟩ rfl rfl
  | processFlag =>
    rw [Pool.workerStep,hw] at h
    cases h
    split
    · exact .goto hw (Or.inl rfl) .stay ⟨rfl,rfl,rfl⟩ rfl rfl
    · exact .goto hw (Or.inl rfl) .suspend ⟨rfl,rfl,rfl⟩ rfl rfl
  | addSuspended =>
    rw [Pool.workerStep,hw] at h
    cases h
    exact .goto hw (Or.inl rfl) .addSuspended ⟨rfl,rfl,rfl⟩ rfl rfl
  | suspend =>
    rw [Pool.workerStep,hw] at h
    cases h
    exact .goto hw (Or.inl rfl) .leave ⟨rfl,rfl,rfl⟩ rfl rfl
  | notifyAll =>
    rw [Pool.workerStep,hw] at h
    cases h
    exact .goto hw (Or.inl rfl) .ready ⟨rfl,rfl,rfl⟩ rfl rfl
  | enter | remove =>
    rw [Pool.workerStep,hw] at h
    cases h
    exact .goto hw (Or.inl rfl) .busy ⟨rfl,rfl,rfl⟩ rfl rfl
  | setWorker task =>
    rw [Pool.workerStep,hw] at h
    cases h
    rw [Pool.setWorker]
    split <;> exact .goto hw (Or.inl rfl) .busy ⟨rfl,rfl,rfl⟩ rfl rfl
  | completing task =>
    rw [Pool.workerStep,hw] at h
    cases h
    rw [Pool.progressState]
    split <;> exact .goto hw (Or.inl rfl) .busy ⟨rfl,rfl,rfl⟩ rfl rfl
  | submitting task stage call =>
    rw [Pool.workerStep,hw] at h
    cases h
    refine .submit hw rfl ?_ ?_ <;> cases (s.submit call).2 <;> rfl
  | push call =>
    rw [Pool.workerStep,hw] at h
    cases h
    refine .submit hw rfl ?_ ?_ <;> cases (s.submit call).2 <;> rfl

omit [DecidableEq Q] in
/-- An operation in Run of a task. -/
theorem perform_signalled {fiber : K → Bool} {task : K} {stage : Stage} {op : Op K}
    (hw : s.worker w = .running task stage) (h : s.perform fiber w task stage op = some s') :
    Signalled s a s' := by
  have haction : a = .worker w ∨ (.running task stage : WorkerPc n K).spot ≠ .emptySub :=
    Or.inr (by rintro ⟨⟩)
  unfold Pool.perform at h
  split at h
  · split at h <;> cases h
    exact .goto hw haction .busy ⟨rfl,rfl,rfl⟩ rfl rfl
  · split at h <;> cases h
    exact .goto hw haction .busy ⟨rfl,rfl,rfl⟩ rfl rfl
  · split at h <;> cases h
    exact .goto hw haction .busy ⟨rfl,rfl,rfl⟩ rfl rfl
  · split at h <;> cases h
    exact .goto hw haction .busy ⟨rfl,rfl,rfl⟩ rfl rfl
  · cases h
    split <;> exact .goto hw haction .busy ⟨rfl,rfl,rfl⟩ rfl rfl
  · cases h
    exact .goto hw haction .busy ⟨rfl,rfl,rfl⟩ rfl rfl
  · cases h

omit [DecidableEq K] [DecidableEq Q] in
/-- A call from outside begins. -/
theorem Signalled.begin {o : O} {task : K} (ho : s.outside o = none) (hworker : t.worker = s.worker)
    (houtside : t.outside = s.outside) (howner : t.owner = s.owner)
    (hsignals : t.signals = s.signals) : Signalled s a (t.gotoOutside o (some (.state task))) := by
  obtain ⟨hdues,hspots⟩ := due_congr hworker houtside
  have hnone : s.due (.outside o) = none := by
    rw [Pool.due,Pool.inCall,ho]
    rfl
  refine .other hsignals ?_ hspots (Or.inl ?_)
  · rw [due_gotoOutside,hdues]
    exact Function.update_eq_iff.mpr ⟨hnone.symm,fun _ _ => rfl⟩
  · simp only [Pool.ownerDue,Pool.gotoOutside,howner]

omit [DecidableEq K] [DecidableEq Q] in
/-- The owner releases a semaphore. -/
theorem Signalled.ownerRelease {i : ℕ} (hi : i < n)
    (howner : s.owner = .wake i ∨ s.owner = .release i)
    (pc : OwnerPc) (hpc : pc = .join i ∨ pc = .joinAgain i) :
    Signalled s a
      { s with smph := Function.update s.smph ⟨i,hi⟩ (s.smph ⟨i,hi⟩ + 1), owner := pc } := by
  have hdue : s.ownerDue = some ⟨i,hi⟩ := by
    rcases howner with howner | howner <;> simp only [Pool.ownerDue,howner,workerAt,dif_pos hi]
  refine .release hdue rfl rfl rfl ?_
  rcases hpc with rfl | rfl <;> rfl

omit [DecidableEq K] [DecidableEq Q] in
/-- Each step of the owner in Start, WaitShutdown and the destructors. -/
theorem ownerStep_signalled (hunstarted : Unstarted s) (h : s.ownerStep = some s') :
    Signalled s .owner s' := by
  cases howner : s.owner with
  | start i =>
    rw [Pool.ownerStep,howner] at h
    simp only at h
    split at h
    next hi =>
      cases h
      have habsent : s.worker ⟨i,hi⟩ = .absent := by
        refine hunstarted ⟨i,hi⟩ ?_
        rw [howner]
        exact decide_eq_true (Nat.le_refl i)
      have hnone : s.due (.worker ⟨i,hi⟩) = none := by
        rw [Pool.due,Pool.inCall,habsent]
        rfl
      refine .create rfl ?_ (spot_goto s ⟨i,hi⟩ .resume) rfl
      refine (due_goto s ⟨i,hi⟩ .resume).trans ?_
      exact Function.update_eq_iff.mpr ⟨hnone.symm,fun _ _ => rfl⟩
    next =>
      cases h
      exact .other rfl rfl rfl (Or.inr (Or.inl rfl))
  | wake i =>
    rw [Pool.ownerStep,howner] at h
    simp only at h
    split at h
    next hi =>
      cases h
      exact .ownerRelease hi (Or.inl howner) _ (Or.inl rfl)
    next =>
      cases h
      exact .other rfl rfl rfl (Or.inr (Or.inl rfl))
  | join i =>
    rw [Pool.ownerStep,howner] at h
    simp only at h
    split at h
    next =>
      obtain ⟨-,⟨⟩⟩ := Option.ite_none_right_eq_some.mp h
      refine .other rfl rfl rfl (Or.inr (Or.inr ?_))
      simp only [Pool.ownerDue,Pool.ownerBegins,howner]
    next => cases h
  | flag i =>
    rw [Pool.ownerStep,howner] at h
    simp only at h
    split at h
    next =>
      cases h
      refine .other rfl rfl rfl (Or.inr (Or.inr ?_))
      simp only [Pool.ownerDue,Pool.ownerBegins,howner]
    next =>
      cases h
      exact .other rfl rfl rfl (Or.inr (Or.inl rfl))
  | release i =>
    rw [Pool.ownerStep,howner] at h
    simp only at h
    split at h
    next hi =>
      cases h
      exact .ownerRelease hi (Or.inr howner) _ (Or.inr rfl)
    next => cases h
  | joinAgain i =>
    rw [Pool.ownerStep,howner] at h
    simp only at h
    split at h
    next =>
      obtain ⟨-,⟨⟩⟩ := Option.ite_none_right_eq_some.mp h
      exact .other rfl rfl rfl (Or.inr (Or.inl rfl))
    next => cases h
  | assertTasks i =>
    rw [Pool.ownerStep,howner] at h
    cases h
    refine .other rfl rfl rfl (Or.inr (Or.inl ?_))
    by_cases hcount : s.countTasks = 0
    · simp only [Pool.ownerDue,if_pos hcount]
    · simp only [Pool.ownerDue,if_neg hcount]
  | fresh | started | closed | destroyed | aborted =>
    rw [Pool.ownerStep,howner] at h
    cases h

/-- What each step does to the signals. -/
theorem step_signalled {fiber : K → Bool} (hunstarted : Unstarted s)
    (h : step fiber s a = some s') : Signalled s a s' := by
  cases a with
  | worker w => exact workerStep_signalled h
  | op w op =>
    rw [step] at h
    split at h
    next task stage hw => exact perform_signalled hw h
    next => cases h
  | timeout w =>
    rw [step] at h
    split at h
    next hw =>
      cases h
      exact .goto hw (Or.inr (by rintro ⟨⟩)) .timeout ⟨rfl,rfl,rfl⟩ rfl rfl
    next => cases h
  | go o task =>
    rw [step] at h
    split at h
    next ho _ =>
      cases h
      exact .begin ho rfl rfl rfl rfl
    next => cases h
  | wake o task =>
    rw [step] at h
    split at h
    next ho =>
      obtain ⟨-,⟨⟩⟩ := Option.ite_none_right_eq_some.mp h
      exact .begin ho rfl rfl rfl rfl
    next => cases h
  | outside o =>
    rw [step] at h
    split at h
    next call ho =>
      cases h
      obtain ⟨hworker,houtside,howner,-⟩ := submit_threads s call
      obtain ⟨hdues,hspots⟩ := due_congr hworker houtside
      refine .call (t := .outside o) rfl ho (submit_signals s call) ?_ hspots ?_
      · rw [due_gotoOutside,hdues,submit_due]
      · simp only [Pool.ownerDue,Pool.gotoOutside,howner]
    next => cases h
  | start | destroy =>
    rw [step] at h
    split at h <;> cases h
    exact .other rfl rfl rfl (Or.inr (Or.inl rfl))
  | waitShutdown =>
    rw [step] at h
    split at h <;> cases h <;> exact .other rfl rfl rfl (Or.inr (Or.inr rfl))
  | owner => exact ownerStep_signalled hunstarted h
  | waiter q =>
    rw [waiterStep_eq h]
    exact .other rfl rfl rfl (Or.inl rfl)
  | spurious q =>
    rw [step] at h
    split at h <;> cases h
    exact .other rfl rfl rfl (Or.inl rfl)

end Steps

end ConcurrencyRuntime.DistributedPool
