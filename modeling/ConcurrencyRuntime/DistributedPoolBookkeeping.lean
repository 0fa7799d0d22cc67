import ConcurrencyRuntime.DistributedPoolSignals

/-!
# The idle bookkeeping of the distributed pool

Process subtracts one from counter_empty_tasks at an empty poll, where nobody ever adds
to it, and Push subtracts one from suspended_workers whether or not a worker is suspended.
So the counters are what they are meant to be until the first of these subtractions, which
is executed on zero.
-/

namespace ConcurrencyRuntime.DistributedPool

open TransitionSystem

variable {n : ℕ} {K O Q : Type*}

/-- The call in which an action takes a step. -/
def Pool.calling (s : Pool n K O Q) : Action n K O Q → Option (SubmitPc n K)
  | .worker w => (s.worker w).inCall
  | .outside o => s.outside o
  | _ => none

/-- The worker that executes the fetch_sub of its counter_empty_tasks. -/
def Pool.polls (s : Pool n K O Q) : Action n K O Q → Option (Fin n)
  | .worker w =>
    match s.worker w with
    | .emptySub => some w
    | _ => none
  | _ => none

/-- The worker whose counter_empty_tasks a Push stores zero to. -/
def Pool.resets (s : Pool n K O Q) (a : Action n K O Q) : Option (Fin n) :=
  match s.calling a with
  | some (.reset w) => some w
  | _ => none

/-- WakeUpSuspendedWorker is executed. -/
def Pool.wakesUp (s : Pool n K O Q) (a : Action n K O Q) : Bool :=
  match s.calling a with
  | some (.wakeUp _) => true
  | _ => false

/-- The worker that executes AddSuspendedWorker. -/
def Pool.suspends (s : Pool n K O Q) : Action n K O Q → Option (Fin n)
  | .worker w =>
    match s.worker w with
    | .addSuspended => some w
    | _ => none
  | _ => none

/-- The pool and what its counters are meant to count. -/
structure Ledger (n : ℕ) (K O Q : Type*) where
  pool : Pool n K O Q
  /-- History: the workers that executed AddSuspendedWorker and were not woken since. -/
  suspended : Fin n → Bool
  /-- History: the empty polls of each worker since the last Push to it. -/
  polls : Fin n → ℕ

/-- Enter a step of the pool. Which steps wake a worker is left open. -/
def Ledger.enter (woken : Pool n K O Q → Action n K O Q → Fin n → Bool) (l : Ledger n K O Q)
    (a : Action n K O Q) (s' : Pool n K O Q) : Ledger n K O Q where
  pool := s'
  suspended w :=
    if l.pool.suspends a = some w then true else if woken l.pool a w then false else l.suspended w
  polls w :=
    if l.pool.polls a = some w then l.polls w + 1
    else if l.pool.resets a = some w then 0 else l.polls w

/-- The pool with its ledger. -/
def ledgerSystem (n : ℕ) (K O Q : Type*) [DecidableEq K] [DecidableEq O] [DecidableEq Q]
    (fiber : K → Bool) (woken : Pool n K O Q → Action n K O Q → Fin n → Bool) :
    System (Ledger n K O Q) (Action n K O Q) :=
  ⟨⟨initial n K O Q,fun _ => false,fun _ => 0⟩,
    fun l a => (step fiber l.pool a).map (l.enter woken a)⟩

/-- The counters are what they are meant to be. -/
structure Balanced (l : Ledger n K O Q) : Prop where
  suspended : l.pool.suspendedWorkers.toNat =
    (Finset.univ.filter fun w => l.suspended w = true).card
  workers : l.pool.suspendedWorkers.toNat ≤ n
  polls : ∀ w, (l.pool.counterEmptyTasks w).toNat = l.polls w

/-- No fetch_sub is executed on zero. -/
def OffZero (s : Pool n K O Q) (a : Action n K O Q) : Prop :=
  (∀ w, s.polls a = some w → s.counterEmptyTasks w ≠ 0) ∧
    (s.wakesUp a = true → s.suspendedWorkers ≠ 0)

/-- Neither a worker comes to the fetch_sub of an empty poll nor a Push to the one of
WakeUpSuspendedWorker. -/
def Still (s : Pool n K O Q) (a : Action n K O Q) : Prop :=
  s.polls a = none ∧ s.wakesUp a = false

/-- Nothing was subtracted yet, and so nothing added. -/
structure Blank (l : Ledger n K O Q) : Prop where
  unstarted : Unstarted l.pool
  counters : l.pool.signals.counterEmptyTasks = fun _ => 0
  workers : l.pool.signals.suspendedWorkers = 0
  spots : ∀ w, l.pool.spot w ≠ .counted ∧ l.pool.spot w ≠ .addSuspended
  suspended : ∀ w, l.suspended w = false
  polls : ∀ w, l.polls w = 0

section Counters

variable {s s' : Pool n K O Q} {a : Action n K O Q} {l l' : Ledger n K O Q} {w : Fin n}

theorem Blank.balanced (h : Blank l) : Balanced l := by
  have hworkers : l.pool.suspendedWorkers = 0 := h.workers
  have hcounters : ∀ w, l.pool.counterEmptyTasks w = 0 := congrFun h.counters
  refine ⟨?_,?_,fun w => ?_⟩
  · simp [hworkers,h.suspended]
  · simp [hworkers]
  · simp [hcounters w,h.polls w]

/-- Outside of empty polls a worker does nothing to the counters. -/
theorem WorkerTurn.still {g g' : Signals n K} {spot spot' : Spot} (h : WorkerTurn g w spot g' spot')
    (hsub : spot ≠ .emptySub) (hspot : spot ≠ .counted ∧ spot ≠ .addSuspended) :
    g'.counterEmptyTasks = g.counterEmptyTasks ∧ g'.suspendedWorkers = g.suspendedWorkers ∧
      spot' ≠ .counted ∧ spot' ≠ .addSuspended := by
  cases h with
  | emptySub => exact absurd rfl hsub
  | check | stay | suspend => exact absurd rfl hspot.1
  | addSuspended => exact absurd rfl hspot.2
  | busy | ready | pop | empty | look | found | poll | exit | leave | flagged | doze | finish
  | acquire | timeout => exact ⟨rfl,rfl,by rintro ⟨⟩,by rintro ⟨⟩⟩

/-- Only a worker at the fetch_sub executes it. -/
theorem polls_of_spot (hw : s.spot w = .emptySub) : s.polls (.worker w) = some w := by
  cases hpc : s.worker w with
  | emptySub => simp only [Pool.polls,hpc]
  | _ =>
    rw [Pool.spot,hpc] at hw
    cases hw

theorem suspends_spot (h : s.suspends a = some w) : s.spot w = .addSuspended := by
  cases a with
  | worker v =>
    simp only [Pool.suspends] at h
    split at h
    next hpc =>
      cases h
      exact congrArg WorkerPc.spot hpc
    next => cases h
  | op | timeout | go | wake | outside | start | waitShutdown | destroy | owner
  | waiter | spurious =>
    cases h

variable [DecidableEq K] [DecidableEq O] [DecidableEq Q]

omit [DecidableEq K] [DecidableEq Q] in
/-- A step without a subtraction leaves the counters at zero. -/
theorem Signalled.still (h : Signalled s a s') (hstill : Still s a)
    (hcounters : s.signals.counterEmptyTasks = fun _ => 0)
    (hspots : ∀ w, s.spot w ≠ .counted ∧ s.spot w ≠ .addSuspended) :
    (s'.signals.counterEmptyTasks = fun _ => 0) ∧
      s'.signals.suspendedWorkers = s.signals.suspendedWorkers ∧
      ∀ w, s'.spot w ≠ .counted ∧ s'.spot w ≠ .addSuspended := by
  cases h with
  | @call t call haction hcall hsignals _ hspot _ =>
    rw [hsignals,hspot]
    cases call with
    | state | add | progress | route | global | enqueue | release => exact ⟨hcounters,rfl,hspots⟩
    | reset v =>
      refine ⟨?_,rfl,hspots⟩
      simp only [Signals.submit,hcounters]
      exact Function.update_eq_self v _
    | wakeUp v =>
      have hcalling : s.calling a = some (.wakeUp v) := by
        subst haction
        cases t with
        | worker | outside => exact hcall
      have hwakes := hstill.2
      rw [Pool.wakesUp,hcalling] at hwakes
      cases hwakes
  | @worker v spot' haction hturn _ hspot _ =>
    have hsub : s.spot v ≠ .emptySub := by
      intro hv
      rcases haction with rfl | hne
      · cases (polls_of_spot hv).symm.trans hstill.1
      · exact hne hv
    obtain ⟨hsame,hworkers,hspot'⟩ := hturn.still hsub (hspots v)
    refine ⟨hsame.trans hcounters,hworkers,fun w => ?_⟩
    rw [hspot,Function.update_apply]
    split
    next => exact hspot'
    next => exact hspots w
  | @create v hsignals _ hspot _ =>
    rw [hsignals,hspot]
    refine ⟨hcounters,rfl,fun w => ?_⟩
    rw [Function.update_apply]
    split
    next => exact ⟨by rintro ⟨⟩,by rintro ⟨⟩⟩
    next => exact hspots w
  | release _ hsignals _ hspot _ =>
    rw [hsignals,hspot]
    exact ⟨hcounters,rfl,hspots⟩
  | other hsignals _ hspot _ =>
    rw [hsignals,hspot]
    exact ⟨hcounters,rfl,hspots⟩

variable {fiber : K → Bool} {woken : Pool n K O Q → Action n K O Q → Fin n → Bool}

/-- A step without a subtraction leaves the ledger blank. -/
theorem Blank.step (h : Blank l) (hstill : Still l.pool a)
    (hstep : (ledgerSystem n K O Q fiber woken).step l a = some l') : Blank l' := by
  obtain ⟨s',hs',rfl⟩ := Option.map_eq_some_iff.mp hstep
  obtain ⟨hcounters,hworkers,hspots⟩ :=
    (step_signalled h.unstarted hs').still hstill h.counters h.spots
  have hsuspends : ∀ w, l.pool.suspends a ≠ some w :=
    fun w hw => (h.spots w).2 (suspends_spot hw)
  refine ⟨step_unstarted h.unstarted hs',hcounters,hworkers.trans h.workers,hspots,?_,?_⟩
  · intro w
    simp [Ledger.enter,hsuspends w,h.suspended w]
  · intro w
    simp [Ledger.enter,hstill.1,h.polls w]

/-- From a blank ledger on, the counters are right as long as nothing is subtracted. -/
theorem Blank.balanced_iff (h : Blank l) {acts : List (Action n K O Q)}
    (hrun : (ledgerSystem n K O Q fiber woken).run l acts = some l') :
    ((ledgerSystem n K O Q fiber woken).Meets (fun l a => Balanced l ∧ OffZero l.pool a) l acts ∧
        Balanced l') ↔
      (ledgerSystem n K O Q fiber woken).Meets (fun l a => Still l.pool a) l acts := by
  induction acts generalizing l with
  | nil =>
    cases hrun
    exact ⟨fun _ => trivial,fun _ => ⟨trivial,h.balanced⟩⟩
  | cons a rest ih =>
    cases hstep : (ledgerSystem n K O Q fiber woken).step l a with
    | none => simp [System.run,hstep] at hrun
    | some l₁ =>
      rw [System.run,hstep] at hrun
      rw [System.Meets,System.Meets,hstep]
      -- on zero every subtraction wraps
      have hzero : OffZero l.pool a ↔ Still l.pool a := by
        refine ⟨fun hoff => ⟨?_,?_⟩,fun hstill => ⟨?_,?_⟩⟩
        · refine Option.eq_none_iff_forall_ne_some.mpr fun w hw => ?_
          exact hoff.1 w hw (congrFun h.counters w)
        · refine Bool.eq_false_iff.mpr fun hwakes => ?_
          exact hoff.2 hwakes h.workers
        · intro w hw
          cases hw.symm.trans hstill.1
        · intro hwakes
          cases hwakes.symm.trans hstill.2
      constructor
      · rintro ⟨⟨⟨-,hoff⟩,hmeets⟩,hbalanced⟩
        have hstill := hzero.mp hoff
        exact ⟨hstill,(ih (h.step hstill hstep) hrun).mp ⟨hmeets,hbalanced⟩⟩
      · rintro ⟨hstill,hmeets⟩
        obtain ⟨hmeets',hbalanced⟩ := (ih (h.step hstill hstep) hrun).mpr hmeets
        exact ⟨⟨⟨h.balanced,hzero.mpr hstill⟩,hmeets'⟩,hbalanced⟩

/-- In a run of the pool, whichever steps wake a worker, suspended_workers is the number of
suspended workers, the counter of each worker is the number of its empty polls since the last
Push, and no fetch_sub is executed on zero, if and only if neither fetch_sub is executed at all. -/
theorem bookkeeping_iff (fiber : K → Bool) (woken : Pool n K O Q → Action n K O Q → Fin n → Bool)
    (acts : List (Action n K O Q)) (l : Ledger n K O Q)
    (hrun : (ledgerSystem n K O Q fiber woken).run (ledgerSystem n K O Q fiber woken).start acts =
      some l) :
    ((ledgerSystem n K O Q fiber woken).Meets (fun l a => Balanced l ∧ OffZero l.pool a)
        (ledgerSystem n K O Q fiber woken).start acts ∧ Balanced l) ↔
      (ledgerSystem n K O Q fiber woken).Meets (fun l a => Still l.pool a)
        (ledgerSystem n K O Q fiber woken).start acts := by
  refine Blank.balanced_iff ?_ hrun
  exact ⟨fun _ _ => rfl,rfl,rfl,fun _ => ⟨by rintro ⟨⟩,by rintro ⟨⟩⟩,fun _ => rfl,fun _ => rfl⟩

/-- A worker is woken where its loop resumes the coroutine. -/
def resumed (s : Pool n K O Q) : Action n K O Q → Fin n → Bool
  | .worker v,w =>
    match s.worker v with
    | .resume => v = w
    | _ => false
  | _,_ => false

/-- A pool of one worker with one task at most. -/
abbrev smallLedger : System (Ledger 1 (Fin 1) (Fin 1) (Fin 1)) (Action 1 (Fin 1) (Fin 1) (Fin 1)) :=
  ledgerSystem 1 (Fin 1) (Fin 1) (Fin 1) (fun _ => false) resumed

/-- The worker starts and finds nothing to do. -/
def emptyPoll : List (Action 1 (Fin 1) (Fin 1) (Fin 1)) :=
  [.start,.owner,.owner,.worker 0,.worker 0,.worker 0,.worker 0,.worker 0]

/-- The worker takes a task from the global queue and wakes itself up, as in Push. -/
def firstPush : List (Action 1 (Fin 1) (Fin 1) (Fin 1)) :=
  List.flatten [[.start,.owner,.owner,.go 0 0],List.replicate 5 (.outside 0),
    List.replicate 6 (.worker 0)]

theorem emptyPoll_ends : smallLedger.Ends smallLedger.start emptyPoll
    fun l => l.pool.counterEmptyTasks 0 = 18446744073709551615 ∧ l.polls 0 = 1 := by
  decide +kernel

theorem firstPush_ends : smallLedger.Ends smallLedger.start firstPush
    fun l => l.pool.suspendedWorkers = 18446744073709551615 := by
  decide +kernel

/-- The first empty poll wraps the counter of the worker, and the first Push the one of the pool. -/
theorem bookkeeping_wraps :
    (¬∀ l, smallLedger.run smallLedger.start emptyPoll = some l → Balanced l) ∧
      ¬∀ l, smallLedger.run smallLedger.start firstPush = some l → Balanced l := by
  constructor
  · intro h
    obtain ⟨l,hrun,hcounter,hpolls⟩ := emptyPoll_ends.exists_run
    have hbalanced := (h l hrun).polls 0
    rw [hcounter,hpolls] at hbalanced
    exact absurd hbalanced (by decide)
  · intro h
    obtain ⟨l,hrun,hworkers⟩ := firstPush_ends.exists_run
    have hbound := (h l hrun).workers
    rw [hworkers] at hbound
    exact absurd hbound (by decide)

/-- A task is in the queue of the worker, and its Push comes to WakeUpSuspendedWorker. -/
def pushBegun : List (Action 1 (Fin 1) (Fin 1) (Fin 1)) :=
  List.flatten [[.start,.owner,.owner,.go 0 0],List.replicate 5 (.outside 0),
    List.replicate 5 (.worker 0)]

theorem pushBegun_ends : smallLedger.Ends smallLedger.start pushBegun
    fun l => l.pool.localTasks 0 = [0] := by
  decide +kernel

instance (s : Pool n K O Q) (a : Action n K O Q) : Decidable (Still s a) :=
  inferInstanceAs (Decidable (_ ∧ _))

theorem pushBegun_meets :
    smallLedger.Meets (fun l a => Still l.pool a) smallLedger.start pushBegun := by
  decide +kernel

theorem bookkeeping_iff_pushBegun :
    ∃ l, smallLedger.run smallLedger.start pushBegun = some l ∧ l.pool.localTasks 0 = [0] ∧
      smallLedger.Meets (fun l a => Balanced l ∧ OffZero l.pool a) smallLedger.start pushBegun ∧
      Balanced l := by
  obtain ⟨l,hrun,hlocal⟩ := pushBegun_ends.exists_run
  exact ⟨l,hrun,hlocal,(bookkeeping_iff _ _ pushBegun l hrun).mpr pushBegun_meets⟩

end Counters

end ConcurrencyRuntime.DistributedPool
