import ConcurrencyRuntime.DistributedPool

/-!
# The control flow of the distributed pool

What a step does to the threads of the pool: which part of its loop a worker
comes to, what it has read there, and what becomes of its coroutine. Tasks are
left aside.
-/

namespace ConcurrencyRuntime.DistributedPool

open TransitionSystem

/-- The part of its program that a worker is in. -/
inductive Side where
  | absent
  | resume
  /-- The load of shutdown_ in Loop. -/
  | loopShutdown
  /-- The load of count_tasks in Loop. -/
  | loopCount
  /-- In Loop after that. -/
  | asleep
  /-- In Process. -/
  | inside
  /-- The load of count_tasks in Process. -/
  | processCount
  | gone
  deriving DecidableEq

def WorkerPc.side {n : ℕ} {K : Type*} : WorkerPc n K → Side
  | .absent => .absent
  | .resume => .resume
  | .loopShutdown => .loopShutdown
  | .loopCount => .loopCount
  | .loopFlag | .sleep => .asleep
  | .gone => .gone
  | .processCount => .processCount
  | _ => .inside

variable {n : ℕ} {K O Q : Type*}

/-- Where a worker can go, and with which coroutine. -/
inductive Turns (s : Pool n K O Q) (w : Fin n) : Side → Coro → Bool → Prop
  | create : (s.worker w).side = .resume → s.coro w = .none →
      Turns s w .inside .active s.resumedAfterExit
  | resume : (s.worker w).side = .resume → s.coro w = .active →
      Turns s w .inside (s.coro w) s.resumedAfterExit
  | exited : (s.worker w).side = .resume → s.coro w = .completed → Turns s w .resume (s.coro w) true
  | stay : (s.worker w).side = .inside → Turns s w .inside (s.coro w) s.resumedAfterExit
  | check : (s.worker w).side = .inside → s.shutdown = true →
      Turns s w .processCount (s.coro w) s.resumedAfterExit
  | suspend : (s.worker w).side = .inside →
      Turns s w .loopShutdown (s.coro w) s.resumedAfterExit
  | close : (s.worker w).side = .processCount → s.countTasks = 0 →
      Turns s w .loopShutdown .completed s.resumedAfterExit
  | goOn : (s.worker w).side = .processCount → s.countTasks ≠ 0 →
      Turns s w .inside (s.coro w) s.resumedAfterExit
  | loopCheck : (s.worker w).side = .loopShutdown → s.shutdown = true →
      Turns s w .loopCount (s.coro w) s.resumedAfterExit
  | loopOpen : (s.worker w).side = .loopShutdown → s.shutdown = false →
      Turns s w .asleep (s.coro w) s.resumedAfterExit
  | leave : (s.worker w).side = .loopCount → s.countTasks = 0 →
      Turns s w .gone (s.coro w) s.resumedAfterExit
  | loopGoOn : (s.worker w).side = .loopCount → s.countTasks ≠ 0 →
      Turns s w .asleep (s.coro w) s.resumedAfterExit
  | doze : (s.worker w).side = .asleep → Turns s w .asleep (s.coro w) s.resumedAfterExit
  | wake : (s.worker w).side = .asleep → Turns s w .resume (s.coro w) s.resumedAfterExit

/-- Where the owner can go, other than to create a thread. -/
inductive OwnerTurns (s : Pool n K O Q) : OwnerPc → Prop
  | started {i : ℕ} : s.owner = .start i → n ≤ i → OwnerTurns s .started
  | wake {i : ℕ} : i < n → s.owner = .wake i → OwnerTurns s (.join i)
  | closed {i : ℕ} : s.owner = .wake i → n ≤ i → OwnerTurns s .closed
  | join {i : ℕ} (hi : i < n) : s.owner = .join i → (s.worker ⟨i,hi⟩).joinable = true →
      OwnerTurns s (.wake (i + 1))
  | flag {i : ℕ} : i < n → s.owner = .flag i → OwnerTurns s (.release i)
  | destroyed {i : ℕ} : s.owner = .flag i → n ≤ i → OwnerTurns s .destroyed
  | release {i : ℕ} : i < n → s.owner = .release i → OwnerTurns s (.joinAgain i)
  | joinAgain {i : ℕ} (hi : i < n) : s.owner = .joinAgain i → (s.worker ⟨i,hi⟩).joinable = true →
      OwnerTurns s (.assertTasks i)
  | assertTasks {i : ℕ} : s.owner = .assertTasks i → s.countTasks = 0 → OwnerTurns s (.flag (i + 1))
  | aborted {i : ℕ} : s.owner = .assertTasks i → s.countTasks ≠ 0 → OwnerTurns s .aborted

/-- What a step of a worker leaves to the other threads. -/
structure Controlled (s s' : Pool n K O Q) (w : Fin n) : Prop where
  owner : s'.owner = s.owner
  shutdown : s'.shutdown = s.shutdown
  outside : s'.outside = s.outside
  waiter : s'.waiter = s.waiter ∨ s'.waiter = fun q => (s.waiter q).notified
  others : ∀ v, v ≠ w → s'.worker v = s.worker v ∧ s'.coro v = s.coro v
  turns : Turns s w (s'.worker w).side (s'.coro w) s'.resumedAfterExit

variable [DecidableEq K] [DecidableEq O] [DecidableEq Q]

section Control

variable {s s' : Pool n K O Q} {w : Fin n} {pc pc' : WorkerPc n K}

/-- The workers that Start has not come to. -/
def OwnerPc.ahead : OwnerPc → ℕ → Bool
  | .fresh,_ => true
  | .start i,j => i ≤ j
  | _,_ => false

/-- Threads that were not created do nothing. -/
def Unstarted (s : Pool n K O Q) : Prop :=
  ∀ w : Fin n, s.owner.ahead w = true → s.worker w = .absent

omit [DecidableEq O] [DecidableEq Q] in
/-- Submit moves no thread. -/
theorem submit_threads (s : Pool n K O Q) (call : SubmitPc n K) :
    (s.submit call).1.worker = s.worker ∧ (s.submit call).1.outside = s.outside ∧
      (s.submit call).1.owner = s.owner ∧ (s.submit call).1.shutdown = s.shutdown ∧
      (s.submit call).1.waiter = s.waiter ∧ (s.submit call).1.coro = s.coro ∧
      (s.submit call).1.resumedAfterExit = s.resumedAfterExit := by
  cases call with
  | state task | route task =>
    rw [Pool.submit]
    split <;> exact ⟨rfl,rfl,rfl,rfl,rfl,rfl,rfl⟩
  | progress task =>
    rw [Pool.submit,Pool.progressState]
    split <;> exact ⟨rfl,rfl,rfl,rfl,rfl,rfl,rfl⟩
  | add | global | enqueue | reset | wakeUp | release => exact ⟨rfl,rfl,rfl,rfl,rfl,rfl,rfl⟩

omit [DecidableEq K] [DecidableEq O] [DecidableEq Q] in
/-- A worker goes on, and the control of nobody else is touched. -/
theorem Controlled.goto {t : Pool n K O Q} {pc' : WorkerPc n K}
    (hturns : Turns s w pc'.side (t.coro w) t.resumedAfterExit)
    (hsame : t.worker = s.worker ∧ t.outside = s.outside ∧ t.owner = s.owner ∧
      t.shutdown = s.shutdown)
    (hwaiter : t.waiter = s.waiter ∨ t.waiter = fun q => (s.waiter q).notified)
    (hcoro : ∀ v, v ≠ w → t.coro v = s.coro v) : Controlled s (t.goto w pc') w := by
  obtain ⟨hworker,houtside,howner,hshutdown⟩ := hsame
  refine ⟨howner,hshutdown,houtside,hwaiter,?_,?_⟩
  · intro v hv
    refine ⟨?_,hcoro v hv⟩
    rw [←hworker]
    exact Function.update_of_ne hv ..
  · rw [show (t.goto w pc').worker w = pc' from Function.update_self ..]
    exact hturns

omit [DecidableEq K] [DecidableEq O] [DecidableEq Q] in
/-- A worker that stays in Process. -/
theorem Controlled.inside {t : Pool n K O Q} (hw : (s.worker w).side = .inside)
    (hpc : pc'.side = .inside)
    (hsame : t.worker = s.worker ∧ t.outside = s.outside ∧ t.owner = s.owner ∧
      t.shutdown = s.shutdown ∧ t.waiter = s.waiter ∧ t.coro = s.coro ∧
      t.resumedAfterExit = s.resumedAfterExit) :
    Controlled s (t.goto w pc') w := by
  obtain ⟨hworker,houtside,howner,hshutdown,hwaiter,hcoro,hresumed⟩ := hsame
  refine .goto ?_ ⟨hworker,houtside,howner,hshutdown⟩ (Or.inl hwaiter) fun v _ => by rw [hcoro]
  rw [hpc,hcoro,hresumed]
  exact .stay hw

omit [DecidableEq O] [DecidableEq Q] in
/-- A step of a worker outside of routines. -/
theorem workerStep_controlled (h : s.workerStep w = some s') : Controlled s s' w := by
  cases hw : s.worker w with
  | absent | gone | running =>
    rw [Pool.workerStep,hw] at h
    cases h
  | resume =>
    have hside : (s.worker w).side = .resume := by rw [hw]; rfl
    rw [Pool.workerStep,hw] at h
    cases hcoro : s.coro w with
    | none =>
      simp only [hcoro] at h
      cases h
      refine .goto ?_ ⟨rfl,rfl,rfl,rfl⟩ (Or.inl rfl) fun v hv => Function.update_of_ne hv ..
      simp only [Function.update_self]
      exact .create hside hcoro
    | active =>
      simp only [hcoro] at h
      cases h
      exact .goto (.resume hside hcoro) ⟨rfl,rfl,rfl,rfl⟩ (Or.inl rfl) fun _ _ => rfl
    | completed =>
      simp only [hcoro] at h
      cases h
      refine ⟨rfl,rfl,rfl,Or.inl rfl,fun _ _ => ⟨rfl,rfl⟩,?_⟩
      rw [hside]
      exact .exited hside hcoro
  | loopShutdown =>
    have hside : (s.worker w).side = .loopShutdown := by rw [hw]; rfl
    rw [Pool.workerStep,hw] at h
    cases h
    refine .goto ?_ ⟨rfl,rfl,rfl,rfl⟩ (Or.inl rfl) fun _ _ => rfl
    split
    next hshutdown => exact .loopCheck hside hshutdown
    next hshutdown => exact .loopOpen hside (Bool.eq_false_iff.mpr hshutdown)
  | loopCount =>
    have hside : (s.worker w).side = .loopCount := by rw [hw]; rfl
    rw [Pool.workerStep,hw] at h
    cases h
    refine .goto ?_ ⟨rfl,rfl,rfl,rfl⟩ (Or.inl rfl) fun _ _ => rfl
    split
    next hcount => exact .leave hside hcount
    next hcount => exact .loopGoOn hside hcount
  | loopFlag =>
    have hside : (s.worker w).side = .asleep := by rw [hw]; rfl
    rw [Pool.workerStep,hw] at h
    cases h
    refine .goto ?_ ⟨rfl,rfl,rfl,rfl⟩ (Or.inl rfl) fun _ _ => rfl
    split
    next => exact .wake hside
    next => exact .doze hside
  | sleep =>
    have hside : (s.worker w).side = .asleep := by rw [hw]; rfl
    rw [Pool.workerStep,hw] at h
    simp only at h
    split at h
    · cases h
      exact .goto (.wake hside) ⟨rfl,rfl,rfl,rfl⟩ (Or.inl rfl) fun _ _ => rfl
    · cases h
  | processShutdown =>
    have hside : (s.worker w).side = .inside := by rw [hw]; rfl
    rw [Pool.workerStep,hw] at h
    cases h
    refine .goto ?_ ⟨rfl,rfl,rfl,rfl⟩ (Or.inl rfl) fun _ _ => rfl
    split
    next hshutdown => exact .check hside hshutdown
    next => exact .stay hside
  | processCount =>
    have hside : (s.worker w).side = .processCount := by rw [hw]; rfl
    rw [Pool.workerStep,hw] at h
    simp only at h
    split at h
    next hcount =>
      cases h
      refine .goto ?_ ⟨rfl,rfl,rfl,rfl⟩ (Or.inl rfl) fun v hv => Function.update_of_ne hv ..
      simp only [Function.update_self]
      exact .close hside hcount
    next hcount =>
      cases h
      exact .goto (.goOn hside hcount) ⟨rfl,rfl,rfl,rfl⟩ (Or.inl rfl) fun _ _ => rfl
  | suspend =>
    have hside : (s.worker w).side = .inside := by rw [hw]; rfl
    rw [Pool.workerStep,hw] at h
    cases h
    exact .goto (.suspend hside) ⟨rfl,rfl,rfl,rfl⟩ (Or.inl rfl) fun _ _ => rfl
  | popLocal =>
    have hside : (s.worker w).side = .inside := by rw [hw]; rfl
    rw [Pool.workerStep,hw] at h
    simp only at h
    split at h <;> cases h <;> exact .inside hside rfl ⟨rfl,rfl,rfl,rfl,rfl,rfl,rfl⟩
  | popGlobal =>
    have hside : (s.worker w).side = .inside := by rw [hw]; rfl
    rw [Pool.workerStep,hw] at h
    simp only at h
    split at h <;> cases h <;> exact .inside hside rfl ⟨rfl,rfl,rfl,rfl,rfl,rfl,rfl⟩
  | emptyLoad | processFlag =>
    have hside : (s.worker w).side = .inside := by rw [hw]; rfl
    rw [Pool.workerStep,hw] at h
    cases h
    refine .inside hside ?_ ⟨rfl,rfl,rfl,rfl,rfl,rfl,rfl⟩
    split <;> rfl
  | notifyAll =>
    have hside : (s.worker w).side = .inside := by rw [hw]; rfl
    rw [Pool.workerStep,hw] at h
    cases h
    exact .goto (.stay hside) ⟨rfl,rfl,rfl,rfl⟩ (Or.inr rfl) fun _ _ => rfl
  | enter | remove | emptySub | addSuspended =>
    have hside : (s.worker w).side = .inside := by rw [hw]; rfl
    rw [Pool.workerStep,hw] at h
    cases h
    exact .inside hside rfl ⟨rfl,rfl,rfl,rfl,rfl,rfl,rfl⟩
  | setWorker task =>
    have hside : (s.worker w).side = .inside := by rw [hw]; rfl
    rw [Pool.workerStep,hw] at h
    cases h
    refine .inside hside rfl ?_
    rw [Pool.setWorker]
    split <;> exact ⟨rfl,rfl,rfl,rfl,rfl,rfl,rfl⟩
  | completing task =>
    have hside : (s.worker w).side = .inside := by rw [hw]; rfl
    rw [Pool.workerStep,hw] at h
    cases h
    refine .inside hside rfl ?_
    rw [Pool.progressState]
    split <;> exact ⟨rfl,rfl,rfl,rfl,rfl,rfl,rfl⟩
  | submitting task stage call =>
    have hside : (s.worker w).side = .inside := by rw [hw]; rfl
    rw [Pool.workerStep,hw] at h
    cases h
    refine .inside hside ?_ (submit_threads s call)
    cases (s.submit call).2 <;> rfl
  | push call =>
    have hside : (s.worker w).side = .inside := by rw [hw]; rfl
    rw [Pool.workerStep,hw] at h
    cases h
    refine .inside hside ?_ (submit_threads s call)
    cases (s.submit call).2 <;> rfl

omit [DecidableEq O] [DecidableEq Q] in
/-- An operation in Run of a task. -/
theorem perform_controlled {fiber : K → Bool} {task : K} {stage : Stage} {op : Op K}
    (hw : s.worker w = .running task stage) (h : s.perform fiber w task stage op = some s') :
    Controlled s s' w := by
  have hside : (s.worker w).side = .inside := by rw [hw]; rfl
  unfold Pool.perform at h
  split at h
  · split at h <;> cases h
    exact .inside hside rfl ⟨rfl,rfl,rfl,rfl,rfl,rfl,rfl⟩
  · split at h <;> cases h
    exact .inside hside rfl ⟨rfl,rfl,rfl,rfl,rfl,rfl,rfl⟩
  · split at h <;> cases h
    exact .inside hside rfl ⟨rfl,rfl,rfl,rfl,rfl,rfl,rfl⟩
  · split at h <;> cases h
    exact .inside hside rfl ⟨rfl,rfl,rfl,rfl,rfl,rfl,rfl⟩
  · cases h
    refine .inside hside ?_ ⟨rfl,rfl,rfl,rfl,rfl,rfl,rfl⟩
    split <;> rfl
  · cases h
    exact .inside hside rfl ⟨rfl,rfl,rfl,rfl,rfl,rfl,rfl⟩
  · cases h

omit [DecidableEq K] [DecidableEq O] [DecidableEq Q] in
/-- The try_acquire_for of a worker times out. -/
theorem timeout_controlled (hw : s.worker w = .sleep) : Controlled s (s.goto w .resume) w := by
  have hside : (s.worker w).side = .asleep := by rw [hw]; rfl
  exact .goto (.wake hside) ⟨rfl,rfl,rfl,rfl⟩ (Or.inl rfl) fun _ _ => rfl

omit [DecidableEq K] [DecidableEq O] [DecidableEq Q] in
/-- Only threads that exist take steps. -/
theorem Turns.exists {side : Side} {coro : Coro} {resumed : Bool}
    (h : Turns s w side coro resumed) : (s.worker w).side ≠ .absent ∧ side ≠ .absent := by
  cases h <;> simp_all

omit [DecidableEq K] [DecidableEq O] [DecidableEq Q] in
theorem Controlled.unstarted (h : Controlled s s' w) (hunstarted : Unstarted s) : Unstarted s' := by
  intro v hv
  rw [h.owner] at hv
  have habsent := hunstarted v hv
  have hne : v ≠ w := by
    rintro rfl
    refine h.turns.exists.1 ?_
    rw [habsent]
    rfl
  rw [(h.others v hne).1]
  exact habsent

omit [DecidableEq K] [DecidableEq O] [DecidableEq Q] in
/-- The owner creates a thread, or goes on. -/
theorem ownerStep_cases (h : s.ownerStep = some s') :
    (∃ (i : ℕ) (hi : i < n), s.owner = .start i ∧
      s' = { s.goto ⟨i,hi⟩ .resume with owner := .start (i + 1) }) ∨
    OwnerTurns s s'.owner ∧
      s' = { s with smph := s'.smph, workerShutdown := s'.workerShutdown, owner := s'.owner } := by
  cases howner : s.owner with
  | start i =>
    rw [Pool.ownerStep,howner] at h
    simp only at h
    split at h
    next hi =>
      cases h
      exact Or.inl ⟨i,hi,rfl,rfl⟩
    next hi =>
      cases h
      exact Or.inr ⟨.started howner (Nat.le_of_not_lt hi),rfl⟩
  | wake i =>
    rw [Pool.ownerStep,howner] at h
    simp only at h
    split at h
    next hi =>
      cases h
      exact Or.inr ⟨.wake hi howner,rfl⟩
    next hi =>
      cases h
      exact Or.inr ⟨.closed howner (Nat.le_of_not_lt hi),rfl⟩
  | join i =>
    rw [Pool.ownerStep,howner] at h
    simp only at h
    split at h
    next hi =>
      split at h
      next hjoin =>
        cases h
        exact Or.inr ⟨.join hi howner hjoin,rfl⟩
      next => cases h
    next => cases h
  | flag i =>
    rw [Pool.ownerStep,howner] at h
    simp only at h
    split at h
    next hi =>
      cases h
      exact Or.inr ⟨.flag hi howner,rfl⟩
    next hi =>
      cases h
      exact Or.inr ⟨.destroyed howner (Nat.le_of_not_lt hi),rfl⟩
  | release i =>
    rw [Pool.ownerStep,howner] at h
    simp only at h
    split at h
    next hi =>
      cases h
      exact Or.inr ⟨.release hi howner,rfl⟩
    next => cases h
  | joinAgain i =>
    rw [Pool.ownerStep,howner] at h
    simp only at h
    split at h
    next hi =>
      split at h
      next hjoin =>
        cases h
        exact Or.inr ⟨.joinAgain hi howner hjoin,rfl⟩
      next => cases h
    next => cases h
  | assertTasks i =>
    rw [Pool.ownerStep,howner] at h
    cases h
    refine Or.inr ⟨?_,rfl⟩
    simp only
    split
    next hcount => exact .assertTasks howner hcount
    next hcount => exact .aborted howner hcount
  | fresh | started | closed | destroyed | aborted =>
    rw [Pool.ownerStep,howner] at h
    cases h

omit [DecidableEq K] [DecidableEq O] [DecidableEq Q] in
theorem ownerStep_unstarted (hunstarted : Unstarted s) (h : s.ownerStep = some s') :
    Unstarted s' := by
  rcases ownerStep_cases h with ⟨i,hi,howner,rfl⟩ | ⟨hturns,-⟩
  · intro v hv
    have hle : i + 1 ≤ v := of_decide_eq_true hv
    have hne : v ≠ ⟨i,hi⟩ := by
      rintro rfl
      exact Nat.not_succ_le_self i hle
    have habsent : s.worker v = .absent := by
      refine hunstarted v ?_
      rw [howner]
      exact decide_eq_true (Nat.le_of_succ_le hle)
    exact (Function.update_of_ne hne ..).trans habsent
  · intro v hv
    have hahead : ∀ pc, OwnerTurns s pc → pc.ahead v = false := by
      intro pc hpc
      cases hpc <;> rfl
    rw [hahead _ hturns] at hv
    cases hv

omit [DecidableEq K] [DecidableEq O] in
/-- WaitIdle changes nothing but its mutex and where the calls of it are. -/
theorem waiterStep_eq {q : Q} (h : s.waiterStep q = some s') :
    s' = { s with holder := s'.holder, waiter := s'.waiter } := by
  cases hq : s.waiter q with
  | outside | load | wait | unlock =>
    rw [Pool.waiterStep,hq] at h
    cases h
    rfl
  | lock =>
    rw [Pool.waiterStep,hq] at h
    simp only at h
    split at h <;> cases h
    rfl
  | asleep | returned =>
    rw [Pool.waiterStep,hq] at h
    cases h

omit [DecidableEq K] [DecidableEq O] in
theorem waiterStep_other {q q' : Q} (h : s.waiterStep q = some s') (hne : q' ≠ q) :
    s'.waiter q' = s.waiter q' := by
  cases hq : s.waiter q with
  | outside | load | wait | unlock =>
    rw [Pool.waiterStep,hq] at h
    cases h
    exact Function.update_of_ne hne ..
  | lock =>
    rw [Pool.waiterStep,hq] at h
    simp only at h
    split at h <;> cases h
    exact Function.update_of_ne hne ..
  | asleep | returned =>
    rw [Pool.waiterStep,hq] at h
    cases h

/-- No step moves a thread that was not created. -/
theorem step_unstarted {fiber : K → Bool} {a : Action n K O Q} (hunstarted : Unstarted s)
    (h : step fiber s a = some s') : Unstarted s' := by
  cases a with
  | worker w => exact (workerStep_controlled h).unstarted hunstarted
  | op w op =>
    rw [step] at h
    split at h
    next task stage hw => exact (perform_controlled hw h).unstarted hunstarted
    next => cases h
  | timeout w =>
    rw [step] at h
    split at h
    next hw =>
      cases h
      exact (timeout_controlled hw).unstarted hunstarted
    next => cases h
  | go o task =>
    rw [step] at h
    split at h
    · cases h
      exact hunstarted
    · cases h
  | wake o task =>
    rw [step] at h
    split at h
    · split at h <;> cases h
      exact hunstarted
    · cases h
  | outside o =>
    rw [step] at h
    split at h
    next call hcall =>
      cases h
      obtain ⟨hworker,-,howner,-⟩ := submit_threads s call
      intro v hv
      change (s.submit call).1.worker v = .absent
      change (s.submit call).1.owner.ahead v = true at hv
      rw [howner] at hv
      rw [hworker]
      exact hunstarted v hv
    next => cases h
  | start =>
    rw [step] at h
    split at h
    next howner =>
      cases h
      intro v _
      refine hunstarted v ?_
      rw [howner]
      rfl
    next => cases h
  | waitShutdown =>
    rw [step] at h
    split at h <;> cases h <;> rintro _ ⟨⟩
  | destroy =>
    rw [step] at h
    split at h <;> cases h
    rintro _ ⟨⟩
  | owner => exact ownerStep_unstarted hunstarted h
  | waiter q =>
    rw [waiterStep_eq h]
    exact hunstarted
  | spurious q =>
    rw [step] at h
    split at h <;> cases h
    exact hunstarted

omit [DecidableEq K] [DecidableEq O] [DecidableEq Q] in
theorem Controlled.waiter_eq (h : Controlled s s' w) (q : Q) :
    s'.waiter q = s.waiter q ∨ s.waiter q = .asleep ∧ s'.waiter q = .lock := by
  rcases h.waiter with hwaiter | hwaiter
  · exact Or.inl (congrFun hwaiter q)
  · have hq : s'.waiter q = (s.waiter q).notified := congrFun hwaiter q
    rw [hq]
    cases s.waiter q with
    | asleep => exact Or.inr ⟨rfl,rfl⟩
    | outside | lock | load | wait | unlock | returned => exact Or.inl rfl

/-- A call of WaitIdle is moved by itself, or woken up. -/
theorem step_waiter {fiber : K → Bool} {a : Action n K O Q} {q : Q}
    (h : step fiber s a = some s') (ha : a ≠ .waiter q) :
    s'.waiter q = s.waiter q ∨ s.waiter q = .asleep ∧ s'.waiter q = .lock := by
  cases a with
  | worker w => exact (workerStep_controlled h).waiter_eq q
  | op w op =>
    rw [step] at h
    split at h
    next task stage hw => exact (perform_controlled hw h).waiter_eq q
    next => cases h
  | timeout w =>
    rw [step] at h
    split at h <;> cases h
    exact Or.inl rfl
  | go o task =>
    rw [step] at h
    split at h <;> cases h
    exact Or.inl rfl
  | wake o task =>
    rw [step] at h
    split at h
    · split at h <;> cases h
      exact Or.inl rfl
    · cases h
  | outside o =>
    rw [step] at h
    split at h
    next call hcall =>
      cases h
      obtain ⟨-,-,-,-,hwaiter,-⟩ := submit_threads s call
      exact Or.inl (congrFun hwaiter q)
    next => cases h
  | start | destroy =>
    rw [step] at h
    split at h <;> cases h
    exact Or.inl rfl
  | waitShutdown =>
    rw [step] at h
    split at h <;> cases h <;> exact Or.inl rfl
  | owner =>
    rcases ownerStep_cases h with ⟨i,hi,-,rfl⟩ | ⟨-,hs'⟩
    · exact Or.inl rfl
    · rw [hs']
      exact Or.inl rfl
  | waiter q' =>
    have hne : q ≠ q' := by
      rintro rfl
      exact ha rfl
    exact Or.inl (waiterStep_other h hne)
  | spurious q' =>
    rw [step] at h
    split at h
    next hq' =>
      cases h
      rcases eq_or_ne q q' with rfl | hne
      · exact Or.inr ⟨hq',Function.update_self ..⟩
      · exact Or.inl (Function.update_of_ne hne ..)
    next => cases h

/-- In every reachable state. -/
theorem unstarted {fiber : K → Bool} (hr : (system n K O Q fiber).Reachable s) : Unstarted s := by
  refine System.Reachable.invariant ?_ ?_ hr
  · exact fun _ _ => rfl
  · exact fun s a s' hunstarted h => step_unstarted hunstarted h

end Control

end ConcurrencyRuntime.DistributedPool
