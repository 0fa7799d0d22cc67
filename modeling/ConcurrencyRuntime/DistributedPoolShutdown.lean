import ConcurrencyRuntime.DistributedPoolPlaces

/-!
# The distributed pool shuts down when it is drained

When no thread outside of the pool submits a new task from StartShutdown on, a
set shutdown flag and a counter at zero stay so: only a running task could
count another one, and it is counted itself. A worker whose Process has
returned therefore leaves its Loop at the next check, and the owner finds the
counter at zero.
-/

namespace ConcurrencyRuntime.DistributedPool

open TransitionSystem DistributedTasks

variable {n : ℕ} {K O Q : Type*}

/-- What CanCloseWorker reads. -/
def Pool.CanClose (s : Pool n K O Q) : Prop :=
  s.shutdown = true ∧ s.countTasks = 0

/-- WaitShutdown is called on a pool that was started, no thread outside of it
is then about to count a new task, and none submits a new task after that. -/
def OutsideFirst (s : Pool n K O Q) : Action n K O Q → Prop
  | .waitShutdown => s.owner ≠ .fresh ∧ ∀ o task,
      (s.outside o = some (.state task) → s.state task ≠ .planned) ∧
        s.outside o ≠ some (.add task)
  | .go _ _ => s.shutdown = false
  | _ => True

instance decidableOutsideFirst [Fintype K] [Fintype O] [DecidableEq K] (s : Pool n K O Q) :
    ∀ a, Decidable (OutsideFirst s a)
  | .waitShutdown => inferInstanceAs (Decidable (s.owner ≠ .fresh ∧ ∀ o task,
      (s.outside o = some (.state task) → s.state task ≠ .planned) ∧
        s.outside o ≠ some (.add task)))
  | .go _ _ => inferInstanceAs (Decidable (s.shutdown = false))
  | .worker _ | .op _ _ | .timeout _ | .wake _ _ | .outside _ | .start | .destroy | .owner
  | .waiter _ | .spurious _ => isTrue trivial

/-- The workers that Start has created. -/
def OwnerPc.created : OwnerPc → ℕ → Bool
  | .fresh,_ => false
  | .start i,j => j < i
  | _,_ => true

/-- The workers that were joined since WaitShutdown was called last. -/
def OwnerPc.joined : OwnerPc → ℕ → Bool
  | .fresh,_ | .start _,_ | .started,_ => false
  | .wake i,j | .join i,j => j < i
  | _,_ => true

/-- How far the threads have come on the way to the end. -/
structure Closing (s : Pool n K O Q) : Prop where
  opened : s.shutdown = true → ∀ j, s.owner.created j = true
  created : ∀ w : Fin n, s.owner.created w = true → (s.worker w).side ≠ .absent
  quiet : s.shutdown = true → Quiet s.custody
  counting : ∀ w, (s.worker w).side = .loopCount ∨ (s.worker w).side = .processCount →
    s.shutdown = true
  done : ∀ w, s.coro w = .completed ∨ (s.worker w).side = .gone → s.CanClose
  exited : ∀ w, s.coro w = .completed → (s.worker w).side = .loopShutdown ∨
    (s.worker w).side = .loopCount ∨ (s.worker w).side = .gone
  resumed : s.resumedAfterExit = false
  joined : ∀ w : Fin n, s.owner.joined w = true → (s.worker w).side = .gone
  asserting : ∀ i, s.owner = .assertTasks i → i < n
  owner : s.owner ≠ .aborted

variable [DecidableEq K] [DecidableEq O] [DecidableEq Q]

/-- WaitShutdown, and the destructors of the workers. -/
def closeOnce : List (Action 1 (Fin 2) (Fin 1) (Fin 1)) :=
  [[.worker 0,.waitShutdown],List.replicate 7 (.worker 0),[.owner,.owner,.owner,.destroy],
    List.replicate 5 .owner].flatten

section Steps

variable {s s' : Pool n K O Q} {w : Fin n} {fiber : K → Bool} {a : Action n K O Q}

/-- After StartShutdown no task comes in from outside, and an empty pool stays empty. -/
theorem step_quiet (hr : (system n K O Q fiber).Reachable s) (hallowed : OutsideFirst s a)
    (h : step fiber s a = some s') (hshutdown : s.shutdown = true) (hquiet : Quiet s.custody) :
    Quiet s'.custody ∧ (s.countTasks = 0 → s'.countTasks = 0) := by
  rcases step_moves (unstarted hr) h with (hc | hc) | ⟨o,task,rfl,-⟩
  · rw [hc]
    exact ⟨hquiet,fun hzero => (congrArg Custody.countTasks hc).trans hzero⟩
  · exact ⟨hc.quiet hquiet,fun hzero => (accounted hr).count_zero hquiet hc hzero⟩
  · cases hshutdown.symm.trans hallowed

omit [DecidableEq K] [DecidableEq O] [DecidableEq Q] in
/-- A worker reads the counter after the flag, closes when it reads zero, and
does not come back to Resume after that. -/
theorem Closing.turns {side : Side} {coro : Coro} {resumed : Bool} (h : Closing s)
    (hturns : Turns s w side coro resumed) :
    (side = .loopCount ∨ side = .processCount → s.shutdown = true) ∧
      (coro = .completed ∨ side = .gone → s.CanClose) ∧
      (coro = .completed → side = .loopShutdown ∨ side = .loopCount ∨ side = .gone) ∧
      resumed = false ∧ (s.worker w).side ≠ .gone := by
  have hcounting := h.counting w
  have hdone := h.done w
  have hexited := h.exited w
  have hresumed := h.resumed
  unfold Pool.CanClose at hdone ⊢
  cases hturns with
  | create | resume | exited | stay | check | suspend | close | goOn | loopCheck | loopOpen | leave
  | loopGoOn | doze | wake => grind

omit [DecidableEq K] [DecidableEq O] [DecidableEq Q] in
/-- A step of a worker. -/
theorem Closing.worker (h : Closing s) (hcontrol : Controlled s s' w)
    (hquiet : s.shutdown = true → Quiet s'.custody ∧ (s.countTasks = 0 → s'.countTasks = 0)) :
    Closing s' := by
  have hturns := hcontrol.turns
  have hstable : s.CanClose → s'.CanClose := by
    rintro ⟨hshutdown,hzero⟩
    exact ⟨hcontrol.shutdown.trans hshutdown,(hquiet hshutdown).2 hzero⟩
  have hothers := hcontrol.others
  obtain ⟨hcounting,hdone,hexited,hresumed,hgone⟩ := h.turns hturns
  refine { opened := ?_, created := ?_, quiet := ?_, counting := ?_, done := ?_, exited := ?_,
           resumed := ?_, joined := ?_, asserting := ?_, owner := ?_ }
  · rw [hcontrol.shutdown,hcontrol.owner]
    exact h.opened
  · intro v hv
    rw [hcontrol.owner] at hv
    rcases eq_or_ne v w with rfl | hne
    · exact hturns.exists.2
    · rw [(hothers v hne).1]
      exact h.created v hv
  · rw [hcontrol.shutdown]
    exact fun hshutdown => (hquiet hshutdown).1
  · intro v hv
    rw [hcontrol.shutdown]
    rcases eq_or_ne v w with rfl | hne
    · exact hcounting hv
    · rw [(hothers v hne).1] at hv
      exact h.counting v hv
  · intro v hv
    rcases eq_or_ne v w with rfl | hne
    · exact hstable (hdone hv)
    · rw [(hothers v hne).1,(hothers v hne).2] at hv
      exact hstable (h.done v hv)
  · intro v hv
    rcases eq_or_ne v w with rfl | hne
    · exact hexited hv
    · rw [(hothers v hne).2] at hv
      rw [(hothers v hne).1]
      exact h.exited v hv
  · exact hresumed
  · intro v hv
    rw [hcontrol.owner] at hv
    have hne : v ≠ w := by
      rintro rfl
      exact hgone (h.joined v hv)
    rw [(hothers v hne).1]
    exact h.joined v hv
  · rw [hcontrol.owner]
    exact h.asserting
  · rw [hcontrol.owner]
    exact h.owner

/-- What the owner at a program point relies on. -/
structure OwnerFits (s : Pool n K O Q) (pc : OwnerPc) : Prop where
  opened : s.shutdown = true → ∀ j, pc.created j = true
  created : ∀ w : Fin n, pc.created w = true → (s.worker w).side ≠ .absent
  joined : ∀ w : Fin n, pc.joined w = true → (s.worker w).side = .gone
  asserting : ∀ i, pc = .assertTasks i → i < n
  owner : pc ≠ .aborted

omit [DecidableEq K] [DecidableEq O] [DecidableEq Q] in
theorem Closing.ownerFits (h : Closing s) : OwnerFits s s.owner :=
  ⟨h.opened,h.created,h.joined,h.asserting,h.owner⟩

omit [DecidableEq K] [DecidableEq O] [DecidableEq Q] in
/-- A step that moves no worker. -/
theorem Closing.frame (h : Closing s)
    (hsame : s'.worker = s.worker ∧ s'.coro = s.coro ∧ s'.shutdown = s.shutdown ∧
      s'.resumedAfterExit = s.resumedAfterExit)
    (howner : OwnerFits s s'.owner)
    (hquiet : s.shutdown = true → Quiet s'.custody ∧ (s.countTasks = 0 → s'.countTasks = 0)) :
    Closing s' := by
  obtain ⟨hworker,hcoro,hshutdown,hresumed⟩ := hsame
  refine { opened := ?_, created := ?_, quiet := ?_, counting := ?_, done := ?_, exited := ?_,
           resumed := ?_, joined := ?_, asserting := howner.asserting, owner := howner.owner }
  · rw [hshutdown]
    exact howner.opened
  · rw [hworker]
    exact howner.created
  · rw [hshutdown]
    exact fun hs => (hquiet hs).1
  · rw [hshutdown,hworker]
    exact h.counting
  · intro v hv
    rw [hworker,hcoro] at hv
    obtain ⟨hs,hzero⟩ := h.done v hv
    exact ⟨hshutdown.trans hs,(hquiet hs).2 hzero⟩
  · rw [hworker,hcoro]
    exact h.exited
  · rw [hresumed]
    exact h.resumed
  · rw [hworker]
    exact howner.joined

omit [DecidableEq K] [DecidableEq O] [DecidableEq Q] in
/-- A worker that exists and can be joined is over. -/
theorem gone_of_joinable {pc : WorkerPc n K} (hjoin : pc.joinable = true)
    (hside : pc.side ≠ .absent) : pc.side = .gone := by
  cases pc with
  | gone => rfl
  | absent => exact absurd rfl hside
  | _ => cases hjoin

omit [DecidableEq K] [DecidableEq O] [DecidableEq Q] in
/-- The owner goes where it can rely on the threads. -/
theorem Closing.ownerTurns {pc : OwnerPc} (h : Closing s) (hturns : OwnerTurns s pc) :
    OwnerFits s pc := by
  have hopened := h.opened
  have hcreated := h.created
  have hjoined := h.joined
  cases hturns with
  | @started i howner hi =>
    rw [howner] at hcreated
    exact {
      opened := fun _ _ => rfl
      created := fun v _ => hcreated v (decide_eq_true (Nat.lt_of_lt_of_le v.isLt hi))
      joined := by rintro _ ⟨⟩
      asserting := by rintro _ ⟨⟩
      owner := by rintro ⟨⟩ }
  | @wake i hi howner =>
    rw [howner] at hopened hcreated hjoined
    exact ⟨hopened,hcreated,hjoined,by rintro _ ⟨⟩,by rintro ⟨⟩⟩
  | @closed i howner hi =>
    rw [howner] at hopened hcreated hjoined
    refine ⟨hopened,hcreated,?_,by rintro _ ⟨⟩,by rintro ⟨⟩⟩
    intro v _
    exact hjoined v (decide_eq_true (Nat.lt_of_lt_of_le v.isLt hi))
  | @join i hi howner hjoin =>
    rw [howner] at hopened hcreated hjoined
    refine ⟨hopened,hcreated,?_,by rintro _ ⟨⟩,by rintro ⟨⟩⟩
    intro v hv
    have hle : v.val < i + 1 := of_decide_eq_true hv
    rcases Nat.lt_succ_iff_lt_or_eq.mp hle with hlt | heq
    · exact hjoined v (decide_eq_true hlt)
    · subst heq
      exact gone_of_joinable hjoin (hcreated v rfl)
  | @flag i hi howner | @destroyed i howner hi | @release i hi howner | @assertTasks i howner _ =>
    rw [howner] at hopened hcreated hjoined
    exact ⟨hopened,hcreated,hjoined,by rintro _ ⟨⟩,by rintro ⟨⟩⟩
  | @joinAgain i hi howner hjoin =>
    rw [howner] at hopened hcreated hjoined
    refine ⟨hopened,hcreated,hjoined,?_,by rintro ⟨⟩⟩
    intro j hj
    cases hj
    exact hi
  | @aborted i howner hcount =>
    have hgone : (s.worker ⟨i,h.asserting i howner⟩).side = .gone := by
      refine hjoined _ ?_
      rw [howner]
      rfl
    exact absurd (h.done _ (Or.inr hgone)).2 hcount

omit [DecidableEq K] [DecidableEq O] [DecidableEq Q] in
/-- Start creates the thread of a worker. -/
theorem Closing.create {i : ℕ} {hi : i < n} (h : Closing s) (howner : s.owner = .start i)
    (habsent : s.worker ⟨i,hi⟩ = .absent) :
    Closing { s.goto ⟨i,hi⟩ .resume with owner := .start (i + 1) } := by
  have hshutdown : s.shutdown ≠ true := by
    intro hs
    have hopened := h.opened hs i
    rw [howner] at hopened
    exact absurd (of_decide_eq_true hopened) (Nat.lt_irrefl i)
  have hworker : ∀ v, v = ⟨i,hi⟩ ∧ Function.update s.worker ⟨i,hi⟩ .resume v = .resume ∨
      v ≠ ⟨i,hi⟩ ∧ Function.update s.worker ⟨i,hi⟩ .resume v = s.worker v := by
    intro v
    rcases eq_or_ne v ⟨i,hi⟩ with rfl | hne
    · exact Or.inl ⟨rfl,Function.update_self ..⟩
    · exact Or.inr ⟨hne,Function.update_of_ne hne ..⟩
  refine {
    opened := fun hs => absurd hs hshutdown
    created := ?_
    quiet := fun hs => absurd hs hshutdown
    counting := ?_
    done := ?_
    exited := ?_
    resumed := h.resumed
    joined := by rintro _ ⟨⟩
    asserting := by rintro _ ⟨⟩
    owner := by rintro ⟨⟩ }
  all_goals simp only [Pool.goto]
  · intro v hv
    rcases hworker v with ⟨-,hpc⟩ | ⟨hne,hpc⟩
    · rw [hpc]
      rintro ⟨⟩
    · rw [hpc]
      have hle : v.val < i + 1 := of_decide_eq_true hv
      have hlt : v.val < i := Nat.lt_of_le_of_ne (Nat.le_of_lt_succ hle) fun he => hne (Fin.ext he)
      refine h.created v ?_
      rw [howner]
      exact decide_eq_true hlt
  · intro v hv
    rcases hworker v with ⟨-,hpc⟩ | ⟨-,hpc⟩
    · rw [hpc] at hv
      rcases hv with hv | hv <;> cases hv
    · rw [hpc] at hv
      exact h.counting v hv
  · intro v hv
    rcases hworker v with ⟨-,hpc⟩ | ⟨-,hpc⟩
    · rw [hpc] at hv
      exact h.done v (Or.inl (hv.resolve_right (by rintro ⟨⟩)))
    · rw [hpc] at hv
      exact h.done v hv
  · intro v hv
    rcases hworker v with ⟨rfl,-⟩ | ⟨-,hpc⟩
    · have hexited := h.exited _ hv
      rw [habsent] at hexited
      rcases hexited with he | he | he <;> cases he
    · rw [hpc]
      exact h.exited v hv

omit [DecidableEq K] [DecidableEq O] [DecidableEq Q] in
/-- A step of the owner in Start, WaitShutdown or the destructors. -/
theorem Closing.ownerStep (h : Closing s) (hunstarted : Unstarted s)
    (hstep : s.ownerStep = some s') : Closing s' := by
  rcases ownerStep_cases hstep with ⟨i,hi,howner,rfl⟩ | ⟨hturns,hs'⟩
  · refine h.create howner (hunstarted _ ?_)
    rw [howner]
    exact decide_eq_true (Nat.le_refl i)
  · have howner := h.ownerTurns hturns
    rw [hs']
    exact h.frame ⟨rfl,rfl,rfl,rfl⟩ howner fun hs => ⟨h.quiet hs,id⟩

omit [DecidableEq K] [DecidableEq O] [DecidableEq Q] in
/-- A call has its task in its hands only where it is about to push it. -/
theorem of_carrying {n : ℕ} {K : Type*} {call : Option (SubmitPc n K)} {pc : SubmitPc n K}
    (h : carrying call = some pc) : call = some pc := by
  cases call with
  | none => cases h
  | some x =>
    cases x with
    | reset | wakeUp | release => cases h
    | state | add | progress | route | global | enqueue => exact h

omit [DecidableEq K] [DecidableEq O] [DecidableEq Q] in
/-- Where no call from outside is about to count a task, the others are counted
by tasks of the pool. -/
theorem quiet_of_outside (h : Accounted s.custody)
    (houtside : ∀ o task, (s.outside o = some (.state task) → s.state task ≠ .planned) ∧
      s.outside o ≠ some (.add task)) : Quiet s.custody := by
  intro t ht hnone
  rcases h.parented.created t ht with ⟨o,hfirst,-⟩ | ⟨v,parent,stage,-,-,hsome⟩
  · rcases hfirst with hfirst | hfirst
    · have hcall : carrying (s.outside o) = some (.state t) := hfirst
      rcases h.sound.fits (.call (.outside o)) _ hfirst with hnew | hready
      · exact (houtside o t).1 (of_carrying hcall) hnew.2
      · cases ht.symm.trans hready.1
    · have hcall : carrying (s.outside o) = some (.add t) := hfirst
      exact (houtside o t).2 (of_carrying hcall)
  · cases hnone.symm.trans hsome

omit [DecidableEq K] [DecidableEq O] [DecidableEq Q] in
/-- StartShutdown on a pool that was started. -/
theorem Closing.startShutdown (h : Closing s) (hquiet : Quiet s.custody)
    (howner : s.owner = .started ∨ s.owner = .closed) :
    Closing { s with shutdown := true, owner := .wake 0 } := by
  have hcreated : ∀ w : Fin n, (s.worker w).side ≠ .absent := by
    intro v
    refine h.created v ?_
    rcases howner with howner | howner <;> rw [howner] <;> rfl
  exact {
    opened := fun _ _ => rfl
    created := fun v _ => hcreated v
    quiet := fun _ => hquiet
    counting := fun _ _ => rfl
    done := fun v hv => ⟨rfl,(h.done v hv).2⟩
    exited := h.exited
    resumed := h.resumed
    joined := by rintro _ ⟨⟩
    asserting := by rintro _ ⟨⟩
    owner := by rintro ⟨⟩ }

/-- The flag is never cleared. -/
theorem step_shutdown (hstep : step fiber s a = some s') (hshutdown : s.shutdown = true) :
    s'.shutdown = true := by
  cases a with
  | worker w => exact (workerStep_controlled hstep).shutdown.trans hshutdown
  | op w op =>
    rw [step] at hstep
    split at hstep
    next task stage hw => exact (perform_controlled hw hstep).shutdown.trans hshutdown
    next => cases hstep
  | timeout w | go o task | start | destroy | spurious q =>
    rw [step] at hstep
    split at hstep <;> cases hstep
    exact hshutdown
  | wake o task =>
    rw [step] at hstep
    split at hstep
    · split at hstep <;> cases hstep
      exact hshutdown
    · cases hstep
  | outside o =>
    rw [step] at hstep
    split at hstep
    next call hcall =>
      cases hstep
      obtain ⟨-,-,-,hsubmit,-⟩ := submit_threads s call
      exact hsubmit.trans hshutdown
    next => cases hstep
  | waitShutdown =>
    rw [step] at hstep
    split at hstep <;> cases hstep <;> rfl
  | owner =>
    rcases ownerStep_cases hstep with ⟨i,hi,-,rfl⟩ | ⟨-,hs'⟩
    · exact hshutdown
    · rw [hs']
      exact hshutdown
  | waiter q =>
    rw [waiterStep_eq hstep]
    exact hshutdown

/-- Every admitted step keeps the threads on the way to the end. -/
theorem Closing.step (hr : (system n K O Q fiber).Reachable s) (h : Closing s)
    (hallowed : OutsideFirst s a) (hstep : step fiber s a = some s') : Closing s' := by
  have hquiet : s.shutdown = true → Quiet s'.custody ∧ (s.countTasks = 0 → s'.countTasks = 0) :=
    fun hs => step_quiet hr hallowed hstep hs (h.quiet hs)
  cases a with
  | worker w => exact h.worker (workerStep_controlled hstep) hquiet
  | op w op =>
    rw [DistributedPool.step] at hstep
    split at hstep
    next task stage hw => exact h.worker (perform_controlled hw hstep) hquiet
    next => cases hstep
  | timeout w =>
    rw [DistributedPool.step] at hstep
    split at hstep
    next hw =>
      cases hstep
      exact h.worker (timeout_controlled hw) hquiet
    next => cases hstep
  | go o task =>
    rw [DistributedPool.step] at hstep
    split at hstep <;> cases hstep
    exact h.frame ⟨rfl,rfl,rfl,rfl⟩ h.ownerFits hquiet
  | wake o task =>
    rw [DistributedPool.step] at hstep
    split at hstep
    · split at hstep <;> cases hstep
      exact h.frame ⟨rfl,rfl,rfl,rfl⟩ h.ownerFits hquiet
    · cases hstep
  | outside o =>
    rw [DistributedPool.step] at hstep
    split at hstep
    next call hcall =>
      cases hstep
      obtain ⟨hworker,-,howner,hshutdown,-,hcoro,hresumed⟩ := submit_threads s call
      refine h.frame ⟨hworker,hcoro,hshutdown,hresumed⟩ ?_ hquiet
      have hfits := h.ownerFits
      rw [←howner] at hfits
      exact hfits
    next => cases hstep
  | start =>
    rw [DistributedPool.step] at hstep
    split at hstep
    next howner =>
      cases hstep
      have hopened := h.opened
      rw [howner] at hopened
      exact h.frame ⟨rfl,rfl,rfl,rfl⟩ {
        opened := fun hs => absurd (hopened hs 0) (by rintro ⟨⟩)
        created := by rintro _ ⟨⟩
        joined := by rintro _ ⟨⟩
        asserting := by rintro _ ⟨⟩
        owner := by rintro ⟨⟩ } hquiet
    next => cases hstep
  | waitShutdown =>
    have hclosed := h.startShutdown (quiet_of_outside (accounted hr) hallowed.2)
    rw [DistributedPool.step] at hstep
    split at hstep
    next howner => exact absurd howner hallowed.1
    next howner =>
      cases hstep
      exact hclosed (Or.inl howner)
    next howner =>
      cases hstep
      exact hclosed (Or.inr howner)
    next => cases hstep
  | destroy =>
    rw [DistributedPool.step] at hstep
    split at hstep
    next howner =>
      cases hstep
      have hfits := h.ownerFits
      rw [howner] at hfits
      exact h.frame ⟨rfl,rfl,rfl,rfl⟩ {
        opened := hfits.opened
        created := hfits.created
        joined := hfits.joined
        asserting := by rintro _ ⟨⟩
        owner := by rintro ⟨⟩ } hquiet
    next => cases hstep
  | owner => exact h.ownerStep (unstarted hr) hstep
  | waiter q =>
    have hs' := waiterStep_eq hstep
    rw [hs'] at hquiet ⊢
    exact h.frame ⟨rfl,rfl,rfl,rfl⟩ h.ownerFits hquiet
  | spurious q =>
    rw [DistributedPool.step] at hstep
    split at hstep <;> cases hstep
    exact h.frame ⟨rfl,rfl,rfl,rfl⟩ h.ownerFits hquiet

/-- The threads are on the way to the end in every state reached. -/
theorem closing (hr : (system n K O Q fiber).ReachableUnder OutsideFirst s) : Closing s := by
  refine System.ReachableUnder.invariant ?_ ?_ hr
  · exact {
      opened := by rintro ⟨⟩
      created := by rintro _ ⟨⟩
      quiet := by rintro ⟨⟩
      counting := by rintro _ (he | he) <;> cases he
      done := by rintro _ (he | he) <;> cases he
      exited := by rintro _ ⟨⟩
      resumed := rfl
      joined := by rintro _ ⟨⟩
      asserting := by rintro _ ⟨⟩
      owner := by rintro ⟨⟩ }
  · exact fun s a s' hr h hallowed hstep => h.step hr.reachable hallowed hstep

/-- What CanCloseWorker has read once is read by every worker from then on. -/
theorem canClose_stays {acts : List (Action n K O Q)}
    (hr : (system n K O Q fiber).ReachableUnder OutsideFirst s)
    (hmeets : (system n K O Q fiber).Meets OutsideFirst s acts)
    (hrun : (system n K O Q fiber).run s acts = some s') (hclose : s.CanClose) : s'.CanClose := by
  have hstep : ∀ t b t', (system n K O Q fiber).ReachableUnder OutsideFirst t ∧ t.CanClose →
      OutsideFirst t b → (system n K O Q fiber).step t b = some t' →
      (system n K O Q fiber).ReachableUnder OutsideFirst t' ∧ t'.CanClose := by
    rintro t b t' ⟨ht,hshutdown,hzero⟩ hallowed hstep
    obtain ⟨-,hcount⟩ :=
      step_quiet ht.reachable hallowed hstep hshutdown ((closing ht).quiet hshutdown)
    exact ⟨ht.step hallowed hstep,step_shutdown hstep hshutdown,hcount hzero⟩
  exact (System.Meets.invariant hstep hmeets ⟨hr,hclose⟩ hrun).2

/-- A pool that was started, and to which no thread outside submits new tasks
from StartShutdown on: a worker that has left Process or Loop has left it when
CanCloseWorker was true and every counted task had completed; CanCloseWorker
stays true; no coroutine is resumed after Process has returned; and the assert
of the destructor of a worker does not fail. -/
theorem closes_when_drained (hr : (system n K O Q fiber).ReachableUnder OutsideFirst s) :
    (∀ w, s.coro w = .completed ∨ s.worker w = .gone →
      s.CanClose ∧ ∀ task, s.Accepted task → s.life task = .removed) ∧
      (∀ acts s', (system n K O Q fiber).Meets OutsideFirst s acts →
        (system n K O Q fiber).run s acts = some s' → s.CanClose → s'.CanClose) ∧
      s.resumedAfterExit = false ∧ s.owner ≠ .aborted := by
  have h := closing hr
  refine ⟨?_,fun acts s' hmeets hrun => canClose_stays hr hmeets hrun,h.resumed,h.owner⟩
  intro w hw
  have hside : s.coro w = .completed ∨ (s.worker w).side = .gone :=
    hw.imp_right fun hgone => by rw [hgone]; rfl
  have hclose := h.done w hside
  exact ⟨hclose,(idle_of_count hr.reachable hclose.2).1⟩

/-- The theorem at a pool that has run two fibers and is destroyed. -/
theorem closes_when_drained_destroyed :
    ∃ s, (system 1 (Fin 2) (Fin 1) (Fin 1) fun _ => true).ReachableUnder OutsideFirst s ∧
      s.worker 0 = .gone ∧ s.owner = .destroyed ∧ s.CanClose ∧ s.life 0 = .removed ∧
      s.life 1 = .removed ∧ s.resumedAfterExit = false := by
  have hends : (system 1 (Fin 2) (Fin 1) (Fin 1) fun _ => true).Ends
      (initial 1 (Fin 2) (Fin 1) (Fin 1)) (spawnOnce ++ closeOnce)
      (fun s => s.worker 0 = .gone ∧ s.owner = .destroyed ∧ ∀ task,
        s.life task = .added ∨ s.life task = .completed ∨ s.life task = .removed) := by
    decide +kernel
  have hmeets : (system 1 (Fin 2) (Fin 1) (Fin 1) fun _ => true).Meets OutsideFirst
      (initial 1 (Fin 2) (Fin 1) (Fin 1)) (spawnOnce ++ closeOnce) := by
    decide +kernel
  obtain ⟨s,hr,hgone,howner,haccepted⟩ := System.Ends.reachableUnder hends hmeets
  obtain ⟨hleft,-,hresumed,-⟩ := closes_when_drained hr
  obtain ⟨hclose,hremoved⟩ := hleft 0 (Or.inr hgone)
  exact ⟨s,hr,hgone,howner,hclose,hremoved 0 (haccepted 0),hremoved 1 (haccepted 1),hresumed⟩

end Steps

end ConcurrencyRuntime.DistributedPool
