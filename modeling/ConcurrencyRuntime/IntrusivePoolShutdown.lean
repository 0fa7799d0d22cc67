import ConcurrencyRuntime.IntrusivePool

/-!
# Idle waits and shutdown of the intrusive thread pool

WaitIdle checks the counter of tasks under a mutex that the workers do not
take, so a notification can fall between its check and its wait. A worker
leaves after an empty pop and a later look at the shutdown flag, so a task
pushed between the two can be left behind. Both are shown on concrete runs, and
excluded by a condition on the step that goes wrong.
-/

namespace ConcurrencyRuntime.IntrusivePool

open TransitionSystem Tally

variable {n : ℕ} {O K : Type*} [DecidableEq O]

section Frames

variable {s s' : State n O K} {w v : Fin n}

omit [DecidableEq O] in
/-- A step of a worker moves no other worker and no call from outside. -/
theorem workerStep_frame (hs : s.workerStep w = some s') :
    (∀ v, v ≠ w → s'.worker v = s.worker v) ∧ s'.outside = s.outside ∧
      (s'.owner = s.owner ∨ s'.owner = s.owner.notified) := by
  simp only [State.workerStep] at hs
  split at hs
  case h_2 =>
    split at hs <;> cases hs <;>
      exact ⟨fun v hv => Function.update_of_ne hv ..,rfl,Or.inl rfl⟩
  case h_4 task pc hw =>
    cases hs
    obtain ⟨hworker,houtside,-,howner,-⟩ := submit_frame s pc
    refine ⟨fun v hv => ?_,houtside,Or.inl howner⟩
    exact (Function.update_of_ne hv ..).trans (congrFun hworker v)
  case h_9 =>
    cases hs
    exact ⟨fun v hv => Function.update_of_ne hv ..,rfl,Or.inr rfl⟩
  all_goals
    cases hs <;> exact ⟨fun v hv => Function.update_of_ne hv ..,rfl,Or.inl rfl⟩

/-- A worker that will pop once more before it looks at the shutdown flag. -/
def WorkerPc.popsAgain {K : Type*} : WorkerPc K → Bool
  | .pop | .run .. | .remove | .notify => true
  | _ => false

omit [DecidableEq O] in
/-- Whoever pushes a task, or finds one, will pop again. -/
theorem workerStep_popsAgain (hs : s.workerStep w = some s') (htasks : s'.tasks ≠ [])
    (hw : s.tasks = [] ∨ (s.worker w).popsAgain = true) : (s'.worker w).popsAgain = true := by
  simp only [State.workerStep] at hs
  split at hs
  case h_2 hpc =>
    split at hs <;> cases hs
    next hempty => exact absurd hempty htasks
    next => simp [State.goto,WorkerPc.popsAgain]
  case h_4 =>
    cases hs
    simp [State.goto,WorkerPc.popsAgain]
  all_goals
    cases hs <;> simp_all [State.goto,WorkerPc.popsAgain]

end Frames

section Drain

variable {s s' : State n O K} {w : Fin n}

/-- Every Submit from outside of the pool returns before the destructor begins. -/
def OutsideFirst {n : ℕ} {O K : Type*} (s : State n O K) : Action n O K → Prop
  | .owner => s.owner = .started → ∀ o, s.outside o = none
  | .call _ _ => s.owner.destroying = false
  | _ => True

instance [Fintype O] [DecidableEq K] (s : State n O K) : ∀ a, Decidable (OutsideFirst s a)
  | .owner => inferInstanceAs (Decidable (s.owner = .started → ∀ o, s.outside o = none))
  | .call _ _ => inferInstanceAs (Decidable (s.owner.destroying = false))
  | .worker _ | .callFrom .. | .outside _ | .wake | .waiter => isTrue trivial

/-- When StartShutdown finds tasks in the list, some worker is not between an
empty pop and its look at the flag. -/
def SomebodyPops {n : ℕ} {O K : Type*} (s : State n O K) : Action n O K → Prop
  | .owner => s.owner = .started → s.tasks ≠ [] → ∃ w, s.worker w ≠ .empty
  | _ => True

instance [DecidableEq K] (s : State n O K) : ∀ a, Decidable (SomebodyPops s a)
  | .owner =>
    inferInstanceAs (Decidable (s.owner = .started → s.tasks ≠ [] → ∃ w, s.worker w ≠ .empty))
  | .worker _ | .callFrom .. | .call .. | .outside _ | .wake | .waiter => isTrue trivial

/-- Once the destructor runs nobody submits from outside, and while there are
tasks somebody is left to pop them. -/
structure Draining (s : State n O K) : Prop where
  outside : s.owner.destroying = true → ∀ o, s.outside o = none
  pops : s.owner.destroying = true → s.tasks ≠ [] → ∃ w, (s.worker w).popsAgain = true
  aborted : s.owner ≠ .aborted

/-- A worker that has left has no task and pops no more. -/
theorem WorkerPc.left_frame {K : Type*} {pc : WorkerPc K} (h : pc.left = true) :
    pc.popped = 0 ∧ pc.adding = 0 ∧ pc.popsAgain = false := by
  cases pc with
  | leave | signal | gone => exact ⟨rfl,rfl,rfl⟩
  | absent | pop | empty | run task call | remove | notify => cases h

omit [DecidableEq O] in
/-- A pool whose workers have all left has nothing left to do. -/
theorem Draining.drained [Fintype O] (hn : 0 < n) (ha : Accounted s) (h : Draining s)
    (hleft : ∀ w, (s.worker w).left = true) : s.tasks = [] ∧ s.countTasks = 0 := by
  have hdestroying : s.owner.destroying = true := by
    rw [←ha.shutdown]
    exact ha.left ⟨0,hn⟩ (hleft _)
  have hzero := fun w => WorkerPc.left_frame (hleft w)
  have hnil : s.tasks = [] := by
    by_contra hne
    obtain ⟨w,hw⟩ := h.pops hdestroying hne
    rw [(hzero w).2.2] at hw
    cases hw
  have hpopped : tally WorkerPc.popped s.worker = 0 := tally_eq_zero.mpr fun w => (hzero w).1
  have hadding : tally WorkerPc.adding s.worker = 0 := tally_eq_zero.mpr fun w => (hzero w).2.1
  have houtside : tally adding s.outside = 0 := by
    refine tally_eq_zero.mpr fun o => ?_
    rw [h.outside hdestroying o]
    rfl
  refine ⟨hnil,?_⟩
  rw [ha.tasks,hnil,hpopped,hadding,houtside]
  rfl

omit [DecidableEq O] in
/-- One step of a worker. -/
theorem Draining.workerStep (h : Draining s) (hs : s.workerStep w = some s') : Draining s' := by
  obtain ⟨hworker,houtside,howner⟩ := workerStep_frame hs
  obtain ⟨-,-,hdestroying,-,hasleep⟩ := s.owner.notified_frame
  have hsame : s'.owner.destroying = s.owner.destroying := by
    rcases howner with howner | howner
    · rw [howner]
    · rw [howner,hdestroying]
  refine ⟨?_,?_,?_⟩
  · intro hd o
    rw [houtside]
    exact h.outside (hsame ▸ hd) o
  · intro hd htasks
    by_cases hempty : s.tasks = []
    · exact ⟨w,workerStep_popsAgain hs htasks (Or.inl hempty)⟩
    · obtain ⟨v,hv⟩ := h.pops (hsame ▸ hd) hempty
      rcases eq_or_ne v w with rfl | hne
      · exact ⟨v,workerStep_popsAgain hs htasks (Or.inr hv)⟩
      · exact ⟨v,by rw [hworker v hne]; exact hv⟩
  · have haborted := h.aborted
    rcases howner with howner | howner
    · rw [howner]
      exact haborted
    · rw [howner]
      cases hpc : s.owner <;> rw [hpc] at haborted <;> first | exact absurd rfl haborted | rintro ⟨⟩

omit [DecidableEq O] in
/-- StartShutdown: a worker that is not between an empty pop and its look at
the flag pops again. -/
theorem Draining.startShutdown [Fintype O] (ha : Accounted s) (howner : s.owner = .started)
    (hfirst : ∀ o, s.outside o = none) (hpops : s.tasks ≠ [] → ∃ w, s.worker w ≠ .empty) :
    Draining { s with shutdown := true, owner := .waitShutdown } := by
  refine ⟨fun _ => hfirst,?_,by rintro ⟨⟩⟩
  intro _ htasks
  obtain ⟨w,hw⟩ := hpops htasks
  have hopen : s.shutdown = false := by
    rw [ha.shutdown,howner]
    rfl
  have habsent : s.worker w ≠ .absent := by
    rw [Ne,ha.created,howner]
    rintro ⟨⟩
  have hleft : (s.worker w).left ≠ true := by
    intro hleft
    rw [ha.left w hleft] at hopen
    cases hopen
  refine ⟨w,?_⟩
  cases hpc : s.worker w with
  | pop | run task call | remove | notify => rfl
  | absent => exact absurd hpc habsent
  | empty => exact absurd hpc hw
  | leave | signal | gone =>
    rw [hpc] at hleft
    exact absurd rfl hleft

omit [DecidableEq O] in
/-- The owner moves on in the destructor. -/
theorem Draining.moveOwner {pc : OwnerPc} (h : Draining s) (howner : s.owner.destroying = true)
    (hpc : pc ≠ .aborted) : Draining { s with owner := pc } :=
  ⟨fun _ => h.outside howner,fun _ => h.pops howner,hpc⟩

omit [DecidableEq O] in
/-- One step of the owner. -/
theorem Draining.ownerStep [Fintype O] (hn : 0 < n) (ha : Accounted s) (h : Draining s)
    (hfirst : OutsideFirst s .owner) (hpops : SomebodyPops s .owner)
    (hs : s.ownerStep = some s') : Draining s' := by
  simp only [State.ownerStep] at hs
  split at hs
  next => split at hs <;> cases hs <;> exact ⟨by rintro ⟨⟩,by rintro ⟨⟩,by rintro ⟨⟩⟩
  next =>
    split at hs <;> cases hs
    exact ⟨by rintro ⟨⟩,by rintro ⟨⟩,by rintro ⟨⟩⟩
  next howner =>
    cases hs
    exact Draining.startShutdown ha howner (hfirst howner) (hpops howner)
  next howner =>
    cases hs
    refine h.moveOwner (by rw [howner]; rfl) ?_
    split <;> rintro ⟨⟩
  next howner =>
    cases hs
    refine h.moveOwner (by rw [howner]; rfl) ?_
    split <;> rintro ⟨⟩
  next => cases hs
  next howner =>
    split at hs
    next =>
      split at hs <;> cases hs
      exact h.moveOwner (by rw [howner]; rfl) (by rintro ⟨⟩)
    next =>
      cases hs
      exact h.moveOwner (by rw [howner]; rfl) (by rintro ⟨⟩)
  next howner =>
    cases hs
    have hleft : ∀ w, (s.worker w).left = true := by
      intro w
      rw [ha.joined w (by rw [howner]; rfl)]
      rfl
    refine h.moveOwner (by rw [howner]; rfl) ?_
    simp [(h.drained hn ha hleft).2]
  next howner =>
    cases hs
    have hleft : ∀ w, (s.worker w).left = true := by
      intro w
      rw [ha.joined w (by rw [howner]; rfl)]
      rfl
    refine h.moveOwner (by rw [howner]; rfl) ?_
    simp [(h.drained hn ha hleft).1]
  next => cases hs
  next => cases hs

/-- Each step of the pool. -/
theorem Draining.step [Fintype O] {a : Action n O K} (hn : 0 < n) (ha : Accounted s)
    (h : Draining s) (hfirst : OutsideFirst s a) (hpops : SomebodyPops s a)
    (hs : step s a = some s') : Draining s' := by
  cases a with
  | worker w => exact h.workerStep hs
  | callFrom w task =>
    simp only [IntrusivePool.step] at hs
    split at hs <;> cases hs
    next running hw =>
      refine ⟨h.outside,?_,h.aborted⟩
      intro hd htasks
      obtain ⟨v,hv⟩ := h.pops hd htasks
      rcases eq_or_ne v w with rfl | hne
      · exact ⟨v,by simp [State.goto,WorkerPc.popsAgain]⟩
      · exact ⟨v,by simpa [State.goto,hne] using hv⟩
  | call o task =>
    simp only [IntrusivePool.step] at hs
    split at hs <;> cases hs
    refine ⟨?_,h.pops,h.aborted⟩
    intro hd
    have hopen : s.owner.destroying = false := hfirst
    exact absurd hd (by simp [State.gotoOutside,hopen])
  | outside o =>
    simp only [IntrusivePool.step] at hs
    split at hs <;> cases hs
    next pc ho =>
      obtain ⟨-,-,-,howner,-⟩ := submit_frame s pc
      -- no call from outside is left once the destructor runs
      have hopen : s.owner.destroying ≠ true := by
        intro hd
        rw [h.outside hd o] at ho
        cases ho
      refine ⟨?_,?_,?_⟩ <;> simp only [State.gotoOutside,howner]
      · exact fun hd => absurd hd hopen
      · exact fun hd => absurd hd hopen
      · exact h.aborted
  | owner => exact h.ownerStep hn ha hfirst hpops hs
  | wake =>
    simp only [IntrusivePool.step] at hs
    split at hs <;> cases hs
    next howner => exact h.moveOwner (by rw [howner]; rfl) (by rintro ⟨⟩)
  | waiter =>
    simp only [IntrusivePool.step,State.waiterStep] at hs
    split at hs <;> cases hs <;> exact ⟨h.outside,h.pops,h.aborted⟩

end Drain

/-- In every run of a pool with a worker, where the calls of Submit from outside
have returned when the destructor begins and StartShutdown does not find tasks
while every worker is between an empty pop and its look at the flag: the
counter is the number of tasks queued, popped and not removed, or between
AddTask and the push; when all workers have left their loops the list is empty
and the counter zero, so no assert fails; and the owner does not sleep in
WaitShutdown once no worker is counted and none has its notification left. -/
theorem pool_drains [Fintype O] {s : State n O K} (hn : 0 < n)
    (hr : (system n O K).ReachableUnder (fun s a => OutsideFirst s a ∧ SomebodyPops s a) s) :
    s.countTasks = s.tasks.length + tally WorkerPc.popped s.worker +
      (tally WorkerPc.adding s.worker + tally adding s.outside) ∧
    ((∀ w, (s.worker w).left = true) → s.tasks = [] ∧ s.countTasks = 0) ∧
    s.owner ≠ .aborted ∧
    (s.owner = .asleep → s.countWorkers = 0 → ∃ w, s.worker w = .signal) := by
  have ha := accounted_reachable hr.reachable
  have h : Draining s := by
    refine System.ReachableUnder.invariant ?_ ?_ hr
    · exact ⟨by rintro ⟨⟩,by rintro ⟨⟩,by rintro ⟨⟩⟩
    · intro s a s' hr hi ha hs
      exact hi.step hn (accounted_reachable hr.reachable) ha.1 ha.2 hs
  refine ⟨?_,h.drained hn ha,h.aborted,ha.asleep⟩
  rw [ha.tasks]
  omega

/-- A task is submitted and run by the only worker, then the pool is destroyed. -/
def drainSchedule : List (Action 1 Unit ℕ) :=
  [.owner,.owner,.owner,.call () 7,.outside (),.outside (),.outside (),.worker 0,.worker 0,
    .worker 0,.worker 0,.owner,.worker 0,.worker 0,.owner,.worker 0,.worker 0,.owner,.owner,.owner,
    .owner,.owner]

theorem pool_drains_one : ∃ s, (system 1 Unit ℕ).ReachableUnder
    (fun s a => OutsideFirst s a ∧ SomebodyPops s a) s ∧ s.owner = .destroyed ∧
    s.tasks = [] ∧ s.countTasks = 0 := by
  have hends : (system 1 Unit ℕ).Ends (initial 1 Unit ℕ) drainSchedule fun s =>
      s.owner = .destroyed ∧ ∀ w, (s.worker w).left = true := by
    decide
  have hmeets : (system 1 Unit ℕ).Meets (fun s a => OutsideFirst s a ∧ SomebodyPops s a)
      (initial 1 Unit ℕ) drainSchedule := by
    decide
  obtain ⟨s,hr,howner,hleft⟩ := System.Ends.reachableUnder hends hmeets
  have hdrained := (pool_drains (by decide) hr).2.1 hleft
  exact ⟨s,hr,howner,hdrained⟩

/-- The worker pops nothing, a task is pushed, the destructor sets the flag, and
the worker leaves. -/
def abandonSchedule : List (Action 1 Unit ℕ) :=
  [.owner,.owner,.owner,.worker 0,.call () 7,.outside (),.outside (),.outside (),.owner,.worker 0,
    .worker 0,.worker 0,.owner,.owner,.owner,.owner]

theorem pool_abandons_task : ∃ s, (system 1 Unit ℕ).ReachableUnder OutsideFirst s ∧
    (∀ w, (s.worker w).left = true) ∧ s.tasks = [7] ∧ s.countTasks = 1 ∧ s.owner = .aborted := by
  have hends : (system 1 Unit ℕ).Ends (initial 1 Unit ℕ) abandonSchedule fun s =>
      (∀ w, (s.worker w).left = true) ∧ s.tasks = [7] ∧ s.countTasks = 1 ∧ s.owner = .aborted := by
    decide
  have hmeets : (system 1 Unit ℕ).Meets OutsideFirst (initial 1 Unit ℕ) abandonSchedule := by decide
  obtain ⟨s,hr,hdone⟩ := System.Ends.reachableUnder hends hmeets
  exact ⟨s,hr,hdone⟩

section Abandoned

variable {s s' : State n O K}

/-- Nobody is left to pop the tasks of the list. -/
structure Abandoned (tasks : List K) (s : State n O K) : Prop where
  tasks : s.tasks = tasks
  shutdown : s.shutdown = true
  destroying : s.owner.destroying = true
  outside : ∀ o, s.outside o = none
  workers : ∀ w, s.worker w = .empty ∨ (s.worker w).left = true

omit [DecidableEq O] in
/-- A worker goes on to leave. -/
theorem Abandoned.workerStep {tasks : List K} {w : Fin n} (h : Abandoned tasks s)
    (hs : s.workerStep w = some s') : Abandoned tasks s' := by
  have hmove : ∀ (owner : OwnerPc) (count : ℕ) (pc : WorkerPc K), owner.destroying = true →
      pc.left = true → Abandoned tasks
        ({ s with owner := owner, countWorkers := count }.goto w pc) := by
    intro owner count pc howner hpc
    refine ⟨h.tasks,h.shutdown,howner,h.outside,?_⟩
    intro v
    rcases eq_or_ne v w with rfl | hne
    · exact Or.inr (by simpa [State.goto] using hpc)
    · simpa [State.goto,hne] using h.workers v
  have hnotified := s.owner.notified_frame.2.2.1
  have hw := h.workers w
  simp only [State.workerStep] at hs
  split at hs
  case h_3 =>
    cases hs
    rw [h.shutdown]
    exact hmove s.owner s.countWorkers .leave h.destroying rfl
  case h_8 =>
    cases hs
    exact hmove s.owner (s.countWorkers - 1) .signal h.destroying rfl
  case h_9 =>
    cases hs
    exact hmove s.owner.notified s.countWorkers .gone (hnotified.trans h.destroying) rfl
  case h_10 => cases hs
  -- at every other point the worker would have to pop again
  all_goals
    next hpc =>
      rw [hpc] at hw
      rcases hw with hw | hw <;> cases hw

omit [DecidableEq O] in
/-- The owner goes on in the destructor. -/
theorem Abandoned.ownerStep {tasks : List K} (h : Abandoned tasks s)
    (hs : s.ownerStep = some s') : Abandoned tasks s' := by
  have hmove : ∀ owner : OwnerPc, owner.destroying = true →
      Abandoned tasks { s with owner := owner } :=
    fun owner howner => ⟨h.tasks,h.shutdown,howner,h.outside,h.workers⟩
  have hdestroying := h.destroying
  simp only [State.ownerStep] at hs
  split at hs
  case h_4 | h_5 =>
    cases hs
    refine hmove _ ?_
    split <;> rfl
  case h_7 =>
    split at hs
    next =>
      split at hs <;> cases hs
      exact hmove _ rfl
    next =>
      cases hs
      exact hmove _ rfl
  case h_8 | h_9 =>
    cases hs
    refine hmove _ ?_
    split <;> rfl
  case h_6 | h_10 | h_11 => cases hs
  all_goals
    next howner =>
      rw [howner] at hdestroying
      cases hdestroying

/-- Nothing brings the tasks back. -/
theorem Abandoned.step {tasks : List K} {a : Action n O K} (h : Abandoned tasks s)
    (hfirst : OutsideFirst s a) (hs : step s a = some s') : Abandoned tasks s' := by
  cases a with
  | worker w => exact h.workerStep hs
  | callFrom w task =>
    simp only [IntrusivePool.step] at hs
    have hw := h.workers w
    split at hs
    next hpc =>
      rw [hpc] at hw
      rcases hw with hw | hw <;> cases hw
    next => cases hs
  | call o task =>
    have hopen : s.owner.destroying = false := hfirst
    rw [h.destroying] at hopen
    cases hopen
  | outside o =>
    simp only [IntrusivePool.step,h.outside o] at hs
    cases hs
  | owner => exact h.ownerStep hs
  | wake =>
    simp only [IntrusivePool.step] at hs
    split at hs <;> cases hs
    exact ⟨h.tasks,h.shutdown,rfl,h.outside,h.workers⟩
  | waiter =>
    simp only [IntrusivePool.step,State.waiterStep] at hs
    split at hs <;> cases hs <;> exact ⟨h.tasks,h.shutdown,h.destroying,h.outside,h.workers⟩

end Abandoned

/-- What a StartShutdown that does not meet the condition does: no run from
there ever takes the tasks of the list. -/
theorem abandoned_tasks_stay {s s' : State n O K} {rest : List (Action n O K)}
    (howner : s.owner = .started) (htasks : s.tasks ≠ []) (hempty : ∀ w, s.worker w = .empty)
    (hmeets : (system n O K).Meets OutsideFirst s (.owner :: rest))
    (hrun : (system n O K).run s (.owner :: rest) = some s') :
    s'.tasks = s.tasks ∧ s'.tasks ≠ [] := by
  have hstep : (system n O K).step s .owner =
      some { s with shutdown := true, owner := .waitShutdown } := by
    simp [system,IntrusivePool.step,State.ownerStep,howner]
  rw [System.Meets,hstep] at hmeets
  rw [System.run,hstep] at hrun
  have hstart : Abandoned s.tasks { s with shutdown := true, owner := .waitShutdown } :=
    ⟨rfl,rfl,rfl,hmeets.1 howner,fun w => Or.inl (hempty w)⟩
  have hend := hmeets.2.invariant (fun _ _ _ hi ha hs => hi.step ha hs) hstart hrun
  exact ⟨hend.tasks,hend.tasks ▸ htasks⟩

/-- Nobody sleeps in WaitIdle on a pool without tasks, unless some worker still
has its NotifyAll to perform. -/
def NoLostWakeUp (s : State n O K) : Prop :=
  s.waiter = .asleep → s.countTasks = 0 → ∃ w, s.worker w = .notify

/-- A NotifyAll does not fall between the check and the wait of WaitIdle, or
there are tasks left, or it is not the last one. -/
def NotifiesSleeper {n : ℕ} {O K : Type*} (s : State n O K) : Action n O K → Prop
  | .worker w => s.worker w = .notify → s.waiter = .wait →
    s.countTasks ≠ 0 ∨ ∃ v, v ≠ w ∧ s.worker v = .notify
  | _ => True

instance [DecidableEq K] (s : State n O K) : ∀ a, Decidable (NotifiesSleeper s a)
  | .worker w => inferInstanceAs (Decidable (s.worker w = .notify → s.waiter = .wait →
      s.countTasks ≠ 0 ∨ ∃ v, v ≠ w ∧ s.worker v = .notify))
  | .owner | .callFrom .. | .call .. | .outside _ | .wake | .waiter => isTrue trivial

/-- From its check on, WaitIdle can rely on a task or on a NotifyAll. -/
def Awaited (s : State n O K) : Prop :=
  (s.waiter = .wait ∨ s.waiter = .asleep) → s.countTasks = 0 → ∃ w, s.worker w = .notify

section Idle

variable {s s' : State n O K} {w : Fin n}

omit [DecidableEq O] in
/-- Submit never takes the counter to zero. -/
theorem submit_countTasks (s : State n O K) (pc : SubmitPc K)
    (h : (s.submit pc).1.countTasks = 0) : s.countTasks = 0 := by
  cases pc with
  | add task => simp [State.submit] at h
  | check task | push task => exact h

omit [DecidableEq O] in
/-- Only RemoveTask takes the counter to zero, and a NotifyAll follows it. -/
theorem workerStep_countTasks (hs : s.workerStep w = some s') (hzero : s'.countTasks = 0) :
    s.countTasks = 0 ∨ s'.worker w = .notify := by
  simp only [State.workerStep] at hs
  split at hs
  case h_2 => split at hs <;> cases hs <;> exact Or.inl hzero
  case h_4 task pc hw =>
    cases hs
    exact Or.inl (submit_countTasks s pc hzero)
  case h_6 =>
    cases hs
    exact Or.inr (Function.update_self ..)
  all_goals
    cases hs <;> exact Or.inl hzero

omit [DecidableEq O] in
/-- Only NotifyAll moves the thread in WaitIdle. -/
theorem workerStep_waiter (hs : s.workerStep w = some s') :
    (s.worker w = .notify ∧ s'.waiter = s.waiter.notified ∧ s'.countTasks = s.countTasks) ∨
      (s.worker w ≠ .notify ∧ s'.waiter = s.waiter) := by
  simp only [State.workerStep] at hs
  split at hs
  case h_2 hw =>
    rw [hw]
    split at hs <;> cases hs <;> exact Or.inr ⟨by rintro ⟨⟩,rfl⟩
  case h_4 task pc hw =>
    cases hs
    rw [hw]
    exact Or.inr ⟨by rintro ⟨⟩,(submit_frame s pc).2.2.2.2.2⟩
  case h_7 hw =>
    cases hs
    exact Or.inl ⟨hw,rfl,rfl⟩
  all_goals
    next hw =>
      rw [hw]
      cases hs <;> exact Or.inr ⟨by rintro ⟨⟩,rfl⟩

omit [DecidableEq O] in
/-- One step of a worker. -/
theorem Awaited.workerStep (h : Awaited s) (ha : NotifiesSleeper s (.worker w))
    (hs : s.workerStep w = some s') : Awaited s' := by
  obtain ⟨hworker,-⟩ := workerStep_frame hs
  intro hwaiter hzero
  rcases workerStep_waiter hs with ⟨hw,hnotified,hsame⟩ | ⟨hw,hsame⟩
  · -- the sleeper is woken, so the waiter stands between its check and its wait
    have hwait : s.waiter = .wait := by
      rw [hnotified] at hwaiter
      cases hpc : s.waiter <;> rw [hpc] at hwaiter <;> simp_all [WaiterPc.notified]
    rcases ha hw hwait with hne | ⟨v,hv,hnotify⟩
    · exact absurd (hsame ▸ hzero) hne
    · exact ⟨v,by rw [hworker v hv]; exact hnotify⟩
  · rw [hsame] at hwaiter
    rcases workerStep_countTasks hs hzero with hold | hnew
    · obtain ⟨v,hv⟩ := h hwaiter hold
      have hne : v ≠ w := by
        rintro rfl
        exact hw hv
      exact ⟨v,by rw [hworker v hne]; exact hv⟩
    · exact ⟨w,hnew⟩

omit [DecidableEq O] in
/-- One step of the owner. -/
theorem Awaited.ownerStep [Fintype O] (hacc : Accounted s) (h : Awaited s)
    (hs : s.ownerStep = some s') : Awaited s' := by
  simp only [State.ownerStep] at hs
  split at hs
  case h_2 i howner =>
    split at hs <;> cases hs
    next hi =>
      intro hwaiter hzero
      obtain ⟨v,hv⟩ := h hwaiter hzero
      -- the new worker had no thread, so it is not the one that notifies
      have hne : v ≠ ⟨i,hi⟩ := by
        rintro rfl
        have habsent : s.worker ⟨i,hi⟩ = .absent := by
          rw [hacc.created,howner]
          simp [OwnerPc.created]
        rw [habsent] at hv
        cases hv
      exact ⟨v,by simpa [State.goto,hne] using hv⟩
  case h_7 =>
    split at hs
    next =>
      split at hs <;> cases hs
      exact h
    next =>
      cases hs
      exact h
  case h_1 => split at hs <;> cases hs <;> exact h
  all_goals
    cases hs <;> exact h

/-- Each step of the pool. -/
theorem Awaited.step [Fintype O] {a : Action n O K} (hacc : Accounted s) (h : Awaited s)
    (ha : NotifiesSleeper s a)
    (hs : step s a = some s') : Awaited s' := by
  cases a with
  | worker w => exact h.workerStep ha hs
  | callFrom w task =>
    simp only [IntrusivePool.step] at hs
    split at hs <;> cases hs
    next hw =>
      intro hwaiter hzero
      obtain ⟨v,hv⟩ := h hwaiter hzero
      have hne : v ≠ w := by
        rintro rfl
        rw [hw] at hv
        cases hv
      exact ⟨v,by simpa [State.goto,hne] using hv⟩
  | call o task =>
    simp only [IntrusivePool.step] at hs
    split at hs <;> cases hs
    exact h
  | outside o =>
    simp only [IntrusivePool.step] at hs
    split at hs <;> cases hs
    next pc ho =>
      obtain ⟨hworker,-,-,-,-,hwaiter⟩ := submit_frame s pc
      intro hwait hzero
      simp only [State.gotoOutside,hworker,hwaiter] at hwait ⊢
      exact h hwait (submit_countTasks s pc hzero)
  | owner => exact h.ownerStep hacc hs
  | wake =>
    simp only [IntrusivePool.step] at hs
    split at hs <;> cases hs
    exact h
  | waiter =>
    simp only [IntrusivePool.step,State.waiterStep] at hs
    split at hs <;> cases hs
    next => rintro (hw | hw) <;> cases hw
    next =>
      intro hwaiter hzero
      exfalso
      simp only at hwaiter hzero
      rw [if_pos hzero] at hwaiter
      rcases hwaiter with hw | hw <;> cases hw
    next hwait => exact fun _ => h (Or.inl hwait)
    next => rintro (hw | hw) <;> cases hw

end Idle

/-- In every run where no last NotifyAll of a pool without tasks falls between
the check and the wait of WaitIdle, no wake-up is lost. In any state, such a
NotifyAll can be followed by the wait, and the wake-up is lost. -/
theorem waitIdle_wakes_up [Fintype O] :
    (∀ s : State n O K, (system n O K).ReachableUnder NotifiesSleeper s → NoLostWakeUp s) ∧
    (∀ (s : State n O K) (w : Fin n), s.worker w = .notify → ¬ NotifiesSleeper s (.worker w) →
      ∃ s', (system n O K).run s [.worker w,.waiter] = some s' ∧ ¬ NoLostWakeUp s') := by
  constructor
  · intro s hr
    have h : Awaited s := by
      refine System.ReachableUnder.invariant ?_ ?_ hr
      · rintro (hw | hw) <;> cases hw
      · intro s a s' hr hi ha hs
        exact hi.step (accounted_reachable hr.reachable) ha hs
    exact fun hasleep => h (Or.inr hasleep)
  · intro s w hw hnot
    simp only [NotifiesSleeper,Classical.not_imp,not_or,not_exists,not_and,Decidable.not_not]
      at hnot
    obtain ⟨-,hwait,hzero,hlast⟩ := hnot
    refine ⟨{ s.goto w .pop with waiter := .asleep },?_,?_⟩
    · simp [System.run,system,IntrusivePool.step,State.workerStep,State.waiterStep,hw,hwait,
        State.goto,WaiterPc.notified]
    · intro hlost
      obtain ⟨v,hv⟩ := hlost rfl hzero
      rcases eq_or_ne v w with rfl | hne
      · simp [State.goto] at hv
      · exact hlast v hne (by simpa [State.goto,hne] using hv)

/-- WaitIdle reads one task and sleeps, and the NotifyAll comes after that. -/
def wokenSchedule : List (Action 1 Unit ℕ) :=
  [.owner,.owner,.owner,.call () 7,.outside (),.outside (),.outside (),.worker 0,.waiter,.waiter,
    .waiter,.worker 0,.worker 0]

theorem waitIdle_wakes_up_one : ∃ s, (system 1 Unit ℕ).ReachableUnder NotifiesSleeper s ∧
    s.waiter = .asleep ∧ s.countTasks = 0 ∧ ∃ w, s.worker w = .notify := by
  have hends : (system 1 Unit ℕ).Ends (initial 1 Unit ℕ) wokenSchedule fun s =>
      s.waiter = .asleep ∧ s.countTasks = 0 := by
    decide
  have hmeets : (system 1 Unit ℕ).Meets NotifiesSleeper (initial 1 Unit ℕ) wokenSchedule := by
    decide
  obtain ⟨s,hr,hasleep,hzero⟩ := System.Ends.reachableUnder hends hmeets
  exact ⟨s,hr,hasleep,hzero,waitIdle_wakes_up.1 s hr hasleep hzero⟩

/-- WaitIdle reads one task, its worker finishes and notifies, and WaitIdle goes
to sleep. -/
def lostSchedule : List (Action 1 Unit ℕ) :=
  [.owner,.owner,.owner,.call () 7,.outside (),.outside (),.outside (),.worker 0,.waiter,.waiter,
    .worker 0,.worker 0,.worker 0,.waiter]

theorem waitIdle_loses_wakeUp : ∃ s, (system 1 Unit ℕ).Reachable s ∧ s.waiter = .asleep ∧
    s.countTasks = 0 ∧ (∀ w, s.worker w = .pop) ∧ ¬ NoLostWakeUp s := by
  have hends : (system 1 Unit ℕ).Ends (initial 1 Unit ℕ) lostSchedule fun s =>
      s.waiter = .asleep ∧ s.countTasks = 0 ∧ ∀ w, s.worker w = .pop := by
    decide
  obtain ⟨s,hr,hasleep,hzero,hworkers⟩ := System.Ends.reachable hends
  refine ⟨s,hr,hasleep,hzero,hworkers,fun hlost => ?_⟩
  obtain ⟨w,hw⟩ := hlost hasleep hzero
  rw [hworkers w] at hw
  cases hw

end ConcurrencyRuntime.IntrusivePool
