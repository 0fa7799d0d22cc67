import ConcurrencyRuntime.DistributedCount
import ConcurrencyRuntime.DistributedPoolControl

/-!
# The distributed pool moves its tasks

Each step of the pool moves the custody of its tasks or leaves it as it is. So
every task is in one place, always runs on the same worker, and is counted from
AddTask to RemoveTask; a WaitIdle that reads zero reads it when all tasks that
were counted, and all that they constructed, have completed.
-/

namespace ConcurrencyRuntime.DistributedPool

open TransitionSystem DistributedTasks

/-- What a worker does with a task of its queue. -/
def WorkerPc.phase {n : ℕ} {K : Type*} : WorkerPc n K → Phase K
  | .setWorker task => .popped task
  | .enter task => .entering task
  | .running task stage | .submitting task stage _ => .running task stage
  | .completing task => .completing task
  | .remove task => .removing task
  | _ => .idle

/-- A call that has not pushed its task yet. -/
def carrying {n : ℕ} {K : Type*} : Option (SubmitPc n K) → Option (SubmitPc n K)
  | some (.reset _) | some (.wakeUp _) | some (.release _) => none
  | call => call

/-- The Submit that the task on a worker performs. -/
def WorkerPc.call {n : ℕ} {K : Type*} : WorkerPc n K → Option (SubmitPc n K)
  | .submitting _ _ call => carrying (some call)
  | _ => none

/-- The Push that the loop of a worker performs. -/
def WorkerPc.pushing {n : ℕ} {K : Type*} : WorkerPc n K → Option (SubmitPc n K)
  | .push call => carrying (some call)
  | _ => none

variable {n : ℕ} {K O Q : Type*}

/-- The custody of the tasks of the pool. -/
def Pool.custody (s : Pool n K O Q) : Custody n K O where
  countTasks := s.countTasks
  globalTasks := s.globalTasks
  localTasks := s.localTasks
  parked := s.parked
  phase w := (s.worker w).phase
  call
    | .task w => (s.worker w).call
    | .process w => (s.worker w).pushing
    | .outside o => carrying (s.outside o)
  state := s.state
  taskWorker := s.taskWorker
  life := s.life
  runs := s.runs
  spawnedBy := s.spawnedBy
  thrown := s.thrown

/-- The tasks at each place. -/
def Pool.holding (s : Pool n K O Q) : Place n O → List K :=
  s.custody.holding

variable [DecidableEq K] [DecidableEq O] [DecidableEq Q]

section Refinement

variable {s s' : Pool n K O Q} {w : Fin n} {pc pc' : WorkerPc n K}

omit [DecidableEq K] [DecidableEq Q] in
theorem custody_goto (s : Pool n K O Q) (w : Fin n) (pc' : WorkerPc n K) :
    (s.goto w pc').custody =
      ((s.custody.goto w pc'.phase).turn (.task w) pc'.call).turn (.process w) pc'.pushing := by
  simp only [Pool.goto,Pool.custody,Custody.goto,Custody.turn,Custody.mk.injEq,true_and,and_true]
  refine ⟨?_,?_⟩
  · funext v
    simp only [Function.update_apply]
    split <;> rfl
  · funext a
    cases a with
    | task v =>
      simp only [Function.update_apply,reduceCtorEq,if_false,Caller.task.injEq]
      split <;> rfl
    | process v =>
      simp only [Function.update_apply,reduceCtorEq,if_false,Caller.process.injEq]
      split <;> rfl
    | outside o => rfl

omit [DecidableEq K] in
theorem turn_self {c : Custody n K O} {a : Caller n O} {call : Option (SubmitPc n K)}
    (h : c.call a = call) : c.turn a call = c := by
  rw [←h,Custody.turn,Function.update_eq_self]

omit [DecidableEq K] [DecidableEq O] in
theorem goto_self {c : Custody n K O} {phase : Phase K} (h : c.phase w = phase) :
    c.goto w phase = c := by
  rw [←h,Custody.goto,Function.update_eq_self]

omit [DecidableEq K] [DecidableEq Q] in
/-- A worker goes on outside of calls. -/
theorem custody_phase (hw : s.worker w = pc) (hcall : pc.call = pc'.call)
    (hpushing : pc.pushing = pc'.pushing) :
    (s.goto w pc').custody = s.custody.goto w pc'.phase := by
  have hcall' : (s.custody.goto w pc'.phase).call (.task w) = pc'.call :=
    (congrArg WorkerPc.call hw).trans hcall
  have hpushing' : (s.custody.goto w pc'.phase).call (.process w) = pc'.pushing :=
    (congrArg WorkerPc.pushing hw).trans hpushing
  rw [custody_goto,turn_self hcall',turn_self hpushing']

omit [DecidableEq K] [DecidableEq Q] in
/-- A worker goes on, and no task is touched. -/
theorem custody_stay (hw : s.worker w = pc) (hphase : pc.phase = pc'.phase)
    (hcall : pc.call = pc'.call) (hpushing : pc.pushing = pc'.pushing) :
    (s.goto w pc').custody = s.custody := by
  rw [custody_phase hw hcall hpushing,goto_self]
  exact (congrArg WorkerPc.phase hw).trans hphase

omit [DecidableEq K] [DecidableEq Q] in
/-- The task on a worker goes on in Submit. -/
theorem custody_call (hw : s.worker w = pc) (hpushing : pc.pushing = pc'.pushing) :
    (s.goto w pc').custody = (s.custody.goto w pc'.phase).turn (.task w) pc'.call := by
  have hpushing' : ((s.custody.goto w pc'.phase).turn (.task w) pc'.call).call (.process w) =
      pc'.pushing := by
    have hne : (.process w : Caller n O) ≠ .task w := by rintro ⟨⟩
    change Function.update (s.custody.goto w pc'.phase).call (.task w) pc'.call (.process w) = _
    rw [Function.update_of_ne hne]
    exact (congrArg WorkerPc.pushing hw).trans hpushing
  rw [custody_goto,turn_self hpushing']

omit [DecidableEq K] [DecidableEq Q] in
/-- The loop of a worker goes on in Push. -/
theorem custody_push (hw : s.worker w = pc) (hphase : pc.phase = pc'.phase)
    (hcall : pc.call = pc'.call) :
    (s.goto w pc').custody = s.custody.turn (.process w) pc'.pushing := by
  have hphase' : s.custody.phase w = pc'.phase := (congrArg WorkerPc.phase hw).trans hphase
  have hcall' : s.custody.call (.task w) = pc'.call := (congrArg WorkerPc.call hw).trans hcall
  rw [custody_goto,goto_self hphase',turn_self hcall']

omit [DecidableEq K] [DecidableEq Q] in
/-- Submit of a running task goes on. -/
theorem custody_submitting {task : K} {stage : Stage} {call : SubmitPc n K}
    (hw : s.worker w = .submitting task stage call) (next : Option (SubmitPc n K)) :
    (s.goto w (.afterSubmit task stage next)).custody =
      s.custody.turn (.task w) (carrying next) := by
  have hphase : s.custody.phase w = .running task stage := congrArg WorkerPc.phase hw
  rw [custody_call hw (by cases next <;> rfl)]
  cases next with
  | none | some => exact congrArg (fun c => Custody.turn c _ _) (goto_self hphase)

omit [DecidableEq K] [DecidableEq Q] in
/-- Push of the loop of a worker goes on. -/
theorem custody_pushing {call : SubmitPc n K} (hw : s.worker w = .push call)
    (next : Option (SubmitPc n K)) :
    (s.goto w (.afterPush next)).custody = s.custody.turn (.process w) (carrying next) := by
  rw [custody_push hw (by cases next <;> rfl) (by cases next <;> rfl)]
  cases next <;> rfl

omit [DecidableEq Q] in
/-- A worker goes on outside of calls, with a move. -/
theorem moves_phase {c : Custody n K O} (hmoves : Moves c (s.custody.goto w pc'.phase))
    (hw : s.worker w = pc) (hcall : pc.call = pc'.call) (hpushing : pc.pushing = pc'.pushing) :
    Moves c (s.goto w pc').custody := by
  rwa [custody_phase hw hcall hpushing]

omit [DecidableEq Q] in
/-- The loop of a worker goes on in Push, with a move. -/
theorem moves_push {c : Custody n K O} (hmoves : Moves c (s.custody.turn (.process w) pc'.pushing))
    (hw : s.worker w = pc) (hphase : pc.phase = pc'.phase) (hcall : pc.call = pc'.call) :
    Moves c (s.goto w pc').custody := by
  rwa [custody_push hw hphase hcall]

omit [DecidableEq Q] in
/-- The task on a worker goes on in Submit, with a move. -/
theorem moves_call {c : Custody n K O}
    (hmoves : Moves c ((s.custody.goto w pc'.phase).turn (.task w) pc'.call))
    (hw : s.worker w = pc) (hpushing : pc.pushing = pc'.pushing) :
    Moves c (s.goto w pc').custody := by
  rwa [custody_call hw hpushing]

omit [DecidableEq Q] in
/-- The task on a worker begins a Submit, with a move. -/
theorem moves_begin {c : Custody n K O} (hmoves : Moves c (s.custody.turn (.task w) pc'.call))
    (hw : s.worker w = pc) (hphase : pc.phase = pc'.phase) (hpushing : pc.pushing = pc'.pushing) :
    Moves c (s.goto w pc').custody := by
  refine moves_call ?_ hw hpushing
  have hphase' : s.custody.phase w = pc'.phase := (congrArg WorkerPc.phase hw).trans hphase
  rwa [goto_self hphase']

omit [DecidableEq K] [DecidableEq Q] in
theorem custody_gotoOutside (s : Pool n K O Q) (o : O) (call : Option (SubmitPc n K)) :
    (s.gotoOutside o call).custody = s.custody.turn (.outside o) (carrying call) := by
  simp only [Pool.gotoOutside,Pool.custody,Custody.turn,Custody.mk.injEq,true_and,and_true]
  funext a
  cases a with
  | task v | process v => rfl
  | outside o' =>
    simp only [Function.update_apply,Caller.outside.injEq]
    split <;> rfl

omit [DecidableEq O] [DecidableEq Q] in
theorem custody_progressState (s : Pool n K O Q) (task : K) :
    (s.progressState task).custody = s.custody.progressState task := by
  rw [Pool.progressState,Custody.progressState]
  cases hstate : s.state task <;> simp [Pool.custody,hstate]

omit [DecidableEq O] [DecidableEq Q] in
theorem custody_setWorker (s : Pool n K O Q) (task : K) (w : Fin n) :
    (s.setWorker task w).custody = s.custody.setWorker task w := by
  rw [Pool.setWorker,Custody.setWorker]
  cases hworker : s.taskWorker task <;> simp [Pool.custody,hworker]

omit [DecidableEq Q] in
/-- A step of Submit is a move of the caller, or touches no task. -/
theorem submit_moves {a : Caller n O} {call : SubmitPc n K}
    (hcall : s.custody.call a = carrying (some call)) :
    (s.submit call).1.custody.turn a (carrying (s.submit call).2) = s.custody ∨
      Moves s.custody ((s.submit call).1.custody.turn a (carrying (s.submit call).2)) := by
  cases call with
  | state task =>
    refine Or.inr ?_
    rw [Pool.submit]
    split
    next hstate => exact .first hcall hstate
    next hstate => exact .again hcall hstate
  | add task => exact Or.inr (.add hcall)
  | progress task =>
    refine Or.inr ?_
    rw [Pool.submit,custody_progressState]
    exact .progress hcall
  | route task =>
    refine Or.inr ?_
    rw [Pool.submit]
    split
    next w hworker => exact .routeLocal hcall hworker
    next hworker => exact .routeGlobal hcall hworker
  | global task => exact Or.inr (.pushGlobal hcall)
  | enqueue w task => exact Or.inr (.pushLocal hcall)
  | reset w | wakeUp w | release w => exact Or.inl (turn_self hcall)

omit [DecidableEq Q] in
/-- Each step of a worker outside of routines moves the custody or leaves it. -/
theorem workerStep_moves (h : s.workerStep w = some s') :
    s'.custody = s.custody ∨ Moves s.custody s'.custody := by
  cases hw : s.worker w with
  | absent | gone | running =>
    rw [Pool.workerStep,hw] at h
    cases h
  | resume =>
    rw [Pool.workerStep,hw] at h
    cases hcoro : s.coro w with
    | none =>
      simp only [hcoro] at h
      cases h
      exact Or.inl (custody_stay hw rfl rfl rfl)
    | active =>
      simp only [hcoro] at h
      cases h
      exact Or.inl (custody_stay hw rfl rfl rfl)
    | completed =>
      simp only [hcoro] at h
      cases h
      exact Or.inl rfl
  | loopShutdown | loopCount | loopFlag | processShutdown | emptyLoad | processFlag =>
    rw [Pool.workerStep,hw] at h
    cases h
    left
    split <;> exact custody_stay hw rfl rfl rfl
  | emptySub | addSuspended | suspend | notifyAll =>
    rw [Pool.workerStep,hw] at h
    cases h
    exact Or.inl (custody_stay hw rfl rfl rfl)
  | sleep =>
    rw [Pool.workerStep,hw] at h
    simp only at h
    split at h
    · cases h
      exact Or.inl (custody_stay hw rfl rfl rfl)
    · cases h
  | processCount =>
    rw [Pool.workerStep,hw] at h
    simp only at h
    split at h <;> cases h <;> exact Or.inl (custody_stay hw rfl rfl rfl)
  | popLocal =>
    rw [Pool.workerStep,hw] at h
    cases hlocal : s.localTasks w with
    | nil =>
      simp only [hlocal] at h
      cases h
      exact Or.inl (custody_stay hw rfl rfl rfl)
    | cons task rest =>
      simp only [hlocal] at h
      cases h
      refine Or.inr ?_
      exact moves_phase (.popLocal (congrArg WorkerPc.phase hw) hlocal) hw rfl rfl
  | popGlobal =>
    rw [Pool.workerStep,hw] at h
    cases hglobal : s.globalTasks with
    | nil =>
      simp only [hglobal] at h
      cases h
      exact Or.inl (custody_stay hw rfl rfl rfl)
    | cons task rest =>
      simp only [hglobal] at h
      cases h
      refine Or.inr (moves_push ?_ hw rfl rfl)
      exact .popGlobal (congrArg WorkerPc.pushing hw) hglobal
  | setWorker task =>
    rw [Pool.workerStep,hw] at h
    cases h
    refine Or.inr ?_
    have hw' : (s.setWorker task w).worker w = .setWorker task := by
      rw [Pool.setWorker]
      split <;> exact hw
    refine moves_phase ?_ hw' rfl rfl
    rw [custody_setWorker]
    exact .setWorker (congrArg WorkerPc.phase hw)
  | enter task =>
    rw [Pool.workerStep,hw] at h
    cases h
    refine Or.inr ?_
    exact moves_phase (.enter (congrArg WorkerPc.phase hw)) hw rfl rfl
  | submitting task stage call =>
    rw [Pool.workerStep,hw] at h
    cases h
    have hcall : s.custody.call (.task w) = carrying (some call) := congrArg WorkerPc.call hw
    have hw' : (s.submit call).1.worker w = .submitting task stage call := by
      rw [(submit_threads s call).1,hw]
    rw [custody_submitting hw']
    exact submit_moves hcall
  | push call =>
    rw [Pool.workerStep,hw] at h
    cases h
    have hcall : s.custody.call (.process w) = carrying (some call) := congrArg WorkerPc.pushing hw
    have hw' : (s.submit call).1.worker w = .push call := by
      rw [(submit_threads s call).1,hw]
    rw [custody_pushing hw']
    exact submit_moves hcall
  | completing task =>
    rw [Pool.workerStep,hw] at h
    cases h
    refine Or.inr ?_
    have hw' : (s.progressState task).worker w = .completing task := by
      rw [Pool.progressState]
      split <;> exact hw
    refine moves_phase ?_ hw' rfl rfl
    rw [custody_progressState]
    exact .complete (congrArg WorkerPc.phase hw)
  | remove task =>
    rw [Pool.workerStep,hw] at h
    cases h
    refine Or.inr ?_
    exact moves_phase (.remove (congrArg WorkerPc.phase hw)) hw rfl rfl

omit [DecidableEq Q] in
/-- An operation in Run of a task is a move. -/
theorem perform_moves {fiber : K → Bool} {task : K} {stage : Stage} {op : Op K}
    (hw : s.worker w = .running task stage) (h : s.perform fiber w task stage op = some s') :
    Moves s.custody s'.custody := by
  have hphase : s.custody.phase w = .running task stage := congrArg WorkerPc.phase hw
  have hcall : s.custody.call (.task w) = none := congrArg WorkerPc.call hw
  cases op with
  | go child =>
    rw [Pool.perform] at h
    split at h
    next habsent =>
      cases h
      exact moves_begin (.spawn hphase hcall habsent) hw rfl rfl
    next => cases h
  | wake other =>
    rw [Pool.perform] at h
    split at h
    next hparked =>
      cases h
      exact moves_begin (.wake hcall hparked) hw rfl rfl
    next => cases h
  | yield =>
    cases stage with
    | executing =>
      rw [Pool.perform] at h
      split at h
      next =>
        cases h
        exact moves_call (.yield hphase hcall) hw rfl
      next => cases h
    | handedOver => cases h
  | park =>
    cases stage with
    | executing =>
      rw [Pool.perform] at h
      split at h
      next =>
        cases h
        exact moves_phase (.park hphase hcall) hw rfl rfl
      next => cases h
    | handedOver => cases h
  | finish =>
    cases stage with
    | executing =>
      rw [Pool.perform] at h
      cases h
      split
      next => exact moves_phase (.finish hphase hcall) hw rfl rfl
      next => exact moves_phase (.finishFree hphase hcall) hw rfl rfl
    | handedOver => cases h
  | leave =>
    cases stage with
    | executing => cases h
    | handedOver =>
      rw [Pool.perform] at h
      cases h
      exact moves_phase (.leave hphase hcall) hw rfl rfl

omit [DecidableEq K] [DecidableEq Q] in
/-- The owner touches no task. -/
theorem ownerStep_custody (hunstarted : Unstarted s) (h : s.ownerStep = some s') :
    s'.custody = s.custody := by
  rcases ownerStep_cases h with ⟨i,hi,howner,rfl⟩ | ⟨-,hs'⟩
  · have hw : s.worker ⟨i,hi⟩ = .absent := by
      refine hunstarted _ ?_
      rw [howner]
      exact decide_eq_true (Nat.le_refl i)
    have hgoto : (s.goto ⟨i,hi⟩ .resume).custody = s.custody := custody_stay hw rfl rfl rfl
    exact hgoto
  · rw [hs']
    rfl

/-- Each step of the pool moves the custody of its tasks or leaves it, unless a
task comes in from outside. -/
theorem step_moves {fiber : K → Bool} {a : Action n K O Q} (hunstarted : Unstarted s)
    (h : step fiber s a = some s') :
    (s'.custody = s.custody ∨ Moves s.custody s'.custody) ∨
      ∃ o task, a = .go o task ∧ Enters s.custody s'.custody o task := by
  cases a with
  | go o task =>
    rw [step] at h
    split at h
    next ho habsent =>
      cases h
      exact Or.inr ⟨o,task,rfl,congrArg carrying ho,habsent,custody_gotoOutside ..⟩
    next => cases h
  | worker w => exact Or.inl (workerStep_moves h)
  | op w op =>
    rw [step] at h
    split at h
    next task stage hw => exact Or.inl (Or.inr (perform_moves hw h))
    next => cases h
  | timeout w =>
    refine Or.inl (Or.inl ?_)
    rw [step] at h
    split at h
    next hw =>
      cases h
      exact custody_stay hw rfl rfl rfl
    next => cases h
  | wake o task =>
    rw [step] at h
    split at h
    next ho =>
      split at h
      next hparked =>
        cases h
        rw [custody_gotoOutside]
        exact Or.inl (Or.inr (.wake (congrArg carrying ho) hparked))
      next => cases h
    next => cases h
  | outside o =>
    rw [step] at h
    split at h
    next call ho =>
      cases h
      rw [custody_gotoOutside]
      exact Or.inl (submit_moves (congrArg carrying ho))
    next => cases h
  | start | destroy =>
    refine Or.inl (Or.inl ?_)
    rw [step] at h
    split at h <;> cases h
    rfl
  | waitShutdown =>
    refine Or.inl (Or.inl ?_)
    rw [step] at h
    split at h <;> cases h <;> rfl
  | owner => exact Or.inl (Or.inl (ownerStep_custody hunstarted h))
  | waiter q =>
    refine Or.inl (Or.inl ?_)
    rw [waiterStep_eq h]
    rfl
  | spurious q =>
    refine Or.inl (Or.inl ?_)
    rw [step] at h
    split at h <;> cases h
    rfl

omit [DecidableEq K] [DecidableEq O] [DecidableEq Q] in
theorem accounted_initial : Accounted (initial n K O Q).custody := by
  have hholding : (initial n K O Q).custody.holding = fun _ => [] := by
    funext p
    cases p with
    | call a => cases a <;> rfl
    | globalTasks | localTasks | process | parked => rfl
  have hcounted : (initial n K O Q).custody.counted = ∅ := by
    refine Set.eq_empty_of_forall_notMem fun task htask => ?_
    rcases htask with htask | htask <;> cases htask
  refine { sound := ?_, count := ?_, parented := ⟨by rintro _ ⟨⟩,fun _ _ => rfl⟩ }
  · refine { exclusive := ?_, away := (by rintro _ ⟨⟩), held := ?_, fits := ?_,
             unborn := fun _ _ => rfl, runs := (by rintro _ _ ⟨⟩), thrown := rfl }
    · rw [hholding]
      exact ExclusivePlaces.exclusive_empty
    · rintro task (htask | htask | htask) <;> cases htask
    · intro p
      cases p with
      | globalTasks | localTasks | parked => rintro _ ⟨⟩
      | process w => trivial
      | call a => cases a <;> rintro _ ⟨⟩
  · rw [hcounted,Set.encard_empty]
    rfl

/-- The tasks of the pool are accounted for in every reachable state. -/
theorem accounted {fiber : K → Bool} (hr : (system n K O Q fiber).Reachable s) :
    Accounted s.custody := by
  refine System.ReachableUnder.invariant accounted_initial ?_ hr
  intro s a s' hr hi _ h
  rcases step_moves (unstarted hr) h with (hc | hc) | ⟨o,task,-,henters⟩
  · rw [hc]
    exact hi
  · exact hi.moves hc
  · exact hi.enters henters

end Refinement

/-- A worker is in Run of the task, AwaitSuspend included. -/
def Pool.InRun (s : Pool n K O Q) (w : Fin n) (task : K) : Prop :=
  match s.worker w with
  | .running t _ | .submitting t _ _ | .completing t => t = task
  | _ => False

/-- AddTask was executed for the task. -/
def Pool.Accepted (s : Pool n K O Q) (task : K) : Prop :=
  s.life task = .added ∨ s.life task = .completed ∨ s.life task = .removed

/-- A fiber is submitted from outside, yields in its first run and is about to
be run again. -/
def yieldOnce : List (Action 1 (Fin 2) (Fin 1) (Fin 1)) :=
  [[.start,.owner,.owner,.go 0 0],List.replicate 5 (.outside 0),List.replicate 11 (.worker 0),
    [.op 0 .yield],List.replicate 6 (.worker 0),[.op 0 .leave],
    List.replicate 3 (.worker 0)].flatten

/-- It constructs another fiber in its second run and returns; that one is run
after it and returns. -/
def spawnOnce : List (Action 1 (Fin 2) (Fin 1) (Fin 1)) :=
  [yieldOnce,[.worker 0,.op 0 (.go 1)],List.replicate 5 (.worker 0),[.op 0 .finish],
    List.replicate 13 (.worker 0),[.op 0 .finish,.worker 0]].flatten

/-- A call of WaitIdle has read zero. -/
def WaiterPc.done : WaiterPc → Bool
  | .unlock | .returned => true
  | _ => false

section Results

variable {s s' : Pool n K O Q} {fiber : K → Bool}

/-- A task that may be run is in no Run. -/
theorem not_inRun {w v : Fin n} {task : K} (hr : (system n K O Q fiber).Reachable s)
    (hw : s.worker w = .enter task) : ¬s.InRun v task := by
  have h := (accounted hr).sound
  have hfits : s.custody.PhaseFits w (s.worker w).phase := h.fits (.process w)
  rw [hw] at hfits
  have hvfits : s.custody.PhaseFits v (s.worker v).phase := h.fits (.process v)
  intro hin
  rw [Pool.InRun] at hin
  have hsame : s.taskWorker task = some v → v = w := by
    intro hv
    exact Option.some.inj (hv.symm.trans hfits.2)
  split at hin
  next t stage hv =>
    subst hin
    rw [hv] at hvfits
    have hvw := hsame hvfits.2
    subst hvw
    cases hw.symm.trans hv
  next t stage call hv =>
    subst hin
    rw [hv] at hvfits
    have hvw := hsame hvfits.2
    subst hvw
    cases hw.symm.trans hv
  next t hv =>
    subst hin
    rw [hv] at hvfits
    cases hvfits.1.symm.trans hfits.1.1
  next => exact hin

/-- In every reachable state every task that was submitted and has not completed
is in exactly one place; all its runs are on one worker; and where a worker is
about to enter its Run it has not completed and no worker is in its Run. -/
theorem task_in_one_place (hr : (system n K O Q fiber).Reachable s) :
    (∀ task, s.life task = .created ∨ s.life task = .added → ∃! p, task ∈ s.holding p) ∧
      (∀ p, (s.holding p).Nodup) ∧
      (∀ task v w, v ∈ s.runs task → w ∈ s.runs task → v = w) ∧
      ∀ w task, s.worker w = .enter task →
        s.life task = .added ∧ ∀ v, ¬s.InRun v task := by
  have h := (accounted hr).sound
  refine ⟨?_,h.exclusive.nodup,?_,?_⟩
  · intro task htask
    have hheld : s.custody.Held task := htask.imp_right Or.inl
    obtain ⟨p,hp⟩ := (h.held task hheld).resolve_left (by rintro ⟨⟩)
    exact ⟨p,hp,fun q hq => h.exclusive.unique q p task hq hp⟩
  · intro task v w hv hw
    exact Option.some.inj ((h.runs task v hv).symm.trans (h.runs task w hw))
  · intro w task hw
    have hfits : s.custody.PhaseFits w (s.worker w).phase := h.fits (.process w)
    rw [hw] at hfits
    exact ⟨hfits.1.1,fun v => not_inRun hr hw⟩

omit [DecidableEq K] [DecidableEq O] in
theorem gotoWaiter_self (s : Pool n K O Q) (q : Q) (pc : WaiterPc) :
    (s.gotoWaiter q pc).waiter q = pc :=
  Function.update_self ..

/-- The theorem at a fiber that has yielded and is about to be run again. -/
theorem task_in_one_place_yields :
    ∃ s, (system 1 (Fin 2) (Fin 1) (Fin 1) fun _ => true).Reachable s ∧ s.worker 0 = .enter 0 ∧
      s.runs 0 = [0] ∧ (∃! p, 0 ∈ s.holding p) ∧ ∀ v, ¬s.InRun v 0 := by
  have hends : (system 1 (Fin 2) (Fin 1) (Fin 1) fun _ => true).Ends
      (initial 1 (Fin 2) (Fin 1) (Fin 1)) yieldOnce
      (fun s => s.worker 0 = .enter 0 ∧ s.runs 0 = [0] ∧ s.life 0 = .added) := by
    decide
  obtain ⟨s,hr,hw,hruns,hlife⟩ := System.Ends.reachable hends
  obtain ⟨hplace,-,-,henter⟩ := task_in_one_place hr
  exact ⟨s,hr,hw,hruns,hplace 0 (Or.inr hlife),(henter 0 0 hw).2⟩

/-- A call of WaitIdle gets past its loop by reading zero. -/
theorem waitIdle_reads_zero {a : Action n K O Q} {q : Q} (h : step fiber s a = some s')
    (hs : ¬(s.waiter q).done = true) (hs' : (s'.waiter q).done = true) :
    s.waiter q = .load ∧ s.countTasks = 0 := by
  by_cases ha : a = .waiter q
  · subst ha
    rw [step] at h
    cases hq : s.waiter q with
    | outside | wait =>
      rw [Pool.waiterStep,hq] at h
      cases h
      rw [gotoWaiter_self] at hs'
      cases hs'
    | lock =>
      rw [Pool.waiterStep,hq] at h
      simp only at h
      split at h <;> cases h
      rw [gotoWaiter_self] at hs'
      cases hs'
    | load =>
      refine ⟨rfl,?_⟩
      rw [Pool.waiterStep,hq] at h
      cases h
      rw [gotoWaiter_self] at hs'
      split at hs'
      next hcount => exact hcount
      next => cases hs'
    | asleep =>
      rw [Pool.waiterStep,hq] at h
      cases h
    | unlock | returned => exact absurd (by rw [hq]; rfl) hs
  · rcases step_waiter h ha with heq | ⟨-,hlock⟩
    · rw [heq] at hs'
      exact absurd hs' hs
    · rw [hlock] at hs'
      cases hs'

/-- Every task that was counted is done with, with all that it has constructed,
and no fiber is parked. -/
def Pool.Idle (s : Pool n K O Q) : Prop :=
  (∀ task, s.Accepted task → s.life task = .removed) ∧
    (∀ parent task, s.Accepted parent →
      Relation.TransGen (fun t u => s.spawnedBy u = some t) parent task →
        s.life task = .removed) ∧
    s.parked = []

/-- The pool is idle where the counter is zero. -/
theorem idle_of_count (hr : (system n K O Q fiber).Reachable s) (hzero : s.countTasks = 0) :
    s.Idle := by
  obtain ⟨hlife,hspawned,hparked⟩ := (accounted hr).idle hzero
  refine ⟨?_,?_,hparked⟩
  · intro task htask
    rcases hlife task with habsent | hcreated | hremoved
    · have habsent' : s.life task = .absent := habsent
      rw [Pool.Accepted,habsent'] at htask
      simp at htask
    · have hcreated' : s.life task = .created := hcreated
      rw [Pool.Accepted,hcreated'] at htask
      simp at htask
    · exact hremoved
  · intro parent task _ hdescends
    obtain ⟨t,-,ht⟩ := Relation.TransGen.tail'_iff.mp hdescends
    exact hspawned task t ht

/-- In every reachable state the counter is the number of tasks between AddTask
and RemoveTask, RemoveTask finds it positive, and ProgressState has not thrown.
In every run from there in which a call of WaitIdle begins and returns, the pool
is idle at a moment of the call. -/
theorem task_count_exact (hr : (system n K O Q fiber).Reachable s) :
    { task | s.life task = .added ∨ s.life task = .completed }.encard = s.countTasks ∧
      (∀ w task, s.worker w = .remove task → 0 < s.countTasks) ∧
      s.thrown = false ∧
      ∀ q acts s', s.waiter q = .outside → (system n K O Q fiber).run s acts = some s' →
        s'.waiter q = .returned →
        ∃ front back t, acts = front ++ back ∧ (system n K O Q fiber).run s front = some t ∧
          (system n K O Q fiber).run t back = some s' ∧ t.waiter q = .load ∧ t.Idle := by
  have h := accounted hr
  refine ⟨h.count,?_,h.sound.thrown,?_⟩
  · intro w task hw
    have hfits : s.custody.PhaseFits w (s.worker w).phase := h.sound.fits (.process w)
    rw [hw] at hfits
    exact count_pos h.count (Or.inr hfits.1)
  · intro q acts s' hcall hrun hreturned
    have hs : ¬(s.waiter q).done = true := by
      rw [hcall]
      exact Bool.false_ne_true
    have hs' : (s'.waiter q).done = true := by
      rw [hreturned]
      rfl
    obtain ⟨front,a,back,t,u,hacts,hfront,ht,hstep,hu,hback⟩ :=
      System.run_becomes (P := fun x : Pool n K O Q => (x.waiter q).done = true) hs hrun hs'
    obtain ⟨hload,hzero⟩ := waitIdle_reads_zero hstep ht hu
    refine ⟨front,a :: back,t,hacts,hfront,?_,hload,idle_of_count (hr.run hfront) hzero⟩
    rw [System.run,hstep]
    exact hback

/-- The theorem at a run in which WaitIdle returns when two fibers have completed,
one of them constructed by the other. -/
theorem task_count_exact_two_fibers :
    ∃ s s', (system 1 (Fin 2) (Fin 1) (Fin 1) fun _ => true).Reachable s ∧ 0 < s.countTasks ∧
      s'.waiter 0 = .returned ∧
      ∃ front back t, [.worker 0,.waiter 0,.waiter 0,.waiter 0,.waiter 0] = front ++ back ∧
        (system 1 (Fin 2) (Fin 1) (Fin 1) fun _ => true).run s front = some t ∧
        (system 1 (Fin 2) (Fin 1) (Fin 1) fun _ => true).run t back = some s' ∧
        t.waiter 0 = .load ∧ t.Idle := by
  have hends : (system 1 (Fin 2) (Fin 1) (Fin 1) fun _ => true).Ends
      (initial 1 (Fin 2) (Fin 1) (Fin 1)) spawnOnce
      (fun s => s.worker 0 = .remove 1 ∧ s.waiter 0 = .outside ∧
        (system 1 (Fin 2) (Fin 1) (Fin 1) fun _ => true).Ends s
          [.worker 0,.waiter 0,.waiter 0,.waiter 0,.waiter 0]
          (fun s' => s'.waiter 0 = .returned)) := by
    decide
  obtain ⟨s,hr,hw,houtside,hrest⟩ := System.Ends.reachable hends
  obtain ⟨s',hrun,hreturned⟩ := hrest.exists_run
  obtain ⟨-,hpos,-,hidle⟩ := task_count_exact hr
  exact ⟨s,s',hr,hpos 0 1 hw,hreturned,hidle 0 _ s' houtside hrun hreturned⟩

end Results

end ConcurrencyRuntime.DistributedPool
