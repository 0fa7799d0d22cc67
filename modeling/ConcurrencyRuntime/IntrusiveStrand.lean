import ConcurrencyRuntime.TransitionSystem

/-!
# Interleavings of the intrusive strand

Any number of client threads call Submit while the underlying executor holds
RunBatch closures and starts each of them once. A step is one compare-exchange
on the state, one section under the spinlock, one hand-over of a closure or
one end of a user task; the section of Submit is cut at its compare-exchange,
because RunBatch changes the state without the lock. Closures are numbered by
the compare-exchange that planned them.

The strand serialises its tasks in every run. It can strand a task: a Submit
that falls between the emptiness check of RunBatch and the change from RUNNING
to READY finds RUNNING and plans nothing.
-/

namespace ConcurrencyRuntime.IntrusiveStrand

open TransitionSystem

/-- The values of the atomic field state. -/
inductive State where
  | ready
  | plan
  | running
  deriving DecidableEq

/-- Program points of one Submit call of a client thread. -/
inductive SubmitPc (T : Type*) where
  /-- No call is in progress. -/
  | idle
  /-- The call waits for the spinlock with its task. -/
  | locking (task : T)
  /-- The task is pushed; PlanTask(READY) is next, under the lock. -/
  | planning
  /-- The state was READY; SubmitInternal of this closure is next. -/
  | submitting (closure : ℕ)
  /-- Only the release of the lock is left. -/
  | unlocking
  deriving DecidableEq

/-- Life of one RunBatch closure. -/
inductive BatchPc (T : Type*) where
  /-- No compare-exchange has planned this number yet. -/
  | absent
  /-- Planned, and still in the hands of the SubmitInternal that follows. -/
  | planned
  /-- Held by the underlying executor. -/
  | pending
  /-- Started; the change from PLAN to RUNNING is next. -/
  | started
  /-- The section that swaps the task list is next. -/
  | swapping
  /-- At the loop head with the tasks it still has to run. -/
  | draining (scheduled : List T)
  /-- Inside the Run of a task. -/
  | executing (task : T) (scheduled : List T)
  /-- IsTasksEmpty returned true; the change from RUNNING to READY is next. -/
  | closing
  /-- IsTasksEmpty returned false; PlanTask(RUNNING) is next. -/
  | replanning
  /-- The state was RUNNING; SubmitInternal of this closure is next. -/
  | resubmitting (closure : ℕ)
  /-- RunBatch returned. -/
  | finished
  /-- One of the three asserts of RunBatch failed. -/
  | aborted
  deriving DecidableEq

/-- Planned and before its first state change. -/
@[grind =]
def BatchPc.isPlanned {T : Type*} : BatchPc T → Bool
  | .planned | .pending | .started => true
  | _ => false

/-- Between its first and its final state change. -/
@[grind =]
def BatchPc.isRunning {T : Type*} : BatchPc T → Bool
  | .swapping | .draining _ | .executing _ _ | .closing | .replanning => true
  | _ => false

/-- Started by the executor and not yet returned. -/
@[grind =]
def BatchPc.inProgress {T : Type*} : BatchPc T → Bool
  | .absent | .planned | .pending | .finished => false
  | _ => true

/-- The tasks a batch has swapped out and not entered yet. -/
@[grind =]
def BatchPc.scheduled {T : Type*} : BatchPc T → List T
  | .draining scheduled | .executing _ scheduled => scheduled
  | _ => []

/-- Holds the spinlock. -/
@[grind =]
def SubmitPc.inSection {T : Type*} : SubmitPc T → Bool
  | .planning | .submitting _ | .unlocking => true
  | .idle | .locking _ => false

/-- The strand together with every call and closure on it. -/
structure Strand (ι T : Type*) where
  /-- The flag of the spinlock. -/
  spinlock : Bool
  /-- The list of accepted tasks, oldest first. -/
  tasks : List T
  /-- The atomic state. -/
  state : State
  /-- Where each client thread stands in Submit. -/
  submit : ι → SubmitPc T
  /-- Where each closure stands. -/
  batch : ℕ → BatchPc T
  /-- How many closures have been planned so far. -/
  closures : ℕ
  /-- History: every task in the order of its push. -/
  pushed : List T
  /-- History: every task in the order its Run was entered. -/
  ran : List T

/-- Scheduler choices. -/
inductive Action (ι T : Type*) where
  /-- A client thread enters Submit. -/
  | call (i : ι) (task : T)
  /-- A client thread takes its next step in Submit. -/
  | submit (i : ι)
  /-- The underlying executor starts a closure. -/
  | launch (c : ℕ)
  /-- A started closure takes its next step in RunBatch. -/
  | batch (c : ℕ)
  deriving DecidableEq

variable {ι T : Type*} [DecidableEq ι]

/-- Move a client thread. -/
def Strand.setSubmit (s : Strand ι T) (i : ι) (pc : SubmitPc T) : Strand ι T :=
  { s with submit := Function.update s.submit i pc }

/-- Move a closure. -/
def Strand.setBatch {ι : Type*} (s : Strand ι T) (c : ℕ) (pc : BatchPc T) : Strand ι T :=
  { s with batch := Function.update s.batch c pc }

/-- ChangeState(from, to): a strong compare-exchange with its result. -/
def changeState {ι : Type*} (s : Strand ι T) (old new : State) : Strand ι T × Bool :=
  if s.state = old then ({ s with state := new }, true) else (s, false)

/-- The compare-exchange of PlanTask; success numbers the closure that
SubmitInternal is then called with. -/
def planTask {ι : Type*} (s : Strand ι T) (old : State) : Strand ι T × Option ℕ :=
  match changeState s old .plan with
  | (s', true) => ({ s'.setBatch s.closures .planned with closures := s.closures + 1 }, some s.closures)
  | (s', false) => (s', none)

/-- A compare-exchange that finds the expected state writes the new one. -/
theorem changeState_pos {ι : Type*} {s : Strand ι T} {old new : State} (h : s.state = old) :
    changeState s old new = ({ s with state := new }, true) :=
  if_pos h

/-- A compare-exchange that finds another state changes nothing. -/
theorem changeState_neg {ι : Type*} {s : Strand ι T} {old new : State} (h : s.state ≠ old) :
    changeState s old new = (s, false) :=
  if_neg h

/-- Planning from the expected state adds one closure. -/
theorem planTask_pos {ι : Type*} {s : Strand ι T} {old : State} (h : s.state = old) :
    planTask s old = ({ s with
      state := .plan, batch := Function.update s.batch s.closures .planned,
      closures := s.closures + 1 }, some s.closures) := by
  rw [planTask,changeState_pos h]
  rfl

/-- Planning from any other state changes nothing. -/
theorem planTask_neg {ι : Type*} {s : Strand ι T} {old : State} (h : s.state ≠ old) :
    planTask s old = (s, none) := by
  rw [planTask,changeState_neg h]

/-- Submit: push and plan inside one section of the spinlock. -/
def submitStep (s : Strand ι T) (i : ι) : Option (Strand ι T) :=
  match s.submit i with
  | .idle => none
  | .locking task =>
    if s.spinlock then none
    else some ({ s with
      spinlock := true, tasks := s.tasks ++ [task], pushed := s.pushed ++ [task] }.setSubmit i
        .planning)
  | .planning =>
    match planTask s .ready with
    | (s', some c) => some (s'.setSubmit i (.submitting c))
    | (s', none) => some (s'.setSubmit i .unlocking)
  | .submitting c => some ((s.setBatch c .pending).setSubmit i .unlocking)
  | .unlocking => some ({ s with spinlock := false }.setSubmit i .idle)

/-- RunBatch: each assert is an explicit branch to the aborted point. -/
def batchStep {ι : Type*} (s : Strand ι T) (c : ℕ) : Option (Strand ι T) :=
  match s.batch c with
  | .absent | .planned | .pending | .finished | .aborted => none
  | .started =>
    match changeState s .plan .running with
    | (s', true) => some (s'.setBatch c .swapping)
    | (s', false) => some (s'.setBatch c .aborted)
  | .swapping =>
    if s.spinlock then none
    else if s.tasks = [] then some (s.setBatch c .aborted)
    else some ({ s with tasks := [] }.setBatch c (.draining s.tasks))
  | .draining (task :: rest) =>
    some ({ s with ran := s.ran ++ [task] }.setBatch c (.executing task rest))
  | .executing _ rest => some (s.setBatch c (.draining rest))
  | .draining [] =>
    if s.spinlock then none
    else if s.tasks = [] then some (s.setBatch c .closing)
    else some (s.setBatch c .replanning)
  | .closing =>
    match changeState s .running .ready with
    | (s', true) => some (s'.setBatch c .finished)
    | (s', false) => some (s'.setBatch c .aborted)
  | .replanning =>
    match planTask s .running with
    | (s', some c') => some (s'.setBatch c (.resubmitting c'))
    | (s', none) => some (s'.setBatch c .finished)
  | .resubmitting c' => some ((s.setBatch c' .pending).setBatch c .finished)

/-- One scheduled step of the strand. -/
def step (s : Strand ι T) : Action ι T → Option (Strand ι T)
  | .call i task =>
    match s.submit i with
    | .idle => some (s.setSubmit i (.locking task))
    | _ => none
  | .submit i => submitStep s i
  | .launch c =>
    match s.batch c with
    | .pending => some (s.setBatch c .started)
    | _ => none
  | .batch c => batchStep s c

/-- A new strand: READY, empty, with no call in progress. -/
def initial (ι T : Type*) : Strand ι T :=
  ⟨false, [], .ready, fun _ => .idle, fun _ => .absent, 0, [], []⟩

/-- The strand as a transition system. -/
def strand (ι T : Type*) [DecidableEq ι] : System (Strand ι T) (Action ι T) :=
  ⟨initial ι T, step⟩

/-- The single plan of a strand: who carries it towards the executor, or
which closure carries it out. It is a fact about a state, not a field. -/
inductive Token (ι : Type*) where
  /-- Nothing is planned. -/
  | unplanned
  /-- A client thread is about to hand over the closure. -/
  | submitter (i : ι) (c : ℕ)
  /-- An ending RunBatch is about to hand over the closure. -/
  | replanner (d c : ℕ)
  /-- The executor holds the closure. -/
  | pending (c : ℕ)
  /-- The closure has started and not changed the state. -/
  | started (c : ℕ)
  /-- The closure is between its state changes. -/
  | running (c : ℕ)

/-- The state the strand has while the plan is there. -/
@[grind =]
def Token.state {ι : Type*} : Token ι → State
  | .unplanned => .ready
  | .submitter _ _ | .replanner _ _ | .pending _ | .started _ => .plan
  | .running _ => .running

/-- The closure that a SubmitInternal is about to hand over. -/
@[grind =]
def Token.carried {ι : Type*} : Token ι → Option ℕ
  | .submitter _ c | .replanner _ c => some c
  | _ => none

/-- Only an unplanned strand is READY. -/
theorem Token.state_ready {ι : Type*} {tok : Token ι} (h : tok.state = .ready) :
    tok = .unplanned := by
  cases tok <;> simp_all [Token.state]

/-- Only a running closure makes the strand RUNNING. -/
theorem Token.state_running {ι : Type*} {tok : Token ι} (h : tok.state = .running) :
    ∃ c, tok = .running c := by
  cases tok <;> simp_all [Token.state]

/-- The state of a strand explained by the thread that owns the spinlock and
by the place of the one plan. Every program point is tied to the two. -/
structure Explained {ι : Type*} (s : Strand ι T) (owner : Option ι) (tok : Token ι) : Prop where
  lock : s.spinlock = owner.isSome
  state : s.state = tok.state
  owns : ∀ i, (s.submit i).inSection = true ↔ owner = some i
  submitting : ∀ i c, s.submit i = .submitting c ↔ tok = .submitter i c
  resubmitting : ∀ d c, s.batch d = .resubmitting c ↔ tok = .replanner d c
  absent : ∀ c, s.closures ≤ c → s.batch c = .absent
  planned : ∀ c, s.batch c = .planned ↔ tok.carried = some c
  pending : ∀ c, s.batch c = .pending ↔ tok = .pending c
  started : ∀ c, s.batch c = .started ↔ tok = .started c
  running : ∀ c, (s.batch c).isRunning = true ↔ tok = .running c
  noAbort : ∀ c, s.batch c ≠ .aborted
  planTasks : s.state = .plan → s.tasks ≠ []
  pushTasks : ∀ i, s.submit i = .planning → s.tasks ≠ []
  swapTasks : ∀ c, s.batch c = .swapping → s.tasks ≠ []
  replanTasks : ∀ c, s.batch c = .replanning → s.tasks ≠ []
  fifoRunning : ∀ c, tok = .running c → s.pushed = s.ran ++ (s.batch c).scheduled ++ s.tasks
  fifoWaiting : s.state ≠ .running → s.pushed = s.ran ++ s.tasks

/-- A new strand is explained by a free lock and no plan. -/
theorem explained_initial {ι : Type*} : Explained (initial ι T) none .unplanned := by
  constructor <;> simp [initial,Token.state,Token.carried,SubmitPc.inSection,BatchPc.isRunning]

/-- Entering Submit changes no shared field. -/
theorem explained_call {s s' : Strand ι T} {i : ι} {task : T} {owner : Option ι} {tok : Token ι}
    (h : Explained s owner tok) (hs : step s (.call i task) = some s') :
    Explained s' owner tok := by
  simp only [step] at hs
  split at hs <;> cases hs
  rcases h with ⟨⟩
  constructor <;> simp only [Strand.setSubmit,Function.update_apply] <;> first | assumption | grind

/-- Starting a closure moves the plan from the executor to the closure. -/
theorem explained_launch {s s' : Strand ι T} {c : ℕ} {owner : Option ι} {tok : Token ι}
    (h : Explained s owner tok) (hs : step s (.launch c) = some s') :
    Explained s' owner (.started c) := by
  simp only [step] at hs
  split at hs <;> cases hs
  rename_i hpc
  have htok := (h.pending c).mp hpc
  rcases h with ⟨⟩
  constructor <;> simp only [Strand.setBatch,Function.update_apply] <;> first | assumption | grind

/-- A step of Submit keeps the strand explained. A successful compare-exchange
creates the plan; SubmitInternal moves it to the executor. -/
theorem explained_submit {s s' : Strand ι T} {i : ι} {owner : Option ι} {tok : Token ι}
    (h : Explained s owner tok) (hs : submitStep s i = some s') :
    ∃ owner' tok', Explained s' owner' tok' := by
  unfold submitStep at hs
  split at hs
  next => cases hs
  next task hpc =>
    split at hs <;> cases hs
    have hne : s.tasks ++ [task] ≠ [] := by simp
    refine ⟨some i,tok,?_⟩
    rcases h with ⟨⟩
    constructor <;> simp only [Strand.setSubmit,Function.update_apply] <;> first
      | assumption | grind
  next hpc =>
    have hne := h.pushTasks i hpc
    by_cases hst : s.state = .ready
    · rw [planTask_pos hst] at hs
      cases hs
      have htok := Token.state_ready (h.state.symm.trans hst)
      refine ⟨owner,.submitter i s.closures,?_⟩
      rcases h with ⟨⟩
      constructor <;> simp only [Strand.setSubmit,Function.update_apply] <;>
        first | assumption | grind
    · rw [planTask_neg hst] at hs
      cases hs
      refine ⟨owner,tok,?_⟩
      rcases h with ⟨⟩
      constructor <;> simp only [Strand.setSubmit,Function.update_apply] <;>
        first | assumption | grind
  next c hpc =>
    cases hs
    have htok := (h.submitting i c).mp hpc
    refine ⟨owner,.pending c,?_⟩
    rcases h with ⟨⟩
    constructor <;> simp only [Strand.setSubmit,Strand.setBatch,Function.update_apply] <;>
      first | assumption | grind
  next hpc =>
    cases hs
    refine ⟨none,tok,?_⟩
    rcases h with ⟨⟩
    constructor <;> simp only [Strand.setSubmit,Function.update_apply] <;> first
      | assumption | grind

/-- What one step of RunBatch does on an explained strand. The three branches
on which an assert fails are not among them. -/
inductive BatchEffect {ι : Type*} (s : Strand ι T) (c : ℕ) : Strand ι T → Prop
  | run (hpc : s.batch c = .started) (hst : s.state = .plan) :
      BatchEffect s c ({ s with state := .running }.setBatch c .swapping)
  | swap (hpc : s.batch c = .swapping) (hfree : s.spinlock = false) (hne : s.tasks ≠ []) :
      BatchEffect s c ({ s with tasks := [] }.setBatch c (.draining s.tasks))
  | enter (task : T) (rest : List T) (hpc : s.batch c = .draining (task :: rest)) :
      BatchEffect s c ({ s with ran := s.ran ++ [task] }.setBatch c (.executing task rest))
  | leave (task : T) (rest : List T) (hpc : s.batch c = .executing task rest) :
      BatchEffect s c (s.setBatch c (.draining rest))
  | findEmpty (hpc : s.batch c = .draining []) (hfree : s.spinlock = false) (he : s.tasks = []) :
      BatchEffect s c (s.setBatch c .closing)
  | findTasks (hpc : s.batch c = .draining []) (hfree : s.spinlock = false) (hne : s.tasks ≠ []) :
      BatchEffect s c (s.setBatch c .replanning)
  | close (hpc : s.batch c = .closing) (hst : s.state = .running) :
      BatchEffect s c ({ s with state := .ready }.setBatch c .finished)
  | replan (hpc : s.batch c = .replanning) (hst : s.state = .running) :
      BatchEffect s c ({ s with
        state := .plan, batch := Function.update s.batch s.closures .planned,
        closures := s.closures + 1 }.setBatch c (.resubmitting s.closures))
  | resubmit (c' : ℕ) (hpc : s.batch c = .resubmitting c') :
      BatchEffect s c ((s.setBatch c' .pending).setBatch c .finished)

/-- An explained RunBatch takes one of the steps above. -/
theorem batchStep_effect {ι : Type*} {s s' : Strand ι T} {c : ℕ} {owner : Option ι}
    {tok : Token ι} (h : Explained s owner tok) (hs : batchStep s c = some s') :
    BatchEffect s c s' := by
  have hrun : (s.batch c).isRunning = true → s.state = .running := by
    intro hr
    rw [h.state,(h.running c).mp hr]
    rfl
  unfold batchStep at hs
  split at hs
  iterate 5 cases hs
  next hpc =>
    have hst : s.state = .plan := by rw [h.state,(h.started c).mp hpc]; rfl
    rw [changeState_pos hst] at hs
    cases hs
    exact .run hpc hst
  next hpc =>
    have hne := h.swapTasks c hpc
    rw [if_neg hne] at hs
    split at hs <;> cases hs
    exact .swap hpc (by simp_all) hne
  next task rest hpc =>
    cases hs
    exact .enter task rest hpc
  next task rest hpc =>
    cases hs
    exact .leave task rest hpc
  next hpc =>
    split at hs
    · cases hs
    · split at hs <;> cases hs
      · exact .findEmpty hpc (by simp_all) (by assumption)
      · exact .findTasks hpc (by simp_all) (by assumption)
  next hpc =>
    have hst := hrun (by rw [hpc]; rfl)
    rw [changeState_pos hst] at hs
    cases hs
    exact .close hpc hst
  next hpc =>
    have hst := hrun (by rw [hpc]; rfl)
    rw [planTask_pos hst] at hs
    cases hs
    exact .replan hpc hst
  next c' hpc =>
    cases hs
    exact .resubmit c' hpc

/-- A step of RunBatch keeps the strand explained. The first state change, the
last one and the two halves of a new plan move the token. -/
theorem explained_batch {ι : Type*} {s s' : Strand ι T} {c : ℕ} {owner : Option ι}
    {tok : Token ι} (h : Explained s owner tok) (hs : batchStep s c = some s') :
    ∃ tok', Explained s' owner tok' := by
  cases batchStep_effect h hs with
  | run hpc hst =>
    have htok := (h.started c).mp hpc
    have hne := h.planTasks hst
    refine ⟨.running c,?_⟩
    rcases h with ⟨⟩
    constructor <;> simp only [Strand.setBatch,Function.update_apply] <;> first | assumption | grind
  | swap hpc hfree hne =>
    have htok := (h.running c).mp (by rw [hpc]; rfl)
    refine ⟨tok,?_⟩
    rcases h with ⟨⟩
    constructor <;> simp only [Strand.setBatch,Function.update_apply] <;> first | assumption | grind
  | enter task rest hpc | leave task rest hpc | findEmpty hpc _ _ | findTasks hpc _ _ =>
    refine ⟨tok,?_⟩
    rcases h with ⟨⟩
    constructor <;> simp only [Strand.setBatch,Function.update_apply] <;> first | assumption | grind
  | close hpc hst =>
    have htok := (h.running c).mp (by rw [hpc]; rfl)
    refine ⟨.unplanned,?_⟩
    rcases h with ⟨⟩
    constructor <;> simp only [Strand.setBatch,Function.update_apply] <;> first | assumption | grind
  | replan hpc hst =>
    have htok := (h.running c).mp (by rw [hpc]; rfl)
    have hne := h.replanTasks c hpc
    refine ⟨.replanner c s.closures,?_⟩
    rcases h with ⟨⟩
    constructor <;> simp only [Strand.setBatch,Function.update_apply] <;> first | assumption | grind
  | resubmit c' hpc =>
    have htok := (h.resubmitting c c').mp hpc
    refine ⟨.pending c',?_⟩
    rcases h with ⟨⟩
    constructor <;> simp only [Strand.setBatch,Function.update_apply] <;> first | assumption | grind

/-- Every step keeps the strand explained. -/
theorem explained_step {s s' : Strand ι T} {a : Action ι T} {owner : Option ι} {tok : Token ι}
    (h : Explained s owner tok) (hs : step s a = some s') :
    ∃ owner' tok', Explained s' owner' tok' := by
  cases a with
  | call i task => exact ⟨owner,tok,explained_call h hs⟩
  | submit i => exact explained_submit h hs
  | launch c => exact ⟨owner,.started c,explained_launch h hs⟩
  | batch c => exact ⟨owner,explained_batch h hs⟩

/-- Every reachable strand is explained. -/
theorem explained_reachable {s : Strand ι T} (h : (strand ι T).Reachable s) :
    ∃ owner tok, Explained s owner tok := by
  refine System.Reachable.invariant ?_ ?_ h
  · exact ⟨none,.unplanned,explained_initial⟩
  · rintro s a s' ⟨_,_,hi⟩ hs
    exact explained_step hi hs

/-- The strand runs one task at a time, each once, in the order of pushes. -/
structure Serialised {ι : Type*} (s : Strand ι T) : Prop where
  /-- PLAN means that some RunBatch is planned and has not changed the state. -/
  plan_iff : s.state = .plan ↔ ∃ c, (s.batch c).isPlanned = true
  /-- No two RunBatch closures are planned together. -/
  plan_unique : ∀ c d, (s.batch c).isPlanned = true → (s.batch d).isPlanned = true → c = d
  /-- RUNNING means that some RunBatch is between its state changes. -/
  running_iff : s.state = .running ↔ ∃ c, (s.batch c).isRunning = true
  /-- No two RunBatch closures are between their state changes together. -/
  running_unique : ∀ c d, (s.batch c).isRunning = true → (s.batch d).isRunning = true → c = d
  /-- No two tasks are inside Run at the same time. -/
  one_task : ∀ c d task task' rest rest', s.batch c = .executing task rest →
    s.batch d = .executing task' rest' → c = d ∧ task = task'
  /-- Tasks enter Run in the order of their pushes. -/
  run_order : s.ran <+: s.pushed
  /-- A task that was pushed once enters Run at most once. -/
  run_once : s.pushed.Nodup → s.ran.Nodup
  /-- None of the asserts of RunBatch has failed. -/
  asserts_hold : ∀ c, s.batch c ≠ .aborted

/-- An explained closure is planned exactly where the plan says so. -/
theorem Explained.isPlanned_iff {ι : Type*} {s : Strand ι T} {owner : Option ι} {tok : Token ι}
    (h : Explained s owner tok) (c : ℕ) :
    (s.batch c).isPlanned = true ↔
      tok.carried = some c ∨ tok = .pending c ∨ tok = .started c := by
  rw [←h.planned c,←h.pending c,←h.started c]
  cases s.batch c <;> simp [BatchPc.isPlanned]

/-- The pushed tasks are those that entered Run, those of the running batch
and those still in the list, in this order. -/
theorem Explained.ran_isPrefix {ι : Type*} {s : Strand ι T} {owner : Option ι} {tok : Token ι}
    (h : Explained s owner tok) : s.ran <+: s.pushed := by
  by_cases hst : s.state = .running
  · obtain ⟨c,hc⟩ := Token.state_running (h.state.symm.trans hst)
    rw [h.fifoRunning c hc,List.append_assoc]
    exact List.prefix_append _ _
  · rw [h.fifoWaiting hst]
    exact List.prefix_append _ _

/-- In every interleaving of Submit calls and RunBatch executions the strand
serialises its tasks. -/
theorem strand_serialises {s : Strand ι T} (h : (strand ι T).Reachable s) : Serialised s := by
  obtain ⟨owner,tok,hx⟩ := explained_reachable h
  have hrun : ∀ c d, (s.batch c).isRunning = true → (s.batch d).isRunning = true → c = d := by
    intro c d hc hd
    have he := ((hx.running c).mp hc).symm.trans ((hx.running d).mp hd)
    cases he
    rfl
  refine ⟨?_,?_,?_,hrun,?_,hx.ran_isPrefix,?_,hx.noAbort⟩
  · rw [hx.state]
    constructor
    · intro hst
      cases tok with
      | unplanned => cases hst
      | running c => cases hst
      | submitter i c => exact ⟨c,(hx.isPlanned_iff c).mpr (Or.inl rfl)⟩
      | replanner d c => exact ⟨c,(hx.isPlanned_iff c).mpr (Or.inl rfl)⟩
      | pending c => exact ⟨c,(hx.isPlanned_iff c).mpr (Or.inr (Or.inl rfl))⟩
      | started c => exact ⟨c,(hx.isPlanned_iff c).mpr (Or.inr (Or.inr rfl))⟩
    · rintro ⟨c,hc⟩
      rw [hx.isPlanned_iff] at hc
      cases tok <;> simp_all [Token.state,Token.carried]
  · intro c d hc hd
    rw [hx.isPlanned_iff] at hc hd
    cases tok <;> simp_all [Token.carried]
  · rw [hx.state]
    constructor
    · intro hst
      obtain ⟨c,rfl⟩ := Token.state_running hst
      exact ⟨c,(hx.running c).mpr rfl⟩
    · rintro ⟨c,hc⟩
      rw [(hx.running c).mp hc]
      rfl
  · intro c d task task' rest rest' hc hd
    have he := hrun c d (by rw [hc]; rfl) (by rw [hd]; rfl)
    subst he
    rw [hc] at hd
    cases hd
    exact ⟨rfl,rfl⟩
  · exact fun hn => hn.sublist hx.ran_isPrefix.sublist

/-- Two clients: the task of the first is running and the task of the second
waits in the list. -/
theorem strand_serialises_two_clients :
    ∃ s, (strand (Fin 2) ℕ).Reachable s ∧ s.batch 0 = .executing 7 [] ∧ s.tasks = [8] ∧
      s.ran = [7] ∧ Serialised s := by
  have hrun : (strand (Fin 2) ℕ).Ends (initial (Fin 2) ℕ)
      [.call 0 7,.submit 0,.submit 0,.submit 0,.submit 0,.launch 0,.batch 0,.batch 0,.batch 0,
        .call 1 8,.submit 1]
      fun s => s.batch 0 = .executing 7 [] ∧ s.tasks = [8] ∧ s.ran = [7] := by decide
  obtain ⟨s,hr,hb,ht,hran⟩ := hrun.reachable
  exact ⟨s,hr,hb,ht,hran,strand_serialises hr⟩

/-- No call of Submit and no RunBatch is in progress. -/
def Quiescent {ι : Type*} (s : Strand ι T) : Prop :=
  (∀ i, s.submit i = .idle) ∧ ∀ c, (s.batch c).inProgress = false

/-- A strand at rest with accepted tasks is planned, with one closure in the
underlying executor. -/
def NothingStranded {ι : Type*} (s : Strand ι T) : Prop :=
  Quiescent s → s.tasks ≠ [] → s.state = .plan ∧ ∃! c, s.batch c = .pending

/-- The compare-exchange of Submit is not taken while some RunBatch has found
the list empty and not yet changed the state from RUNNING to READY. -/
def OutsideWindow {ι : Type*} (s : Strand ι T) : Action ι T → Prop
  | .submit i => s.submit i = .planning → ∀ c, s.batch c ≠ .closing
  | _ => True

/-- What a strand whose Submit calls keep outside the window adds: an
unplanned or closing strand has an empty list, unless a Submit has pushed and
is about to plan. -/
structure Covered {ι : Type*} (s : Strand ι T) : Prop where
  ready : s.state = .ready → s.tasks = [] ∨ ∃ i, s.submit i = .planning
  closing : ∀ c, s.batch c = .closing → s.tasks = [] ∨ ∃ i, s.submit i = .planning

/-- A step of Submit outside the window keeps the list covered: a failed
compare-exchange leaves a plan or a running batch that has not closed. -/
theorem covered_submit {s s' : Strand ι T} {i : ι} (h : Covered s)
    (ha : OutsideWindow s (.submit i)) (hs : submitStep s i = some s') : Covered s' := by
  obtain ⟨hready,hclosing⟩ := h
  unfold submitStep at hs
  split at hs
  next => cases hs
  next task hpc =>
    split at hs <;> cases hs
    have hi : Function.update s.submit i .planning i = .planning := Function.update_self ..
    exact ⟨fun _ => Or.inr ⟨i,hi⟩,fun _ _ => Or.inr ⟨i,hi⟩⟩
  next hpc =>
    have hno := ha hpc
    by_cases hst : s.state = .ready
    · rw [planTask_pos hst] at hs
      cases hs
      constructor <;> simp only [Strand.setSubmit,Function.update_apply] <;> grind
    · rw [planTask_neg hst] at hs
      cases hs
      exact ⟨fun hr => absurd hr hst,fun c hc => absurd hc (hno c)⟩
  next c hpc =>
    cases hs
    constructor <;> simp only [Strand.setSubmit,Strand.setBatch,Function.update_apply] <;> grind
  next hpc =>
    cases hs
    constructor <;> simp only [Strand.setSubmit,Function.update_apply] <;> grind

/-- A step of RunBatch keeps the list covered: it closes only on an empty
list, and becomes READY only where it had closed. -/
theorem covered_batch {ι : Type*} {s s' : Strand ι T} {c : ℕ} (h : Covered s)
    (he : BatchEffect s c s') : Covered s' := by
  obtain ⟨hready,hclosing⟩ := h
  cases he with
  | run | swap | enter | leave | findEmpty | findTasks | close | replan | resubmit =>
    constructor <;> simp only [Strand.setBatch,Function.update_apply] <;> grind

/-- Every step outside the window keeps the list covered. -/
theorem covered_step {s s' : Strand ι T} {a : Action ι T} {owner : Option ι} {tok : Token ι}
    (hx : Explained s owner tok) (h : Covered s) (ha : OutsideWindow s a)
    (hs : step s a = some s') : Covered s' := by
  cases a with
  | submit i => exact covered_submit h ha hs
  | batch c => exact covered_batch h (batchStep_effect hx hs)
  | call i task =>
    obtain ⟨hready,hclosing⟩ := h
    simp only [step] at hs
    split at hs <;> cases hs
    constructor <;> simp only [Strand.setSubmit,Function.update_apply] <;> grind
  | launch c =>
    obtain ⟨hready,hclosing⟩ := h
    simp only [step] at hs
    split at hs <;> cases hs
    constructor <;> simp only [Strand.setBatch,Function.update_apply] <;> grind

/-- In every run whose Submit calls keep their compare-exchange outside the
window of RunBatch, no task is stranded. -/
theorem nothing_stranded {s : Strand ι T} (h : (strand ι T).ReachableUnder OutsideWindow s) :
    NothingStranded s := by
  have hcov : Covered s := by
    refine h.invariant ⟨fun _ => Or.inl rfl,fun _ _ => Or.inl rfl⟩ ?_
    intro s a s' hr hc ha hs
    obtain ⟨owner,tok,hx⟩ := explained_reachable hr.reachable
    exact covered_step hx hc ha hs
  obtain ⟨owner,tok,hx⟩ := explained_reachable h.reachable
  rintro ⟨hidle,hprogress⟩ htasks
  cases tok with
  | unplanned =>
    rcases hcov.ready hx.state with he | ⟨i,hi⟩
    · exact absurd he htasks
    · rw [hidle i] at hi
      cases hi
  | submitter i c =>
    have hi := (hx.submitting i c).mpr rfl
    rw [hidle i] at hi
    cases hi
  | replanner d c =>
    have hd := hprogress d
    rw [(hx.resubmitting d c).mpr rfl] at hd
    cases hd
  | started c =>
    have hc := hprogress c
    rw [(hx.started c).mpr rfl] at hc
    cases hc
  | running c =>
    have hc := hprogress c
    have hr := (hx.running c).mpr rfl
    cases hb : s.batch c <;> simp_all [BatchPc.inProgress,BatchPc.isRunning]
  | pending c =>
    refine ⟨hx.state,c,(hx.pending c).mpr rfl,?_⟩
    intro d hd
    have he := (hx.pending d).mp hd
    cases he
    rfl

/-- A Submit that is accepted and planned leaves one pending closure. -/
theorem nothing_stranded_after_submit :
    ∃ s, (strand (Fin 2) ℕ).ReachableUnder OutsideWindow s ∧ s.tasks = [7] ∧
      (∀ i, s.submit i = .idle) ∧ NothingStranded s := by
  have hrun : (strand (Fin 2) ℕ).Ends (initial (Fin 2) ℕ)
      [.call 0 7,.submit 0,.submit 0,.submit 0,.submit 0]
      fun s => s.tasks = [7] ∧ ∀ i, s.submit i = .idle := by decide
  have hmeets : (strand (Fin 2) ℕ).Meets OutsideWindow (initial (Fin 2) ℕ)
      [.call 0 7,.submit 0,.submit 0,.submit 0,.submit 0] :=
    ⟨trivial,fun h => absurd h (by decide),fun _ _ => (by rintro ⟨⟩),fun h => absurd h (by decide),
      fun h => absurd h (by decide),trivial⟩
  obtain ⟨s,hr,htasks,hidle⟩ := hrun.reachableUnder hmeets
  exact ⟨s,hr,htasks,hidle,nothing_stranded hr⟩

/-- A second Submit falls into the window of the first RunBatch: the strand
rests in READY with the task 8 in its list and no closure anywhere. -/
theorem task_stranded : ¬ ∀ s, (strand (Fin 2) ℕ).Reachable s → NothingStranded s := by
  intro hall
  have hrun : (strand (Fin 2) ℕ).Ends (initial (Fin 2) ℕ)
      [.call 0 7,.submit 0,.submit 0,.submit 0,.submit 0,.launch 0,.batch 0,.batch 0,.batch 0,
        .batch 0,.batch 0,.call 1 8,.submit 1,.submit 1,.submit 1,.batch 0]
      fun s => (∀ i, s.submit i = .idle) ∧ s.batch 0 = .finished ∧ s.closures = 1 ∧
        s.tasks = [8] ∧ s.state = .ready := by decide
  obtain ⟨s,hr,hidle,hb,hcl,htasks,hst⟩ := hrun.reachable
  obtain ⟨owner,tok,hx⟩ := explained_reachable hr
  have hq : Quiescent s := by
    refine ⟨hidle,fun c => ?_⟩
    rcases Nat.eq_zero_or_pos c with rfl | hc
    · rw [hb]
      rfl
    · rw [hx.absent c (by omega)]
      rfl
  have hp := (hall s hr hq (by simp [htasks])).1
  rw [hst] at hp
  cases hp

/-- The condition leaves out nothing harmless: a Submit that meets a closing
RunBatch, with nobody else at work, leaves its task stranded. -/
theorem window_strands {s : Strand ι T} {i : ι} {c : ℕ} (h : (strand ι T).Reachable s)
    (hi : s.submit i = .planning) (hc : s.batch c = .closing)
    (hothers : ∀ j, j ≠ i → s.submit j = .idle)
    (hbatches : ∀ d, d ≠ c → (s.batch d).inProgress = false) :
    ∃ s', (strand ι T).run s [.submit i,.submit i,.batch c] = some s' ∧ ¬ NothingStranded s' := by
  obtain ⟨owner,tok,hx⟩ := explained_reachable h
  have htok := (hx.running c).mp (by rw [hc]; rfl)
  have hst : s.state = .running := by rw [hx.state,htok]; rfl
  have hfail : s.state ≠ .ready := by rw [hst]; decide
  have hne := hx.pushTasks i hi
  refine ⟨{ s with
    spinlock := false, state := .ready,
    submit := Function.update (Function.update s.submit i .unlocking) i .idle,
    batch := Function.update s.batch c .finished },?_,?_⟩
  · simp [System.run,strand,step,submitStep,batchStep,hi,hc,planTask_neg hfail,Strand.setSubmit,
      changeState,hst,Strand.setBatch]
  · intro hn
    refine absurd (hn ⟨fun j => ?_,fun d => ?_⟩ hne).1 (by simp)
    · by_cases hj : j = i <;> simp [hj,hothers]
    · by_cases hd : d = c
      · simp [hd,BatchPc.inProgress]
      · simpa [hd] using hbatches d hd

end ConcurrencyRuntime.IntrusiveStrand
