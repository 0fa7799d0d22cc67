import ConcurrencyRuntime.DistributedPool
import ConcurrencyRuntime.ExclusivePlaces

/-!
# The custody of tasks

What the distributed pool does to its tasks, without the semaphores, flags and
loops around it: who has a task in its hands, which of the two queues it goes
to, and how far it has come. Each move of the custody is one step of the pool
that touches a task.
-/

namespace ConcurrencyRuntime.DistributedTasks

open DistributedPool ExclusivePlaces

/-- Who performs a Submit or a Push. -/
inductive Caller (n : ℕ) (O : Type*) where
  /-- The task that runs on a worker. -/
  | task (w : Fin n)
  /-- The loop of a worker. -/
  | process (w : Fin n)
  /-- A thread outside of the pool. -/
  | outside (o : O)
  deriving DecidableEq

/-- What the loop of a worker does with a task of its queue. -/
inductive Phase (K : Type*) where
  /-- It has none. -/
  | idle
  /-- Before SetWorker. -/
  | popped (task : K)
  /-- Before Run. -/
  | entering (task : K)
  /-- In Run. -/
  | running (task : K) (stage : Stage)
  /-- In Run, the routine of the fiber has returned. -/
  | completing (task : K)
  /-- Before RemoveTask. -/
  | removing (task : K)
  deriving DecidableEq

/-- The tasks and those who have them. -/
structure Custody (n : ℕ) (K O : Type*) where
  /-- The number of tasks that is kept. -/
  countTasks : ℕ
  /-- The global queue. -/
  globalTasks : List K
  /-- The queue of each worker. -/
  localTasks : Fin n → List K
  /-- The parked fibers. -/
  parked : List K
  /-- The workers. -/
  phase : Fin n → Phase K
  /-- The calls that still have a task in their hands. -/
  call : Caller n O → Option (SubmitPc n K)
  /-- The state of each task. -/
  state : K → StateTask
  /-- The worker of each task. -/
  taskWorker : K → Option (Fin n)
  /-- How far each task has come. -/
  life : K → Life
  /-- The workers that entered Run of the task. -/
  runs : K → List (Fin n)
  /-- The task in whose Run the task was constructed. -/
  spawnedBy : K → Option K
  /-- ProgressState has thrown. -/
  thrown : Bool

/-- Where a task can be. -/
inductive Place (n : ℕ) (O : Type*) where
  /-- In the global queue. -/
  | globalTasks
  /-- In the queue of a worker. -/
  | localTasks (w : Fin n)
  /-- In the hands of an iteration of Process, up to the point where its
  AwaitSuspend enqueues or parks it. -/
  | process (w : Fin n)
  /-- In the hands of a Submit or a Push. -/
  | call (a : Caller n O)
  /-- Parked. -/
  | parked
  deriving DecidableEq

/-- The task that a worker has in its hands. -/
def Phase.hand {K : Type*} : Phase K → List K
  | .idle | .running _ .handedOver => []
  | .popped task | .entering task | .running task .executing | .completing task
  | .removing task => [task]

/-- The task that a call has in its hands. -/
def carried {n : ℕ} {K : Type*} : Option (SubmitPc n K) → List K
  | some (.state task) | some (.add task) | some (.progress task) | some (.route task)
  | some (.global task) | some (.enqueue _ task) => [task]
  | some (.reset _) | some (.wakeUp _) | some (.release _) | none => []

/-- The tasks at each place. -/
def Custody.holding {n : ℕ} {K O : Type*} (c : Custody n K O) : Place n O → List K
  | .globalTasks => c.globalTasks
  | .localTasks w => c.localTasks w
  | .process w => (c.phase w).hand
  | .call a => carried (c.call a)
  | .parked => c.parked

variable {n : ℕ} {K O : Type*} [DecidableEq K] [DecidableEq O]

/-- A call goes on. -/
def Custody.turn (c : Custody n K O) (a : Caller n O) (pc : Option (SubmitPc n K)) :
    Custody n K O :=
  { c with call := Function.update c.call a pc }

/-- A worker goes on. -/
def Custody.goto (c : Custody n K O) (w : Fin n) (phase : Phase K) : Custody n K O :=
  { c with phase := Function.update c.phase w phase }

/-- A task comes further. -/
def Custody.setLife (c : Custody n K O) (task : K) (life : Life) : Custody n K O :=
  { c with life := Function.update c.life task life }

/-- ProgressState of a task. -/
def Custody.progressState (c : Custody n K O) (task : K) : Custody n K O :=
  match c.state task with
  | .planned => { c with state := Function.update c.state task .running }
  | .running => { c with state := Function.update c.state task .finished }
  | .finished => { c with thrown := true }

/-- SetWorker of a task. -/
def Custody.setWorker (c : Custody n K O) (task : K) (w : Fin n) : Custody n K O :=
  match c.taskWorker task with
  | none => { c with taskWorker := Function.update c.taskWorker task (some w) }
  | some _ => c

/-- The fields of a task change. -/
def Custody.write (c : Custody n K O) (task : K) (life : Life) (state : StateTask)
    (worker : Option (Fin n)) : Custody n K O :=
  { c with
    life := Function.update c.life task life
    state := Function.update c.state task state
    taskWorker := Function.update c.taskWorker task worker }

/-- A new task. -/
def Custody.construct (c : Custody n K O) (task : K) (parent : Option K) : Custody n K O :=
  { c.setLife task .created with
    state := Function.update c.state task .planned
    taskWorker := Function.update c.taskWorker task none
    spawnedBy := Function.update c.spawnedBy task parent }

/-- The steps of the pool that touch a task. -/
inductive Moves (c : Custody n K O) : Custody n K O → Prop
  /-- Submit reads the state of a new task. -/
  | first {a : Caller n O} {task : K} : c.call a = some (.state task) →
      c.state task = .planned → Moves c (c.turn a (some (.add task)))
  /-- Submit reads the state of another task. -/
  | again {a : Caller n O} {task : K} : c.call a = some (.state task) →
      c.state task ≠ .planned → Moves c (c.turn a (some (.route task)))
  /-- AddTask. -/
  | add {a : Caller n O} {task : K} : c.call a = some (.add task) →
      Moves c (({ c with countTasks := c.countTasks + 1 }.setLife task .added).turn a
        (some (.progress task)))
  /-- ProgressState in Submit. -/
  | progress {a : Caller n O} {task : K} : c.call a = some (.progress task) →
      Moves c ((c.progressState task).turn a (some (.route task)))
  /-- Submit finds the worker of the task. -/
  | routeLocal {a : Caller n O} {task : K} {w : Fin n} : c.call a = some (.route task) →
      c.taskWorker task = some w → Moves c (c.turn a (some (.enqueue w task)))
  /-- Submit finds no worker. -/
  | routeGlobal {a : Caller n O} {task : K} : c.call a = some (.route task) →
      c.taskWorker task = none → Moves c (c.turn a (some (.global task)))
  /-- A task is pushed to the global queue. -/
  | pushGlobal {a : Caller n O} {task : K} : c.call a = some (.global task) →
      Moves c ({ c with globalTasks := c.globalTasks ++ [task] }.turn a none)
  /-- A task is pushed to the queue of a worker. -/
  | pushLocal {a : Caller n O} {task : K} {w : Fin n} : c.call a = some (.enqueue w task) →
      Moves c ({ c with
        localTasks := Function.update c.localTasks w (c.localTasks w ++ [task]) }.turn a none)
  /-- A running task constructs a task. -/
  | spawn {w : Fin n} {parent task : K} {stage : Stage} : c.phase w = .running parent stage →
      c.call (.task w) = none → c.life task = .absent →
      Moves c ((c.construct task (some parent)).turn (.task w) (some (.state task)))
  /-- A parked fiber is scheduled. -/
  | wake {a : Caller n O} {task : K} : c.call a = none → task ∈ c.parked →
      Moves c ({ c with parked := c.parked.erase task }.turn a (some (.state task)))
  /-- A worker takes a task of its queue. -/
  | popLocal {w : Fin n} {task : K} {rest : List K} : c.phase w = .idle →
      c.localTasks w = task :: rest →
      Moves c ({ c with localTasks := Function.update c.localTasks w rest }.goto w (.popped task))
  /-- A worker takes a task of the global queue. -/
  | popGlobal {w : Fin n} {task : K} {rest : List K} : c.call (.process w) = none →
      c.globalTasks = task :: rest →
      Moves c ({ c with globalTasks := rest }.turn (.process w) (some (.enqueue w task)))
  /-- SetWorker. -/
  | setWorker {w : Fin n} {task : K} : c.phase w = .popped task →
      Moves c ((c.setWorker task w).goto w (.entering task))
  /-- Run is entered. -/
  | enter {w : Fin n} {task : K} : c.phase w = .entering task →
      Moves c ({ c with runs := Function.update c.runs task (c.runs task ++ [w]) }.goto w
        (.running task .executing))
  /-- A fiber submits itself. -/
  | yield {w : Fin n} {task : K} : c.phase w = .running task .executing →
      c.call (.task w) = none →
      Moves c ((c.goto w (.running task .handedOver)).turn (.task w) (some (.state task)))
  /-- A fiber parks. -/
  | park {w : Fin n} {task : K} : c.phase w = .running task .executing → c.call (.task w) = none →
      Moves c ({ c with parked := c.parked ++ [task] }.goto w (.running task .handedOver))
  /-- Run returns after AwaitSuspend. -/
  | leave {w : Fin n} {task : K} : c.phase w = .running task .handedOver →
      c.call (.task w) = none → Moves c (c.goto w .idle)
  /-- The routine of a fiber returns. -/
  | finish {w : Fin n} {task : K} : c.phase w = .running task .executing →
      c.call (.task w) = none → Moves c ((c.setLife task .completed).goto w (.completing task))
  /-- The routine of a free function returns. -/
  | finishFree {w : Fin n} {task : K} : c.phase w = .running task .executing →
      c.call (.task w) = none → Moves c ((c.setLife task .completed).goto w (.removing task))
  /-- ProgressState in Run. -/
  | complete {w : Fin n} {task : K} : c.phase w = .completing task →
      Moves c ((c.progressState task).goto w (.removing task))
  /-- RemoveTask. -/
  | remove {w : Fin n} {task : K} : c.phase w = .removing task →
      Moves c (({ c with countTasks := c.countTasks - 1 }.setLife task .removed).goto w .idle)

/-- A thread outside of the pool constructs a task and calls Submit. -/
structure Enters (c c' : Custody n K O) (o : O) (task : K) : Prop where
  call : c.call (.outside o) = none
  absent : c.life task = .absent
  next : c' = (c.construct task none).turn (.outside o) (some (.state task))

/-- A task is counted and started, and has not completed. -/
def Custody.Ready (c : Custody n K O) (task : K) : Prop :=
  c.life task = .added ∧ c.state task = .running

/-- A task has no worker other than this one. -/
def Custody.Allows (c : Custody n K O) (w : Fin n) (task : K) : Prop :=
  ∀ v, c.taskWorker task = some v → v = w

/-- What is known of the task in the hands of a call. -/
def Custody.CallFits (c : Custody n K O) : SubmitPc n K → Prop
  | .state task => c.life task = .created ∧ c.state task = .planned ∨ c.Ready task
  | .add task => c.life task = .created ∧ c.state task = .planned
  | .progress task => c.life task = .added ∧ c.state task = .planned
  | .route task => c.Ready task
  | .global task => c.Ready task ∧ c.taskWorker task = none
  | .enqueue w task => c.Ready task ∧ c.Allows w task
  | .reset _ | .wakeUp _ | .release _ => True

/-- What is known of the task of a worker. -/
def Custody.PhaseFits (c : Custody n K O) (w : Fin n) : Phase K → Prop
  | .idle => True
  | .popped task => c.Ready task ∧ c.Allows w task
  | .entering task | .running task _ => c.Ready task ∧ c.taskWorker task = some w
  | .completing task =>
    c.life task = .completed ∧ c.state task = .running ∧ c.taskWorker task = some w
  | .removing task => c.life task = .completed ∧ c.taskWorker task = some w

/-- What is known of the tasks at a place. -/
def Custody.Fits (c : Custody n K O) : Place n O → Prop
  | .globalTasks => ∀ task ∈ c.globalTasks, c.Ready task ∧ c.taskWorker task = none
  | .localTasks w => ∀ task ∈ c.localTasks w, c.Ready task ∧ c.Allows w task
  | .process w => c.PhaseFits w (c.phase w)
  | .call a => ∀ pc, c.call a = some pc → c.CallFits pc
  | .parked => ∀ task ∈ c.parked, c.Ready task

/-- A task that was constructed and for which RemoveTask was not executed. -/
def Custody.Held (c : Custody n K O) (task : K) : Prop :=
  c.life task = .created ∨ c.life task = .added ∨ c.life task = .completed

/-- Every task is in one place, but for one that may be on its way, and the
fields of the tasks agree with the places. -/
structure Sound (c : Custody n K O) (way : Option K) : Prop where
  exclusive : Exclusive c.holding
  away : ∀ task, way = some task → ∀ p, task ∉ c.holding p
  held : ∀ task, c.Held task → way = some task ∨ ∃ p, task ∈ c.holding p
  fits : ∀ p, c.Fits p
  unborn : ∀ task, c.life task = .absent → c.runs task = []
  runs : ∀ task w, w ∈ c.runs task → c.taskWorker task = some w
  thrown : c.thrown = false

/-- Two custodies agree on the fields of the tasks. -/
structure Agree (c c' : Custody n K O) : Prop where
  life : c'.life = c.life
  runs : c'.runs = c.runs
  taskWorker : c'.taskWorker = c.taskWorker
  thrown : c'.thrown = c.thrown

variable {c c' : Custody n K O} {p : Place n O} {a : Caller n O} {w : Fin n} {task : K}
  {rest : List K}

omit [DecidableEq K] in
/-- A task is taken away from its place. -/
theorem Sound.lift (h : Sound c none) (hagree : Agree c c') (hp : (c.holding p).Perm (task :: rest))
    (hholding : c'.holding = Function.update c.holding p rest) (hfits : ∀ q, c'.Fits q) :
    Sound c' (some task) := by
  have hsub : rest.Subperm (c.holding p) :=
    (List.sublist_cons_self task rest).subperm.trans hp.symm.subperm
  have hcovers : Covers c.holding c'.holding fun t => some task = some t := by
    rw [hholding]
    exact covers_keep hp rfl
  refine { exclusive := ?_, away := ?_, held := ?_, fits := hfits, unborn := ?_, runs := ?_,
           thrown := ?_ }
  · rw [hholding]
    exact h.exclusive.keep hsub
  · intro t ht q
    cases ht
    rw [hholding]
    exact h.exclusive.gone hp q
  · intro t ht
    rw [Custody.Held,hagree.life] at ht
    obtain ⟨q,hq⟩ := (h.held t ht).resolve_left (by rintro ⟨⟩)
    exact hcovers q t hq
  · rw [hagree.life,hagree.runs]
    exact h.unborn
  · rw [hagree.taskWorker,hagree.runs]
    exact h.runs
  · rw [hagree.thrown]
    exact h.thrown

omit [DecidableEq K] in
/-- A task that is on its way arrives at a place. -/
theorem Sound.drop (h : Sound c (some task)) (hagree : Agree c c')
    (hholding : c'.holding = Function.update c.holding p (c.holding p ++ [task]))
    (hfits : ∀ q, c'.Fits q) : Sound c' none := by
  have hcovers : Covers c.holding c'.holding fun _ => False := by
    rw [hholding]
    exact covers_insert _
  refine { exclusive := ?_, away := (by rintro _ ⟨⟩), held := ?_, fits := hfits, unborn := ?_,
           runs := ?_, thrown := ?_ }
  · rw [hholding]
    exact h.exclusive.insert (h.away task rfl)
  · intro t ht
    rw [Custody.Held,hagree.life] at ht
    refine Or.inr ?_
    rcases h.held t ht with ht | ⟨q,hq⟩
    · cases ht
      refine ⟨p,?_⟩
      rw [hholding,Function.update_self]
      exact List.mem_append_right _ (List.mem_singleton_self task)
    · exact (hcovers q t hq).resolve_left id
  · rw [hagree.life,hagree.runs]
    exact h.unborn
  · rw [hagree.taskWorker,hagree.runs]
    exact h.runs
  · rw [hagree.thrown]
    exact h.thrown

section Setters

omit [DecidableEq K] in
theorem holding_turn (pc : Option (SubmitPc n K)) :
    (c.turn a pc).holding = Function.update c.holding (.call a) (carried pc) := by
  funext q
  cases q with
  | call b => simp [Custody.holding,Custody.turn,Function.update_apply,apply_ite carried]
  | globalTasks | localTasks | process | parked => rfl

omit [DecidableEq K] in
theorem fits_turn {pc : Option (SubmitPc n K)} (h : ∀ q, c.Fits q)
    (hpc : ∀ x, pc = some x → c.CallFits x) (q : Place n O) : (c.turn a pc).Fits q := by
  cases q with
  | call b =>
    intro x hx
    simp only [Custody.turn,Function.update_apply] at hx
    split at hx
    · exact hpc x hx
    · exact h (.call b) x hx
  | globalTasks => exact h .globalTasks
  | localTasks v => exact h (.localTasks v)
  | process v => exact h (.process v)
  | parked => exact h .parked

omit [DecidableEq K] in
theorem holding_goto (phase : Phase K) :
    (c.goto w phase).holding = Function.update c.holding (.process w) phase.hand := by
  funext q
  cases q with
  | process v => simp [Custody.holding,Custody.goto,Function.update_apply,apply_ite Phase.hand]
  | globalTasks | localTasks | call | parked => rfl

omit [DecidableEq K] [DecidableEq O] in
theorem fits_goto {phase : Phase K} (h : ∀ q, c.Fits q) (hphase : c.PhaseFits w phase)
    (q : Place n O) : (c.goto w phase).Fits q := by
  cases q with
  | process v =>
    change c.PhaseFits v (Function.update c.phase w phase v)
    rcases eq_or_ne v w with rfl | hne
    · rw [Function.update_self]
      exact hphase
    · rw [Function.update_of_ne hne]
      exact h (.process v)
  | globalTasks => exact h .globalTasks
  | localTasks v => exact h (.localTasks v)
  | call b => exact h (.call b)
  | parked => exact h .parked

omit [DecidableEq K] in
theorem holding_globalTasks (l : List K) :
    ({ c with globalTasks := l } : Custody n K O).holding =
      Function.update c.holding .globalTasks l := by
  funext q
  cases q with
  | globalTasks | localTasks | process | call | parked => rfl

omit [DecidableEq K] [DecidableEq O] in
theorem fits_globalTasks {l : List K} (h : ∀ q, c.Fits q)
    (hl : ∀ t ∈ l, c.Ready t ∧ c.taskWorker t = none) (q : Place n O) :
    ({ c with globalTasks := l } : Custody n K O).Fits q := by
  cases q with
  | globalTasks => exact hl
  | localTasks v => exact h (.localTasks v)
  | process v => exact h (.process v)
  | call b => exact h (.call b)
  | parked => exact h .parked

omit [DecidableEq K] in
theorem holding_parked (l : List K) :
    ({ c with parked := l } : Custody n K O).holding = Function.update c.holding .parked l := by
  funext q
  cases q with
  | globalTasks | localTasks | process | call | parked => rfl

omit [DecidableEq K] [DecidableEq O] in
theorem fits_parked {l : List K} (h : ∀ q, c.Fits q) (hl : ∀ t ∈ l, c.Ready t) (q : Place n O) :
    ({ c with parked := l } : Custody n K O).Fits q := by
  cases q with
  | parked => exact hl
  | globalTasks => exact h .globalTasks
  | localTasks v => exact h (.localTasks v)
  | process v => exact h (.process v)
  | call b => exact h (.call b)

omit [DecidableEq K] in
theorem holding_localTasks (l : List K) :
    ({ c with localTasks := Function.update c.localTasks w l } : Custody n K O).holding =
      Function.update c.holding (.localTasks w) l := by
  funext q
  cases q with
  | localTasks v => simp [Custody.holding,Function.update_apply]
  | globalTasks | process | call | parked => rfl

omit [DecidableEq K] [DecidableEq O] in
theorem fits_localTasks {l : List K} (h : ∀ q, c.Fits q)
    (hl : ∀ t ∈ l, c.Ready t ∧ c.Allows w t) (q : Place n O) :
    ({ c with localTasks := Function.update c.localTasks w l } : Custody n K O).Fits q := by
  cases q with
  | localTasks v =>
    intro t ht
    simp only [Function.update_apply] at ht
    split at ht
    next hv =>
      subst hv
      exact hl t ht
    next => exact h (.localTasks v) t ht
  | globalTasks => exact h .globalTasks
  | process v => exact h (.process v)
  | call b => exact h (.call b)
  | parked => exact h .parked

end Setters

section Carry

variable {pc : SubmitPc n K} {phase : Phase K}

omit [DecidableEq K] in
/-- A call gives its task away. -/
theorem Sound.fromCall (h : Sound c none) (hcall : c.call a = some pc)
    (hcarried : carried (some pc) = [task]) : Sound (c.turn a none) (some task) := by
  have hp : (c.holding (.call a)).Perm [task] := by
    rw [Custody.holding,hcall,hcarried]
  exact h.lift ⟨rfl,rfl,rfl,rfl⟩ hp (holding_turn none) (fits_turn h.fits (by rintro _ ⟨⟩))

omit [DecidableEq K] in
/-- A call takes the task. -/
theorem Sound.toCall (h : Sound c (some task)) (hcall : c.call a = none)
    (hcarried : carried (some pc) = [task]) (hfits : c.CallFits pc) :
    Sound (c.turn a (some pc)) none := by
  refine h.drop (p := .call a) ⟨rfl,rfl,rfl,rfl⟩ ?_ (fits_turn h.fits ?_)
  · rw [holding_turn,hcarried,Custody.holding,hcall]
    rfl
  · intro x hx
    cases hx
    exact hfits

omit [DecidableEq K] in
/-- A worker gives its task away. -/
theorem Sound.fromPhase (h : Sound c none) (hhand : (c.phase w).hand = [task])
    (hempty : phase.hand = []) (hfits : c.PhaseFits w phase) :
    Sound (c.goto w phase) (some task) := by
  have hp : (c.holding (.process w)).Perm [task] := .of_eq hhand
  refine h.lift ⟨rfl,rfl,rfl,rfl⟩ hp ?_ (fits_goto h.fits hfits)
  rw [holding_goto,hempty]

omit [DecidableEq K] in
/-- A worker takes the task. -/
theorem Sound.toPhase (h : Sound c (some task)) (hempty : (c.phase w).hand = [])
    (hhand : phase.hand = [task]) (hfits : c.PhaseFits w phase) : Sound (c.goto w phase) none := by
  refine h.drop (p := .process w) ⟨rfl,rfl,rfl,rfl⟩ ?_ (fits_goto h.fits hfits)
  rw [holding_goto,hhand,Custody.holding,hempty]
  rfl

omit [DecidableEq K] in
/-- The first task of the global queue is taken. -/
theorem Sound.fromGlobal (h : Sound c none) (hglobal : c.globalTasks = task :: rest) :
    Sound { c with globalTasks := rest } (some task) := by
  refine h.lift (p := .globalTasks) ⟨rfl,rfl,rfl,rfl⟩ (.of_eq hglobal) (holding_globalTasks rest)
    (fits_globalTasks h.fits ?_)
  intro t ht
  refine h.fits .globalTasks t ?_
  rw [hglobal]
  exact List.mem_cons_of_mem task ht

omit [DecidableEq K] in
/-- A task without a worker is appended to the global queue. -/
theorem Sound.toGlobal (h : Sound c (some task)) (hready : c.Ready task)
    (hworker : c.taskWorker task = none) :
    Sound { c with globalTasks := c.globalTasks ++ [task] } none := by
  refine h.drop (p := .globalTasks) ⟨rfl,rfl,rfl,rfl⟩ (holding_globalTasks _)
    (fits_globalTasks h.fits ?_)
  intro t ht
  rcases List.mem_append.mp ht with ht | ht
  · exact h.fits .globalTasks t ht
  · rw [List.mem_singleton.mp ht]
    exact ⟨hready,hworker⟩

omit [DecidableEq K] in
/-- The first task of the queue of a worker is taken. -/
theorem Sound.fromLocal (h : Sound c none) (hlocal : c.localTasks w = task :: rest) :
    Sound { c with localTasks := Function.update c.localTasks w rest } (some task) := by
  refine h.lift (p := .localTasks w) ⟨rfl,rfl,rfl,rfl⟩ (.of_eq hlocal) (holding_localTasks rest)
    (fits_localTasks h.fits ?_)
  intro t ht
  refine h.fits (.localTasks w) t ?_
  rw [hlocal]
  exact List.mem_cons_of_mem task ht

omit [DecidableEq K] in
/-- A task is appended to the queue of a worker that may run it. -/
theorem Sound.toLocal (h : Sound c (some task)) (hready : c.Ready task)
    (hallows : c.Allows w task) :
    Sound { c with localTasks := Function.update c.localTasks w (c.localTasks w ++ [task]) } none := by
  refine h.drop (p := .localTasks w) ⟨rfl,rfl,rfl,rfl⟩ (holding_localTasks _)
    (fits_localTasks h.fits ?_)
  intro t ht
  rcases List.mem_append.mp ht with ht | ht
  · exact h.fits (.localTasks w) t ht
  · rw [List.mem_singleton.mp ht]
    exact ⟨hready,hallows⟩

/-- A parked fiber is taken. -/
theorem Sound.fromParked (h : Sound c none) (hparked : task ∈ c.parked) :
    Sound { c with parked := c.parked.erase task } (some task) := by
  refine h.lift (p := .parked) ⟨rfl,rfl,rfl,rfl⟩ (List.perm_cons_erase hparked) (holding_parked _)
    (fits_parked h.fits ?_)
  intro t ht
  exact h.fits .parked t (List.mem_of_mem_erase ht)

omit [DecidableEq K] in
/-- A fiber is parked. -/
theorem Sound.toParked (h : Sound c (some task)) (hready : c.Ready task) :
    Sound { c with parked := c.parked ++ [task] } none := by
  refine h.drop (p := .parked) ⟨rfl,rfl,rfl,rfl⟩ (holding_parked _) (fits_parked h.fits ?_)
  intro t ht
  rcases List.mem_append.mp ht with ht | ht
  · exact h.fits .parked t ht
  · rw [List.mem_singleton.mp ht]
    exact hready

end Carry

section Write

variable {life : Life} {state : StateTask} {worker : Option (Fin n)}

omit [DecidableEq K] [DecidableEq O] in
/-- A task that somebody has is held. -/
theorem held_of_mem (hfits : ∀ q, c.Fits q) (hmem : task ∈ c.holding p) : c.Held task := by
  have hready : c.Ready task → c.Held task := fun h => Or.inr (Or.inl h.1)
  cases p with
  | globalTasks => exact hready (hfits .globalTasks task hmem).1
  | localTasks v => exact hready (hfits (.localTasks v) task hmem).1
  | parked => exact hready (hfits .parked task hmem)
  | process v =>
    have hphase : c.PhaseFits v (c.phase v) := hfits (.process v)
    rw [Custody.holding] at hmem
    cases hv : c.phase v with
    | idle =>
      rw [hv] at hmem
      cases hmem
    | popped t | entering t =>
      rw [hv] at hmem hphase
      cases List.mem_singleton.mp hmem
      exact hready hphase.1
    | running t stage =>
      rw [hv] at hmem hphase
      cases stage with
      | executing =>
        cases List.mem_singleton.mp hmem
        exact hready hphase.1
      | handedOver => cases hmem
    | completing t | removing t =>
      rw [hv] at hmem hphase
      cases List.mem_singleton.mp hmem
      exact Or.inr (Or.inr hphase.1)
  | call b =>
    rw [Custody.holding] at hmem
    cases hb : c.call b with
    | none =>
      rw [hb] at hmem
      cases hmem
    | some pc =>
      have hcall := hfits (.call b) pc hb
      rw [hb] at hmem
      cases pc with
      | state t =>
        cases List.mem_singleton.mp hmem
        exact hcall.elim (fun h => Or.inl h.1) hready
      | add t =>
        cases List.mem_singleton.mp hmem
        exact Or.inl hcall.1
      | progress t =>
        cases List.mem_singleton.mp hmem
        exact Or.inr (Or.inl hcall.1)
      | route t =>
        cases List.mem_singleton.mp hmem
        exact hready hcall
      | global t | enqueue v t =>
        cases List.mem_singleton.mp hmem
        exact hready hcall.1
      | reset v | wakeUp v | release v => cases hmem

omit [DecidableEq O] in
theorem write_of_ne (c : Custody n K O) (life : Life) (state : StateTask)
    (worker : Option (Fin n)) {t task : K} (hne : t ≠ task) :
    (c.write task life state worker).life t = c.life t ∧
      (c.write task life state worker).state t = c.state t ∧
      (c.write task life state worker).taskWorker t = c.taskWorker t :=
  ⟨Function.update_of_ne hne ..,Function.update_of_ne hne ..,Function.update_of_ne hne ..⟩

omit [DecidableEq O] in
theorem callFits_write {pc : SubmitPc n K} (h : c.CallFits pc) (hne : task ∉ carried (some pc)) :
    (c.write task life state worker).CallFits pc := by
  have hagree := fun t ht => @write_of_ne n K O _ c life state worker t task ht
  cases pc with
  | state t | add t | progress t | route t | global t | enqueue v t =>
    obtain ⟨hlife,hstate,hworker⟩ := hagree t (Ne.symm (List.ne_of_not_mem_cons hne))
    simpa only [Custody.CallFits,Custody.Ready,Custody.Allows,hlife,hstate,hworker] using h
  | reset v | wakeUp v | release v => trivial

omit [DecidableEq O] in
theorem phaseFits_write {phase : Phase K} (h : c.PhaseFits w phase) (hne : task ∉ phase.hand)
    (hrun : ∀ stage, phase ≠ .running task stage) :
    (c.write task life state worker).PhaseFits w phase := by
  have hagree := fun t ht => @write_of_ne n K O _ c life state worker t task ht
  cases phase with
  | idle => trivial
  | popped t | entering t | completing t | removing t =>
    obtain ⟨hlife,hstate,hworker⟩ := hagree t (Ne.symm (List.ne_of_not_mem_cons hne))
    simpa only [Custody.PhaseFits,Custody.Ready,Custody.Allows,hlife,hstate,hworker] using h
  | running t stage =>
    have ht : t ≠ task := fun he => hrun stage (he ▸ rfl)
    obtain ⟨hlife,hstate,hworker⟩ := hagree t ht
    simpa only [Custody.PhaseFits,Custody.Ready,Custody.Allows,hlife,hstate,hworker] using h

omit [DecidableEq O] in
/-- Nobody notices what happens to a task that nobody has. -/
theorem fits_write (h : ∀ q, c.Fits q) (haway : ∀ q, task ∉ c.holding q)
    (hrun : ∀ v stage, c.phase v ≠ .running task stage) (q : Place n O) :
    (c.write task life state worker).Fits q := by
  have hagree := fun t ht => @write_of_ne n K O _ c life state worker t task ht
  have hne : ∀ t, t ∈ c.holding q → t ≠ task := fun t ht he => haway q (he ▸ ht)
  cases q with
  | globalTasks =>
    intro t ht
    obtain ⟨hlife,hstate,hworker⟩ := hagree t (hne t ht)
    simpa only [Custody.Ready,hlife,hstate,hworker] using h .globalTasks t ht
  | localTasks v =>
    intro t ht
    obtain ⟨hlife,hstate,hworker⟩ := hagree t (hne t ht)
    simpa only [Custody.Ready,Custody.Allows,hlife,hstate,hworker] using h (.localTasks v) t ht
  | parked =>
    intro t ht
    obtain ⟨hlife,hstate,-⟩ := hagree t (hne t ht)
    simpa only [Custody.Ready,hlife,hstate] using h .parked t ht
  | process v => exact phaseFits_write (h (.process v)) (haway (.process v)) (hrun v)
  | call b =>
    intro pc hpc
    refine callFits_write (h (.call b) pc hpc) ?_
    have hcall : c.call b = some pc := hpc
    rw [←hcall]
    exact haway (.call b)

omit [DecidableEq O] in
/-- The fields of a task change while it is on its way. -/
theorem Sound.write (h : Sound c (some task)) (hrun : ∀ v stage, c.phase v ≠ .running task stage)
    (hlife : life = .absent → c.runs task = []) (hruns : ∀ v ∈ c.runs task, worker = some v) :
    Sound (c.write task life state worker) (some task) := by
  refine { exclusive := h.exclusive, away := h.away, held := ?_,
           fits := fits_write h.fits (h.away task rfl) hrun, unborn := ?_, runs := ?_,
           thrown := h.thrown }
  · intro t ht
    rcases eq_or_ne t task with rfl | hne
    · exact Or.inl rfl
    · rw [Custody.Held,(write_of_ne c life state worker hne).1] at ht
      exact h.held t ht
  · intro t ht
    rcases eq_or_ne t task with rfl | hne
    · exact hlife ((Function.update_self ..).symm.trans ht)
    · rw [(write_of_ne c life state worker hne).1] at ht
      exact h.unborn t ht
  · intro t v hv
    rcases eq_or_ne t task with rfl | hne
    · exact (Function.update_self ..).trans (hruns v hv)
    · rw [(write_of_ne c life state worker hne).2.2]
      exact h.runs t v hv

omit [DecidableEq K] [DecidableEq O] in
/-- A task that was not constructed may be put on its way. -/
theorem Sound.born (h : Sound c none) (habsent : c.life task = .absent) : Sound c (some task) := by
  refine { h with away := ?_, held := fun t ht => Or.inr ((h.held t ht).resolve_left (by rintro ⟨⟩)) }
  intro t ht q hq
  cases ht
  have hheld := held_of_mem h.fits hq
  simp [Custody.Held,habsent] at hheld

omit [DecidableEq K] [DecidableEq O] in
/-- A task that is not held may be forgotten. -/
theorem Sound.gone (h : Sound c (some task)) (hheld : ¬c.Held task) : Sound c none := by
  refine { h with away := (by rintro _ ⟨⟩), held := ?_ }
  intro t ht
  refine (h.held t ht).imp_left fun he => ?_
  cases he
  exact absurd ht hheld

end Write

section Moves

variable {pc pc' : SubmitPc n K} {phase phase' : Phase K} {life : Life} {state : StateTask}
  {worker : Option (Fin n)}

omit [DecidableEq K] in
theorem turn_turn (x y : Option (SubmitPc n K)) : (c.turn a x).turn a y = c.turn a y := by
  simp only [Custody.turn,Function.update_idem]

omit [DecidableEq K] [DecidableEq O] in
theorem goto_goto (x y : Phase K) : (c.goto w x).goto w y = c.goto w y := by
  simp only [Custody.goto,Function.update_idem]

omit [DecidableEq K] in
/-- A call goes on with the same task. -/
theorem Sound.recall (h : Sound c none) (hcall : c.call a = some pc)
    (hcarried : carried (some pc) = [task]) (hcarried' : carried (some pc') = [task])
    (hfits : c.CallFits pc') : Sound (c.turn a (some pc')) none := by
  have hcarry := (h.fromCall hcall hcarried).toCall (Function.update_self ..) hcarried' hfits
  rwa [turn_turn] at hcarry

/-- A call goes on with the same task after it has changed its fields. -/
theorem Sound.recallWrite (h : Sound c none) (hcall : c.call a = some pc)
    (hcarried : carried (some pc) = [task]) (hcarried' : carried (some pc') = [task])
    (hrun : ∀ v stage, c.phase v ≠ .running task stage) (hlife : life ≠ .absent)
    (hfits : (c.write task life state (c.taskWorker task)).CallFits pc') :
    Sound ((c.write task life state (c.taskWorker task)).turn a (some pc')) none := by
  have haway := h.fromCall hcall hcarried
  have hwrite : Sound ((c.turn a none).write task life state (c.taskWorker task)) (some task) :=
    haway.write hrun (fun he => absurd he hlife) (haway.runs task)
  have hcarry := hwrite.toCall (Function.update_self ..) hcarried' hfits
  rwa [show (c.turn a none).write task life state (c.taskWorker task) =
    (c.write task life state (c.taskWorker task)).turn a none from rfl,turn_turn] at hcarry

omit [DecidableEq K] in
/-- A worker goes on with the same task. -/
theorem Sound.rephase (h : Sound c none) (hphase : c.phase w = phase) (hhand : phase.hand = [task])
    (hhand' : phase'.hand = [task]) (hfits : c.PhaseFits w phase') :
    Sound (c.goto w phase') none := by
  rw [←hphase] at hhand
  have haway : Sound (c.goto w .idle) (some task) := h.fromPhase hhand rfl trivial
  have hidle : (c.goto w .idle).phase w = .idle := Function.update_self ..
  have hempty : ((c.goto w .idle).phase w).hand = [] := congrArg Phase.hand hidle
  have hcarry := haway.toPhase hempty hhand' hfits
  rwa [goto_goto] at hcarry

/-- A worker goes on with the same task after it has changed its fields. -/
theorem Sound.rephaseWrite (h : Sound c none) (hphase : c.phase w = phase)
    (hhand : phase.hand = [task]) (hhand' : phase'.hand = [task])
    (hrun : ∀ v stage, c.phase v = .running task stage → v = w) (hlife : life ≠ .absent)
    (hruns : ∀ v ∈ c.runs task, worker = some v)
    (hfits : (c.write task life state worker).PhaseFits w phase') :
    Sound ((c.write task life state worker).goto w phase') none := by
  rw [←hphase] at hhand
  have haway : Sound (c.goto w .idle) (some task) := h.fromPhase hhand rfl trivial
  have hidle : (c.goto w .idle).phase w = .idle := Function.update_self ..
  have hwrite : Sound ((c.goto w .idle).write task life state worker) (some task) := by
    refine haway.write ?_ (fun he => absurd he hlife) hruns
    intro v stage hv
    rcases eq_or_ne v w with rfl | hne
    · cases hidle.symm.trans hv
    · have hv' : c.phase v = .running task stage := (Function.update_of_ne hne ..).symm.trans hv
      exact hne (hrun v stage hv')
  have hempty : (((c.goto w .idle).write task life state worker).phase w).hand = [] :=
    congrArg Phase.hand hidle
  have hcarry := hwrite.toPhase hempty hhand' hfits
  rwa [show (c.goto w .idle).write task life state worker =
    (c.write task life state worker).goto w .idle from rfl,goto_goto] at hcarry

omit [DecidableEq K] [DecidableEq O] in
/-- The number of tasks and the parents are not read. -/
theorem Sound.counters {way : Option K} (h : Sound c way) (count : ℕ) (parent : K → Option K) :
    Sound { c with countTasks := count, spawnedBy := parent } way :=
  { exclusive := h.exclusive, away := h.away, held := h.held, fits := h.fits, unborn := h.unborn,
    runs := h.runs, thrown := h.thrown }

omit [DecidableEq O] in
theorem setLife_eq_write :
    c.setLife task life = c.write task life (c.state task) (c.taskWorker task) := by
  simp only [Custody.setLife,Custody.write,Function.update_eq_self]

omit [DecidableEq O] in
theorem progressState_planned (hstate : c.state task = .planned) :
    c.progressState task = c.write task (c.life task) .running (c.taskWorker task) := by
  simp only [Custody.progressState,Custody.write,hstate,Function.update_eq_self]

omit [DecidableEq O] in
theorem progressState_running (hstate : c.state task = .running) :
    c.progressState task = c.write task (c.life task) .finished (c.taskWorker task) := by
  simp only [Custody.progressState,Custody.write,hstate,Function.update_eq_self]

omit [DecidableEq O] in
/-- SetWorker leaves the worker that the task has, which is this one. -/
theorem setWorker_eq_write (hallows : c.Allows w task) :
    c.setWorker task w = c.write task (c.life task) (c.state task) (some w) := by
  cases hworker : c.taskWorker task with
  | none => simp only [Custody.setWorker,Custody.write,hworker,Function.update_eq_self]
  | some v =>
    have hself : Function.update c.taskWorker task (some w) = c.taskWorker := by
      rw [←hallows v hworker,←hworker]
      exact Function.update_eq_self ..
    simp only [Custody.setWorker,Custody.write,hworker,hself,Function.update_eq_self]

/-- A new task is handed to Submit. -/
theorem Sound.construct (h : Sound c none) (hcall : c.call a = none)
    (habsent : c.life task = .absent) (parent : Option K) :
    Sound ((c.construct task parent).turn a (some (.state task))) none := by
  have hrun : ∀ v stage, c.phase v ≠ .running task stage := by
    intro v stage hv
    have hphase : c.PhaseFits v (c.phase v) := h.fits (.process v)
    rw [hv] at hphase
    cases habsent.symm.trans hphase.1.1
  have hnone : ∀ v ∈ c.runs task, (none : Option (Fin n)) = some v := by
    rw [h.unborn task habsent]
    rintro _ ⟨⟩
  have hwrite : Sound (c.write task .created .planned none) (some task) :=
    (h.born habsent).write hrun (by rintro ⟨⟩) hnone
  have hparent := hwrite.counters c.countTasks (Function.update c.spawnedBy task parent)
  exact hparent.toCall hcall rfl (Or.inl ⟨Function.update_self ..,Function.update_self ..⟩)

omit [DecidableEq K] [DecidableEq O] in
/-- What is known of the running task. -/
theorem Sound.running {way : Option K} {stage : Stage} (h : Sound c way)
    (hphase : c.phase w = .running task stage) : c.Ready task ∧ c.taskWorker task = some w := by
  have hfits : c.PhaseFits w (c.phase w) := h.fits (.process w)
  rwa [hphase] at hfits

omit [DecidableEq K] [DecidableEq O] in
/-- A task that has a worker runs nowhere else. -/
theorem Sound.running_on {way : Option K} (h : Sound c way) (hallows : c.Allows w task) (v : Fin n)
    (stage : Stage) (hv : c.phase v = .running task stage) : v = w :=
  hallows v (h.running hv).2

/-- The routine of a task returns. -/
theorem Sound.finish (h : Sound c none) (hphase : c.phase w = .running task .executing)
    (hhand : phase.hand = [task])
    (hfits : (c.write task .completed .running (some w)).PhaseFits w phase) :
    Sound ((c.setLife task .completed).goto w phase) none := by
  obtain ⟨hready,hworker⟩ := h.running hphase
  have hallows : c.Allows w task := by
    intro v hv
    exact Option.some.inj (hv.symm.trans hworker)
  rw [setLife_eq_write,hready.2,hworker]
  refine h.rephaseWrite hphase rfl hhand (h.running_on hallows) (by rintro ⟨⟩) ?_ hfits
  intro v hv
  rw [←hworker]
  exact h.runs task v hv

/-- Every move leaves each task in one place. -/
theorem Sound.moves (h : Sound c none) (hmoves : Moves c c') : Sound c' none := by
  have hcallFits : ∀ b x, c.call b = some x → c.CallFits x := fun b => h.fits (.call b)
  have hphaseFits : ∀ v, c.PhaseFits v (c.phase v) := fun v => h.fits (.process v)
  cases hmoves with
  | first hcall hstate =>
    refine h.recall hcall rfl rfl ?_
    exact (hcallFits _ _ hcall).resolve_right fun hready =>
      absurd (hstate.symm.trans hready.2) (by rintro ⟨⟩)
  | again hcall hstate =>
    refine h.recall hcall rfl rfl ?_
    exact (hcallFits _ _ hcall).resolve_left fun hnew => hstate hnew.2
  | @add a task hcall =>
    obtain ⟨hlife,hstate⟩ := hcallFits _ _ hcall
    have hrun : ∀ v stage, c.phase v ≠ .running task stage :=
      fun v stage hv => absurd (hlife.symm.trans (h.running hv).1.1) (by rintro ⟨⟩)
    have hwrite : Sound ((c.write task .added (c.state task) (c.taskWorker task)).turn a
        (some (.progress task))) none :=
      h.recallWrite hcall rfl rfl hrun (by rintro ⟨⟩)
        ⟨Function.update_self ..,(Function.update_self ..).trans hstate⟩
    rw [←setLife_eq_write] at hwrite
    exact hwrite.counters (c.countTasks + 1) c.spawnedBy
  | @progress a task hcall =>
    obtain ⟨hlife,hstate⟩ := hcallFits _ _ hcall
    have hrun : ∀ v stage, c.phase v ≠ .running task stage :=
      fun v stage hv => absurd (hstate.symm.trans (h.running hv).1.2) (by rintro ⟨⟩)
    rw [progressState_planned hstate,hlife]
    exact h.recallWrite hcall rfl rfl hrun (by rintro ⟨⟩)
      ⟨Function.update_self ..,Function.update_self ..⟩
  | routeLocal hcall hworker =>
    refine h.recall hcall rfl rfl ⟨hcallFits _ _ hcall,?_⟩
    intro v hv
    exact Option.some.inj (hv.symm.trans hworker)
  | routeGlobal hcall hworker => exact h.recall hcall rfl rfl ⟨hcallFits _ _ hcall,hworker⟩
  | pushGlobal hcall =>
    obtain ⟨hready,hworker⟩ := hcallFits _ _ hcall
    exact (h.fromCall hcall rfl).toGlobal hready hworker
  | pushLocal hcall =>
    obtain ⟨hready,hallows⟩ := hcallFits _ _ hcall
    exact (h.fromCall hcall rfl).toLocal hready hallows
  | spawn hphase hcall habsent => exact h.construct hcall habsent _
  | wake hcall hparked =>
    exact (h.fromParked hparked).toCall hcall rfl (Or.inr (h.fits .parked _ hparked))
  | @popLocal w task rest hphase hlocal =>
    have hfits := h.fits (.localTasks w) task (by rw [hlocal]; exact List.mem_cons_self)
    exact (h.fromLocal hlocal).toPhase (congrArg Phase.hand hphase) rfl hfits
  | @popGlobal w task rest hcall hglobal =>
    obtain ⟨hready,hworker⟩ := h.fits .globalTasks task (by rw [hglobal]; exact List.mem_cons_self)
    refine (h.fromGlobal hglobal).toCall hcall rfl ⟨hready,?_⟩
    intro v hv
    cases hworker.symm.trans hv
  | @setWorker w task hphase =>
    have hfits := hphaseFits w
    rw [hphase] at hfits
    obtain ⟨⟨hlife,hstate⟩,hallows⟩ := hfits
    rw [setWorker_eq_write hallows,hlife,hstate]
    refine h.rephaseWrite hphase rfl rfl (h.running_on hallows) (by rintro ⟨⟩) ?_
      ⟨⟨Function.update_self ..,Function.update_self ..⟩,Function.update_self ..⟩
    intro v hv
    rw [hallows v (h.runs task v hv)]
  | @enter w task hphase =>
    have hfits := hphaseFits w
    rw [hphase] at hfits
    obtain ⟨hready,hworker⟩ := hfits
    have hrephase : Sound (c.goto w (.running task .executing)) none :=
      h.rephase hphase rfl rfl ⟨hready,hworker⟩
    refine { hrephase with unborn := ?_, runs := ?_ }
    · intro t ht
      have hne : t ≠ task := by
        rintro rfl
        cases hready.1.symm.trans ht
      exact (Function.update_of_ne hne ..).trans (h.unborn t ht)
    · intro t v hv
      simp only [Custody.goto,Function.update_apply] at hv
      split at hv
      next he =>
        subst he
        rcases List.mem_append.mp hv with hv | hv
        · exact h.runs t v hv
        · rw [List.mem_singleton.mp hv]
          exact hworker
      next => exact h.runs t v hv
  | @yield w task hphase hcall =>
    have hfits := h.running hphase
    have haway : Sound (c.goto w (.running task .handedOver)) (some task) :=
      h.fromPhase (congrArg Phase.hand hphase) rfl hfits
    exact haway.toCall hcall rfl (Or.inr hfits.1)
  | @park w task hphase =>
    have hfits := h.running hphase
    have haway : Sound (c.goto w (.running task .handedOver)) (some task) :=
      h.fromPhase (congrArg Phase.hand hphase) rfl hfits
    exact haway.toParked hfits.1
  | @leave w task hphase =>
    have hholding : (c.goto w .idle).holding = c.holding := by
      have hempty : c.holding (.process w) = [] := congrArg Phase.hand hphase
      rw [holding_goto,show (Phase.idle : Phase K).hand = c.holding (.process w) from hempty.symm]
      exact Function.update_eq_self ..
    exact { h with exclusive := hholding ▸ h.exclusive, away := (by rintro _ ⟨⟩), held := hholding ▸ h.held,
                   fits := fits_goto h.fits trivial }
  | finish hphase =>
    exact h.finish hphase rfl
      ⟨Function.update_self ..,Function.update_self ..,Function.update_self ..⟩
  | finishFree hphase =>
    exact h.finish hphase rfl ⟨Function.update_self ..,Function.update_self ..⟩
  | @complete w task hphase =>
    have hfits := hphaseFits w
    rw [hphase] at hfits
    obtain ⟨hlife,hstate,hworker⟩ := hfits
    rw [progressState_running hstate,hlife,hworker]
    refine h.rephaseWrite hphase rfl rfl ?_ (by rintro ⟨⟩) ?_
      ⟨Function.update_self ..,Function.update_self ..⟩
    · intro v stage hv
      cases hlife.symm.trans (h.running hv).1.1
    · intro v hv
      rw [←hworker]
      exact h.runs task v hv
  | @remove w task hphase =>
    have hfits := hphaseFits w
    rw [hphase] at hfits
    obtain ⟨hlife,hworker⟩ := hfits
    have haway : Sound (c.goto w .idle) (some task) :=
      h.fromPhase (congrArg Phase.hand hphase) rfl trivial
    have hwrite : Sound ((c.goto w .idle).write task .removed (c.state task) (c.taskWorker task))
        (some task) := by
      refine haway.write ?_ (by rintro ⟨⟩) (h.runs task)
      intro v stage hv
      cases hlife.symm.trans (haway.running hv).1.1
    have hgone := hwrite.gone (by simp [Custody.Held,Custody.write])
    have hcount := hgone.counters (c.countTasks - 1) c.spawnedBy
    rw [setLife_eq_write]
    exact hcount

end Moves

end ConcurrencyRuntime.DistributedTasks
