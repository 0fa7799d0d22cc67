import ConcurrencyRuntime.PoolFibersShutdown

/-!
# The mutex workload

The program of the example: a fiber spawns kFibers fibers and waits for them with a
wait group; each of them enters a critical section kTasks times, adds one to a shared
variable there and calls Done; then the first fiber prints the variable. The routines
run on the fibers, workers, lists and objects of the model of the pool, in which each
section under the spinlock of an object is one step (pool_of_guards says when the
guards make it so). The increment is a load and a store.
-/

namespace ConcurrencyRuntime.MutexWorkload

open TransitionSystem PoolFibers

/-- Statements of the two routines. -/
inductive Point where
  /-- wg.Add(kFibers). -/
  | add
  /-- Go in iteration i. -/
  | spawn (i : ℕ)
  /-- wg.Wait(). -/
  | wait
  /-- Suspended in wg.Wait(). -/
  | waiting
  /-- The output of cs. -/
  | print
  /-- The constructor of the guard in iteration j. -/
  | lock (j : ℕ)
  /-- Suspended in the constructor of the guard. -/
  | locking (j : ℕ)
  /-- ++cs, before its load. -/
  | load (j : ℕ)
  /-- ++cs, before its store. -/
  | store (j value : ℕ)
  /-- The destructor of the guard. -/
  | unlock (j : ℕ)
  /-- wg.Done(). -/
  | done
  /-- The end of either routine. -/
  | returned
  deriving DecidableEq

/-- The head of the loop that spawns. -/
def Point.spawnFrom (kFibers i : ℕ) : Point := if i < kFibers then .spawn i else .wait

/-- The head of the loop that locks. -/
def Point.lockFrom (kTasks j : ℕ) : Point := if j < kTasks then .lock j else .done

/-- Where a routine goes on when its fiber is resumed. -/
def Point.resumed : Point → Point
  | .waiting => .print
  | .locking j => .load j
  | p => p

/-- The program. -/
structure Workload (ω ι : Type*) where
  /-- The pool with its workers and fibers, the mutex and the wait group. -/
  pool : Runtime ω ι Unit Unit Empty Unit
  /-- Where the routine of each fiber is. -/
  routine : ι → Point
  /-- The shared variable. -/
  cs : ℕ
  /-- The main thread has called Go. -/
  started : Bool
  /-- The output. -/
  printed : List ℕ

/-- Scheduler choices. -/
inductive Action (ω ι : Type*) where
  /-- The main thread calls Go, with the address of the fiber. -/
  | start (f : ι)
  /-- The next step of that call. -/
  | outside
  /-- The next step of a worker outside of routines. -/
  | worker (v : ω)
  /-- The next statement of the routine on a worker; a Go takes the address of the
  fiber. -/
  | routine (v : ω) (node : ι)
  /-- The destructor of the pool runs StartShutdown. -/
  | startShutdown

variable {ω ι : Type*} [DecidableEq ω] [DecidableEq ι]

/-- A routine calls an operation of a fiber and goes on. -/
def Workload.call (s : Workload ω ι) (v : ω) (f : ι) (op : Op ι Unit Unit Empty) (p : Point) :
    Option (Workload ω ι) :=
  (s.pool.perform v f op).map fun pool =>
    { s with pool := pool, routine := Function.update s.routine f p }

/-- The next statement of the routine of a fiber. -/
def Workload.statement (kFibers kTasks : ℕ) (s : Workload ω ι) (v : ω) (f node : ι) :
    Option (Workload ω ι) :=
  match s.routine f with
  | .add => s.call v f (.add () kFibers) (.spawnFrom kFibers 0)
  | .spawn i =>
    (s.call v f (.go node) (.spawnFrom kFibers (i + 1))).map fun s =>
      { s with routine := Function.update s.routine node (.lockFrom kTasks 0) }
  | .wait => s.call v f (.wait ()) (if 0 < s.pool.counter () then .waiting else .print)
  | .print =>
    some { s with
      printed := s.printed ++ [s.cs]
      routine := Function.update s.routine f .returned }
  | .lock j => s.call v f (.lock ()) (if s.pool.locked () then .locking j else .load j)
  | .load j => some { s with routine := Function.update s.routine f (.store j s.cs) }
  | .store j value =>
    some { s with
      cs := (value + 1) % 2 ^ 64
      routine := Function.update s.routine f (.unlock j) }
  | .unlock j => s.call v f (.unlock ()) (.lockFrom kTasks (j + 1))
  | .done => s.call v f (.done ()) .returned
  | .returned => s.call v f .finish .returned
  | .waiting | .locking _ => none

/-- Where the routines are after a step of a worker outside of them. -/
def Workload.afterWorker (s : Workload ω ι) (v : ω) : ι → Point :=
  match s.pool.worker v with
  | .resume f => Function.update s.routine f (s.routine f).resumed
  | _ => s.routine

/-- One scheduled step. -/
def step (kFibers kTasks : ℕ) (s : Workload ω ι) : Action ω ι → Option (Workload ω ι)
  | .start f =>
    if s.started then none
    else
      (PoolFibers.step s.pool (.go () f)).map fun pool =>
        { s with pool := pool, started := true, routine := Function.update s.routine f .add }
  | .outside => (PoolFibers.step s.pool (.outside ())).map fun pool => { s with pool := pool }
  | .worker v =>
    (s.pool.workerStep v).map fun pool =>
      { s with pool := pool, routine := s.afterWorker v }
  | .routine v node =>
    match s.pool.worker v with
    | .body f => s.statement kFibers kTasks v f node
    | _ => none
  | .startShutdown => some { s with pool := { s.pool with shutdown := true } }

/-- The started pool, before Go. -/
def initial (ω ι : Type*) : Workload ω ι where
  pool := PoolFibers.initial ω ι Unit Unit Empty Unit
  routine _ := .returned
  cs := 0
  started := false
  printed := []

/-- The program as a transition system. -/
def workload (ω ι : Type*) [DecidableEq ω] [DecidableEq ι] (kFibers kTasks : ℕ) :
    System (Workload ω ι) (Action ω ι) :=
  ⟨initial ω ι,step kFibers kTasks⟩

/-- The fiber of the routine is suspended in Lock or in Wait. -/
@[grind =]
def Point.suspended : Point → Bool
  | .waiting | .locking _ => true
  | _ => false

theorem Point.resumed_suspended (p : Point) : p.resumed.suspended = false := by
  cases p <;> rfl

/-! ## What the routines see -/

/-- The objects and the variables of the routines. -/
@[ext]
structure View (ι : Type*) where
  /-- The flag of the mutex. -/
  locked : Bool
  /-- The waiters of the mutex. -/
  line : List ι
  /-- The counter of the wait group. -/
  counter : ℕ
  /-- The waiters of the wait group. -/
  group : List ι
  /-- Where the routine of each fiber is. -/
  routine : ι → Point
  /-- The shared variable. -/
  cs : ℕ
  /-- The main thread has called Go. -/
  started : Bool
  /-- The output. -/
  printed : List ℕ

/-- What the routines see of a state. -/
def Workload.view {ω : Type*} (s : Workload ω ι) : View ι where
  locked := s.pool.locked ()
  line := s.pool.content (.list (.mutex ()))
  counter := s.pool.counter ()
  group := s.pool.content (.list (.group ()))
  routine := s.routine
  cs := s.cs
  started := s.started
  printed := s.printed

/-- A routine goes on. -/
def View.goto (x : View ι) (f : ι) (p : Point) : View ι :=
  { x with routine := Function.update x.routine f p }

@[simp]
theorem View.goto_routine (x : View ι) (f : ι) (p : Point) :
    (x.goto f p).routine = Function.update x.routine f p :=
  rfl

/-- What a step can do to what the routines see. -/
inductive Turn (kFibers kTasks : ℕ) (x : View ι) : View ι → Prop
  | start {f : ι} (hstarted : x.started = false) (hf : x.routine f = .returned) :
    Turn kFibers kTasks x ({ x with started := true }.goto f .add)
  | resume {f : ι} (hline : f ∉ x.line) (hgroup : f ∉ x.group) :
    Turn kFibers kTasks x (x.goto f (x.routine f).resumed)
  | add {f : ι} {n : ℕ} (hf : x.routine f = .add) (hn : (x.counter + kFibers) % 2 ^ 64 = n) :
    Turn kFibers kTasks x ({ x with counter := n }.goto f (.spawnFrom kFibers 0))
  | spawn {f g : ι} {i : ℕ} (hf : x.routine f = .spawn i) (hg : x.routine g = .returned) :
    Turn kFibers kTasks x ((x.goto f (.spawnFrom kFibers (i + 1))).goto g (.lockFrom kTasks 0))
  | pass {f : ι} (hf : x.routine f = .wait) (hzero : x.counter = 0) :
    Turn kFibers kTasks x (x.goto f .print)
  | park {f : ι} (hf : x.routine f = .wait) (hcounter : 0 < x.counter) :
    Turn kFibers kTasks x ({ x with group := x.group ++ [f] }.goto f .waiting)
  | print {f : ι} (hf : x.routine f = .print) :
    Turn kFibers kTasks x ({ x with printed := x.printed ++ [x.cs] }.goto f .returned)
  | take {f : ι} {j : ℕ} (hf : x.routine f = .lock j) (hfree : x.locked = false) :
    Turn kFibers kTasks x ({ x with locked := true }.goto f (.load j))
  | enqueue {f : ι} {j : ℕ} (hf : x.routine f = .lock j) (hheld : x.locked = true) :
    Turn kFibers kTasks x ({ x with line := x.line ++ [f] }.goto f (.locking j))
  | load {f : ι} {j : ℕ} (hf : x.routine f = .load j) :
    Turn kFibers kTasks x (x.goto f (.store j x.cs))
  | store {f : ι} {j value : ℕ} (hf : x.routine f = .store j value) :
    Turn kFibers kTasks x ({ x with cs := (value + 1) % 2 ^ 64 }.goto f (.unlock j))
  | free {f : ι} {j : ℕ} (hf : x.routine f = .unlock j) (hline : x.line = []) :
    Turn kFibers kTasks x ({ x with locked := false }.goto f (.lockFrom kTasks (j + 1)))
  | handOver {f w : ι} {j : ℕ} {rest : List ι} (hf : x.routine f = .unlock j)
      (hline : x.line = w :: rest) :
    Turn kFibers kTasks x ({ x with line := rest }.goto f (.lockFrom kTasks (j + 1)))
  | done {f : ι} {n : ℕ} (hf : x.routine f = .done) (hn : (x.counter + 2 ^ 64 - 1) % 2 ^ 64 = n)
      (hmore : n ≠ 0) :
    Turn kFibers kTasks x ({ x with counter := n }.goto f .returned)
  | last {f : ι} (hf : x.routine f = .done) (hzero : (x.counter + 2 ^ 64 - 1) % 2 ^ 64 = 0) :
    Turn kFibers kTasks x ({ x with counter := 0, group := [] }.goto f .returned)

/-! ## The critical section -/

/-- Between the constructor of the guard and its destructor. -/
@[grind =]
def Point.critical : Point → Bool
  | .load _ | .store .. | .unlock _ => true
  | _ => false

/-- The iteration of the loop that locks. -/
@[grind =]
def Point.iteration : Point → Option ℕ
  | .lock j | .locking j | .load j | .store j _ | .unlock j => some j
  | _ => none

theorem Point.spawnFrom_spec (kFibers i : ℕ) :
    (Point.spawnFrom kFibers i).critical = false ∧ ∀ j, Point.spawnFrom kFibers i ≠ .locking j := by
  unfold Point.spawnFrom
  split <;> simp [Point.critical]

theorem Point.lockFrom_spec (kTasks j : ℕ) :
    (Point.lockFrom kTasks j).critical = false ∧ ∀ i, Point.lockFrom kTasks j ≠ .locking i := by
  unfold Point.lockFrom
  split <;> simp [Point.critical]

/-- Resuming ends a suspension, and leaves the other points. -/
theorem Point.resumed_spec (p : Point) :
    (p.resumed.critical = true ↔ p.critical = true ∨ ∃ j, p = .locking j) ∧
      (∀ j, p.resumed ≠ .locking j) ∧ p.resumed ≠ .waiting ∧
      (p = p.resumed ∨ p = .waiting ∧ p.resumed = .print ∨
        ∃ j, p = .locking j ∧ p.resumed = .load j) := by
  cases p <;> simp [Point.resumed,Point.critical]

/-- The fiber has the mutex: it is in the critical section, or it was taken out of the
line and is on its way there. -/
@[grind =]
def View.Owns (x : View ι) (f : ι) : Prop :=
  (x.routine f).critical = true ∨ (∃ j, x.routine f = .locking j) ∧ f ∉ x.line

/-- The mutex has one owner when it is locked and none when it is free, and the fibers in
its line are in Lock. The owner has loaded the present value. -/
structure Orderly (x : View ι) : Prop where
  line : ∀ f ∈ x.line, ∃ j, x.routine f = .locking j
  nodup : x.line.Nodup
  group : ∀ f ∈ x.group, x.routine f = .waiting
  free : x.locked = false → x.line = [] ∧ ∀ f, ¬x.Owns f
  held : x.locked = true → ∃ f, x.Owns f
  unique : ∀ f g, x.Owns f → x.Owns g → f = g
  value : ∀ f j value, x.routine f = .store j value → value = x.cs

section Turns

variable {kFibers kTasks : ℕ} {x y : View ι}

/-- A routine goes on outside of the critical section, of Lock and of Wait. -/
theorem Orderly.goto {f : ι} {p : Point} (h : Orderly x) (hf : ¬x.Owns f) (hline : f ∉ x.line)
    (hgroup : f ∉ x.group) (hp : p.critical = false) (hlocking : ∀ j, p ≠ .locking j) :
    Orderly (x.goto f p) := by
  have howns : ∀ g, (x.goto f p).Owns g ↔ x.Owns g := by
    intro g
    simp only [View.Owns,View.goto,Function.update_apply]
    grind
  refine ⟨?_,h.nodup,?_,?_,?_,?_,?_⟩
  · have hlines := h.line
    simp only [View.goto,Function.update_apply]
    grind
  · have hgroups := h.group
    simp only [View.goto,Function.update_apply]
    grind
  · simp only [howns]
    exact h.free
  · simp only [howns]
    exact h.held
  · simp only [howns]
    exact h.unique
  · have hvalue := h.value
    simp only [View.goto,Function.update_apply]
    grind

/-- The owner goes on in the critical section. -/
theorem Orderly.critical {f : ι} {p : Point} (h : Orderly x) (hf : (x.routine f).critical = true)
    (hp : p.critical = true) {cs : ℕ} (hvalue : ∀ j value, p = .store j value → value = cs) :
    Orderly ({ x with cs := cs }.goto f p) := by
  have hlines := h.line
  have hgroups := h.group
  have howner : x.Owns f := Or.inl hf
  have hline : f ∉ x.line := by grind
  have howns : ∀ g, ({ x with cs := cs }.goto f p).Owns g ↔ x.Owns g := by
    intro g
    simp only [View.Owns,View.goto,Function.update_apply]
    grind
  refine ⟨?_,h.nodup,?_,?_,?_,?_,?_⟩
  · simp only [View.goto,Function.update_apply]
    grind
  · simp only [View.goto,Function.update_apply]
    grind
  · simp only [howns]
    exact h.free
  · simp only [howns]
    exact h.held
  · simp only [howns]
    exact h.unique
  · intro g j value hg
    simp only [View.goto,Function.update_apply] at hg ⊢
    split at hg
    · exact hvalue j value hg
    · -- another fiber at its store would own the mutex too
      have hother : x.Owns g := Or.inl (by rw [hg]; rfl)
      next hne => exact absurd (h.unique g f hother howner) hne

/-- A fiber takes the mutex that is free. -/
theorem Orderly.take {f : ι} {j : ℕ} (h : Orderly x) (hf : x.routine f = .lock j)
    (hfree : x.locked = false) : Orderly ({ x with locked := true }.goto f (.load j)) := by
  obtain ⟨hline,hnone⟩ := h.free hfree
  have hgroups := h.group
  have hvalue := h.value
  have howns : ∀ g, ({ x with locked := true }.goto f (.load j)).Owns g ↔ g = f := by
    intro g
    have hg := hnone g
    simp only [View.Owns,View.goto,Function.update_apply] at hg ⊢
    grind
  refine ⟨?_,h.nodup,?_,?_,?_,?_,?_⟩
  · simp [View.goto,hline]
  · simp only [View.goto,Function.update_apply]
    grind
  · rintro ⟨⟩
  · intro _
    exact ⟨f,(howns f).mpr rfl⟩
  · intro g k hg hk
    rw [(howns g).mp hg,(howns k).mp hk]
  · simp only [View.goto,Function.update_apply]
    grind

/-- A fiber parks on the mutex that is locked. -/
theorem Orderly.enqueue {f : ι} {j : ℕ} (h : Orderly x) (hf : x.routine f = .lock j)
    (hheld : x.locked = true) : Orderly ({ x with line := x.line ++ [f] }.goto f (.locking j)) := by
  have hlines := h.line
  have hgroups := h.group
  have hvalue := h.value
  have hout : f ∉ x.line := by grind
  have howns : ∀ g, ({ x with line := x.line ++ [f] }.goto f (.locking j)).Owns g ↔ x.Owns g := by
    intro g
    simp only [View.Owns,View.goto,Function.update_apply]
    grind
  refine ⟨?_,?_,?_,?_,?_,?_,?_⟩
  · simp only [View.goto,Function.update_apply]
    grind
  · exact List.nodup_append.mpr ⟨h.nodup,List.nodup_singleton f,by grind⟩
  · simp only [View.goto,Function.update_apply]
    grind
  · intro hfree
    exact absurd (hheld.symm.trans hfree) (by decide)
  · simp only [howns]
    exact h.held
  · simp only [howns]
    exact h.unique
  · simp only [View.goto,Function.update_apply]
    grind

/-- The owner leaves the mutex and nobody waits. -/
theorem Orderly.release {f : ι} {j : ℕ} {p : Point} (h : Orderly x) (hf : x.routine f = .unlock j)
    (hline : x.line = []) (hp : p.critical = false) (hlocking : ∀ j, p ≠ .locking j) :
    Orderly ({ x with locked := false }.goto f p) := by
  have hgroups := h.group
  have hvalue := h.value
  have hunique := h.unique f
  have howns : ∀ g, ¬({ x with locked := false }.goto f p).Owns g := by
    intro g
    have hg := hunique g (Or.inl (by rw [hf]; rfl))
    simp only [View.Owns,View.goto,Function.update_apply] at hg ⊢
    grind
  refine ⟨?_,h.nodup,?_,?_,?_,?_,?_⟩
  · simp [View.goto,hline]
  · simp only [View.goto,Function.update_apply]
    grind
  · exact fun _ => ⟨hline,howns⟩
  · rintro ⟨⟩
  · exact fun g k hg => absurd hg (howns g)
  · simp only [View.goto,Function.update_apply]
    grind

/-- The owner leaves the mutex to the first fiber of the line. -/
theorem Orderly.handOver {f w : ι} {j : ℕ} {p : Point} {rest : List ι} (h : Orderly x)
    (hf : x.routine f = .unlock j) (hline : x.line = w :: rest) (hp : p.critical = false)
    (hlocking : ∀ j, p ≠ .locking j) : Orderly ({ x with line := rest }.goto f p) := by
  have hlines := h.line
  have hgroups := h.group
  have hvalue := h.value
  have hnodup := h.nodup
  rw [hline] at hnodup hlines
  have hunique := h.unique f
  obtain ⟨i,hw⟩ := hlines w List.mem_cons_self
  have hout := (List.nodup_cons.mp hnodup).1
  have howns : ∀ g, ({ x with line := rest }.goto f p).Owns g ↔ g = w := by
    intro g
    have hg := hunique g (Or.inl (by rw [hf]; rfl))
    simp only [View.Owns,View.goto,Function.update_apply,hline] at hg ⊢
    grind
  refine ⟨?_,(List.nodup_cons.mp hnodup).2,?_,?_,?_,?_,?_⟩
  · simp only [View.goto,Function.update_apply]
    grind
  · simp only [View.goto,Function.update_apply]
    grind
  · intro hfree
    exact absurd (h.free hfree).1 (by rw [hline]; rintro ⟨⟩)
  · exact fun _ => ⟨w,(howns w).mpr rfl⟩
  · intro g k hg hk
    rw [(howns g).mp hg,(howns k).mp hk]
  · simp only [View.goto,Function.update_apply]
    grind

/-- The owner is resumed, or a fiber that the mutex does not concern. -/
theorem Orderly.resume {f : ι} (h : Orderly x) (hline : f ∉ x.line) (hgroup : f ∉ x.group) :
    Orderly (x.goto f (x.routine f).resumed) := by
  have hlines := h.line
  have hgroups := h.group
  have hvalue := h.value
  obtain ⟨hcritical,hlocking,hwaiting,hresumed⟩ := (x.routine f).resumed_spec
  have howns : ∀ g, (x.goto f (x.routine f).resumed).Owns g ↔ x.Owns g := by
    intro g
    simp only [View.Owns,View.goto,Function.update_apply]
    grind
  refine ⟨?_,h.nodup,?_,?_,?_,?_,?_⟩
  · simp only [View.goto,Function.update_apply]
    grind
  · simp only [View.goto,Function.update_apply]
    grind
  · simp only [howns]
    exact h.free
  · simp only [howns]
    exact h.held
  · simp only [howns]
    exact h.unique
  · simp only [View.goto,Function.update_apply]
    grind

omit [DecidableEq ι] in
/-- The other fields of a state do not matter; fewer waiters of the wait group may be left. -/
theorem Orderly.frame (h : Orderly x) (hlocked : y.locked = x.locked) (hline : y.line = x.line)
    (hgroup : y.group ⊆ x.group) (hroutine : y.routine = x.routine) (hcs : y.cs = x.cs) :
    Orderly y := by
  have howns : ∀ f, y.Owns f ↔ x.Owns f := by
    intro f
    rw [View.Owns,View.Owns,hroutine,hline]
  refine ⟨?_,hline ▸ h.nodup,?_,?_,?_,?_,?_⟩
  · rw [hline,hroutine]
    exact h.line
  · intro f hf
    rw [hroutine]
    exact h.group f (hgroup hf)
  · simp only [howns,hlocked,hline]
    exact h.free
  · simp only [howns,hlocked]
    exact h.held
  · simp only [howns]
    exact h.unique
  · rw [hroutine,hcs]
    exact h.value

/-- Every turn keeps the order of the mutex. -/
theorem Orderly.turn (h : Orderly x) (ht : Turn kFibers kTasks x y) : Orderly y := by
  have hlines := h.line
  have hgroups := h.group
  have hspawn := Point.spawnFrom_spec kFibers
  have hlock := Point.lockFrom_spec kTasks
  cases ht with
  | @start f hstarted hf =>
    have hframe : Orderly { x with started := true } :=
      h.frame rfl rfl (List.Subset.refl _) rfl rfl
    exact hframe.goto (f := f) (by grind) (by grind) (by grind) rfl (by rintro _ ⟨⟩)
  | resume hline hgroup => exact h.resume hline hgroup
  | @add f n hf hn =>
    have hframe : Orderly { x with counter := n } := h.frame rfl rfl (List.Subset.refl _) rfl rfl
    exact hframe.goto (f := f) (by grind) (by grind) (by grind) (hspawn 0).1 (hspawn 0).2
  | @spawn f g i hf hg =>
    have hmoved := h.goto (f := f) (by grind) (by grind) (by grind) (hspawn (i + 1)).1
      (hspawn (i + 1)).2
    have hne : g ≠ f := by
      rintro rfl
      rw [hf] at hg
      cases hg
    have hpoint : (x.goto f (.spawnFrom kFibers (i + 1))).routine g = .returned :=
      (Function.update_of_ne hne ..).trans hg
    have hlines := hmoved.line
    have hgroups := hmoved.group
    exact hmoved.goto (by grind) (by grind) (by grind) (hlock 0).1 (hlock 0).2
  | pass hf hzero => exact h.goto (by grind) (by grind) (by grind) rfl (by rintro _ ⟨⟩)
  | @park f hf hcounter =>
    have hmoved := h.goto (f := f) (p := .waiting) (by grind) (by grind) (by grind) rfl
      (by rintro _ ⟨⟩)
    refine { hmoved with group := ?_ }
    simp only [View.goto,Function.update_apply]
    grind
  | @print f hf =>
    have hframe : Orderly { x with printed := x.printed ++ [x.cs] } :=
      h.frame rfl rfl (List.Subset.refl _) rfl rfl
    exact hframe.goto (f := f) (by grind) (by grind) (by grind) rfl (by rintro _ ⟨⟩)
  | take hf hfree => exact h.take hf hfree
  | enqueue hf hheld => exact h.enqueue hf hheld
  | load hf => exact h.critical (by rw [hf]; rfl) rfl (by grind)
  | store hf => exact h.critical (by rw [hf]; rfl) rfl (by rintro _ _ ⟨⟩)
  | free hf hline => exact h.release hf hline (hlock _).1 (hlock _).2
  | handOver hf hline => exact h.handOver hf hline (hlock _).1 (hlock _).2
  | @done f n hf hn hmore =>
    have hframe : Orderly { x with counter := n } := h.frame rfl rfl (List.Subset.refl _) rfl rfl
    exact hframe.goto (f := f) (by grind) (by grind) (by grind) rfl (by rintro _ ⟨⟩)
  | @last f hf hzero =>
    have hframe : Orderly { x with counter := 0, group := [] } :=
      h.frame rfl rfl (List.nil_subset _) rfl rfl
    exact hframe.goto (f := f) (by grind) (by grind) (by rintro ⟨⟩) rfl (by rintro _ ⟨⟩)

end Turns

/-! ## The books of the wait group and of the variable -/

/-- The points of the routine that spawns. -/
@[grind =]
def Point.outer : Point → Bool
  | .add | .spawn _ | .wait | .waiting | .print => true
  | _ => false

/-- The points of the routine that locks. -/
@[grind =]
def Point.inner : Point → Bool
  | .lock _ | .locking _ | .load _ | .store .. | .unlock _ | .done => true
  | _ => false

theorem Point.outer_of_inner {p : Point} (hp : p.inner = true) : p.outer = false := by
  cases p <;> first | rfl | cases hp

theorem Point.iteration_of_not_inner {p : Point} (hp : p.inner = false) : p.iteration = none := by
  cases p <;> first | rfl | cases hp

/-- How often the routine has added to the variable. -/
@[grind =]
def Point.added (kTasks : ℕ) : Point → ℕ
  | .lock j | .locking j | .load j | .store j _ => j
  | .unlock j => j + 1
  | .done => kTasks
  | _ => 0

theorem Point.inner_of_iteration {p : Point} {j : ℕ} (hp : p.iteration = some j) :
    p.inner = true := by
  cases p <;> first | rfl | cases hp

theorem Point.spawnFrom_inner (kFibers i : ℕ) : (Point.spawnFrom kFibers i).inner = false := by
  unfold Point.spawnFrom
  split <;> rfl

/-- At the head of the loop that locks, j iterations are behind the fiber. -/
theorem Point.lockFrom_inner (kTasks j : ℕ) : (Point.lockFrom kTasks j).inner = true ∧
    (∀ i, (Point.lockFrom kTasks j).iteration = some i → i < kTasks) ∧
    (j ≤ kTasks → (Point.lockFrom kTasks j).added kTasks = j) := by
  unfold Point.lockFrom
  split
  next hpos => exact ⟨rfl,by rintro _ ⟨⟩; exact hpos,fun _ => rfl⟩
  next hend => exact ⟨rfl,by rintro _ ⟨⟩,fun hle => by simp only [Point.added]; omega⟩

/-- The counts at a point of the routine that spawns, past Add. -/
@[grind =]
def View.Spawning (kFibers : ℕ) (x : View ι) (f : ι) (rest : ℕ) : Point → Prop
  | .spawn i => i < kFibers ∧ rest + i = kFibers
  | .wait => rest = 0
  | .waiting => rest = 0 ∧ (f ∉ x.group → x.counter = 0)
  | .print => rest = 0 ∧ x.counter = 0
  | _ => False

omit [DecidableEq ι] in
theorem View.Spawning.outer {kFibers rest : ℕ} {x : View ι} {f : ι} {p : Point}
    (h : x.Spawning kFibers f rest p) : p.outer = true := by
  cases p <;> first | rfl | exact h.elim

omit [DecidableEq ι] in
/-- At the head of the loop that spawns, the fibers from i on are the rest. -/
theorem View.spawning_spawnFrom {kFibers rest i : ℕ} {f : ι} (x : View ι)
    (hrest : rest + i = kFibers) : x.Spawning kFibers f rest (.spawnFrom kFibers i) := by
  unfold Point.spawnFrom
  split
  next hmore => exact ⟨hmore,hrest⟩
  next hend =>
    show rest = 0
    omega

/-- Of the spawned fibers, some are live and some have called Done; the rest are not
spawned yet. The counter is for the live ones and the rest, and the variable for what the
live ones have added and for all that the finished ones have. -/
structure Books (kFibers kTasks : ℕ) (x : View ι) (live : Finset ι) (rest finished : ℕ) : Prop where
  mem : ∀ f, f ∈ live ↔ (x.routine f).inner = true
  counter : x.counter = live.card + rest
  cs : x.cs = (∑ f ∈ live, (x.routine f).added kTasks + finished * kTasks) % 2 ^ 64
  index : ∀ f j, (x.routine f).iteration = some j → j < kTasks
  outer : ∀ f g, (x.routine f).outer = true → (x.routine g).outer = true → f = g
  before : x.started = false → (∀ f, x.routine f = .returned) ∧ x.printed = [] ∧ x.counter = 0 ∧
    finished = 0
  silent : ∀ f, (x.routine f).outer = true → x.printed = []
  new : ∀ f, x.routine f = .add → x.counter = 0 ∧ finished = 0
  all : ∀ f, (x.routine f).outer = true → x.routine f ≠ .add → x.counter + finished = kFibers
  spawn : ∀ f i, x.routine f = .spawn i → i < kFibers ∧ rest + i = kFibers
  spawned : ∀ f, x.routine f = .wait ∨ x.routine f = .waiting ∨ x.routine f = .print → rest = 0
  parked : ∀ f ∈ x.group, 0 < x.counter
  woken : ∀ f, x.routine f = .waiting → f ∉ x.group → x.counter = 0
  print : ∀ f, x.routine f = .print → x.counter = 0
  output : x.started = true → (∀ f, (x.routine f).outer = false) →
    x.printed = [kFibers * kTasks % 2 ^ 64] ∧ x.counter = 0

/-- The routine of a live fiber goes on. -/
theorem sum_added {live : Finset ι} {f : ι} (kTasks : ℕ) (r : ι → Point) (p : Point)
    (hf : f ∈ live) :
    ∑ g ∈ live, (Function.update r f p g).added kTasks + (r f).added kTasks =
      ∑ g ∈ live, (r g).added kTasks + p.added kTasks := by
  have hother : ∑ g ∈ live.erase f, (Function.update r f p g).added kTasks =
      ∑ g ∈ live.erase f, (r g).added kTasks := by
    refine Finset.sum_congr rfl fun g hg => ?_
    rw [Function.update_of_ne (Finset.ne_of_mem_erase hg)]
  rw [←Finset.add_sum_erase _ _ hf,←Finset.add_sum_erase live (fun g => (r g).added kTasks) hf,
    hother,Function.update_self]
  omega

/-- The routine of another fiber goes on. -/
theorem sum_added_of_not_mem {live : Finset ι} {f : ι} (kTasks : ℕ) (r : ι → Point) (p : Point)
    (hf : f ∉ live) :
    ∑ g ∈ live, (Function.update r f p g).added kTasks = ∑ g ∈ live, (r g).added kTasks := by
  refine Finset.sum_congr rfl fun g hg => ?_
  rw [Function.update_of_ne]
  rintro rfl
  exact hf hg

section Turns

variable {kFibers kTasks : ℕ} {x y : View ι} {live : Finset ι} {rest finished : ℕ}

/-- A live fiber goes on and stays live, and adds to the variable what its point says. -/
theorem Books.inner {f : ι} {p : Point} (h : Books kFibers kTasks x live rest finished)
    (hf : (x.routine f).inner = true) (hp : p.inner = true)
    (hindex : ∀ j, p.iteration = some j → j < kTasks)
    (hroutine : y.routine = Function.update x.routine f p)
    (hsame : y.counter = x.counter ∧ y.group = x.group ∧ y.started = x.started ∧
      y.printed = x.printed)
    (hcs : p.added kTasks = (x.routine f).added kTasks ∧ y.cs = x.cs ∨
      p.added kTasks = (x.routine f).added kTasks + 1 ∧ y.cs = (x.cs + 1) % 2 ^ 64) :
    Books kFibers kTasks y live rest finished := by
  obtain ⟨hcounter,hgroup,hstarted,hprinted⟩ := hsame
  have hlive := h.mem
  have hmem : f ∈ live := (hlive f).mpr hf
  have hother := Point.outer_of_inner hp
  have hsum := sum_added kTasks x.routine p hmem
  have hbefore := h.before
  have houter : ∀ g, (y.routine g).outer = (x.routine g).outer := by
    intro g
    have hout := Point.outer_of_inner hf
    rw [hroutine,Function.update_apply]
    grind
  have hpoint : ∀ g q, q.inner = false → (y.routine g = q ↔ x.routine g = q) := by
    intro g q hq
    rw [hroutine,Function.update_apply]
    grind
  constructor
  case mem =>
    simp only [hroutine,Function.update_apply]
    grind
  case counter =>
    rw [hcounter]
    exact h.counter
  case cs =>
    have hold := h.cs
    rw [hroutine]
    omega
  case index =>
    have hold := h.index
    simp only [hroutine,Function.update_apply]
    grind
  case outer =>
    simp only [houter]
    exact h.outer
  case before =>
    intro hnot
    obtain ⟨hreturned,-⟩ := h.before (hstarted ▸ hnot)
    rw [hreturned f] at hf
    cases hf
  case silent =>
    simp only [houter,hprinted]
    exact h.silent
  case new =>
    intro g hg
    rw [hcounter]
    exact h.new g ((hpoint g .add rfl).mp hg)
  case all =>
    intro g hg hne
    rw [hcounter]
    exact h.all g (houter g ▸ hg) fun hadd => hne ((hpoint g .add rfl).mpr hadd)
  case spawn => exact fun g i hg => h.spawn g i ((hpoint g (.spawn i) rfl).mp hg)
  case spawned =>
    intro g hg
    refine h.spawned g (hg.imp (hpoint g .wait rfl).mp ?_)
    exact Or.imp (hpoint g .waiting rfl).mp (hpoint g .print rfl).mp
  case parked =>
    rw [hgroup,hcounter]
    exact h.parked
  case woken =>
    intro g hg
    rw [hgroup,hcounter]
    exact h.woken g ((hpoint g .waiting rfl).mp hg)
  case print =>
    intro g hg
    rw [hcounter]
    exact h.print g ((hpoint g .print rfl).mp hg)
  case output =>
    simp only [houter,hstarted,hprinted,hcounter]
    exact h.output

/-- A live fiber goes on in its iteration, between its additions. -/
theorem Books.stay {f : ι} {p : Point} {j : ℕ} (h : Books kFibers kTasks x live rest finished)
    (hf : (x.routine f).iteration = some j) (hp : p.iteration = some j)
    (hadded : p.added kTasks = (x.routine f).added kTasks)
    (hroutine : y.routine = Function.update x.routine f p)
    (hsame : y.counter = x.counter ∧ y.group = x.group ∧ y.started = x.started ∧
      y.printed = x.printed) (hcs : y.cs = x.cs) :
    Books kFibers kTasks y live rest finished := by
  refine h.inner (Point.inner_of_iteration hf) (Point.inner_of_iteration hp) ?_ hroutine hsame
    (Or.inl ⟨hadded,hcs⟩)
  intro i hi
  cases hp.symm.trans hi
  exact h.index f j hf

/-- A live fiber ends its iteration. -/
theorem Books.unlockStep {f : ι} {j : ℕ} (h : Books kFibers kTasks x live rest finished)
    (hf : x.routine f = .unlock j)
    (hroutine : y.routine = Function.update x.routine f (.lockFrom kTasks (j + 1)))
    (hsame : y.counter = x.counter ∧ y.group = x.group ∧ y.started = x.started ∧
      y.printed = x.printed) (hcs : y.cs = x.cs) :
    Books kFibers kTasks y live rest finished := by
  obtain ⟨hinner,hindex,hadded⟩ := Point.lockFrom_inner kTasks (j + 1)
  have hj := h.index f j (by rw [hf]; rfl)
  refine h.inner (by rw [hf]; rfl) hinner hindex hroutine hsame (Or.inl ⟨?_,hcs⟩)
  rw [hf]
  exact hadded hj

/-- A fiber that is not live goes on and does not become live. -/
theorem Books.leave {f : ι} {p : Point} (h : Books kFibers kTasks x live rest finished)
    (hf : (x.routine f).inner = false) (hp : p.inner = false)
    (hroutine : y.routine = Function.update x.routine f p) (hcs : y.cs = x.cs) :
    (∀ g, g ∈ live ↔ (y.routine g).inner = true) ∧
      y.cs = (∑ g ∈ live, (y.routine g).added kTasks + finished * kTasks) % 2 ^ 64 ∧
      ∀ g j, (y.routine g).iteration = some j → j < kTasks := by
  have hlive := h.mem
  have hmem : f ∉ live := by grind
  refine ⟨?_,?_,?_⟩
  · rw [hroutine]
    simp only [Function.update_apply]
    grind
  · rw [hroutine,sum_added_of_not_mem kTasks x.routine p hmem,hcs]
    exact h.cs
  · have hold := h.index
    have hnone := Point.iteration_of_not_inner hp
    rw [hroutine]
    simp only [Function.update_apply]
    grind

/-- The first fiber begins. -/
theorem Books.start {f : ι} (h : Books kFibers kTasks x live rest finished)
    (hstarted : x.started = false) :
    Books kFibers kTasks ({ x with started := true }.goto f .add) live rest finished := by
  obtain ⟨hreturned,hprinted,hcounter,hfinished⟩ := h.before hstarted
  obtain ⟨hmem,hcs,hindex⟩ := h.leave (y := { x with started := true }.goto f .add) (f := f)
    (p := .add) (by rw [hreturned f]; rfl) rfl rfl rfl
  have hpoint : ∀ g, Function.update x.routine f .add g = if g = f then .add else .returned := by
    intro g
    rw [Function.update_apply,hreturned g]
  have hparked := h.parked
  constructor
  case mem => exact hmem
  case counter => exact h.counter
  case cs => exact hcs
  case index => exact hindex
  case parked => exact hparked
  case output =>
    intro _ hnone
    have hadd := hnone f
    rw [View.goto_routine,Function.update_self] at hadd
    cases hadd
  all_goals
    simp only [View.goto,hpoint]
    grind

omit [DecidableEq ι] in
/-- The books while the routine that spawns is past Add. -/
theorem Books.spawning {f : ι} {p : Point} {live' : Finset ι} {rest' : ℕ}
    (h : Books kFibers kTasks x live rest finished) (hf : (x.routine f).outer = true)
    (hmem : ∀ g, g ∈ live' ↔ (y.routine g).inner = true)
    (hcs : y.cs = (∑ g ∈ live', (y.routine g).added kTasks + finished * kTasks) % 2 ^ 64)
    (hindex : ∀ g j, (y.routine g).iteration = some j → j < kTasks)
    (hp : y.routine f = p) (houter : ∀ g, (y.routine g).outer = true → g = f)
    (hsame : y.started = x.started ∧ y.printed = x.printed)
    (hcounter : y.counter = live'.card + rest') (hparked : ∀ g ∈ y.group, 0 < y.counter)
    (hall : y.counter + finished = kFibers) (hpoint : y.Spawning kFibers f rest' p) :
    Books kFibers kTasks y live' rest' finished := by
  obtain ⟨hstarted,hprinted⟩ := hsame
  have hsilent := h.silent f hf
  have hbefore : x.started = true := by
    rw [←Bool.not_eq_false]
    intro hnot
    rw [(h.before hnot).1 f] at hf
    cases hf
  constructor
  case mem => exact hmem
  case counter => exact hcounter
  case cs => exact hcs
  case index => exact hindex
  case parked => exact hparked
  case output =>
    intro _ hnone
    have hnot := hnone f
    rw [hp,hpoint.outer] at hnot
    cases hnot
  all_goals grind

/-- A routine goes on past Add and stays the one that spawns. -/
theorem Books.outerStep {f : ι} {p : Point} {rest' : ℕ}
    (h : Books kFibers kTasks x live rest finished) (hf : (x.routine f).outer = true)
    (hp : p.inner = false) (hroutine : y.routine = Function.update x.routine f p)
    (hsame : y.cs = x.cs ∧ y.started = x.started ∧ y.printed = x.printed)
    (hcounter : y.counter = live.card + rest') (hparked : ∀ g ∈ y.group, 0 < y.counter)
    (hall : y.counter + finished = kFibers) (hpoint : y.Spawning kFibers f rest' p) :
    Books kFibers kTasks y live rest' finished := by
  have hinner : (x.routine f).inner = false := by
    rw [←Bool.not_eq_true]
    intro hinner
    rw [Point.outer_of_inner hinner] at hf
    cases hf
  obtain ⟨hmem,hcs,hindex⟩ := h.leave hinner hp hroutine hsame.1
  have honly := h.outer f
  refine h.spawning hf hmem hcs hindex (by rw [hroutine,Function.update_self]) ?_ hsame.2 hcounter
    hparked hall hpoint
  intro g hg
  rw [hroutine,Function.update_apply] at hg
  grind

/-- Go makes a fiber live. -/
theorem Books.spawnStep {f g : ι} {i : ℕ} (h : Books kFibers kTasks x live rest finished)
    (hf : x.routine f = .spawn i) (hg : x.routine g = .returned) :
    Books kFibers kTasks ((x.goto f (.spawnFrom kFibers (i + 1))).goto g (.lockFrom kTasks 0))
      (insert g live) (rest - 1) finished := by
  have hout : (x.routine f).outer = true := by
    rw [hf]
    rfl
  obtain ⟨hi,hrest⟩ := h.spawn f i hf
  have hne : f ≠ g := by
    rintro rfl
    rw [hf] at hg
    cases hg
  have hfresh : g ∉ live := by
    rw [h.mem g,hg]
    decide
  obtain ⟨hlive,hbound,hadded⟩ := Point.lockFrom_inner kTasks 0
  have hspawn := Point.spawnFrom_inner kFibers (i + 1)
  obtain ⟨hmem,hcs,hindex⟩ := h.leave (y := x.goto f (.spawnFrom kFibers (i + 1))) (by rw [hf]; rfl)
    hspawn rfl rfl
  have honly := h.outer f
  refine h.spawning hout ?_ ?_ ?_ (p := .spawnFrom kFibers (i + 1)) ?_ ?_ ⟨rfl,rfl⟩ ?_ h.parked
    (h.all f hout (by rw [hf]; rintro ⟨⟩)) ?_
  · intro k
    have hk := hmem k
    simp only [View.goto_routine,Finset.mem_insert,Function.update_apply] at hk ⊢
    grind
  · rw [View.goto_routine,Finset.sum_insert hfresh,Function.update_self,hadded kTasks.zero_le,
      zero_add,sum_added_of_not_mem kTasks _ _ hfresh]
    exact hcs
  · intro k j hk
    have hold := hindex k j
    simp only [View.goto_routine,Function.update_apply] at hk hold
    grind
  · simp only [View.goto_routine,Function.update_of_ne hne,Function.update_self]
  · intro k hk
    have hother := Point.outer_of_inner hlive
    simp only [View.goto_routine,Function.update_apply] at hk
    grind
  · rw [Finset.card_insert_of_notMem hfresh]
    have hcounter : x.counter = live.card + rest := h.counter
    show x.counter = _
    omega
  · exact View.spawning_spawnFrom _ (by omega)

/-- The first fiber prints the variable. -/
theorem Books.printStep {f : ι} (h : Books kFibers kTasks x live rest finished)
    (hf : x.routine f = .print) :
    Books kFibers kTasks ({ x with printed := x.printed ++ [x.cs] }.goto f .returned) live rest
      finished := by
  have hout : (x.routine f).outer = true := by
    rw [hf]
    rfl
  have hzero := h.print f hf
  have hall := h.all f hout (by rw [hf]; rintro ⟨⟩)
  have hlive : live = ∅ := by
    have hcounter := h.counter
    rw [←Finset.card_eq_zero]
    omega
  have hvalue : x.cs = kFibers * kTasks % 2 ^ 64 := by
    have hcs := h.cs
    rw [hlive,Finset.sum_empty,zero_add] at hcs
    rw [hcs,←hall,hzero,zero_add]
  obtain ⟨hmem,hcs,hindex⟩ := h.leave
    (y := { x with printed := x.printed ++ [x.cs] }.goto f .returned) (f := f) (p := .returned)
    (by rw [hf]; rfl) rfl rfl rfl
  have honly := h.outer f
  have hnone : ∀ g, (Function.update x.routine f .returned g).outer = false := by
    intro g
    rw [Function.update_apply]
    grind
  have hpoint : ∀ g q, q.outer = true → Function.update x.routine f .returned g ≠ q := by
    rintro g q hq rfl
    rw [hnone g] at hq
    cases hq
  constructor
  case mem => exact hmem
  case counter => exact h.counter
  case cs => exact hcs
  case index => exact hindex
  case outer => exact fun g _ hg => absurd ((hnone g).symm.trans hg) (by decide)
  case before =>
    intro hnot
    rw [(h.before hnot).1 f] at hf
    cases hf
  case silent => exact fun g hg => absurd ((hnone g).symm.trans hg) (by decide)
  case new => exact fun g hg => absurd hg (hpoint g .add rfl)
  case all => exact fun g hg => absurd ((hnone g).symm.trans hg) (by decide)
  case spawn => exact fun g i hg => absurd hg (hpoint g (.spawn i) rfl)
  case spawned =>
    rintro g (hg | hg | hg)
    · exact absurd hg (hpoint g .wait rfl)
    · exact absurd hg (hpoint g .waiting rfl)
    · exact absurd hg (hpoint g .print rfl)
  case parked => exact h.parked
  case woken => exact fun g hg => absurd hg (hpoint g .waiting rfl)
  case print => exact fun g hg => absurd hg (hpoint g .print rfl)
  case output =>
    intro _ _
    refine ⟨?_,hzero⟩
    show x.printed ++ [x.cs] = _
    rw [h.silent f hout,hvalue]
    rfl

omit [DecidableEq ι] in
/-- The counter does not wrap when a live fiber calls Done. -/
theorem Books.decrement {f : ι} (hmax : kFibers < 2 ^ 64)
    (h : Books kFibers kTasks x live rest finished) (hf : x.routine f = .done) :
    (x.counter + 2 ^ 64 - 1) % 2 ^ 64 = x.counter - 1 := by
  have hmem : f ∈ live := by
    rw [h.mem f,hf]
    rfl
  have hpos : 0 < live.card := Finset.card_pos.mpr ⟨f,hmem⟩
  have hcounter := h.counter
  have hle : x.counter ≤ kFibers := by
    by_cases hout : ∃ g, (x.routine g).outer = true
    · obtain ⟨g,hg⟩ := hout
      by_cases hadd : x.routine g = .add
      · have hzero := (h.new g hadd).1
        omega
      · have hall := h.all g hg hadd
        omega
    · have hstarted : x.started = true := by
        rw [←Bool.not_eq_false]
        intro hnot
        rw [(h.before hnot).1 f] at hf
        cases hf
      have hzero := (h.output hstarted (by simpa using hout)).2
      omega
  omega

/-- A live fiber calls Done. -/
theorem Books.doneStep {f : ι} (h : Books kFibers kTasks x live rest finished)
    (hf : x.routine f = .done) (hroutine : y.routine = Function.update x.routine f .returned)
    (hsame : y.cs = x.cs ∧ y.started = x.started ∧ y.printed = x.printed)
    (hcounter : y.counter = x.counter - 1)
    (hgroup : y.group = x.group ∧ y.counter ≠ 0 ∨ y.group = [] ∧ y.counter = 0) :
    Books kFibers kTasks y (live.erase f) rest (finished + 1) := by
  obtain ⟨hcs,hstarted,hprinted⟩ := hsame
  have hinner : (x.routine f).inner = true := by
    rw [hf]
    rfl
  have hmem : f ∈ live := (h.mem f).mpr hinner
  have hcard : (live.erase f).card + 1 = live.card := Finset.card_erase_add_one hmem
  have hold := h.counter
  have houter : ∀ g, (y.routine g).outer = (x.routine g).outer := by
    intro g
    rw [hroutine,Function.update_apply]
    grind
  have hpoint : ∀ g q, q.outer = true → (y.routine g = q ↔ x.routine g = q) := by
    intro g q hq
    rw [hroutine,Function.update_apply]
    grind
  constructor
  case mem =>
    intro g
    have hg := h.mem g
    rw [hroutine,Finset.mem_erase,Function.update_apply]
    grind
  case counter => omega
  case cs =>
    have hsum : ∑ g ∈ live.erase f, (Function.update x.routine f .returned g).added kTasks =
        ∑ g ∈ live.erase f, (x.routine g).added kTasks :=
      sum_added_of_not_mem kTasks x.routine .returned (Finset.notMem_erase f live)
    have hsplit := Finset.add_sum_erase live (fun g => (x.routine g).added kTasks) hmem
    have hadded : (x.routine f).added kTasks = kTasks := by
      rw [hf]
      rfl
    rw [hcs,h.cs,hroutine,hsum,←hsplit,hadded,Nat.succ_mul]
    congr 1
    omega
  case index =>
    intro g j hg
    have hindex := h.index g j
    rw [hroutine,Function.update_apply] at hg
    grind
  case outer =>
    simp only [houter]
    exact h.outer
  case before =>
    intro hnot
    obtain ⟨hreturned,-⟩ := h.before (hstarted ▸ hnot)
    rw [hreturned f] at hf
    cases hf
  case silent =>
    simp only [houter,hprinted]
    exact h.silent
  case new =>
    intro g hg
    have hzero := (h.new g ((hpoint g .add rfl).mp hg)).1
    omega
  case all =>
    intro g hg hne
    have hall := h.all g (houter g ▸ hg) fun hadd => hne ((hpoint g .add rfl).mpr hadd)
    omega
  case spawn => exact fun g i hg => h.spawn g i ((hpoint g (.spawn i) rfl).mp hg)
  case spawned =>
    intro g hg
    refine h.spawned g (hg.imp (hpoint g .wait rfl).mp ?_)
    exact Or.imp (hpoint g .waiting rfl).mp (hpoint g .print rfl).mp
  case parked =>
    intro g hg
    rcases hgroup with ⟨-,hne⟩ | ⟨hnil,-⟩
    · exact Nat.pos_of_ne_zero hne
    · rw [hnil] at hg
      cases hg
  case woken =>
    intro g hg hout
    rcases hgroup with ⟨hsame,hne⟩ | ⟨-,hzero⟩
    · have hzero := h.woken g ((hpoint g .waiting rfl).mp hg) (hsame ▸ hout)
      omega
    · exact hzero
  case print =>
    intro g hg
    have hzero := h.print g ((hpoint g .print rfl).mp hg)
    omega
  case output =>
    simp only [houter,hstarted,hprinted]
    intro hyes hnone
    obtain ⟨hout,hzero⟩ := h.output hyes hnone
    exact ⟨hout,by omega⟩

/-- Every turn keeps the books. -/
theorem Books.turn (hmax : kFibers < 2 ^ 64) (hO : Orderly x)
    (h : Books kFibers kTasks x live rest finished) (ht : Turn kFibers kTasks x y) :
    ∃ live' rest' finished', Books kFibers kTasks y live' rest' finished' := by
  cases ht with
  | start hstarted hf => exact ⟨_,_,_,h.start hstarted⟩
  | @resume f hline hgroup =>
    obtain ⟨-,-,-,hsame | ⟨hwaiting,hprint⟩ | ⟨j,hlocking,hload⟩⟩ := (x.routine f).resumed_spec
    · refine ⟨live,rest,finished,?_⟩
      rw [View.goto,←hsame,Function.update_eq_self]
      exact h
    · have hzero := h.woken f hwaiting hgroup
      have hout : (x.routine f).outer = true := by
        rw [hwaiting]
        rfl
      rw [hprint]
      exact ⟨_,_,_,h.outerStep hout rfl rfl ⟨rfl,rfl,rfl⟩ h.counter h.parked
        (h.all f hout (by rw [hwaiting]; rintro ⟨⟩))
        ⟨h.spawned f (Or.inr (Or.inl hwaiting)),hzero⟩⟩
    · rw [hload]
      exact ⟨_,_,_,h.stay (j := j) (by rw [hlocking]; rfl) rfl (by rw [hlocking]; rfl) rfl
        ⟨rfl,rfl,rfl,rfl⟩ rfl⟩
  | @add f n hf hn =>
    have hout : (x.routine f).outer = true := by
      rw [hf]
      rfl
    obtain ⟨hzero,hfinished⟩ := h.new f hf
    have hcounter := h.counter
    have hsum : n = kFibers := by omega
    have hgroup : x.group = [] := by
      rw [List.eq_nil_iff_forall_not_mem]
      intro g hg
      have hpos := h.parked g hg
      omega
    have hinner := Point.spawnFrom_inner kFibers 0
    refine ⟨live,kFibers,finished,h.outerStep hout hinner rfl ⟨rfl,rfl,rfl⟩ ?_ ?_ ?_
      (View.spawning_spawnFrom _ rfl)⟩
    · show n = _
      omega
    · show ∀ g ∈ x.group, _
      rw [hgroup]
      rintro _ ⟨⟩
    · show n + finished = _
      omega
  | spawn hf hg => exact ⟨_,_,_,h.spawnStep hf hg⟩
  | @pass f hf hzero =>
    have hout : (x.routine f).outer = true := by
      rw [hf]
      rfl
    exact ⟨_,_,_,h.outerStep hout rfl rfl ⟨rfl,rfl,rfl⟩ h.counter h.parked
      (h.all f hout (by rw [hf]; rintro ⟨⟩))
      ⟨h.spawned f (Or.inl hf),hzero⟩⟩
  | @park f hf hcounter =>
    have hout : (x.routine f).outer = true := by
      rw [hf]
      rfl
    refine ⟨_,_,_,h.outerStep hout rfl rfl ⟨rfl,rfl,rfl⟩ h.counter (fun _ _ => hcounter)
      (h.all f hout (by rw [hf]; rintro ⟨⟩))
      ⟨h.spawned f (Or.inl hf),fun hnot => absurd ?_ hnot⟩⟩
    exact List.mem_append_right _ (List.mem_singleton_self f)
  | print hf => exact ⟨_,_,_,h.printStep hf⟩
  | @take f j hf hfree =>
    exact ⟨_,_,_,h.stay (j := j) (by rw [hf]; rfl) rfl (by rw [hf]; rfl) rfl ⟨rfl,rfl,rfl,rfl⟩ rfl⟩
  | @enqueue f j hf hheld =>
    exact ⟨_,_,_,h.stay (j := j) (by rw [hf]; rfl) rfl (by rw [hf]; rfl) rfl ⟨rfl,rfl,rfl,rfl⟩ rfl⟩
  | @load f j hf =>
    exact ⟨_,_,_,h.stay (j := j) (by rw [hf]; rfl) rfl (by rw [hf]; rfl) rfl ⟨rfl,rfl,rfl,rfl⟩ rfl⟩
  | @store f j value hf =>
    refine ⟨_,_,_,h.inner (by rw [hf]; rfl) rfl ?_ rfl ⟨rfl,rfl,rfl,rfl⟩
      (Or.inr ⟨by rw [hf]; rfl,?_⟩)⟩
    · rintro i ⟨⟩
      exact h.index f j (by rw [hf]; rfl)
    · show (value + 1) % 2 ^ 64 = _
      rw [hO.value f j value hf]
  | free hf hline => exact ⟨_,_,_,h.unlockStep hf rfl ⟨rfl,rfl,rfl,rfl⟩ rfl⟩
  | handOver hf hline => exact ⟨_,_,_,h.unlockStep hf rfl ⟨rfl,rfl,rfl,rfl⟩ rfl⟩
  | @done f n hf hn hmore =>
    have hless : n = x.counter - 1 := hn.symm.trans (h.decrement hmax hf)
    exact ⟨_,_,_,h.doneStep hf rfl ⟨rfl,rfl,rfl⟩ hless (Or.inl ⟨rfl,hmore⟩)⟩
  | @last f hf hzero =>
    have hless := h.decrement hmax hf
    have hnil : ({ x with counter := 0, group := [] }.goto f .returned).counter = x.counter - 1 :=
      (hless.symm.trans hzero).symm
    exact ⟨_,_,_,h.doneStep hf rfl ⟨rfl,rfl,rfl⟩ hnil (Or.inr ⟨rfl,rfl⟩)⟩

end Turns

/-! ## The steps of the program -/

/-- The routines follow their coroutines. -/
structure Tied {ω : Type*} (s : Workload ω ι) : Prop where
  gone : ∀ f, s.pool.coro f = .absent ∨ s.pool.coro f = .completed → s.routine f = .returned
  suspended : ∀ f, (s.routine f).suspended = true → s.pool.coro f = .stopped

section Steps

variable {kFibers kTasks : ℕ} {s s' : Workload ω ι} {v : ω} {f : ι}
  {pool : Runtime ω ι Unit Unit Empty Unit}

omit [DecidableEq ω] in
/-- A coroutine and its routine move. -/
theorem Tied.move {s' : Workload ω ι} {c : Coro} {p : Point} (hT : Tied s)
    (hcoro : s'.pool.coro = Function.update s.pool.coro f c)
    (hroutine : s'.routine = Function.update s.routine f p)
    (hover : p = .returned ∨ c = .stopped ∨ c = .running)
    (hstopped : p.suspended = true → c = .stopped) : Tied s' := by
  obtain ⟨hgone,hsuspended⟩ := hT
  refine ⟨?_,?_⟩
  · intro g hg
    simp only [hcoro,hroutine,Function.update_apply] at hg ⊢
    grind
  · intro g hg
    simp only [hcoro,hroutine,Function.update_apply] at hg ⊢
    grind

omit [DecidableEq ω] in
/-- A routine goes on without a suspension. -/
theorem Tied.goto {s' : Workload ω ι} {p : Point} (hT : Tied s) (hrun : s.pool.coro f = .running)
    (hcoro : s'.pool.coro = s.pool.coro) (hroutine : s'.routine = Function.update s.routine f p)
    (hp : p.suspended = false) : Tied s' := by
  have hsame : Function.update s.pool.coro f .running = s.pool.coro := by
    rw [←hrun,Function.update_eq_self]
  refine hT.move (hcoro.trans hsame.symm) hroutine (Or.inr (Or.inr rfl)) ?_
  rw [hp]
  rintro ⟨⟩

/-- A worker outside of routines touches no object. -/
theorem workerStep_objects {r r' : Runtime ω ι Unit Unit Empty Unit}
    (hs : r.workerStep v = some r') :
    r'.locked = r.locked ∧ r'.counter = r.counter ∧ r'.link = r.link ∧ r'.waiters = r.waiters := by
  simp only [Runtime.workerStep] at hs
  split at hs
  next => split at hs <;> cases hs <;> exact ⟨rfl,rfl,rfl,rfl⟩
  next =>
    cases hs
    exact ⟨rfl,rfl,rfl,rfl⟩
  next => split at hs <;> cases hs <;> exact ⟨rfl,rfl,rfl,rfl⟩
  next => cases hs
  next =>
    cases hs
    exact ⟨rfl,rfl,rfl,rfl⟩
  next => split at hs <;> cases hs <;> exact ⟨rfl,rfl,rfl,rfl⟩
  next f call after hv =>
    cases hs
    cases call with
    | check g =>
      simp only [Runtime.submit]
      split <;> exact ⟨rfl,rfl,rfl,rfl⟩
    | add g | push g => exact ⟨rfl,rfl,rfl,rfl⟩
  next f e hv => exact e.elim
  next =>
    cases hs
    exact ⟨rfl,rfl,rfl,rfl⟩
  next => cases hs

/-- What a worker outside of routines does to the coroutines. -/
theorem workerStep_coro {r r' : Runtime ω ι Unit Unit Empty Unit} (hS : Sound r r.content)
    (hs : r.workerStep v = some r') :
    (∃ f, r.worker v = .resume f ∧ r'.coro = Function.update r.coro f .running) ∨
      (∀ f, r.worker v ≠ .resume f) ∧ (r'.coro = r.coro ∨
        ∃ f, r.coro f = .completed ∧ r'.coro = Function.update r.coro f .absent) := by
  simp only [Runtime.workerStep] at hs
  split at hs
  next hv =>
    refine Or.inr ⟨by rw [hv]; rintro _ ⟨⟩,Or.inl ?_⟩
    split at hs <;> cases hs <;> rfl
  next hv =>
    refine Or.inr ⟨by rw [hv]; rintro _ ⟨⟩,Or.inl ?_⟩
    cases hs
    rfl
  next f hv =>
    refine Or.inl ⟨f,hv,?_⟩
    have hf : r.coro f = .stopped := by
      have hstatus := hS.status v f (by rw [hS.hand,hv]; exact List.mem_singleton_self f)
      rw [hstatus,hv]
      rfl
    rw [hf] at hs
    cases hs
    rfl
  next => cases hs
  next hv =>
    refine Or.inr ⟨by rw [hv]; rintro _ ⟨⟩,Or.inl ?_⟩
    cases hs
    rfl
  next hv =>
    refine Or.inr ⟨by rw [hv]; rintro _ ⟨⟩,Or.inl ?_⟩
    split at hs <;> cases hs <;> rfl
  next f call after hv =>
    refine Or.inr ⟨by rw [hv]; rintro _ ⟨⟩,Or.inl ?_⟩
    cases hs
    exact (submit_history r call f).2.1
  next f e hv => exact e.elim
  next f hv =>
    refine Or.inr ⟨by rw [hv]; rintro _ ⟨⟩,Or.inr ⟨f,?_,?_⟩⟩
    · have hstatus := hS.status v f (by rw [hS.hand,hv]; exact List.mem_singleton_self f)
      rw [hstatus,hv]
      rfl
    · cases hs
      rfl
  next => cases hs

/-- A step of a worker outside of routines is a turn when it resumes a fiber. -/
theorem turn_worker (hS : Sound s.pool s.pool.content) (hT : Tied s)
    (hs : step kFibers kTasks s (.worker v) = some s') :
    (s'.view = s.view ∨ Turn kFibers kTasks s.view s'.view) ∧ Tied s' := by
  simp only [step,Option.map_eq_some_iff] at hs
  obtain ⟨pool,hpool,rfl⟩ := hs
  obtain ⟨hlocked,hcounter,hlink,hwaiters⟩ := workerStep_objects hpool
  rcases workerStep_coro hS hpool with ⟨f,hv,hcoro⟩ | ⟨hnot,hcoro⟩
  · have hmem : f ∈ s.pool.content (.hand v) := by simp [Runtime.content,hv,WorkerPc.hand]
    have hout : ∀ o, f ∉ s.pool.content (.list o) := by
      intro o ho
      cases hS.exclusive.unique _ _ f ho hmem
    have hroutine : s.afterWorker v = Function.update s.routine f (s.routine f).resumed := by
      rw [Workload.afterWorker,hv]
    refine ⟨Or.inr ?_,hT.move hcoro hroutine (Or.inr (Or.inr rfl)) ?_⟩
    · have hturn : Turn kFibers kTasks s.view (s.view.goto f (s.routine f).resumed) :=
        Turn.resume (hout (.mutex ())) (hout (.group ()))
      simpa only [Workload.view,View.goto,Runtime.content,hlocked,hcounter,hlink,hwaiters,
        hroutine] using hturn
    · rw [(s.routine f).resumed_suspended]
      rintro ⟨⟩
  · have hroutine : s.afterWorker v = s.routine := by
      unfold Workload.afterWorker
      split
      next f hv => exact absurd hv (hnot f)
      next => rfl
    refine ⟨Or.inl ?_,?_⟩
    · simp only [Workload.view,Runtime.content,hlocked,hcounter,hlink,hwaiters,hroutine]
    · rcases hcoro with hcoro | ⟨f,hf,hcoro⟩
      · exact ⟨fun g hg => hroutine ▸ hT.gone g (hcoro ▸ hg),
          fun g hg => hcoro ▸ hT.suspended g (hroutine ▸ hg)⟩
      · -- the fiber had completed, and is deleted
        have hreturned := hT.gone f (Or.inr hf)
        refine hT.move hcoro (p := .returned) ?_ (Or.inl rfl) (by rintro ⟨⟩)
        rw [←hreturned,Function.update_eq_self]
        exact hroutine

/-- A fiber that parks is the last of its list, and leaves the other lists. -/
theorem park_content {r : Runtime ω ι Unit Unit Empty Unit} (hS : Sound r r.content)
    (hv : r.worker v = .body f) (o o' : Object Unit Unit Empty) :
    ((r.park f o).goto v .pop).content (.list o') =
      if o' = o then r.content (.list o) ++ [f] else r.content (.list o') := by
  rw [←congrFun (hS.park hv (o := o)).content (.list o')]
  simp only [Function.update_apply,Place.list.injEq,reduceCtorEq,if_false]

omit [DecidableEq ω] [DecidableEq ι] in
/-- The fiber of a routine is running. -/
theorem running {r : Runtime ω ι Unit Unit Empty Unit} (hS : Sound r r.content)
    (hv : r.worker v = .body f) : r.coro f = .running := by
  have hstatus := hS.status v f (by rw [hS.hand,hv]; exact List.mem_singleton_self f)
  rw [hstatus,hv]
  rfl

/-- wg.Wait() passes or parks. -/
theorem turn_wait (hS : Sound s.pool s.pool.content) (hT : Tied s) (hv : s.pool.worker v = .body f)
    (hf : s.routine f = .wait)
    (hs : s.call v f (.wait ()) (if 0 < s.pool.counter () then .waiting else .print) = some s') :
    Turn kFibers kTasks s.view s'.view ∧ Tied s' := by
  have hrun := running hS hv
  by_cases hpos : 0 < s.pool.counter ()
  · simp only [Workload.call,Runtime.perform,if_pos hpos,Option.map_some,Option.some.injEq] at hs
    subst hs
    have hpark := park_content hS hv (.group ())
    refine ⟨?_,hT.move rfl rfl (Or.inr (Or.inl rfl)) fun _ => rfl⟩
    have hview : Workload.view { s with
          pool := (s.pool.park f (.group ())).goto v .pop
          routine := Function.update s.routine f .waiting } =
        { s.view with group := s.view.group ++ [f] }.goto f .waiting :=
      View.ext rfl (hpark (.mutex ())) rfl (hpark (.group ())) rfl rfl rfl rfl
    rw [hview]
    exact Turn.park hf hpos
  · simp only [Workload.call,Runtime.perform,if_neg hpos,Option.map_some,Option.some.injEq] at hs
    subst hs
    exact ⟨Turn.pass hf (Nat.eq_zero_of_not_pos hpos),hT.goto hrun rfl rfl rfl⟩

/-- The constructor of the guard takes the mutex or parks. -/
theorem turn_lock {j : ℕ} (hS : Sound s.pool s.pool.content) (hT : Tied s)
    (hv : s.pool.worker v = .body f) (hf : s.routine f = .lock j)
    (hs : s.call v f (.lock ()) (if s.pool.locked () then .locking j else .load j) = some s') :
    Turn kFibers kTasks s.view s'.view ∧ Tied s' := by
  have hrun := running hS hv
  by_cases hheld : s.pool.locked () = true
  · simp only [Workload.call,Runtime.perform,if_pos hheld,Option.map_some,Option.some.injEq] at hs
    subst hs
    have hpark := park_content hS hv (.mutex ())
    refine ⟨?_,hT.move rfl rfl (Or.inr (Or.inl rfl)) fun _ => rfl⟩
    have hview : Workload.view { s with
          pool := (s.pool.park f (.mutex ())).goto v .pop
          routine := Function.update s.routine f (.locking j) } =
        { s.view with line := s.view.line ++ [f] }.goto f (.locking j) :=
      View.ext rfl (hpark (.mutex ())) rfl (hpark (.group ())) rfl rfl rfl rfl
    rw [hview]
    exact Turn.enqueue hf hheld
  · simp only [Workload.call,Runtime.perform,if_neg hheld,Option.map_some,Option.some.injEq] at hs
    subst hs
    refine ⟨?_,hT.goto hrun rfl rfl rfl⟩
    have hlocked : Function.update s.pool.locked () true () = true := Function.update_self ..
    have hview : Workload.view { s with
          pool := { s.pool with locked := Function.update s.pool.locked () true }
          routine := Function.update s.routine f (.load j) } =
        { s.view with locked := true }.goto f (.load j) :=
      View.ext hlocked rfl rfl rfl rfl rfl rfl rfl
    rw [hview]
    exact Turn.take hf ((Bool.not_eq_true _).mp hheld)

/-- The destructor of the guard frees the mutex or hands it over. -/
theorem turn_unlock {j : ℕ} (hS : Sound s.pool s.pool.content) (hT : Tied s)
    (hv : s.pool.worker v = .body f) (hf : s.routine f = .unlock j)
    (hs : s.call v f (.unlock ()) (.lockFrom kTasks (j + 1)) = some s') :
    Turn kFibers kTasks s.view s'.view ∧ Tied s' := by
  have hrun := running hS hv
  have hlists := hS.lists (.mutex ())
  have hpoint : (Point.lockFrom kTasks (j + 1)).suspended = false := by
    unfold Point.lockFrom
    split <;> rfl
  by_cases hempty : (s.pool.waiters (.mutex ())).isEmpty = true
  · simp only [Workload.call,Runtime.perform,if_pos hempty,Option.map_some,Option.some.injEq] at hs
    subst hs
    refine ⟨?_,hT.goto hrun rfl rfl hpoint⟩
    have hlocked : Function.update s.pool.locked () false () = false := Function.update_self ..
    have hview : Workload.view { s with
          pool := { s.pool with locked := Function.update s.pool.locked () false }
          routine := Function.update s.routine f (.lockFrom kTasks (j + 1)) } =
        { s.view with locked := false }.goto f (.lockFrom kTasks (j + 1)) :=
      View.ext hlocked rfl rfl rfl rfl rfl rfl rfl
    rw [hview]
    refine Turn.free hf ?_
    rw [hlists.isEmpty,List.isEmpty_iff] at hempty
    exact hempty
  · obtain ⟨w,rest,hline,hpopped⟩ := hS.first (by simpa using hempty)
    simp only [Workload.call,Runtime.perform,if_neg hempty,hpopped,Option.map_some,
      Option.some.injEq] at hs
    subst hs
    refine ⟨?_,hT.goto hrun rfl rfl hpoint⟩
    have hview : Workload.view { s with
          pool := (s.pool.setWaiters (.mutex ())
            ((s.pool.waiters (.mutex ())).pop s.pool.link)).goto v (.schedule f w .body)
          routine := Function.update s.routine f (.lockFrom kTasks (j + 1)) } =
        { s.view with line := rest }.goto f (.lockFrom kTasks (j + 1)) := by
      refine View.ext rfl ?_ rfl ?_ rfl rfl rfl rfl
      · have hpop := hlists.pop.2.contents
        rw [hline,List.tail_cons] at hpop
        simpa only [Workload.view,View.goto,Runtime.content,Runtime.goto,Runtime.setWaiters,
          Function.update_self] using hpop
      · simp only [Workload.view,View.goto,Runtime.content,Runtime.goto,Runtime.setWaiters]
        rw [Function.update_of_ne (by rintro ⟨⟩)]
    rw [hview]
    exact Turn.handOver hf hline

/-- What wg.Done() does to the objects and to the coroutines. -/
theorem perform_done {r r' : Runtime ω ι Unit Unit Empty Unit} {n : ℕ}
    (hn : (r.counter () + 2 ^ 64 - 1) % 2 ^ 64 = n) (hs : r.perform v f (.done ()) = some r') :
    r'.locked = r.locked ∧ r'.counter () = n ∧ r'.link = r.link ∧ r'.coro = r.coro ∧
      r'.waiters = if n = 0 then Function.update r.waiters (.group ()) .clear else r.waiters := by
  have hcounter : Function.update r.counter () n () = n := Function.update_self ..
  simp only [Runtime.perform,-Nat.reducePow,hn] at hs
  split at hs
  next hzero =>
    rw [if_pos hzero]
    split at hs
    all_goals
      cases hs
      exact ⟨rfl,hcounter,rfl,rfl,rfl⟩
  next hzero =>
    rw [if_neg hzero]
    cases hs
    exact ⟨rfl,hcounter,rfl,rfl,rfl⟩

/-- wg.Done() counts down, and detaches the waiters at zero. -/
theorem turn_done (hS : Sound s.pool s.pool.content) (hT : Tied s) (hv : s.pool.worker v = .body f)
    (hf : s.routine f = .done) (hs : s.call v f (.done ()) .returned = some s') :
    Turn kFibers kTasks s.view s'.view ∧ Tied s' := by
  have hrun := running hS hv
  simp only [Workload.call,Option.map_eq_some_iff] at hs
  obtain ⟨pool,hpool,rfl⟩ := hs
  obtain ⟨n,hn⟩ : ∃ n, (s.pool.counter () + 2 ^ 64 - 1) % 2 ^ 64 = n := ⟨_,rfl⟩
  obtain ⟨hlocked,hcounter,hlink,hcoro,hwaiters⟩ := perform_done hn hpool
  refine ⟨?_,hT.goto hrun hcoro rfl rfl⟩
  by_cases hzero : n = 0
  · rw [if_pos hzero] at hwaiters
    have hview : Workload.view { s with
          pool := pool
          routine := Function.update s.routine f .returned } =
        { s.view with counter := 0, group := [] }.goto f .returned := by
      refine View.ext (congrFun hlocked ()) ?_ (hcounter.trans hzero) ?_ rfl rfl rfl rfl
      · simp only [Workload.view,View.goto,Runtime.content,hlink,hwaiters]
        rw [Function.update_of_ne (by rintro ⟨⟩)]
      · simp only [Workload.view,View.goto,Runtime.content,hlink,hwaiters,Function.update_self]
        rfl
    rw [hview]
    exact Turn.last hf (hn.trans hzero)
  · rw [if_neg hzero] at hwaiters
    have hview : Workload.view { s with
          pool := pool
          routine := Function.update s.routine f .returned } =
        { s.view with counter := n }.goto f .returned := by
      refine View.ext (congrFun hlocked ()) ?_ hcounter ?_ rfl rfl rfl rfl
      all_goals simp only [Workload.view,View.goto,Runtime.content,hlink,hwaiters]
    rw [hview]
    exact Turn.done hf hn hzero

/-- Each statement of a routine is a turn, or the end of the routine. -/
theorem turn_statement {node : ι} (hS : Sound s.pool s.pool.content) (hT : Tied s)
    (hv : s.pool.worker v = .body f) (hs : s.statement kFibers kTasks v f node = some s') :
    (s'.view = s.view ∨ Turn kFibers kTasks s.view s'.view) ∧ Tied s' := by
  have hrun := running hS hv
  have hspawn : ∀ i, (Point.spawnFrom kFibers i).suspended = false := by
    intro i
    unfold Point.spawnFrom
    split <;> rfl
  have hlock : (Point.lockFrom kTasks 0).suspended = false := by
    unfold Point.lockFrom
    split <;> rfl
  simp only [Workload.statement] at hs
  split at hs
  next hf =>
    obtain ⟨n,hn⟩ : ∃ n, (s.pool.counter () + kFibers) % 2 ^ 64 = n := ⟨_,rfl⟩
    have hcall : s.call v f (.add () kFibers) (.spawnFrom kFibers 0) = some { s with
        pool := { s.pool with counter := Function.update s.pool.counter () n }
        routine := Function.update s.routine f (.spawnFrom kFibers 0) } := by
      rw [←hn]
      rfl
    cases hcall.symm.trans hs
    refine ⟨Or.inr ?_,hT.goto hrun rfl rfl (hspawn 0)⟩
    have hcounter : Function.update s.pool.counter () n () = n := Function.update_self ..
    have hview : Workload.view { s with
          pool := { s.pool with counter := Function.update s.pool.counter () n }
          routine := Function.update s.routine f (.spawnFrom kFibers 0) } =
        { s.view with counter := n }.goto f (.spawnFrom kFibers 0) :=
      View.ext rfl rfl hcounter rfl rfl rfl rfl rfl
    rw [hview]
    exact Turn.add hf hn
  next i hf =>
    simp only [Workload.call,Runtime.perform] at hs
    cases hnode : s.pool.coro node with
    | absent =>
      simp only [hnode,Option.map_some,Option.some.injEq] at hs
      subst hs
      have hreturned := hT.gone node (Or.inl hnode)
      have hne : node ≠ f := by
        rintro rfl
        rw [hrun] at hnode
        cases hnode
      refine ⟨Or.inr (Turn.spawn (i := i) hf hreturned),?_,?_⟩
      · have hgone := hT.gone
        intro g hg
        simp only [Runtime.goto,Runtime.construct,Function.update_apply] at hg ⊢
        grind
      · have hsuspended := hT.suspended
        have hspawn' := hspawn (i + 1)
        intro g hg
        simp only [Runtime.goto,Runtime.construct,Function.update_apply] at hg ⊢
        grind
    | stopped | running | completed => simp [hnode] at hs
  next hf =>
    obtain ⟨hturn,hT'⟩ := turn_wait hS hT hv hf hs
    exact ⟨Or.inr hturn,hT'⟩
  next hf =>
    cases hs
    exact ⟨Or.inr (Turn.print hf),hT.goto hrun rfl rfl rfl⟩
  next j hf =>
    obtain ⟨hturn,hT'⟩ := turn_lock hS hT hv hf hs
    exact ⟨Or.inr hturn,hT'⟩
  next j hf =>
    cases hs
    exact ⟨Or.inr (Turn.load hf),hT.goto hrun rfl rfl rfl⟩
  next j value hf =>
    cases hs
    exact ⟨Or.inr (Turn.store hf),hT.goto hrun rfl rfl rfl⟩
  next j hf =>
    obtain ⟨hturn,hT'⟩ := turn_unlock hS hT hv hf hs
    exact ⟨Or.inr hturn,hT'⟩
  next hf =>
    obtain ⟨hturn,hT'⟩ := turn_done hS hT hv hf hs
    exact ⟨Or.inr hturn,hT'⟩
  next hf =>
    simp only [Workload.call,Runtime.perform,Option.map_some,Option.some.injEq] at hs
    subst hs
    have hsame : Function.update s.routine f .returned = s.routine := by
      rw [←hf,Function.update_eq_self]
    exact ⟨Or.inl (View.ext rfl rfl rfl rfl hsame rfl rfl rfl),
      hT.move rfl rfl (Or.inl rfl) (by rintro ⟨⟩)⟩
  next => cases hs
  next => cases hs

/-- Each step of the program is a turn or leaves what the routines see. -/
theorem turn_step {a : Action ω ι} (hS : Sound s.pool s.pool.content) (hT : Tied s)
    (hs : step kFibers kTasks s a = some s') :
    (s'.view = s.view ∨ Turn kFibers kTasks s.view s'.view) ∧ Tied s' := by
  cases a with
  | worker v => exact turn_worker hS hT hs
  | routine v node =>
    simp only [step] at hs
    split at hs
    next f hv => exact turn_statement hS hT hv hs
    next => cases hs
  | start f =>
    simp only [step] at hs
    split at hs
    next => cases hs
    next hstarted =>
      simp only [PoolFibers.step] at hs
      split at hs
      next hout hf =>
        simp only [Option.map_some,Option.some.injEq] at hs
        subst hs
        have hreturned := hT.gone f (Or.inl hf)
        exact ⟨Or.inr (Turn.start ((Bool.not_eq_true _).mp hstarted) hreturned),
          hT.move rfl rfl (Or.inr (Or.inl rfl)) (by rintro ⟨⟩)⟩
      next => cases hs
  | outside =>
    simp only [step,PoolFibers.step] at hs
    cases hcall : s.pool.outside () with
    | none => simp [hcall] at hs
    | some call =>
      simp only [hcall,Option.map_some,Option.some.injEq] at hs
      subst hs
      cases call with
      | check g =>
        simp only [Runtime.submit]
        split <;> exact ⟨Or.inl rfl,hT.gone,hT.suspended⟩
      | add g | push g => exact ⟨Or.inl rfl,hT.gone,hT.suspended⟩
  | startShutdown =>
    cases hs
    exact ⟨Or.inl rfl,hT.gone,hT.suspended⟩

/-- A statement is an operation of the fiber or leaves the pool alone. -/
theorem statement_pool {node : ι} (hs : s.statement kFibers kTasks v f node = some s') :
    s'.pool = s.pool ∨ ∃ op, s.pool.perform v f op = some s'.pool := by
  have hcall : ∀ {op p}, s.call v f op p = some s' → s.pool.perform v f op = some s'.pool := by
    intro op p h
    simp only [Workload.call,Option.map_eq_some_iff] at h
    obtain ⟨pool,hpool,rfl⟩ := h
    exact hpool
  simp only [Workload.statement] at hs
  split at hs
  next => exact Or.inr ⟨_,hcall hs⟩
  next =>
    simp only [Workload.call,Option.map_map,Option.map_eq_some_iff] at hs
    obtain ⟨pool,hpool,rfl⟩ := hs
    exact Or.inr ⟨_,hpool⟩
  next => exact Or.inr ⟨_,hcall hs⟩
  next =>
    cases hs
    exact Or.inl rfl
  next => exact Or.inr ⟨_,hcall hs⟩
  next =>
    cases hs
    exact Or.inl rfl
  next =>
    cases hs
    exact Or.inl rfl
  next => exact Or.inr ⟨_,hcall hs⟩
  next => exact Or.inr ⟨_,hcall hs⟩
  next => exact Or.inr ⟨_,hcall hs⟩
  next => cases hs
  next => cases hs

/-- The steps of the program are steps of the fibers, or leave the pool alone. -/
theorem pool_step {a : Action ω ι} (hs : step kFibers kTasks s a = some s') :
    s'.pool = s.pool ∨ ∃ b, PoolFibers.step s.pool b = some s'.pool ∧
      (b = .startShutdown → a = .startShutdown) := by
  cases a with
  | start f =>
    simp only [step] at hs
    split at hs
    next => cases hs
    next =>
      simp only [Option.map_eq_some_iff] at hs
      obtain ⟨pool,hpool,rfl⟩ := hs
      exact Or.inr ⟨_,hpool,by rintro ⟨⟩⟩
  | outside =>
    simp only [step,Option.map_eq_some_iff] at hs
    obtain ⟨pool,hpool,rfl⟩ := hs
    exact Or.inr ⟨_,hpool,by rintro ⟨⟩⟩
  | worker v =>
    simp only [step,Option.map_eq_some_iff] at hs
    obtain ⟨pool,hpool,rfl⟩ := hs
    exact Or.inr ⟨.worker v,hpool,by rintro ⟨⟩⟩
  | routine v node =>
    simp only [step] at hs
    split at hs
    next f hv =>
      rcases statement_pool hs with hsame | ⟨op,hop⟩
      · exact Or.inl hsame
      · refine Or.inr ⟨.op v op,?_,by rintro ⟨⟩⟩
        simp only [PoolFibers.step,hv]
        exact hop
    next => cases hs
  | startShutdown =>
    cases hs
    exact Or.inr ⟨.startShutdown,rfl,fun _ => rfl⟩

/-- The pool of the program is one that the fibers reach. -/
theorem pool_reachable (hr : (workload ω ι kFibers kTasks).Reachable s) :
    (fibers ω ι Unit Unit Empty Unit).Reachable s.pool := by
  refine System.Reachable.invariant ?_ ?_ hr
  · exact .start
  · intro s a s' h hs
    rcases pool_step hs with hsame | ⟨b,hb,-⟩
    · rw [hsame]
      exact h
    · exact h.next hb

end Steps

section Runs

variable {kFibers kTasks : ℕ} {s : Workload ω ι}

omit [DecidableEq ω] [DecidableEq ι] in
theorem tied_initial : Tied (initial ω ι) := by
  refine ⟨fun f _ => rfl,?_⟩
  rintro f ⟨⟩

omit [DecidableEq ω] [DecidableEq ι] in
/-- Nobody owns the mutex at the start. -/
theorem orderly_initial : Orderly (initial ω ι).view := by
  have hnobody : ∀ f, ¬(initial ω ι).view.Owns f := by
    rintro f (hf | ⟨⟨j,hj⟩,-⟩)
    · cases hf
    · cases hj
  constructor
  case line => rintro f ⟨⟩
  case nodup => exact List.nodup_nil
  case group => rintro f ⟨⟩
  case free => exact fun _ => ⟨rfl,hnobody⟩
  case held => rintro ⟨⟩
  case unique => exact fun f g hf _ => absurd hf (hnobody f)
  case value => rintro f j value ⟨⟩

omit [DecidableEq ω] [DecidableEq ι] in
/-- Nothing is counted at the start. -/
theorem books_initial : Books kFibers kTasks (initial ω ι).view ∅ 0 0 := by
  have hinner : ∀ f, ((initial ω ι).view.routine f).inner = false := fun f => rfl
  constructor
  case mem => simp [hinner]
  case counter => rfl
  case cs => simp [initial,Workload.view]
  case index => rintro f j ⟨⟩
  case outer => rintro f g ⟨⟩
  case before => exact fun _ => ⟨fun f => rfl,rfl,rfl,rfl⟩
  case silent => rintro f ⟨⟩
  case new => rintro f ⟨⟩
  case all => rintro f ⟨⟩
  case spawn => rintro f i ⟨⟩
  case spawned => rintro f (hf | hf | hf) <;> cases hf
  case parked => rintro f ⟨⟩
  case woken => rintro f ⟨⟩
  case print => rintro f ⟨⟩
  case output => rintro ⟨⟩

/-- The order of the mutex and the books are kept in every run. -/
theorem books_reachable (hmax : kFibers < 2 ^ 64)
    (hr : (workload ω ι kFibers kTasks).Reachable s) :
    Tied s ∧ Orderly s.view ∧
      ∃ live rest finished, Books kFibers kTasks s.view live rest finished := by
  have hboth : (fibers ω ι Unit Unit Empty Unit).Reachable s.pool ∧ Tied s ∧ Orderly s.view ∧
      ∃ live rest finished, Books kFibers kTasks s.view live rest finished := by
    refine System.Reachable.invariant ?_ ?_ hr
    · exact ⟨.start,tied_initial,orderly_initial,∅,0,0,books_initial⟩
    · rintro s a s' ⟨hpool,hT,hO,live,rest,finished,hB⟩ hs
      have hS := PoolFibers.sound_reachable hpool
      obtain ⟨hview,hT'⟩ := turn_step hS hT hs
      have hpool' : (fibers ω ι Unit Unit Empty Unit).Reachable s'.pool := by
        rcases pool_step hs with hsame | ⟨b,hb,-⟩
        · rw [hsame]
          exact hpool
        · exact hpool.next hb
      refine ⟨hpool',hT',?_⟩
      rcases hview with hsame | hturn
      · rw [hsame]
        exact ⟨hO,live,rest,finished,hB⟩
      · exact ⟨hO.turn hturn,hB.turn hmax hO hturn⟩
  exact hboth.2

/-- In every run of the program at most one fiber is between the constructor and the
destructor of its guard, the variable does not change between the load and the store of
an increment, and when the program prints, it prints that every fiber has added one in
each of its iterations: no increment is lost and none is made twice. No waiter without a
handle is scheduled and no coroutine is resumed that runs or has completed. -/
theorem workload_counts (hmax : kFibers < 2 ^ 64)
    (hr : (workload ω ι kFibers kTasks).Reachable s) :
    (∀ f g, (s.routine f).critical = true → (s.routine g).critical = true → f = g) ∧
    (∀ f j value, s.routine f = .store j value → value = s.cs) ∧
    (s.printed = [] ∨ s.printed = [kFibers * kTasks % 2 ^ 64]) ∧
    s.pool.fault = false := by
  obtain ⟨-,hO,live,rest,finished,hB⟩ := books_reachable hmax hr
  refine ⟨?_,hO.value,?_,(PoolFibers.sound_reachable (pool_reachable hr)).fault⟩
  · exact fun f g hf hg => hO.unique f g (Or.inl hf) (Or.inl hg)
  · by_cases hstarted : s.started = true
    · by_cases hout : ∃ f, (s.routine f).outer = true
      · obtain ⟨f,hf⟩ := hout
        exact Or.inl (hB.silent f hf)
      · exact Or.inr (hB.output hstarted fun f => (Bool.not_eq_true _).mp (not_exists.mp hout f)).1
    · exact Or.inl (hB.before ((Bool.not_eq_true _).mp hstarted)).2.1

end Runs

/-- Two fibers with one iteration each, on two workers: the first has loaded the variable,
and the second waits for the mutex. -/
def contendedSchedule : List (Action (Fin 2) (Fin 3)) :=
  [.start 0,.outside,.outside,.outside,.worker 0,.worker 0,.routine 0 0,.routine 0 1,.worker 0,
    .worker 0,.worker 0,.routine 0 2,.worker 0,.worker 0,.worker 0,.routine 0 0,.worker 0,.worker 0,
    .worker 1,.worker 1,.routine 0 0,.routine 1 0,.routine 0 0]

theorem workload_counts_contended : ∃ s, (workload (Fin 2) (Fin 3) 2 1).Reachable s ∧
    s.routine 1 = .store 0 0 ∧ s.routine 2 = .locking 0 ∧
    (∀ f g, (s.routine f).critical = true → (s.routine g).critical = true → f = g) ∧
    (∀ f j value, s.routine f = .store j value → value = s.cs) ∧
    (s.printed = [] ∨ s.printed = [2 * 1 % 2 ^ 64]) ∧ s.pool.fault = false := by
  have hends : (workload (Fin 2) (Fin 3) 2 1).Ends (initial ..) contendedSchedule fun s =>
      s.routine 1 = .store 0 0 ∧ s.routine 2 = .locking 0 := by
    decide
  obtain ⟨s,hr,hstore,hlocking⟩ := System.Ends.reachable hends
  exact ⟨s,hr,hstore,hlocking,workload_counts (by decide) hr⟩

/-! ## The end of the program -/

/-- Every fiber is somewhere. -/
def Present (r : Runtime ω ι Unit Unit Empty Unit) : Prop :=
  ∀ f, r.coro f ≠ .absent → ∃ p, f ∈ r.content p

section Present

variable {r r' : Runtime ω ι Unit Unit Empty Unit} {v : ω} {f g : ι}

/-- An operation of a routine constructs a fiber, or changes no coroutine but its own. -/
theorem perform_coro {op : Op ι Unit Unit Empty} (hs : r.perform v g op = some r') :
    (∃ k, r'.coro = Function.update r.coro k .stopped ∧ k ∈ r'.content (.call v)) ∨
      ∀ f, f ≠ g → r'.coro f = r.coro f := by
  have hother : ∀ c f, f ≠ g → Function.update r.coro g c f = r.coro f := fun c f hne =>
    Function.update_of_ne hne ..
  cases op with
  | yield | finish =>
    cases hs
    exact Or.inr (hother _)
  | go k =>
    simp only [Runtime.perform] at hs
    split at hs <;> cases hs
    refine Or.inl ⟨k,rfl,?_⟩
    simp [Runtime.content,Runtime.goto,WorkerPc.call,task]
  | lock m =>
    simp only [Runtime.perform] at hs
    split at hs <;> cases hs
    next => exact Or.inr (hother _)
    next => exact Or.inr fun _ _ => rfl
  | unlock m =>
    simp only [Runtime.perform] at hs
    split at hs
    next =>
      cases hs
      exact Or.inr fun _ _ => rfl
    next => split at hs <;> cases hs <;> exact Or.inr fun _ _ => rfl
  | add m amount =>
    cases hs
    exact Or.inr fun _ _ => rfl
  | done m =>
    obtain ⟨-,-,-,hcoro,-⟩ := perform_done rfl hs
    exact Or.inr fun f _ => congrFun hcoro f
  | wait m =>
    simp only [Runtime.perform] at hs
    split at hs <;> cases hs
    next => exact Or.inr (hother _)
    next => exact Or.inr fun _ _ => rfl
  | await e | fire e => exact e.elim

/-- A fiber that a step constructs is in the hands of the Submit for it. -/
theorem born_step {b : PoolFibers.Action ω ι Unit Unit Empty Unit} (hS : Sound r r.content)
    (hs : PoolFibers.step r b = some r') (hold : r.coro f = .absent) (hnew : r'.coro f ≠ .absent) :
    ∃ p, f ∈ r'.content p := by
  cases b with
  | worker v =>
    rcases workerStep_coro hS hs with ⟨g,hv,hcoro⟩ | ⟨-,hcoro | ⟨g,-,hcoro⟩⟩
    · have hne : f ≠ g := by
        rintro rfl
        refine hS.absent hold (.hand v) ?_
        rw [hS.hand,hv]
        exact List.mem_singleton_self f
      rw [hcoro,Function.update_of_ne hne] at hnew
      exact absurd hold hnew
    · rw [hcoro] at hnew
      exact absurd hold hnew
    · rw [hcoro,Function.update_apply] at hnew
      split at hnew
      next => exact absurd rfl hnew
      next => exact absurd hold hnew
  | op v op =>
    simp only [PoolFibers.step] at hs
    split at hs
    next g hv =>
      have hne : f ≠ g := by
        rintro rfl
        rw [running hS hv] at hold
        cases hold
      rcases perform_coro hs with ⟨k,hcoro,hk⟩ | hcoro
      · rw [hcoro,Function.update_apply] at hnew
        split at hnew
        next hf => exact ⟨_,hf ▸ hk⟩
        next => exact absurd hold hnew
      · exact absurd ((hcoro f hne).trans hold) hnew
    next => cases hs
  | go k g =>
    simp only [PoolFibers.step] at hs
    split at hs <;> cases hs
    simp only [Runtime.construct,Function.update_apply] at hnew
    split at hnew
    next hf =>
      refine ⟨.outside k,?_⟩
      simp [Runtime.content,task,hf]
    next => exact absurd hold hnew
  | outside k =>
    simp only [PoolFibers.step] at hs
    split at hs <;> cases hs
    next call hk =>
      rw [(submit_history r call f).2.1] at hnew
      exact absurd hold hnew
  | startShutdown =>
    cases hs
    exact absurd hold hnew

/-- Before the shutdown no step drops a fiber. -/
theorem Present.step {b : PoolFibers.Action ω ι Unit Unit Empty Unit} (hS : Sound r r.content)
    (hshutdown : r.shutdown = false) (hP : Present r) (hs : PoolFibers.step r b = some r') :
    Present r' := by
  intro f hf
  by_cases hold : r.coro f = .absent
  · exact born_step hS hs hold hf
  · obtain ⟨p,hp⟩ := hP f hold
    obtain ⟨c',hc',hcovers⟩ := hS.step hs
    rcases hcovers p f hp with (⟨v,rfl,hv⟩ | ⟨-,hset⟩) | ⟨q,hq⟩
    · -- the fiber is deleted by this step
      simp only [PoolFibers.step,Runtime.workerStep,hv] at hs
      cases hs
      simp [Runtime.goto,Runtime.setCoro] at hf
    · rw [hshutdown] at hset
      cases hset
    · exact ⟨q,hc'.content ▸ hq⟩

end Present

/-- The destructor of the pool has not begun. -/
def BeforeShutdown (_ : Workload ω ι) : Action ω ι → Prop
  | .startShutdown => False
  | _ => True

omit [DecidableEq ω] [DecidableEq ι] in
instance (s : Workload ω ι) : ∀ a, Decidable (BeforeShutdown s a)
  | .startShutdown => isFalse id
  | .start _ | .outside | .worker _ | .routine .. => isTrue trivial

/-- The program has begun, nothing is in the queue of the pool and no worker has a task. -/
structure Quiet (s : Workload ω ι) : Prop where
  started : s.started = true
  outside : s.pool.outside () = none
  tasks : s.pool.tasks.contents s.pool.next = []
  workers : ∀ v, s.pool.worker v = .pop ∨ s.pool.worker v = .empty

section Completion

variable {kFibers kTasks : ℕ} {s : Workload ω ι}

/-- Before the shutdown every fiber is somewhere. -/
theorem present_reachable (hr : (workload ω ι kFibers kTasks).ReachableUnder BeforeShutdown s) :
    Present s.pool := by
  intro f
  have hboth : s.pool.shutdown = false ∧ Present s.pool := by
    refine System.ReachableUnder.invariant ?_ ?_ hr
    · exact ⟨rfl,fun f hf => absurd rfl hf⟩
    · rintro s a s' hr ⟨hshutdown,hP⟩ ha hs
      have hS := PoolFibers.sound_reachable (pool_reachable hr.reachable)
      rcases pool_step hs with hsame | ⟨b,hb,hstart⟩
      · rw [hsame]
        exact ⟨hshutdown,hP⟩
      · refine ⟨?_,hP.step hS hshutdown hb⟩
        rw [←Bool.not_eq_true]
        intro hset
        rcases (step_pending (g := f) hS hb).1 hset with hbefore | hb
        · rw [hshutdown] at hbefore
          cases hbefore
        · rw [hstart hb] at ha
          exact ha
  exact hboth.2 f

omit [DecidableEq ω] [DecidableEq ι] in
/-- In a quiet state a fiber that is somewhere waits for the mutex or for the wait group. -/
theorem Quiet.waits {p : Place ω Unit Unit Empty Unit} {f : ι} (hq : Quiet s)
    (hS : Sound s.pool s.pool.content) (hf : f ∈ s.pool.content p) :
    f ∈ s.view.line ∨ f ∈ s.view.group := by
  have hworker := hq.workers
  cases p with
  | tasks =>
    simp only [Runtime.content,hq.tasks] at hf
    cases hf
  | hand v =>
    simp only [Runtime.content] at hf
    rcases hworker v with hv | hv <;> rw [hv] at hf <;> cases hf
  | call v =>
    simp only [Runtime.content] at hf
    rcases hworker v with hv | hv <;> rw [hv] at hf <;> cases hf
  | walk v =>
    have hchain := hS.chain v
    have hwalking : (s.pool.worker v).walking = none := by
      rcases hworker v with hv | hv <;> rw [hv] <;> rfl
    rw [hwalking] at hchain
    simp only [Runtime.content] at hf
    cases hd : s.pool.detached v with
    | nil =>
      rw [hd] at hf
      cases hf
    | cons g tail =>
      rw [hd] at hchain
      cases hchain.1
  | list o =>
    cases o with
    | mutex m => exact Or.inl hf
    | group g => exact Or.inr hf
    | event e => exact e.elim
  | outside k =>
    simp only [Runtime.content,hq.outside] at hf
    cases hf

/-- When the pool comes to rest before its destructor begins, the program is over: every
fiber has returned and is deleted, and the program has printed that each of them has added
one in each of its iterations. No fiber is left waiting for the mutex or for the wait
group. -/
theorem workload_completes (hmax : kFibers < 2 ^ 64)
    (hr : (workload ω ι kFibers kTasks).ReachableUnder BeforeShutdown s) (hq : Quiet s) :
    (∀ f, s.pool.coro f = .absent) ∧ s.printed = [kFibers * kTasks % 2 ^ 64] := by
  have hS := PoolFibers.sound_reachable (pool_reachable hr.reachable)
  have hP := present_reachable hr
  obtain ⟨hT,hO,live,rest,finished,hB⟩ := books_reachable hmax hr.reachable
  have hwaits : ∀ f, s.pool.coro f ≠ .absent → f ∈ s.view.line ∨ f ∈ s.view.group := by
    intro f hf
    obtain ⟨p,hp⟩ := hP f hf
    exact hq.waits hS hp
  have hexists : ∀ f, s.routine f ≠ .returned → s.pool.coro f ≠ .absent := fun f hf habsent =>
    hf (hT.gone f (Or.inl habsent))
  -- the owner of the mutex would wait, for the mutex or for the wait group
  have hline : s.view.line = [] := by
    rw [List.eq_nil_iff_forall_not_mem]
    intro f hf
    have hlocked : s.view.locked = true := by
      rw [←Bool.not_eq_false]
      intro hfree
      rw [(hO.free hfree).1] at hf
      cases hf
    obtain ⟨g,hg⟩ := hO.held hlocked
    have hgroup : g ∉ s.view.group := by
      intro hmem
      have hwaiting := hO.group g hmem
      rcases hg with hcritical | ⟨⟨j,hlocking⟩,-⟩
      · rw [hwaiting] at hcritical
        cases hcritical
      · rw [hwaiting] at hlocking
        cases hlocking
    have hreturned : s.routine g ≠ .returned := by
      intro hreturned
      rcases hg with hcritical | ⟨⟨j,hlocking⟩,-⟩
      · rw [show s.view.routine g = .returned from hreturned] at hcritical
        cases hcritical
      · rw [show s.view.routine g = .returned from hreturned] at hlocking
        cases hlocking
    rcases hwaits g (hexists g hreturned) with hmem | hmem
    · obtain ⟨j,hj⟩ := hO.line g hmem
      rcases hg with hcritical | ⟨-,hout⟩
      · rw [hj] at hcritical
        cases hcritical
      · exact hout hmem
    · exact hgroup hmem
  have hgroup : ∀ f, s.pool.coro f ≠ .absent → f ∈ s.view.group := by
    intro f hf
    rcases hwaits f hf with hmem | hmem
    · rw [hline] at hmem
      cases hmem
    · exact hmem
  -- a fiber that waits for the wait group waits for one that is live
  have hgone : ∀ f, s.pool.coro f = .absent := by
    intro f
    by_contra hf
    have hmem := hgroup f hf
    have hpos := hB.parked f hmem
    have hrest := hB.spawned f (Or.inr (Or.inl (hO.group f hmem)))
    have hcounter := hB.counter
    have hlive : 0 < live.card := by omega
    obtain ⟨g,hg⟩ := Finset.card_pos.mp hlive
    have hinner : (s.routine g).inner = true := (hB.mem g).mp hg
    have hwaiting : s.routine g = .waiting := by
      refine hO.group g (hgroup g (hexists g ?_))
      intro hreturned
      rw [hreturned] at hinner
      cases hinner
    rw [hwaiting] at hinner
    cases hinner
  refine ⟨hgone,(hB.output hq.started fun f => ?_).1⟩
  rw [show s.view.routine f = .returned from hT.gone f (Or.inl (hgone f))]
  rfl

end Completion

/-- The rest of the run: the second fiber is handed the mutex, the last Done wakes the
first routine, and it prints. -/
def finishSchedule : List (Action (Fin 2) (Fin 3)) :=
  [.routine 0 0,.routine 0 0,.worker 0,.worker 0,.worker 0,.worker 0,.routine 0 0,.routine 0 0,
    .worker 0,.worker 1,.worker 1,.routine 1 0,.routine 1 0,.routine 1 0,.routine 1 0,.worker 1,
    .worker 1,.worker 1,.worker 1,.worker 1,.routine 1 0,.worker 1,.worker 0,.worker 0,.routine 0 0,
    .routine 0 0,.worker 0,.worker 0]

theorem workload_completes_two : ∃ s,
    (workload (Fin 2) (Fin 3) 2 1).ReachableUnder BeforeShutdown s ∧ Quiet s ∧
    (∀ f, s.pool.coro f = .absent) ∧ s.printed = [2 * 1 % 2 ^ 64] := by
  have hends : (workload (Fin 2) (Fin 3) 2 1).Ends (initial ..)
      (contendedSchedule ++ finishSchedule) fun s =>
        s.started = true ∧ s.pool.outside () = none ∧ s.pool.tasks.contents s.pool.next = [] ∧
          ∀ v, s.pool.worker v = .pop ∨ s.pool.worker v = .empty := by
    decide
  have hmeets : (workload (Fin 2) (Fin 3) 2 1).Meets BeforeShutdown (initial ..)
      (contendedSchedule ++ finishSchedule) := by
    decide
  obtain ⟨s,hr,hstarted,houtside,htasks,hworkers⟩ := System.Ends.reachableUnder hends hmeets
  have hquiet : Quiet s := ⟨hstarted,houtside,htasks,hworkers⟩
  exact ⟨s,hr,hquiet,workload_completes (by decide) hr hquiet⟩

end ConcurrencyRuntime.MutexWorkload
