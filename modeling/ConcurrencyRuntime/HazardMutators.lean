import ConcurrencyRuntime.HazardManager

/-!
# Several mutators on one thread

A thread may have any number of live mutators: each one keeps its own program
point, and all of them write the protected pointer and the retired list of the
thread that made them. The calls on two mutators of one thread may interleave, for a
fiber keeps its mutators when another worker resumes it. The tables of the manager
have a key for each thread and for each mutator: threads have thread states, mutators
have program points and what they hold. The collector and the calls are those of
the manager; the steps that access a thread state are written out here.
-/

namespace ConcurrencyRuntime.HazardMutators

open TransitionSystem HazardManager

/-- The keys of the tables of the manager. -/
inductive Key (μ τ : Type*) where
  /-- A thread, with its thread state. -/
  | thread (t : τ)
  /-- A mutator. -/
  | mutator (m : μ)
  deriving DecidableEq

/-- The manager with the mutators and the threads that made them. -/
structure State (μ τ L V N : Type*) extends Manager (Key μ τ) L V N where
  /-- The thread whose state the mutator has, from MakeMutator on. -/
  home : μ → τ
  /-- History: the times each value was handed to Retire. -/
  retirements : V → ℕ

/-- Scheduler choices. -/
inductive Action (μ τ L V N : Type*) where
  /-- A client writes a shared pointer. -/
  | write (ptr : L) (x : Option V)
  /-- A thread calls MakeMutator. -/
  | makeMutator (m : μ) (t : τ)
  /-- Acquire of a mutator is called. -/
  | acquire (m : μ) (ptr : L)
  /-- Release of a mutator is called. -/
  | release (m : μ)
  /-- Retire of a mutator is called. -/
  | retire (m : μ) (v : Option V)
  /-- A mutator is destroyed. -/
  | destroyMutator (m : μ)
  /-- The allocator serves the new expression of a Retire with an address. -/
  | alloc (m : μ) (node : N)
  /-- The next step of a call on a mutator; a weak compare-exchange reads the flag. -/
  | step (m : μ) (spurious : Bool)
  /-- The mutex is taken for a loop over the thread states in some order. -/
  | lock (order : List (Key μ τ))
  /-- The collector takes its next step; a weak compare-exchange reads the flag. -/
  | collect (spurious : Bool)
  /-- The destructor of the manager is called. -/
  | destroy

variable {μ τ L V N : Type*} [DecidableEq μ] [DecidableEq τ] [DecidableEq L]
  [DecidableEq V] [DecidableEq N]

/-- The next step of a call on a mutator that a thread made. The steps that access no
thread state are those of a thread with one mutator. -/
def mutatorStep (s : Manager (Key μ τ) L V N) (t : τ) (m : μ) (spurious : Bool) :
    Option (Manager (Key μ τ) L V N) :=
  match s.pc (.mutator m) with
  | .makeInsert =>
    if s.collector.locked then none
    else
      some ({ s with
        threads := if Key.thread t ∈ s.threads then s.threads else .thread t :: s.threads }.goto
          (.mutator m) .makeCount)
  | .acquireStore ptr before =>
    some ((s.protect (.thread t) before).goto (.mutator m) (.acquireCheck ptr before))
  | .releaseStore => some ((s.protect (.thread t) none).goto (.mutator m) .idle)
  | .retireCas retire =>
    if s.retiredPtrs (.thread t) = s.next retire ∧ spurious = false then
      some ((s.setRetiredPtrs (.thread t) (some retire)).goto (.mutator m) .retireCount)
    else some (s.setNext retire (s.retiredPtrs (.thread t)))
  | .destroyStore => some ((s.protect (.thread t) none).goto (.mutator m) .destroyCount)
  | _ => threadStep s (.mutator m) spurious

/-- The manager moves on. -/
def State.put {μ τ L V N : Type*} (s : State μ τ L V N) (M : Manager (Key μ τ) L V N) :
    State μ τ L V N :=
  { s with toManager := M }

/-- One scheduled step. -/
def step (s : State μ τ L V N) : Action μ τ L V N → Option (State μ τ L V N)
  | .write ptr x => (HazardManager.step s.toManager (.write ptr x)).map s.put
  | .makeMutator m t =>
    (HazardManager.step s.toManager (.makeMutator (.mutator m))).map
      { s with home := Function.update s.home m t }.put
  | .acquire m ptr => (HazardManager.step s.toManager (.acquire (.mutator m) ptr)).map s.put
  | .release m => (HazardManager.step s.toManager (.release (.mutator m))).map s.put
  | .retire m none => (HazardManager.step s.toManager (.retire (.mutator m) none)).map s.put
  | .retire m (some v) =>
    (HazardManager.step s.toManager (.retire (.mutator m) (some v))).map
      { s with retirements := Function.update s.retirements v (s.retirements v + 1) }.put
  | .destroyMutator m => (HazardManager.step s.toManager (.destroyMutator (.mutator m))).map s.put
  | .alloc m node =>
    match s.pc (.mutator m),s.value node with
    | .retireNew v,none =>
      some (s.put (({ s.toManager with value := Function.update s.value node (some v) }.setNext node
        (s.retiredPtrs (.thread (s.home m)))).goto (.mutator m) (.retireCas node)))
    | _,_ => none
  | .step m spurious => (mutatorStep s.toManager (s.home m) m spurious).map s.put
  | .lock order => (HazardManager.step s.toManager (.lock order)).map s.put
  | .collect spurious => (HazardManager.step s.toManager (.collect spurious)).map s.put
  | .destroy => (HazardManager.step s.toManager .destroy).map s.put

/-- The constructor: no thread is known and the collector thread starts. -/
def initial (μ τ L V N : Type*) [Inhabited τ] : State μ τ L V N where
  toManager := HazardManager.initial (Key μ τ) L V N
  home _ := default
  retirements _ := 0

/-- The hazard manager and any number of mutators on each thread. -/
def mutators (μ τ L V N : Type*) [DecidableEq μ] [DecidableEq τ] [DecidableEq L] [DecidableEq V]
    [DecidableEq N] [Inhabited τ] : System (State μ τ L V N) (Action μ τ L V N) :=
  ⟨initial μ τ L V N,step⟩

/-- A thread makes a mutator. -/
def makes {μ τ L V N : Type*} (m : μ) (t : τ) : List (Action μ τ L V N) :=
  .makeMutator m t :: List.replicate 4 (.step m false)

/-- A mutator acquires a shared pointer that nobody changes meanwhile. -/
def acquires {μ τ L V N : Type*} (m : μ) (ptr : L) : List (Action μ τ L V N) :=
  .acquire m ptr :: List.replicate 3 (.step m false)

end ConcurrencyRuntime.HazardMutators
