import ConcurrencyRuntime.IntrusiveList

/-!
# Stepping through the manual executor

One thread drives the executor. A task that runs may submit further tasks, itself
among them, so the queue changes while it is being drained. RunAtMost and Drain are
one loop, with and without a limit. What they do depends only on the number of
iterations, and the iterations compose.
-/

namespace ConcurrencyRuntime.ManualExecutorStepping

open IntrusiveList

/-- The executor and the next fields of all tasks. -/
structure Executor (N : Type*) where
  /-- The next field of each task. -/
  next : N → Option N
  /-- The task list. -/
  tasks : Header N
  /-- The count_tasks counter. -/
  countTasks : ℕ

/-- What Run of a task does: the world around the executor changes, and the listed
tasks are submitted in this order. -/
abbrev Run (σ N : Type*) := σ → N → σ × List N

/-- How far a call of RunAtMost or Drain has come. -/
structure Progress (σ N : Type*) where
  /-- The world around the executor. -/
  world : σ
  executor : Executor N
  /-- The tasks that this call has run, in order. -/
  ran : List N
  /-- The tasks that were submitted since the call began, in order. -/
  submitted : List N
  /-- The done_tasks counter. -/
  doneTasks : UInt64

/-- How a call ends. -/
inductive Outcome (σ N : Type*) where
  /-- The call returns done_tasks. -/
  | returned (p : Progress σ N)
  /-- Pop has returned null and the task was called. -/
  | fault
  /-- The loop goes on after so many iterations. -/
  | running

/-- IsEmpty. -/
def Executor.isEmpty {N : Type*} (s : Executor N) : Bool := s.countTasks == 0

variable {σ N : Type*} [DecidableEq N]

/-- Submit. -/
def Executor.submit (s : Executor N) (task : N) : Executor N :=
  ⟨s.tasks.pushLinks s.next task,s.tasks.push task,s.countTasks + 1⟩

/-- The section of an iteration that pops a task, behind the test of the counter. -/
def Executor.take {N : Type*} (s : Executor N) : Executor N :=
  { s with tasks := s.tasks.pop s.next, countTasks := s.countTasks - 1 }

/-- The rest of an iteration, behind the test of the counter. -/
def Progress.advance (run : Run σ N) (p : Progress σ N) : Option (Progress σ N) :=
  match p.executor.tasks.popped with
  | none => none
  | some task =>
    let (world,submitted) := run p.world task
    some ⟨world,submitted.foldl Executor.submit p.executor.take,p.ran ++ [task],
      p.submitted ++ submitted,p.doneTasks + 1⟩

/-- The loop of RunAtMost, and that of Drain, which has no limit, for at most so many
iterations. -/
def loop (run : Run σ N) (limit : Option UInt64) : ℕ → Progress σ N → Outcome σ N
  | 0,p => if limit = some p.doneTasks ∨ p.executor.countTasks = 0 then .returned p else .running
  | k + 1,p =>
    if limit = some p.doneTasks then .returned p
    else if p.executor.countTasks = 0 then .returned p
    else
      match p.advance run with
      | none => .fault
      | some p' => loop run limit k p'

/-- A call begins. -/
def Progress.begin {N : Type*} (world : σ) (s : Executor N) : Progress σ N :=
  ⟨world,s,[],[],0⟩

/-- RunAtMost. -/
def runAtMost (run : Run σ N) (limit : UInt64) (world : σ) (s : Executor N) : Outcome σ N :=
  loop run (some limit) limit.toNat (.begin world s)

/-- Drain, if it returns within so many iterations. -/
def drain (run : Run σ N) (k : ℕ) (world : σ) (s : Executor N) : Outcome σ N :=
  loop run none k (.begin world s)

/-- What two calls did together. -/
def Progress.after {N : Type*} (p p' : Progress σ N) : Progress σ N :=
  ⟨p'.world,p'.executor,p.ran ++ p'.ran,p.submitted ++ p'.submitted,p.doneTasks + p'.doneTasks⟩

/-- What happens before the outcome. -/
def Outcome.after {N : Type*} (p : Progress σ N) : Outcome σ N → Outcome σ N
  | .returned p' => .returned (p.after p')
  | .fault => .fault
  | .running => .running

/-- A call, and when it returns another one. -/
def Outcome.andThen {N : Type*} (o : Outcome σ N) (call : σ → Executor N → Outcome σ N) :
    Outcome σ N :=
  match o with
  | .returned p => (call p.world p.executor).after p
  | .fault => .fault
  | .running => .running

/-- The iterations by their number alone. -/
def iterations (run : Run σ N) : ℕ → Progress σ N → Outcome σ N
  | 0,p => .returned p
  | k + 1,p =>
    if p.executor.countTasks = 0 then .returned p
    else
      match p.advance run with
      | none => .fault
      | some p' => iterations run k p'

section Iterations

variable {run : Run σ N} {p p' : Progress σ N}

theorem Progress.advance_ran (h : p.advance run = some p') :
    p'.ran.length = p.ran.length + 1 := by
  unfold Progress.advance at h
  split at h
  · cases h
  · cases h
    simp

theorem Progress.advance_done (h : p.advance run = some p') :
    p'.doneTasks = p.doneTasks + 1 := by
  unfold Progress.advance at h
  split at h
  · cases h
  · cases h
    rfl

/-- The limit and the counter of the loop only count the iterations. -/
theorem loop_limit_eq (k : ℕ) (hk : k < 2 ^ 64) (limit : UInt64)
    (hlimit : limit = p.doneTasks + UInt64.ofNat k) :
    loop run (some limit) k p = iterations run k p := by
  induction k generalizing p with
  | zero =>
    have hdone : limit = p.doneTasks := by simpa using hlimit
    simp [loop,iterations,hdone]
  | succ k ih =>
    have hne : limit ≠ p.doneTasks := by
      intro he
      have hzero : UInt64.ofNat (k + 1) = 0 := by
        rw [he] at hlimit
        simpa using hlimit.symm
      have hnat := congrArg UInt64.toNat hzero
      rw [UInt64.toNat_ofNat',Nat.mod_eq_of_lt hk] at hnat
      simp at hnat
    have hneSome : some limit ≠ some p.doneTasks := by simpa using hne
    rw [loop,iterations,if_neg hneSome]
    by_cases hcount : p.executor.countTasks = 0
    · rw [if_pos hcount,if_pos hcount]
    · rw [if_neg hcount,if_neg hcount]
      cases hadv : p.advance run with
      | none => rfl
      | some p' =>
        refine ih (by omega) ?_
        rw [hlimit,Progress.advance_done hadv,UInt64.ofNat_add,UInt64.add_assoc,UInt64.add_comm 1]
        rfl

/-- RunAtMost by the number of its iterations. -/
theorem runAtMost_eq (limit : UInt64) (world : σ) (s : Executor N) :
    runAtMost run limit world s = iterations run limit.toNat (.begin world s) := by
  refine loop_limit_eq limit.toNat limit.toNat_lt limit ?_
  simp [Progress.begin]

/-- Iterations compose. -/
theorem iterations_add (a b : ℕ) (p : Progress σ N) :
    iterations run (a + b) p =
      match iterations run a p with
      | .returned p' => iterations run b p'
      | .fault => .fault
      | .running => .running := by
  induction a generalizing p with
  | zero => simp [iterations]
  | succ a ih =>
    rw [Nat.succ_add,iterations,iterations]
    by_cases hcount : p.executor.countTasks = 0
    · -- nothing is left to run
      simp only [hcount,if_true]
      cases b <;> simp [iterations,hcount]
    · simp only [hcount,if_false]
      cases hadv : p.advance run with
      | none => rfl
      | some p' => exact ih p'

/-- What came before does not change what an iteration does. -/
theorem Progress.advance_after (p p' : Progress σ N) :
    (p.after p').advance run = (p'.advance run).map p.after := by
  simp only [Progress.advance,Progress.after]
  cases p'.executor.tasks.popped with
  | none => rfl
  | some task => simp [Progress.after,UInt64.add_assoc]

/-- What came before does not change what the iterations do. -/
theorem iterations_after (k : ℕ) (p p' : Progress σ N) :
    iterations run k (p.after p') = (iterations run k p').after p := by
  induction k generalizing p' with
  | zero => rfl
  | succ k ih =>
    have hcount : (p.after p').executor.countTasks = p'.executor.countTasks := rfl
    rw [iterations,iterations,hcount,Progress.advance_after]
    by_cases hzero : p'.executor.countTasks = 0
    · rw [if_pos hzero,if_pos hzero]
      rfl
    · rw [if_neg hzero,if_neg hzero]
      cases p'.advance run with
      | none => rfl
      | some p'' => exact ih p''

/-- Two calls of RunAtMost are one. -/
theorem runAtMost_andThen (a b : UInt64) (hab : a.toNat + b.toNat < 2 ^ 64) (world : σ)
    (s : Executor N) :
    (runAtMost run a world s).andThen (runAtMost run b) = runAtMost run (a + b) world s := by
  have hsum : (a + b).toNat = a.toNat + b.toNat := by
    rw [UInt64.toNat_add]
    exact Nat.mod_eq_of_lt hab
  rw [runAtMost_eq,runAtMost_eq,hsum,iterations_add]
  cases hfirst : iterations run a.toNat (.begin world s) with
  | fault => rfl
  | running => rfl
  | returned p =>
    have hp : p.after (.begin p.world p.executor) = p := by simp [Progress.after,Progress.begin]
    have hrest : iterations run b.toNat (p.after (.begin p.world p.executor)) =
        (iterations run b.toNat (.begin p.world p.executor)).after p := iterations_after ..
    rw [hp] at hrest
    simp only [Outcome.andThen]
    rw [runAtMost_eq,hrest]

/-- What the call has run so far stays run. -/
theorem iterations_ran (k : ℕ) (h : iterations run k p = .returned p') :
    p.ran.length ≤ p'.ran.length ∧ p'.ran.length ≤ p.ran.length + k ∧
      (p'.ran.length < p.ran.length + k → p'.executor.countTasks = 0) := by
  induction k generalizing p with
  | zero =>
    cases h
    omega
  | succ k ih =>
    rw [iterations] at h
    by_cases hcount : p.executor.countTasks = 0
    · rw [if_pos hcount] at h
      cases h
      exact ⟨le_rfl,by omega,fun _ => hcount⟩
    · rw [if_neg hcount] at h
      cases hadv : p.advance run with
      | none => simp [hadv] at h
      | some q =>
        rw [hadv] at h
        have hlen := Progress.advance_ran hadv
        obtain ⟨hle,hupper,hempty⟩ := ih h
        exact ⟨by omega,by omega,fun hlt => hempty (by omega)⟩

/-- The counter of the loop is the number of tasks that were run. -/
theorem iterations_done (k : ℕ) (hp : p.doneTasks = UInt64.ofNat p.ran.length)
    (h : iterations run k p = .returned p') : p'.doneTasks = UInt64.ofNat p'.ran.length := by
  induction k generalizing p with
  | zero =>
    cases h
    exact hp
  | succ k ih =>
    rw [iterations] at h
    by_cases hcount : p.executor.countTasks = 0
    · rw [if_pos hcount] at h
      cases h
      exact hp
    · rw [if_neg hcount] at h
      cases hadv : p.advance run with
      | none => simp [hadv] at h
      | some q =>
        rw [hadv] at h
        refine ih ?_ h
        rw [Progress.advance_done hadv,hp,Progress.advance_ran hadv,UInt64.ofNat_add]
        rfl

/-- Some number of iterations always suffices. -/
theorem iterations_ne_running (k : ℕ) (p : Progress σ N) : iterations run k p ≠ .running := by
  induction k generalizing p with
  | zero => simp [iterations]
  | succ k ih =>
    rw [iterations]
    split
    · simp
    · cases p.advance run with
      | none => simp
      | some p' => exact ih p'

/-- Drain stops where the iterations find nothing to run. -/
theorem iterations_of_loop (k m : ℕ) (h : loop run none k p = .returned p')
    (hm : p'.ran.length ≤ p.ran.length + m) : iterations run m p = .returned p' := by
  induction k generalizing p m with
  | zero =>
    simp only [loop,reduceCtorEq,false_or] at h
    by_cases hcount : p.executor.countTasks = 0
    · rw [if_pos hcount] at h
      cases h
      cases m <;> simp [iterations,hcount]
    · simp [hcount] at h
  | succ k ih =>
    simp only [loop,reduceCtorEq,if_false] at h
    by_cases hcount : p.executor.countTasks = 0
    · rw [if_pos hcount] at h
      cases h
      cases m <;> simp [iterations,hcount]
    · rw [if_neg hcount] at h
      cases hadv : p.advance run with
      | none => simp [hadv] at h
      | some q =>
        rw [hadv] at h
        have hlen := Progress.advance_ran hadv
        -- Drain has run this task as well, so one iteration is left
        have hrest : iterations run (p'.ran.length - q.ran.length) q = .returned p' :=
          ih _ h (by omega)
        obtain ⟨hle,-,-⟩ := iterations_ran _ hrest
        cases m with
        | zero => omega
        | succ m =>
          rw [iterations,if_neg hcount,hadv]
          exact ih m h (by omega)

end Iterations

/-- The executor holds these tasks, oldest first, and has counted them. -/
structure Executor.Represents {N : Type*} (s : Executor N) (q : List N) : Prop where
  holds : Holds s.next s.tasks q
  count : s.countTasks = q.length

/-- A queue that is served once. -/
def serve {N : Type*} (run : Run σ N) : σ × List N → σ × List N
  | (world,[]) => (world,[])
  | (world,task :: q) => ((run world task).1,q ++ (run world task).2)

/-- No task is submitted while it is in the queue: however often the queue is
served, no task is in it twice. -/
def Contract {N : Type*} (run : Run σ N) (world : σ) (q : List N) : Prop :=
  ∀ k, ((serve run)^[k] (world,q)).2.Nodup

section Queue

variable {run : Run σ N} {s : Executor N} {q : List N} {world : σ} {task : N}

/-- Submit. -/
theorem Executor.Represents.submit (h : s.Represents q) (ht : task ∉ q) :
    (s.submit task).Represents (q ++ [task]) :=
  ⟨h.holds.push ht,by simp [Executor.submit,h.count]⟩

/-- All that a task submits. -/
theorem Executor.Represents.submitAll {ts : List N} (h : s.Represents q)
    (hnd : (q ++ ts).Nodup) : (ts.foldl Executor.submit s).Represents (q ++ ts) := by
  induction ts generalizing s q with
  | nil => simpa using h
  | cons t ts ih =>
    have happ : q ++ t :: ts = (q ++ [t]) ++ ts := by simp
    rw [happ] at hnd ⊢
    have ht : t ∉ q := by
      intro hmem
      have hq := (List.nodup_append.mp hnd).1
      exact (List.nodup_append.mp hq).2.2 t hmem t (List.mem_singleton_self t) rfl
    exact ih (h.submit ht) hnd

omit [DecidableEq N] in
/-- The section that pops. -/
theorem Executor.Represents.take (h : s.Represents (task :: q)) :
    s.tasks.popped = some task ∧ s.take.Represents q := by
  refine ⟨h.holds.pop.1,h.holds.pop.2,?_⟩
  simp [Executor.take,h.count]

omit [DecidableEq N] in
theorem Contract.next (h : Contract run world q) :
    Contract run (serve run (world,q)).1 (serve run (world,q)).2 :=
  fun k => h (k + 1)

/-- The queue that is there, and the tasks that came and went. -/
structure Ordered {N : Type*} (run : Run σ N) (start : List N) (p : Progress σ N) (q : List N) :
    Prop where
  represents : p.executor.Represents q
  contract : Contract run p.world q
  order : p.ran ++ q = start ++ p.submitted

/-- One iteration serves the queue. -/
theorem Ordered.advance {start : List N} {p : Progress σ N}
    (h : Ordered run start p (task :: q)) :
    ∃ p', p.advance run = some p' ∧ p'.world = (run p.world task).1 ∧
      Ordered run start p' (q ++ (run p.world task).2) := by
  obtain ⟨hpop,htake⟩ := h.represents.take
  have hnext := h.contract.next
  refine ⟨_,by rw [Progress.advance,hpop],rfl,htake.submitAll (hnext 0),hnext,?_⟩
  have horder := congrArg (· ++ (run p.world task).2) h.order
  simpa using horder

/-- The iterations serve the queue as often. -/
theorem Ordered.iterations {start : List N} {p : Progress σ N} (k : ℕ)
    (h : Ordered run start p q) :
    ∃ p', iterations run k p = .returned p' ∧ p'.world = ((serve run)^[k] (p.world,q)).1 ∧
      Ordered run start p' ((serve run)^[k] (p.world,q)).2 := by
  induction k generalizing p q with
  | zero => exact ⟨p,rfl,rfl,h⟩
  | succ k ih =>
    rw [ManualExecutorStepping.iterations,h.represents.count,Function.iterate_succ_apply]
    cases q with
    | nil =>
      -- an empty queue stays as it is
      have hfix : (serve run)^[k] (p.world,[]) = (p.world,[]) :=
        Function.iterate_fixed rfl k
      refine ⟨p,rfl,?_⟩
      rw [serve,hfix]
      exact ⟨rfl,h⟩
    | cons task q =>
      obtain ⟨p',hadv,hworld,hord⟩ := h.advance
      rw [List.length_cons,if_neg (Nat.succ_ne_zero _),hadv]
      obtain ⟨p'',hit,hend⟩ := ih hord
      refine ⟨p'',hit,?_⟩
      rw [hworld] at hend
      exact hend

/-- Drain calls no null task. -/
theorem drain_ne_fault {start : List N} {p : Progress σ N} (h : Ordered run start p q) (k : ℕ) :
    loop run none k p ≠ .fault := by
  induction k generalizing p q with
  | zero =>
    simp only [loop]
    split <;> simp
  | succ k ih =>
    simp only [loop,reduceCtorEq,if_false,h.represents.count]
    cases q with
    | nil => simp
    | cons task q =>
      obtain ⟨p',hadv,-,hord⟩ := h.advance
      rw [List.length_cons,if_neg (Nat.succ_ne_zero _),hadv]
      exact ih hord

end Queue

/-- Stepping composes. Two calls of RunAtMost are one call with the sum of the limits;
Drain, where it returns, is RunAtMost with any limit that its tasks do not exceed;
RunAtMost returns, or calls a null task, and runs less than its limit only when the
executor is empty in the end. When no task is submitted while it is in the queue, no
null task is called, tasks run in the order in which they were submitted, and the
counter is the length of the list at each test and after each Submit. -/
theorem stepping_composes (run : Run σ N) (world : σ) (s : Executor N) :
    (∀ a b : UInt64, a.toNat + b.toNat < 2 ^ 64 →
      (runAtMost run a world s).andThen (runAtMost run b) = runAtMost run (a + b) world s) ∧
    (∀ k p, drain run k world s = .returned p → p.doneTasks = UInt64.ofNat p.ran.length ∧
      ∀ m : UInt64, p.ran.length ≤ m.toNat → runAtMost run m world s = .returned p) ∧
    (∀ limit : UInt64, runAtMost run limit world s ≠ .running ∧
      ∀ p, runAtMost run limit world s = .returned p →
        p.doneTasks.toNat = p.ran.length ∧ p.ran.length ≤ limit.toNat ∧
        (p.ran.length < limit.toNat → p.executor.isEmpty = true)) ∧
    ∀ q, s.Represents q → Contract run world q →
      (∀ k, drain run k world s ≠ .fault) ∧
      ∀ limit : UInt64, ∃ p left, runAtMost run limit world s = .returned p ∧
        p.executor.Represents left ∧ p.ran ++ left = q ++ p.submitted ∧
        ∀ task rest, left = task :: rest → p.executor.tasks.popped = some task ∧
          ∀ front, front <+: (run p.world task).2 →
            (front.foldl Executor.submit p.executor.take).Represents (rest ++ front) := by
  refine ⟨fun a b hab => runAtMost_andThen a b hab world s,?_,?_,?_⟩
  · intro k p hdrain
    have hagree : ∀ m, p.ran.length ≤ m → iterations run m (.begin world s) = .returned p :=
      fun m hm => iterations_of_loop k m hdrain (by simpa [Progress.begin] using hm)
    refine ⟨iterations_done p.ran.length rfl (hagree _ le_rfl),?_⟩
    intro m hm
    rw [runAtMost_eq]
    exact hagree m.toNat hm
  · intro limit
    rw [runAtMost_eq]
    refine ⟨iterations_ne_running _ _,?_⟩
    intro p hp
    obtain ⟨-,hle,hempty⟩ := iterations_ran _ hp
    simp only [Progress.begin,List.length_nil,Nat.zero_add] at hle hempty
    have hlt : p.ran.length < 2 ^ 64 := lt_of_le_of_lt hle limit.toNat_lt
    refine ⟨?_,hle,fun h => by simpa [Executor.isEmpty] using hempty h⟩
    rw [iterations_done _ rfl hp,UInt64.toNat_ofNat',Nat.mod_eq_of_lt hlt]
  · intro q hq hcontract
    have hstart : Ordered run q (.begin world s) q := ⟨hq,hcontract,by simp [Progress.begin]⟩
    refine ⟨?_,?_⟩
    · intro k
      exact drain_ne_fault hstart k
    · intro limit
      obtain ⟨p,hp,-,hord⟩ := hstart.iterations limit.toNat
      refine ⟨p,_,(runAtMost_eq ..).trans hp,hord.represents,hord.order,?_⟩
      intro task rest hleft
      rw [hleft] at hord
      obtain ⟨hpop,htake⟩ := hord.represents.take
      refine ⟨hpop,?_⟩
      rintro front ⟨back,hback⟩
      have hnd : (rest ++ (run p.world task).2).Nodup := hord.contract 1
      rw [← hback,← List.append_assoc] at hnd
      exact htake.submitAll (List.nodup_append.mp hnd).1

/-- The first task to run submits itself twice, and another task. -/
def resubmitTwice : Run ℕ (Fin 2) :=
  fun world task => (world + 1,if world = 0 then [task,task,1] else [])

/-- The second Push of a task that is in the queue makes it its own successor, and the
Push behind it overwrites that link: with three tasks counted the list ends after two,
and RunAtMost calls a null task. -/
theorem resubmitted_twice_fault :
    ∃ s : Executor (Fin 2), s.Represents [0] ∧ runAtMost resubmitTwice 4 0 s = .fault := by
  have hnew : Executor.Represents (⟨fun _ => none,.clear,0⟩ : Executor (Fin 2)) [] :=
    ⟨holds_clear,rfl⟩
  refine ⟨_,hnew.submit List.not_mem_nil,?_⟩
  rfl

/-- The first task to run submits itself again. -/
def resubmit : Run ℕ (Fin 2) := fun world task => (world + 1,if world = 0 then [task] else [])

/-- An executor with two tasks, whose next fields point to themselves at first. -/
def two : Executor (Fin 2) := [0,1].foldl Executor.submit ⟨some,.clear,0⟩

theorem two_represents : two.Represents [0,1] := by
  have hnew : Executor.Represents (⟨some,.clear,0⟩ : Executor (Fin 2)) [] := ⟨holds_clear,rfl⟩
  exact hnew.submitAll (by decide)

theorem resubmit_contract : Contract resubmit 0 [0,1] := by
  intro k
  match k with
  | 0 | 1 | 2 => decide
  | k + 3 =>
    have hlast : (serve resubmit)^[3] (0,[0,1]) = (3,[]) := rfl
    have hfix : (serve resubmit)^[k] (3,[]) = (3,[]) := Function.iterate_fixed rfl k
    rw [Function.iterate_add_apply,hlast,hfix]
    exact List.nodup_nil

theorem stepping_composes_resubmit :
    (runAtMost resubmit 1 0 two).andThen (runAtMost resubmit 2) = runAtMost resubmit 3 0 two ∧
      ∃ p left, runAtMost resubmit 2 0 two = .returned p ∧ p.executor.Represents left ∧
        p.ran ++ left = [0,1] ++ p.submitted := by
  obtain ⟨hsplit,-,-,hqueue⟩ := stepping_composes resubmit 0 two
  obtain ⟨p,left,hp,hleft,horder,-⟩ := (hqueue [0,1] two_represents resubmit_contract).2 2
  exact ⟨hsplit 1 2 (by decide),p,left,hp,hleft,horder⟩

end ConcurrencyRuntime.ManualExecutorStepping
