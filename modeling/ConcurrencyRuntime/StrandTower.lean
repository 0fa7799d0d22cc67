import ConcurrencyRuntime.BreadthFirst
import ConcurrencyRuntime.IntrusiveStrand

/-!
# A tower of strands over a manual executor

One thread submits tasks and drives the manual executor. The strand at a level
submits its RunBatch to the executor one level below, where level 0 is the
manual executor itself; user tasks go to the top. With one thread every
section under a spinlock is undisturbed, and a section takes no lock twice,
since a strand under its lock calls only what is below it.
-/

namespace ConcurrencyRuntime.StrandTower

open BreadthFirst IntrusiveStrand

/-- What the lists of tasks hold. A user task submits its children when it runs. -/
inductive Job (α : Type*) where
  /-- A task of the user. -/
  | user (task : TaskTree α)
  /-- RunBatch of the strand at a level. -/
  | runBatch (level : ℕ)

/-- A strand. -/
structure Strand (α : Type*) where
  /-- The list of tasks, oldest first. -/
  tasks : List (Job α)
  /-- The state. -/
  state : State

/-- The manual executor and the strands above it. -/
structure Executors (α : Type*) where
  /-- The list of tasks of the manual executor, oldest first. -/
  tasks : List (Job α)
  /-- The counter of the manual executor. -/
  countTasks : ℕ
  /-- The strand at each level from 1 on. -/
  strand : ℕ → Strand α
  /-- History: the user tasks in the order in which they ran. -/
  ran : List α

variable {α : Type*}

/-- Replace the strand at a level. -/
def Executors.setStrand (s : Executors α) (level : ℕ) (x : Strand α) : Executors α :=
  { s with strand := Function.update s.strand level x }

/-- Submit to the executor at a level: the list grows, and a strand that was
ready plans its RunBatch. -/
def submit : ℕ → Job α → Executors α → Executors α
  | 0,job,s => { s with tasks := s.tasks ++ [job],countTasks := s.countTasks + 1 }
  | level+1,job,s =>
    match (s.strand (level + 1)).state with
    | .ready =>
      submit level (.runBatch (level + 1))
        (s.setStrand (level + 1) ⟨(s.strand (level + 1)).tasks ++ [job],.plan⟩)
    | state => s.setStrand (level + 1) ⟨(s.strand (level + 1)).tasks ++ [job],state⟩

/-- The end of RunBatch: back to ready when no task came in, else planned again. -/
def finishBatch (level : ℕ) (s : Executors α) : Option (Executors α) :=
  match (s.strand (level + 1)).state,(s.strand (level + 1)).tasks with
  | .running,[] => some (s.setStrand (level + 1) ⟨[],.ready⟩)
  | .running,job :: rest =>
    some (submit level (.runBatch (level + 1)) (s.setStrand (level + 1) ⟨job :: rest,.plan⟩))
  | _,[] => none
  | _,_ :: _ => some s

/-- Run of a task, with a bound on the depth of the calls; a failed assertion
ends the program. -/
def run (top : ℕ) : ℕ → Executors α → Job α → Option (Executors α)
  | 0,_,_ => none
  | _+1,s,.user task =>
    some (task.children.foldl (fun s t => submit top (.user t) s)
      { s with ran := s.ran ++ [task.label] })
  | _+1,_,.runBatch 0 => none
  | depth+1,s,.runBatch (level+1) =>
    match (s.strand (level + 1)).state,(s.strand (level + 1)).tasks with
    | .plan,job :: rest =>
      ((job :: rest).foldlM (run top depth) (s.setStrand (level + 1) ⟨[],.running⟩)).bind
        (finishBatch level)
    | _,_ => none

/-- The loop body of RunAtMost and Drain behind the test of the counter. -/
def runNext (top depth : ℕ) (s : Executors α) : Option (Executors α) :=
  match s.tasks with
  | [] => none
  | job :: rest => run top depth { s with tasks := rest,countTasks := s.countTasks - 1 } job

/-- RunAtMost, with the number of tasks that were run. -/
def runAtMost (top depth : ℕ) : ℕ → Executors α → Option (ℕ × Executors α)
  | 0,s => some (0,s)
  | limit+1,s =>
    if s.countTasks = 0 then some (0,s)
    else do
      let s ← runNext top depth s
      let (done,s) ← runAtMost top depth limit s
      return (done + 1,s)

/-- Drain, with a bound on the rounds of its loop. -/
def drain (top depth : ℕ) : ℕ → Executors α → Option (ℕ × Executors α)
  | 0,_ => none
  | rounds+1,s =>
    if s.countTasks = 0 then some (0,s)
    else do
      let s ← runNext top depth s
      let (done,s) ← drain top depth rounds s
      return (done + 1,s)

/-- Calls of RunAtMost one after the other. -/
def runCalls (top depth : ℕ) (limits : List ℕ) (s : Executors α) : Option (Executors α) :=
  limits.foldlM (fun s limit => (runAtMost top depth limit s).map Prod.snd) s

/-- Nothing was submitted. -/
def idle : Executors α := ⟨[],0,fun _ => ⟨[],.ready⟩,[]⟩

/-- The roots of a forest are submitted one after the other. -/
def submitAll (top : ℕ) (forest : List (TaskTree α)) (s : Executors α) : Executors α :=
  forest.foldl (fun s t => submit top (.user t) s) s

/-- The strand at a level of a tower of the given height between two rounds,
when these user tasks are left to run. -/
def held (top : ℕ) (q : List (TaskTree α)) (level : ℕ) : Strand α :=
  match q with
  | [] => ⟨[],.ready⟩
  | t :: rest => ⟨if level = top then (t :: rest).map .user else [.runBatch (level + 1)],.plan⟩

/-- The strands from a level up hold these user tasks. -/
def Executors.load (s : Executors α) (level top : ℕ) (q : List (TaskTree α)) : Executors α :=
  { s with strand := fun j => if level ≤ j ∧ j ≤ top then held top q j else s.strand j }

/-- The user tasks have run. -/
def Executors.record (s : Executors α) (q : List (TaskTree α)) : Executors α :=
  { s with ran := s.ran ++ q.map TaskTree.label }

section Batches

variable {s : Executors α} {level top depth : ℕ} {q : List (TaskTree α)}
  {t : TaskTree α} {job : Job α}

@[simp]
theorem setStrand_strand_self (s : Executors α) (level : ℕ) (x : Strand α) :
    (s.setStrand level x).strand level = x :=
  Function.update_self ..

@[simp]
theorem setStrand_setStrand (s : Executors α) (level : ℕ) (x y : Strand α) :
    (s.setStrand level x).setStrand level y = s.setStrand level y := by
  simp [Executors.setStrand]

theorem record_setStrand (s : Executors α) (level : ℕ) (x : Strand α) (q : List (TaskTree α)) :
    (s.setStrand level x).record q = (s.record q).setStrand level x :=
  rfl

/-- The strands from a level up are the strand there and those above it. -/
theorem load_succ (s : Executors α) (h : level ≤ top) (q : List (TaskTree α)) :
    s.load level top q = (s.load (level + 1) top q).setStrand level (held top q level) := by
  simp only [Executors.load,Executors.setStrand]
  congr 1
  funext j
  by_cases hj : j = level
  · subst hj
    simp [h]
  · simp only [Function.update_of_ne hj]
    grind

/-- Replacing a strand does not change those above it. -/
theorem load_setStrand (s : Executors α) (level top : ℕ) (q : List (TaskTree α)) (x : Strand α) :
    (s.load (level + 1) top q).setStrand level x =
      (s.setStrand level x).load (level + 1) top q := by
  simp only [Executors.load,Executors.setStrand]
  congr 1
  funext j
  by_cases hj : j = level
  · subst hj
    simp
  · simp [hj]

/-- Above the top there is nothing to hold. -/
theorem load_above (s : Executors α) (top : ℕ) (q : List (TaskTree α)) :
    s.load (top + 1) top q = s := by
  simp only [Executors.load]
  have hnone : ∀ j, ¬(top + 1 ≤ j ∧ j ≤ top) := fun j => by omega
  simp only [if_neg (hnone _)]

/-- A strand that runs its batch takes in a task and plans nothing. -/
theorem submit_running (s : Executors α) (level : ℕ) (job : Job α)
    (h : (s.strand (level + 1)).state = .running) :
    submit (level + 1) job s =
      s.setStrand (level + 1) ⟨(s.strand (level + 1)).tasks ++ [job],.running⟩ := by
  simp only [submit,h]

/-- The children of a running task come to the end of the list. -/
theorem submitAll_running (ts : List (TaskTree α)) (tasks : List (Job α)) :
    submitAll (level + 1) ts (s.setStrand (level + 1) ⟨tasks,.running⟩) =
      s.setStrand (level + 1) ⟨tasks ++ ts.map .user,.running⟩ := by
  induction ts generalizing tasks with
  | nil => simp [submitAll]
  | cons t ts ih =>
    have hone := submit_running (s.setStrand (level + 1) ⟨tasks,.running⟩) level (.user t) (by simp)
    rw [submitAll,List.foldl_cons,hone,setStrand_strand_self,setStrand_setStrand]
    rw [←submitAll,ih]
    simp

/-- The user tasks of a batch run one after the other. -/
theorem run_users (level depth : ℕ) (q : List (TaskTree α)) (s : Executors α)
    (tasks : List (Job α)) :
    (q.map Job.user).foldlM (run (level + 1) (depth + 1))
        (s.setStrand (level + 1) ⟨tasks,.running⟩) =
      some ((s.record q).setStrand (level + 1)
        ⟨tasks ++ (nextRound q).map .user,.running⟩) := by
  induction q generalizing s tasks with
  | nil => simp [nextRound,Executors.record]
  | cons t q ih =>
    have hone : run (level + 1) (depth + 1) (s.setStrand (level + 1) ⟨tasks,.running⟩) (.user t) =
        some ((s.record [t]).setStrand (level + 1) ⟨tasks ++ t.children.map .user,.running⟩) := by
      rw [run,←submitAll_running]
      rfl
    rw [List.map_cons,List.foldlM_cons,hone]
    refine (ih (s.record [t]) _).trans ?_
    simp [Executors.record,nextRound]

/-- What RunBatch leaves when these user tasks came in: they are held from its
level up, and it is submitted again if there are any. -/
def afterBatch (level top : ℕ) (q : List (TaskTree α)) (s : Executors α) : Executors α :=
  match q with
  | [] => s.load (level + 1) top []
  | t :: rest => submit level (.runBatch (level + 1)) (s.load (level + 1) top (t :: rest))

/-- The end of a batch whose strand took in what it is to hold. -/
theorem finishBatch_load (h : level + 1 ≤ top) (q : List (TaskTree α)) (s : Executors α) :
    finishBatch level ((s.setStrand (level + 1) ⟨(held top q (level + 1)).tasks,.running⟩).load
      (level + 2) top q) = some (afterBatch level top q s) := by
  rw [←load_setStrand]
  cases q with
  | nil =>
    rw [finishBatch,setStrand_strand_self,afterBatch,load_succ s h,setStrand_setStrand]
    rfl
  | cons t rest =>
    rw [finishBatch,setStrand_strand_self,afterBatch,load_succ s h,setStrand_setStrand]
    by_cases htop : level + 1 = top
    · subst htop
      simp [held]
    · simp [held,htop]

/-- A strand that is planned runs its batch. -/
theorem run_planned {jobs : List (Job α)} (h : s.strand (level + 1) = ⟨job :: jobs,.plan⟩) :
    run top (depth + 1) s (.runBatch (level + 1)) =
      ((job :: jobs).foldlM (run top depth) (s.setStrand (level + 1) ⟨[],.running⟩)).bind
        (finishBatch level) := by
  rw [run,h]

/-- RunBatch of a strand runs all the user tasks that are held above it. -/
theorem run_runBatch (d : ℕ) (level depth : ℕ) (s : Executors α) (hd : level + 1 + d = top)
    (hq : q ≠ []) (hdepth : d + 2 ≤ depth) :
    run top depth (s.load (level + 1) top q) (.runBatch (level + 1)) =
      some (afterBatch level top (nextRound q) (s.record q)) := by
  obtain ⟨t,rest,rfl⟩ := List.exists_cons_of_ne_nil hq
  induction d generalizing level s depth with
  | zero =>
    obtain ⟨depth,rfl⟩ : ∃ n, depth = n + 2 := ⟨depth - 2,by omega⟩
    subst hd
    have hheld := load_succ s (Nat.le_refl (level + 1)) (t :: rest)
    rw [load_above] at hheld
    have hstrand : (s.load (level + 1) (level + 1) (t :: rest)).strand (level + 1) =
        ⟨.user t :: rest.map .user,.plan⟩ := by simp [hheld,held]
    rw [Nat.add_zero,run_planned hstrand,hheld,setStrand_setStrand]
    have husers := run_users level depth (t :: rest) s []
    rw [List.map_cons] at husers
    rw [husers,Option.bind_some,List.nil_append]
    have hfinish := finishBatch_load (Nat.le_refl (level + 1)) (nextRound (t :: rest))
      (s.record (t :: rest))
    rw [load_above] at hfinish
    rw [←hfinish]
    cases nextRound (t :: rest) with
    | nil => rfl
    | cons u us => simp [held]
  | succ d ih =>
    obtain ⟨depth,rfl⟩ : ∃ n, depth = n + 1 := ⟨depth - 1,by omega⟩
    have hle : level + 1 ≤ top := by omega
    have hheld := load_succ s hle (t :: rest)
    have htop : level + 1 ≠ top := by omega
    have hstrand : (s.load (level + 1) top (t :: rest)).strand (level + 1) =
        ⟨[.runBatch (level + 1 + 1)],.plan⟩ := by simp [hheld,held,htop]
    rw [run_planned hstrand,hheld,setStrand_setStrand,load_setStrand,List.foldlM_cons,
      ih (level + 1) depth (s.setStrand (level + 1) ⟨[],.running⟩) (by omega) (by omega)]
    have hfinish := finishBatch_load hle (nextRound (t :: rest)) (s.record (t :: rest))
    rw [←hfinish]
    cases nextRound (t :: rest) with
    | nil => rfl
    | cons u us =>
      have hrunning : (((s.record (t :: rest)).setStrand (level + 1) ⟨[],.running⟩).load
          (level + 1 + 1) top (u :: us)).strand (level + 1) = ⟨[],.running⟩ := by
        rw [←load_setStrand]
        exact setStrand_strand_self ..
      have htasks : (held top (u :: us) (level + 1)).tasks = [.runBatch (level + 1 + 1)] := by
        simp [held,htop]
      rw [record_setStrand,afterBatch,submit_running _ _ _ (by rw [hrunning]),hrunning,
        load_setStrand,setStrand_setStrand,htasks]
      rfl

end Batches

/-- A tower of strands between two rounds of the manual executor, when these
user tasks are left to run and these have run. -/
def tower (top : ℕ) (q : List (TaskTree α)) (ran : List α) : Executors α :=
  match top,q with
  | 0,q => ⟨q.map .user,q.length,fun _ => ⟨[],.ready⟩,ran⟩
  | _+1,[] => ⟨[],0,fun _ => ⟨[],.ready⟩,ran⟩
  | top+1,t :: rest => Executors.load ⟨[.runBatch 1],1,fun _ => ⟨[],.ready⟩,ran⟩ 1
    (top + 1) (t :: rest)

section Rounds

variable {top depth : ℕ} {q : List (TaskTree α)} {ran : List α}

/-- The strands of an idle tower are as they were made. -/
theorem load_nil (level top : ℕ) (tasks : List (Job α)) (count : ℕ) (ran : List α) :
    Executors.load ⟨tasks,count,fun _ => ⟨[],.ready⟩,ran⟩ level top [] =
      ⟨tasks,count,fun _ => ⟨[],.ready⟩,ran⟩ := by
  simp only [Executors.load,held,ite_self]

/-- A RunBatch that is submitted to an idle executor goes all the way down. -/
theorem submit_down (ran : List α) (level : ℕ) (h : level < top + 1) (t : TaskTree α)
    (rest : List (TaskTree α)) :
    submit level (.runBatch (level + 1)) (Executors.load ⟨[],0,fun _ => ⟨[],.ready⟩,ran⟩ (level + 1)
      (top + 1) (t :: rest)) = tower (top + 1) (t :: rest) ran := by
  induction level with
  | zero => rfl
  | succ level ih =>
    have hready : (Executors.load ⟨[],0,fun _ => ⟨[],.ready⟩,ran⟩ (level + 1 + 1) (top + 1)
        (t :: rest)).strand (level + 1) = ⟨[],.ready⟩ := by
      simp [Executors.load]
    rw [submit,hready]
    have hne : level + 1 ≠ top + 1 := by omega
    have hload := load_succ (α := α) ⟨[],0,fun _ => ⟨[],.ready⟩,ran⟩ (Nat.le_of_lt h) (t :: rest)
    simp only [held,if_neg hne] at hload
    rw [List.nil_append,←hload]
    exact ih (by omega)

/-- A user task that is submitted to the top waits behind the others. -/
theorem submit_tower (top : ℕ) (q : List (TaskTree α)) (ran : List α) (t : TaskTree α) :
    submit top (.user t) (tower top q ran) = tower top (q ++ [t]) ran := by
  cases top with
  | zero => simp [submit,tower]
  | succ top =>
    cases q with
    | nil =>
      have hload := load_succ (α := α) ⟨[],0,fun _ => ⟨[],.ready⟩,ran⟩ (Nat.le_refl (top + 1)) [t]
      rw [load_above] at hload
      have hdown := submit_down ran top (Nat.lt_succ_self top) t []
      rw [hload] at hdown
      rw [List.nil_append,←hdown]
      simp [submit,tower,held]
    | cons u us =>
      have hplan : (tower (top + 1) (u :: us) ran).strand (top + 1) =
          ⟨(u :: us).map .user,.plan⟩ := by simp [tower,Executors.load,held]
      rw [submit,hplan]
      simp only [tower,Executors.load,Executors.setStrand,List.cons_append]
      congr 1
      funext j
      by_cases hj : j = top + 1
      · subst hj
        simp [held]
      · simp [held,hj]

/-- A forest is submitted to an idle tower. -/
theorem submitAll_tower (top : ℕ) (forest q : List (TaskTree α)) (ran : List α) :
    submitAll top forest (tower top q ran) = tower top (q ++ forest) ran := by
  induction forest generalizing q with
  | nil => simp [submitAll]
  | cons t forest ih =>
    rw [submitAll,List.foldl_cons,submit_tower,←submitAll,ih]
    simp

/-- A round of the manual executor when user tasks were submitted to it. -/
theorem runNext_manual (t : TaskTree α) (rest : List (TaskTree α)) (ran : List α) (depth : ℕ) :
    runNext 0 (depth + 1) (tower 0 (t :: rest) ran) =
      some (tower 0 (rest ++ t.children) (ran ++ [t.label])) := by
  have hall := submitAll_tower 0 t.children rest (ran ++ [t.label])
  rw [←hall]
  rfl

/-- A round of the manual executor below a tower. -/
theorem runNext_tower (hq : q ≠ []) (hdepth : top + 2 ≤ depth) :
    runNext (top + 1) depth (tower (top + 1) q ran) =
      some (tower (top + 1) (nextRound q) (ran ++ q.map TaskTree.label)) := by
  obtain ⟨t,rest,rfl⟩ := List.exists_cons_of_ne_nil hq
  have hlevels : 0 + 1 + top = top + 1 := by omega
  have hrun := run_runBatch (q := t :: rest) top 0 depth ⟨[],0,fun _ => ⟨[],.ready⟩,ran⟩
    hlevels hq hdepth
  have hafter : afterBatch 0 (top + 1) (nextRound (t :: rest))
      (Executors.record ⟨[],0,fun _ => ⟨[],.ready⟩,ran⟩ (t :: rest)) =
      tower (top + 1) (nextRound (t :: rest)) (ran ++ (t :: rest).map TaskTree.label) := by
    cases nextRound (t :: rest) with
    | nil => exact load_nil ..
    | cons u us => rfl
  rw [hafter] at hrun
  exact hrun

/-- One round of the manual executor serves the queue of user tasks further. -/
theorem runNext_order (ran : List α) (hq : q ≠ []) (hdepth : top + 1 ≤ depth) :
    ∃ q' ran', runNext top depth (tower top q ran) = some (tower top q' ran') ∧
      ran' ++ order q' = ran ++ order q ∧ sizes q' < sizes q := by
  cases top with
  | zero =>
    obtain ⟨depth,rfl⟩ : ∃ n, depth = n + 1 := ⟨depth - 1,by omega⟩
    obtain ⟨t,rest,rfl⟩ := List.exists_cons_of_ne_nil hq
    refine ⟨_,_,runNext_manual t rest ran depth,?_,?_⟩
    · rw [order]
      simp
    · rw [sizes_append,sizes_cons]
      omega
  | succ top =>
    refine ⟨_,_,runNext_tower hq hdepth,?_,?_⟩
    · rw [order_round q,List.append_assoc]
    · have hlen := List.length_pos_of_ne_nil hq
      have hround := sizes_nextRound q
      omega

/-- The counter is zero when nothing is left to run. -/
theorem tower_countTasks : (tower top q ran).countTasks = 0 ↔ q = [] := by
  cases top with
  | zero => simp [tower]
  | succ top =>
    cases q with
    | nil => simp [tower]
    | cons t rest => simp [tower,Executors.load]

/-- RunAtMost serves the queue further. -/
theorem runAtMost_order (limit : ℕ) (q : List (TaskTree α)) (ran : List α)
    (hdepth : top + 1 ≤ depth) :
    ∃ done q' ran', runAtMost top depth limit (tower top q ran) = some (done,tower top q' ran') ∧
      ran' ++ order q' = ran ++ order q := by
  induction limit generalizing q ran with
  | zero => exact ⟨0,q,ran,rfl,rfl⟩
  | succ limit ih =>
    by_cases hq : q = []
    · refine ⟨0,q,ran,?_,rfl⟩
      rw [runAtMost,if_pos (tower_countTasks.mpr hq)]
    · obtain ⟨q₁,ran₁,hnext,horder,-⟩ := runNext_order ran hq hdepth
      obtain ⟨done,q₂,ran₂,hrest,horder₂⟩ := ih q₁ ran₁
      refine ⟨done + 1,q₂,ran₂,?_,horder₂.trans horder⟩
      rw [runAtMost,if_neg (mt tower_countTasks.mp hq),hnext]
      simp [hrest]

/-- Any calls of RunAtMost serve the queue further. -/
theorem runCalls_order (limits : List ℕ) (q : List (TaskTree α)) (ran : List α)
    (hdepth : top + 1 ≤ depth) :
    ∃ q' ran', runCalls top depth limits (tower top q ran) = some (tower top q' ran') ∧
      ran' ++ order q' = ran ++ order q := by
  induction limits generalizing q ran with
  | nil => exact ⟨q,ran,rfl,rfl⟩
  | cons limit limits ih =>
    obtain ⟨done,q₁,ran₁,hone,horder⟩ := runAtMost_order limit q ran hdepth
    obtain ⟨q₂,ran₂,hrest,horder₂⟩ := ih q₁ ran₁
    refine ⟨q₂,ran₂,?_,horder₂.trans horder⟩
    rw [runCalls,List.foldlM_cons,hone]
    exact hrest

/-- Drain serves the whole queue, in at most one round for each user task. -/
theorem drain_order (rounds : ℕ) (q : List (TaskTree α)) (ran : List α) (hdepth : top + 1 ≤ depth)
    (hrounds : sizes q < rounds) :
    ∃ done, drain top depth rounds (tower top q ran) =
      some (done,tower top [] (ran ++ order q)) := by
  induction rounds generalizing q ran with
  | zero => omega
  | succ rounds ih =>
    by_cases hq : q = []
    · subst hq
      refine ⟨0,?_⟩
      rw [drain,if_pos (tower_countTasks.mpr rfl),order,List.append_nil]
    · obtain ⟨q₁,ran₁,hnext,horder,hsize⟩ := runNext_order ran hq hdepth
      obtain ⟨done,hrest⟩ := ih q₁ ran₁ (by omega)
      refine ⟨done + 1,?_⟩
      rw [drain,if_neg (mt tower_countTasks.mp hq),hnext]
      simp [hrest,horder]

end Rounds

/-- Nothing is left to run and every strand is ready. -/
def Executors.Idle (s : Executors α) : Prop :=
  s.tasks = [] ∧ s.countTasks = 0 ∧ ∀ level, s.strand level = ⟨[],.ready⟩

/-- A forest submitted to the executor at a level runs in this order: in a
Drain, which returns, and in any calls of RunAtMost that leave the manual
executor empty. No assertion fails. -/
structure Runs (top depth : ℕ) (forest : List (TaskTree α)) (trace : List α) : Prop where
  drains : ∀ rounds, sizes forest < rounds → ∃ done s,
    drain top depth rounds (submitAll top forest idle) = some (done,s) ∧ s.ran = trace ∧ s.Idle
  calls : ∀ limits, ∃ s, runCalls top depth limits (submitAll top forest idle) = some s ∧
    (s.countTasks = 0 → s.ran = trace ∧ s.Idle)

/-- A tower with nothing to run is idle. -/
theorem tower_idle (top : ℕ) (ran : List α) : (tower top [] ran).Idle := by
  cases top with
  | zero => exact ⟨rfl,rfl,fun _ => rfl⟩
  | succ top => exact ⟨rfl,rfl,fun _ => rfl⟩

/-- The history of a tower. -/
theorem tower_ran (top : ℕ) (q : List (TaskTree α)) (ran : List α) :
    (tower top q ran).ran = ran := by
  cases top with
  | zero => rfl
  | succ top =>
    cases q with
    | nil => rfl
    | cons t rest => rfl

/-- Any tower runs a forest in breadth-first order. -/
theorem runs_order (top depth : ℕ) (hdepth : top + 1 ≤ depth) (forest : List (TaskTree α)) :
    Runs top depth forest (order forest) := by
  have hidle : (idle : Executors α) = tower top [] [] := by
    cases top with
    | zero => rfl
    | succ top => rfl
  have hstart : submitAll top forest idle = tower top forest [] := by
    rw [hidle,submitAll_tower,List.nil_append]
  constructor
  · intro rounds hrounds
    obtain ⟨done,hdrain⟩ := drain_order rounds forest [] hdepth hrounds
    rw [List.nil_append] at hdrain
    exact ⟨done,_,hstart ▸ hdrain,tower_ran ..,tower_idle ..⟩
  · intro limits
    obtain ⟨q,ran,hcalls,horder⟩ := runCalls_order limits forest [] hdepth
    refine ⟨_,hstart ▸ hcalls,fun hzero => ?_⟩
    obtain rfl := tower_countTasks.mp hzero
    rw [order,List.append_nil] at horder
    exact ⟨(tower_ran ..).trans horder,tower_idle ..⟩

/-- Two strands: the children run behind both roots. -/
example : ((drain 2 3 5 (submitAll 2 [.node 1 [.node 3 []],.node 2 [.node 4 []]] idle)).map
    fun r => r.2.ran) = some [1,2,3,4] := by
  decide +kernel

end ConcurrencyRuntime.StrandTower
