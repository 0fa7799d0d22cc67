import ConcurrencyRuntime.DistributedTasks

/-!
# The number of tasks and their parents

The counter of the pool is the number of tasks between AddTask and RemoveTask.
A task that is constructed but not counted yet is in the hands of its first
Submit, and the task that called it runs meanwhile and is counted.
-/

namespace ConcurrencyRuntime.DistributedTasks

open DistributedPool ExclusivePlaces

variable {n : ℕ} {K O : Type*} [DecidableEq K] [DecidableEq O]

variable {c c' : Custody n K O} {p : Place n O} {a : Caller n O} {w : Fin n} {task : K}

/-- The tasks between AddTask and RemoveTask. -/
def Custody.counted (c : Custody n K O) : Set K :=
  { task | c.life task = .added ∨ c.life task = .completed }

section Count

variable {life : Life}

omit [DecidableEq O] in
theorem counted_setLife (hlife : life = .added ∨ life = .completed) :
    (c.setLife task life).counted = insert task c.counted := by
  ext t
  rcases eq_or_ne t task with rfl | hne
  · simp [Custody.counted,Custody.setLife,hlife]
  · simp [Custody.counted,Custody.setLife,hne]

omit [DecidableEq O] in
theorem counted_setLife_of_not (hlife : ¬(life = .added ∨ life = .completed)) :
    (c.setLife task life).counted = c.counted \ {task} := by
  ext t
  rcases eq_or_ne t task with rfl | hne
  · simp only [Custody.counted,Custody.setLife,Set.mem_ofPred_eq,Function.update_self,Set.mem_sdiff,
      Set.mem_singleton_iff,not_true_eq_false,and_false,iff_false]
    exact hlife
  · simp [Custody.counted,Custody.setLife,hne]

omit [DecidableEq O] in
theorem counted_progressState : (c.progressState task).counted = c.counted := by
  rw [Custody.progressState]
  split <;> rfl

omit [DecidableEq O] in
theorem counted_setWorker : (c.setWorker task w).counted = c.counted := by
  rw [Custody.setWorker]
  split <;> rfl

omit [DecidableEq O] in
theorem counted_construct (habsent : c.life task = .absent) (parent : Option K) :
    (c.construct task parent).counted = c.counted := by
  refine (counted_setLife_of_not (by simp)).trans ?_
  refine Set.sdiff_singleton_eq_self ?_
  simp [Custody.counted,habsent]

omit [DecidableEq O] in
/-- The routine of a task that is counted returns. -/
theorem counted_finish {stage : Stage} (h : Sound c none)
    (hphase : c.phase w = .running task stage) :
    (c.setLife task .completed).counted = c.counted := by
  rw [counted_setLife (Or.inr rfl)]
  exact Set.insert_eq_of_mem (Or.inl (h.running hphase).1.1)

omit [DecidableEq K] [DecidableEq O] in
/-- A counted task shows in the counter. -/
theorem count_pos (hcount : c.counted.encard = c.countTasks) (hmem : task ∈ c.counted) :
    0 < c.countTasks := by
  have hne : c.counted.encard ≠ 0 := Set.encard_ne_zero_of_mem hmem
  rw [hcount] at hne
  exact Nat.pos_of_ne_zero fun hzero => hne (by rw [hzero]; rfl)

/-- Every move keeps the number of tasks exact. -/
theorem Moves.count (h : Sound c none) (hmoves : Moves c c')
    (hcount : c.counted.encard = c.countTasks) : c'.counted.encard = c'.countTasks := by
  cases hmoves with
  | first | again | routeLocal | routeGlobal | pushGlobal | pushLocal | wake | popLocal | popGlobal
  | enter | yield | park | leave => exact hcount
  | @add a task hcall =>
    have hfits := h.fits (.call a) _ hcall
    have hnew : task ∉ c.counted := by simp [Custody.counted,hfits.1]
    change (c.setLife task .added).counted.encard = (c.countTasks + 1 : ℕ)
    rw [counted_setLife (Or.inl rfl),Set.encard_insert_of_notMem hnew,hcount]
    rfl
  | progress | complete =>
    rename_i task _
    change (c.progressState task).counted.encard = (c.progressState task).countTasks
    rw [counted_progressState,hcount,Custody.progressState]
    split <;> rfl
  | @setWorker w task =>
    change (c.setWorker task w).counted.encard = (c.setWorker task w).countTasks
    rw [counted_setWorker,hcount,Custody.setWorker]
    split <;> rfl
  | @spawn w parent task _ _ _ habsent =>
    exact (congrArg Set.encard (counted_construct habsent (some parent))).trans hcount
  | finish hphase | finishFree hphase =>
    exact (congrArg Set.encard (counted_finish h hphase)).trans hcount
  | @remove w task hphase =>
    have hfits : c.PhaseFits w (c.phase w) := h.fits (.process w)
    rw [hphase] at hfits
    have hmem : task ∈ c.counted := Or.inr hfits.1
    change (c.setLife task .removed).counted.encard = (c.countTasks - 1 : ℕ)
    rw [counted_setLife_of_not (by simp)]
    refine ENat.add_left_injective_of_ne_top ENat.one_ne_top ?_
    have hone : c.countTasks - 1 + 1 = c.countTasks := Nat.sub_add_cancel (count_pos hcount hmem)
    calc (c.counted \ {task}).encard + 1 = c.counted.encard :=
      Set.encard_sdiff_singleton_add_one hmem
      _ = (c.countTasks - 1 + 1 : ℕ) := by rw [hcount,hone]
      _ = (c.countTasks - 1 : ℕ) + 1 := rfl

end Count

/-- The call is the first Submit of the task, before AddTask. -/
def First {n : ℕ} {K : Type*} (call : Option (SubmitPc n K)) (task : K) : Prop :=
  call = some (.state task) ∨ call = some (.add task)

/-- A task that is not counted yet is in the hands of its first Submit, called
from outside or by its parent, which runs. -/
structure Parented (c : Custody n K O) : Prop where
  created : ∀ task, c.life task = .created →
    (∃ o, First (c.call (.outside o)) task ∧ c.spawnedBy task = none) ∨
      ∃ v parent stage, c.phase v = .running parent stage ∧ First (c.call (.task v)) task ∧
        c.spawnedBy task = some parent
  spawned : ∀ task, c.life task = .absent → c.spawnedBy task = none

section Parents

omit [DecidableEq K] [DecidableEq O] in
/-- A move that keeps the first Submits and those who call them. -/
theorem Parented.frame (h : Parented c)
    (hlife : ∀ t, c'.life t = .created → c.life t = .created)
    (habsent : ∀ t, c'.life t = .absent → c.life t = .absent)
    (hspawned : c'.spawnedBy = c.spawnedBy)
    (hcall : ∀ b t, c'.life t = .created → First (c.call b) t → First (c'.call b) t)
    (hphase : ∀ v parent stage, c.call (.task v) ≠ none → c.phase v = .running parent stage →
      c'.phase v = .running parent stage) : Parented c' := by
  refine ⟨?_,?_⟩
  · intro t ht
    rw [hspawned]
    rcases h.created t (hlife t ht) with ⟨o,hfirst,hnone⟩ | ⟨v,parent,stage,hrun,hfirst,hsome⟩
    · exact Or.inl ⟨o,hcall _ t ht hfirst,hnone⟩
    · have hne : c.call (.task v) ≠ none := by
        rcases hfirst with hfirst | hfirst <;> simp [hfirst]
      exact Or.inr ⟨v,parent,stage,hphase v parent stage hne hrun,hcall _ t ht hfirst,hsome⟩
  · intro t ht
    rw [hspawned]
    exact h.spawned t (habsent t ht)

omit [DecidableEq K] in
/-- A call that is not the first Submit of the task goes on. -/
theorem first_turn {b : Caller n O} {t : K} {pc : Option (SubmitPc n K)}
    (hpc : First (c.call a) t → First pc t) (hfirst : First (c.call b) t) :
    First ((c.turn a pc).call b) t := by
  rcases eq_or_ne b a with rfl | hne
  · rw [show (c.turn b pc).call b = pc from Function.update_self ..]
    exact hpc hfirst
  · rw [show (c.turn a pc).call b = c.call b from Function.update_of_ne hne ..]
    exact hfirst

omit [DecidableEq K] in
/-- A call goes on, and nothing else happens to parents and their children. -/
theorem Parented.turn {pc : Option (SubmitPc n K)} (h : Parented c)
    (hpc : ∀ t, c.life t = .created → First (c.call a) t → First pc t) : Parented (c.turn a pc) :=
  h.frame (fun _ => id) (fun _ => id) rfl (fun _ t ht => first_turn (hpc t ht)) fun _ _ _ _ => id

omit [DecidableEq K] in
/-- A call begins. -/
theorem Parented.begin {pc : Option (SubmitPc n K)} (h : Parented c) (hcall : c.call a = none) :
    Parented (c.turn a pc) := by
  refine h.turn fun t _ hfirst => ?_
  rw [hcall] at hfirst
  rcases hfirst with hfirst | hfirst <;> cases hfirst

omit [DecidableEq K] [DecidableEq O] in
/-- A worker goes on that is not in a Submit of its task. -/
theorem Parented.goto {phase : Phase K} (h : Parented c)
    (hw : c.call (.task w) = none ∨ ∀ parent stage, c.phase w ≠ .running parent stage) :
    Parented (c.goto w phase) := by
  refine h.frame (fun _ => id) (fun _ => id) rfl (fun _ _ _ => id) ?_
  intro v parent stage hcall hv
  have hne : v ≠ w := by
    rintro rfl
    rcases hw with hnone | hrun
    · exact hcall hnone
    · exact hrun parent stage hv
  exact (Function.update_of_ne hne ..).trans hv

omit [DecidableEq O] in
/-- A task that was constructed before comes further. -/
theorem Parented.setLife {life : Life} (h : Parented c)
    (hlife : life ≠ .absent ∧ life ≠ .created) : Parented (c.setLife task life) := by
  have hother : ∀ t l, (c.setLife task life).life t = l → l = .absent ∨ l = .created →
      c.life t = l := by
    intro t l ht hl
    rcases eq_or_ne t task with rfl | hne
    · have hself : life = l := (Function.update_self ..).symm.trans ht
      rcases hl with rfl | rfl
      · exact absurd hself hlife.1
      · exact absurd hself hlife.2
    · exact (Function.update_of_ne hne ..).symm.trans ht
  exact h.frame (fun t ht => hother t _ ht (Or.inr rfl))
    (fun t ht => hother t _ ht (Or.inl rfl)) rfl
    (fun _ _ _ => id) fun _ _ _ _ => id

omit [DecidableEq K] [DecidableEq O] in
/-- Queues, states and workers of tasks are not read. -/
theorem Parented.of_eq (h : Parented c) (hlife : c'.life = c.life)
    (hspawned : c'.spawnedBy = c.spawnedBy)
    (hcall : c'.call = c.call) (hphase : c'.phase = c.phase) : Parented c' := by
  refine h.frame ?_ ?_ hspawned ?_ ?_
  · rw [hlife]
    exact fun _ => id
  · rw [hlife]
    exact fun _ => id
  · rw [hcall]
    exact fun _ _ _ => id
  · rw [hphase]
    exact fun _ _ _ _ => id

omit [DecidableEq O] in
theorem progressState_same (c : Custody n K O) (task : K) :
    (c.progressState task).life = c.life ∧ (c.progressState task).spawnedBy = c.spawnedBy ∧
      (c.progressState task).call = c.call ∧ (c.progressState task).phase = c.phase := by
  rw [Custody.progressState]
  split <;> exact ⟨rfl,rfl,rfl,rfl⟩

omit [DecidableEq O] in
theorem setWorker_same (c : Custody n K O) (task : K) (w : Fin n) :
    (c.setWorker task w).life = c.life ∧ (c.setWorker task w).spawnedBy = c.spawnedBy ∧
      (c.setWorker task w).call = c.call ∧ (c.setWorker task w).phase = c.phase := by
  rw [Custody.setWorker]
  split <;> exact ⟨rfl,rfl,rfl,rfl⟩

/-- A task is constructed and handed to its first Submit. -/
theorem Parented.construct {parent : Option K} (h : Parented c) (hcall : c.call a = none)
    (habsent : c.life task = .absent)
    (hparent : (∃ o, a = .outside o ∧ parent = none) ∨
      ∃ v t stage, a = .task v ∧ c.phase v = .running t stage ∧ parent = some t) :
    Parented ((c.construct task parent).turn a (some (.state task))) := by
  have hfirst : ∀ b t, First (c.call b) t →
      First (((c.construct task parent).turn a (some (.state task))).call b) t := by
    intro b t ht
    refine first_turn (fun ha => ?_) ht
    change First (c.call a) t at ha
    rw [hcall] at ha
    rcases ha with ha | ha <;> cases ha
  have hself : First (((c.construct task parent).turn a (some (.state task))).call a) task :=
    Or.inl (Function.update_self ..)
  have hspawned : ((c.construct task parent).turn a (some (.state task))).spawnedBy task = parent :=
    Function.update_self ..
  refine ⟨?_,?_⟩
  · intro t ht
    rcases eq_or_ne t task with rfl | hne
    · rcases hparent with ⟨o,rfl,rfl⟩ | ⟨v,u,stage,rfl,hv,rfl⟩
      · exact Or.inl ⟨o,hself,hspawned⟩
      · exact Or.inr ⟨v,u,stage,hv,hself,hspawned⟩
    · have hold : c.life t = .created := (Function.update_of_ne hne ..).symm.trans ht
      have hsame : (Function.update c.spawnedBy task parent) t = c.spawnedBy t :=
        Function.update_of_ne hne ..
      rcases h.created t hold with ⟨o,ho,hnone⟩ | ⟨v,u,stage,hv,ho,hsome⟩
      · exact Or.inl ⟨o,hfirst _ t ho,hsame.trans hnone⟩
      · exact Or.inr ⟨v,u,stage,hv,hfirst _ t ho,hsame.trans hsome⟩
  · intro t ht
    have hne : t ≠ task := by
      rintro rfl
      cases (Function.update_self ..).symm.trans ht
    exact (Function.update_of_ne hne ..).trans
      (h.spawned t ((Function.update_of_ne hne ..).symm.trans ht))

/-- Every move keeps tasks that are not counted with their parents. -/
theorem Moves.parented (h : Sound c none) (hparented : Parented c) (hmoves : Moves c c') :
    Parented c' := by
  have hother : ∀ b x t, c.call b = some x → First (c.call b) t → x = .state t ∨ x = .add t := by
    intro b x t hb hfirst
    rw [hb] at hfirst
    exact hfirst.imp Option.some.inj Option.some.inj
  cases hmoves with
  | first hcall =>
    refine hparented.turn fun t _ hfirst => ?_
    rcases hother _ _ t hcall hfirst with he | he <;> cases he
    exact Or.inr rfl
  | @again a task hcall hstate =>
    refine hparented.turn fun t ht hfirst => ?_
    rcases hother _ _ t hcall hfirst with he | he <;> cases he
    rcases h.fits (.call a) _ hcall with hnew | hready
    · exact absurd hnew.2 hstate
    · cases ht.symm.trans hready.1
  | @add a task hcall =>
    have hlife : Parented (c.setLife task .added) := hparented.setLife ⟨by rintro ⟨⟩,by rintro ⟨⟩⟩
    have hturn : Parented ((c.setLife task .added).turn a (some (.progress task))) := by
      refine hlife.turn fun t ht hfirst => ?_
      rcases hother _ _ t hcall hfirst with he | he <;> cases he
      cases (Function.update_self ..).symm.trans ht
    exact hturn.of_eq rfl rfl rfl rfl
  | @progress a task hcall =>
    obtain ⟨hlife,hspawned,hcalls,hphase⟩ := progressState_same c task
    have hturn : Parented (c.turn a (some (.route task))) := by
      refine hparented.turn fun t _ hfirst => ?_
      rcases hother _ _ t hcall hfirst with he | he <;> cases he
    exact hturn.of_eq hlife hspawned (by simp only [Custody.turn,hcalls]) hphase
  | routeLocal hcall | routeGlobal hcall =>
    refine hparented.turn fun t _ hfirst => ?_
    rcases hother _ _ t hcall hfirst with he | he <;> cases he
  | @pushGlobal a task hcall | @pushLocal a task w hcall =>
    have hturn : Parented (c.turn a none) := by
      refine hparented.turn fun t _ hfirst => ?_
      rcases hother _ _ t hcall hfirst with he | he <;> cases he
    exact hturn.of_eq rfl rfl rfl rfl
  | @spawn w parent task stage hphase hcall habsent =>
    exact hparented.construct hcall habsent (Or.inr ⟨w,parent,stage,rfl,hphase,rfl⟩)
  | @wake a task hcall =>
    have hturn : Parented (c.turn a (some (.state task))) := hparented.begin hcall
    exact hturn.of_eq rfl rfl rfl rfl
  | @popGlobal w task rest hcall =>
    have hturn : Parented (c.turn (.process w) (some (.enqueue w task))) := hparented.begin hcall
    exact hturn.of_eq rfl rfl rfl rfl
  | @popLocal w task rest hphase =>
    have hgoto : Parented (c.goto w (.popped task)) := hparented.goto (Or.inr (by simp [hphase]))
    exact hgoto.of_eq rfl rfl rfl rfl
  | @setWorker w task hphase =>
    obtain ⟨hlife,hspawned,hcalls,hphases⟩ := setWorker_same c task w
    have hgoto : Parented (c.goto w (.entering task)) := hparented.goto (Or.inr (by simp [hphase]))
    exact hgoto.of_eq hlife hspawned hcalls (by simp only [Custody.goto,hphases])
  | @enter w task hphase =>
    have hgoto : Parented (c.goto w (.running task .executing)) :=
      hparented.goto (Or.inr (by simp [hphase]))
    exact hgoto.of_eq rfl rfl rfl rfl
  | @yield w task _ hcall =>
    have hgoto : Parented (c.goto w (.running task .handedOver)) := hparented.goto (Or.inl hcall)
    exact hgoto.begin hcall
  | @park w task _ hcall =>
    have hgoto : Parented (c.goto w (.running task .handedOver)) := hparented.goto (Or.inl hcall)
    exact hgoto.of_eq rfl rfl rfl rfl
  | leave _ hcall => exact hparented.goto (Or.inl hcall)
  | @finish w task _ hcall | @finishFree w task _ hcall =>
    have hlife : Parented (c.setLife task .completed) :=
      hparented.setLife ⟨by rintro ⟨⟩,by rintro ⟨⟩⟩
    exact hlife.goto (Or.inl hcall)
  | @complete w task hphase =>
    obtain ⟨hlife,hspawned,hcalls,hphases⟩ := progressState_same c task
    have hgoto : Parented (c.goto w (.removing task)) := hparented.goto (Or.inr (by simp [hphase]))
    exact hgoto.of_eq hlife hspawned hcalls (by simp only [Custody.goto,hphases])
  | @remove w task hphase =>
    have hlife : Parented (c.setLife task .removed) := hparented.setLife ⟨by rintro ⟨⟩,by rintro ⟨⟩⟩
    have hgoto : Parented ((c.setLife task .removed).goto w .idle) :=
      hlife.goto (Or.inr (by simp [Custody.setLife,hphase]))
    exact hgoto.of_eq rfl rfl rfl rfl

end Parents

/-- What every move of the custody keeps. -/
structure Accounted (c : Custody n K O) : Prop where
  sound : Sound c none
  count : c.counted.encard = c.countTasks
  parented : Parented c

theorem Accounted.moves (h : Accounted c) (hmoves : Moves c c') : Accounted c' :=
  ⟨h.sound.moves hmoves,hmoves.count h.sound h.count,hmoves.parented h.sound h.parented⟩

theorem Accounted.enters {o : O} (h : Accounted c) (henters : Enters c c' o task) :
    Accounted c' := by
  obtain ⟨hcall,habsent,rfl⟩ := henters
  refine ⟨h.sound.construct hcall habsent none,?_,?_⟩
  · exact (congrArg Set.encard (counted_construct habsent none)).trans h.count
  · exact h.parented.construct hcall habsent (Or.inl ⟨o,rfl,rfl⟩)

omit [DecidableEq K] [DecidableEq O] in
/-- Where the counter is zero no task is counted. -/
theorem Accounted.not_counted (h : Accounted c) (hzero : c.countTasks = 0) : task ∉ c.counted := by
  intro hmem
  have hpos := count_pos h.count hmem
  omega

omit [DecidableEq K] [DecidableEq O] in
/-- A running task shows in the counter. -/
theorem Accounted.not_running {stage : Stage} (h : Accounted c) (hzero : c.countTasks = 0) :
    c.phase w ≠ .running task stage :=
  fun hphase => h.not_counted hzero (Or.inl (h.sound.running hphase).1.1)

omit [DecidableEq K] [DecidableEq O] in
/-- Where the counter is zero every task that was counted has completed, and so
has every task that a task has constructed. -/
theorem Accounted.idle (h : Accounted c) (hzero : c.countTasks = 0) :
    (∀ t, c.life t = .absent ∨ c.life t = .created ∨ c.life t = .removed) ∧
      (∀ t parent, c.spawnedBy t = some parent → c.life t = .removed) ∧ c.parked = [] := by
  have hlife : ∀ t, c.life t = .absent ∨ c.life t = .created ∨ c.life t = .removed := by
    intro t
    have hnot : ¬(c.life t = .added ∨ c.life t = .completed) := h.not_counted hzero
    cases ht : c.life t with
    | absent => exact Or.inl rfl
    | created => exact Or.inr (Or.inl rfl)
    | removed => exact Or.inr (Or.inr rfl)
    | added => exact absurd (Or.inl ht) hnot
    | completed => exact absurd (Or.inr ht) hnot
  refine ⟨hlife,?_,?_⟩
  · intro t parent hparent
    rcases hlife t with habsent | hcreated | hremoved
    · cases hparent.symm.trans (h.parented.spawned t habsent)
    · rcases h.parented.created t hcreated with ⟨o,-,hnone⟩ | ⟨v,u,stage,hphase,-,-⟩
      · cases hparent.symm.trans hnone
      · exact absurd hphase (h.not_running hzero)
    · exact hremoved
  · refine List.eq_nil_iff_forall_not_mem.mpr fun t ht => ?_
    exact h.not_counted hzero (Or.inl (h.sound.fits .parked t ht).1)

/-- Every task that is not counted yet was constructed by a task. -/
def Quiet (c : Custody n K O) : Prop :=
  ∀ t, c.life t = .created → c.spawnedBy t ≠ none

omit [DecidableEq O] in
theorem Quiet.setLife {life : Life} (h : Quiet c) (hlife : life ≠ .created) :
    Quiet (c.setLife task life) := by
  intro t ht
  rcases eq_or_ne t task with rfl | hne
  · exact absurd ((Function.update_self ..).symm.trans ht) hlife
  · exact h t ((Function.update_of_ne hne ..).symm.trans ht)

omit [DecidableEq K] [DecidableEq O] in
theorem Quiet.of_eq (h : Quiet c) (hlife : c'.life = c.life)
    (hspawned : c'.spawnedBy = c.spawnedBy) : Quiet c' := by
  rw [Quiet,hlife,hspawned]
  exact h

/-- The pool itself lets no task in from outside. -/
theorem Moves.quiet (hmoves : Moves c c') (h : Quiet c) : Quiet c' := by
  cases hmoves with
  | first | again | routeLocal | routeGlobal | pushGlobal | pushLocal | wake | popLocal | popGlobal
  | enter | yield | park | leave => exact h
  | @add a task =>
    have hlife : Quiet (c.setLife task .added) := h.setLife (by rintro ⟨⟩)
    exact hlife.of_eq rfl rfl
  | progress | complete =>
    rename_i task _
    obtain ⟨hlife,hspawned,-,-⟩ := progressState_same c task
    exact h.of_eq hlife hspawned
  | @setWorker w task =>
    obtain ⟨hlife,hspawned,-,-⟩ := setWorker_same c task w
    exact h.of_eq hlife hspawned
  | @spawn w parent task =>
    intro t ht
    change Function.update c.spawnedBy task (some parent) t ≠ none
    rcases eq_or_ne t task with rfl | hne
    · rw [Function.update_self]
      exact Option.some_ne_none parent
    · rw [Function.update_of_ne hne]
      exact h t ((Function.update_of_ne hne ..).symm.trans ht)
  | @finish w task | @finishFree w task =>
    have hlife : Quiet (c.setLife task .completed) := h.setLife (by rintro ⟨⟩)
    exact hlife.of_eq rfl rfl
  | @remove w task =>
    have hlife : Quiet (c.setLife task .removed) := h.setLife (by rintro ⟨⟩)
    exact hlife.of_eq rfl rfl

/-- A pool that lets no task in from outside stays empty. -/
theorem Accounted.count_zero (h : Accounted c) (hquiet : Quiet c) (hmoves : Moves c c')
    (hzero : c.countTasks = 0) : c'.countTasks = 0 := by
  cases hmoves with
  | first | again | routeLocal | routeGlobal | pushGlobal | pushLocal | wake | popLocal | popGlobal
  | enter | yield | park | leave | spawn | finish | finishFree => exact hzero
  | @add a task hcall =>
    have hcreated := (h.sound.fits (.call a) _ hcall).1
    rcases h.parented.created task hcreated with ⟨o,-,hnone⟩ | ⟨v,parent,stage,hphase,-,-⟩
    · exact absurd hnone (hquiet task hcreated)
    · exact absurd hphase (h.not_running hzero)
  | progress | complete =>
    rename_i task _
    change (c.progressState task).countTasks = 0
    rw [Custody.progressState]
    split <;> exact hzero
  | @setWorker w task =>
    change (c.setWorker task w).countTasks = 0
    rw [Custody.setWorker]
    split <;> exact hzero
  | remove =>
    change c.countTasks - 1 = 0
    rw [hzero]

end ConcurrencyRuntime.DistributedTasks
