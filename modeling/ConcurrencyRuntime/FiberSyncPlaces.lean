import ConcurrencyRuntime.FiberSync

/-!
# Where the fibers are

In every run each fiber is in exactly one place: in the queue of the pool, on
a worker, handed to AwaitSuspend, in the list of waiters of one object, or
among the waiters that one Unlock or Done has popped. In particular a task of
the pool is always a fiber that can run, and no fiber runs on two workers.
-/

namespace ConcurrencyRuntime.FiberSync

open TransitionSystem QueueSpinLock

/-- The waiters that a fiber popped and did not schedule yet. -/
@[grind =]
def FiberPc.popped {ι κ γ : Type*} : FiberPc ι κ γ → List ι
  | .destroy _ popped | .release _ popped _ | .schedule popped => popped
  | _ => []

/-- The program points of a fiber on a worker. -/
@[grind =]
def FiberPc.active {ι κ γ : Type*} : FiberPc ι κ γ → Bool
  | .running | .acquire .. | .body _ | .resumed _ | .destroy .. | .release .. | .schedule _ => true
  | _ => false

/-- The operation in which a fiber is suspended. -/
@[grind =]
def FiberPc.parked {ι κ γ : Type*} : FiberPc ι κ γ → Bool
  | .suspended _ => true
  | _ => false

theorem FiberPc.popped_of_parked {ι κ γ : Type*} {q : FiberPc ι κ γ} (h : q.parked = true) :
    q.popped = [] := by
  cases q <;> first | rfl | cases h

/-- The fiber that a worker is about to park. -/
@[grind =]
def WorkerPc.parks {ι κ γ : Type*} : WorkerPc ι κ γ → Option ι
  | .parking f _ => some f
  | _ => none

/-- The fiber that a worker runs. -/
@[grind =]
def WorkerPc.runs {ι κ γ : Type*} : WorkerPc ι κ γ → Option ι
  | .running f => some f
  | _ => none

/-- Where a fiber is. -/
inductive Place (ω ι κ γ : Type*) where
  /-- Not submitted, or finished. -/
  | out
  /-- In the queue of the pool. -/
  | tasks
  /-- In the list of waiters of an object. -/
  | list (h : κ ⊕ γ)
  /-- Popped by a fiber. -/
  | popped (u : ι)
  /-- On a worker. -/
  | running (v : ω)
  /-- Suspended by a worker and not parked yet. -/
  | parking (v : ω)

/-- The program points that belong to a place. -/
@[grind =]
def Place.fits {ω ι κ γ : Type*} : Place ω ι κ γ → FiberPc ι κ γ → Prop
  | .out,pc => pc = .fresh ∨ pc = .done
  | .tasks,pc => pc = .ready ∨ pc.parked = true
  | .list _,pc | .popped _,pc | .parking _,pc => pc.parked = true
  | .running _,pc => pc.active = true

theorem Place.out_of_fresh {ω ι κ γ : Type*} {p : Place ω ι κ γ} (h : p.fits .fresh) :
    p = .out := by
  cases p <;> simp [Place.fits,FiberPc.parked,FiberPc.active] at h ⊢

/-- Every fiber is in its place and nowhere else. -/
structure Placed {ω ι κ γ : Type*} (s : Runtime ω ι κ γ) (place : ι → Place ω ι κ γ) : Prop where
  tasks : ∀ f, f ∈ s.tasks ↔ place f = .tasks
  list : ∀ h f, f ∈ s.waiters h ↔ place f = .list h
  popped : ∀ u f, f ∈ (s.fiber u).popped ↔ place f = .popped u
  running : ∀ v f, (s.worker v).runs = some f ↔ place f = .running v
  parking : ∀ v f, (s.worker v).parks = some f ↔ place f = .parking v
  fits : ∀ f, (place f).fits (s.fiber f)
  op : ∀ v f op, s.worker v = .parking f op → s.fiber f = .suspended op
  tasksNodup : s.tasks.Nodup
  listNodup : ∀ h, (s.waiters h).Nodup
  poppedNodup : ∀ u, (s.fiber u).popped.Nodup

variable {ω ι κ γ : Type*} [DecidableEq ω] [DecidableEq ι] [DecidableEq κ] [DecidableEq γ]

section Steps

variable {s s' : Runtime ω ι κ γ} {place : ι → Place ω ι κ γ} {f : ι} {v : ω} {h : κ ⊕ γ}
  {q : FiberPc ι κ γ} {op : Op κ γ}

omit [DecidableEq ω] [DecidableEq ι] [DecidableEq κ] [DecidableEq γ] in
/-- The fibers at a worker are those that it runs or parks. -/
theorem Placed.at_worker (h : Placed s place) (v : ω) (g : ι) :
    (place g = .running v → (s.worker v).runs = some g) ∧
      (place g = .parking v → (s.worker v).parks = some g) :=
  ⟨(h.running v g).mpr,(h.parking v g).mpr⟩

omit [DecidableEq ω] [DecidableEq ι] [DecidableEq κ] [DecidableEq γ] in
/-- A fiber that has popped nothing is the place of no fiber. -/
theorem Placed.none_popped (h : Placed s place) (hempty : (s.fiber f).popped = []) (g : ι) :
    place g ≠ .popped f := by
  intro hg
  rw [←h.popped,hempty] at hg
  cases hg

omit [DecidableEq ω] [DecidableEq κ] [DecidableEq γ] in
/-- A fiber on its worker moves on, with what it popped. -/
theorem Placed.move (h : Placed s place) (hv : s.worker v = .running f)
    (hfiber : s'.fiber = Function.update s.fiber f q) (hworker : s'.worker = s.worker)
    (htasks : s'.tasks = s.tasks) (hwaiters : s'.waiters = s.waiters) (hq : q.active = true)
    (hpopped : q.popped = (s.fiber f).popped) : Placed s' place := by
  have hplace : place f = .running v := (h.running v f).mp (by rw [hv]; rfl)
  have hfits := h.fits
  have hop := h.op
  have hparking := h.parking
  refine ⟨?_,?_,?_,?_,?_,?_,?_,?_,?_,?_⟩
  all_goals simp only [hfiber,hworker,htasks,hwaiters,Function.update_apply]
  · exact h.tasks
  · exact h.list
  · grind [h.popped]
  · exact h.running
  · exact hparking
  · grind
  · grind
  · exact h.tasksNodup
  · exact h.listNodup
  · grind [h.poppedNodup]

omit [DecidableEq ι] [DecidableEq κ] [DecidableEq γ] in
/-- A worker that has no fiber goes on without one. -/
theorem Placed.worker {pc : WorkerPc ι κ γ} (h : Placed s place) (hruns : (s.worker v).runs = none)
    (hparks : (s.worker v).parks = none) (hfiber : s'.fiber = s.fiber)
    (hworker : s'.worker = Function.update s.worker v pc) (htasks : s'.tasks = s.tasks)
    (hwaiters : s'.waiters = s.waiters) (hpcruns : pc.runs = none) (hpcparks : pc.parks = none) :
    Placed s' place := by
  refine { h with
    tasks := ?_
    list := ?_
    popped := ?_
    running := ?_
    parking := ?_
    fits := ?_
    op := ?_
    tasksNodup := ?_
    listNodup := ?_
    poppedNodup := ?_ }
  all_goals simp only [hfiber,hworker,htasks,hwaiters,Function.update_apply]
  · exact h.tasks
  · exact h.list
  · exact h.popped
  · grind [h.running]
  · grind [h.parking]
  · exact h.fits
  · grind [h.op]
  · exact h.tasksNodup
  · exact h.listNodup
  · exact h.poppedNodup

omit [DecidableEq κ] [DecidableEq γ] in
/-- A fiber is suspended. -/
theorem Placed.suspend (h : Placed s place) (hv : s.worker v = .running f)
    (hpopped : (s.fiber f).popped = []) :
    Placed (suspend s v f op) (Function.update place f (.parking v)) := by
  have hplace : place f = .running v := (h.running v f).mp (by rw [hv]; rfl)
  have hat := h.at_worker v
  have hrunning := h.running
  have hparking := h.parking
  have hfits := h.fits
  refine ⟨?_,?_,?_,?_,?_,?_,?_,h.tasksNodup,h.listNodup,?_⟩
  all_goals simp only [FiberSync.suspend,Runtime.setWorker,Runtime.goto,Function.update_apply]
  · grind [h.tasks]
  · grind [h.list]
  · grind [h.popped]
  · grind
  · grind
  · grind
  · grind [h.op]
  · grind [h.poppedNodup]

/-- A suspended fiber is parked. -/
theorem Placed.park {pc : WorkerPc ι κ γ} (h : Placed s place) (hv : s.worker v = .parking f op)
    (hfiber : s'.fiber = s.fiber) (hworker : s'.worker = Function.update s.worker v pc)
    (htasks : s'.tasks = s.tasks)
    (hwaiters : s'.waiters = Function.update s.waiters op.host (s.waiters op.host ++ [f]))
    (hpcruns : pc.runs = none) (hpcparks : pc.parks = none) :
    Placed s' (Function.update place f (.list op.host)) := by
  have hplace : place f = .parking v := (h.parking v f).mp (by rw [hv]; rfl)
  have hout : f ∉ s.waiters op.host := by
    rw [h.list,hplace]
    rintro ⟨⟩
  have hat := h.at_worker v
  have hrunning := h.running
  have hparking := h.parking
  have hfits := h.fits
  refine ⟨?_,?_,?_,?_,?_,?_,?_,?_,?_,?_⟩
  all_goals simp only [hfiber,hworker,htasks,hwaiters,Function.update_apply]
  · grind [h.tasks]
  · grind [h.list]
  · grind [h.popped]
  · grind
  · grind
  · grind
  · grind [h.op]
  · exact h.tasksNodup
  · grind [h.listNodup]
  · exact h.poppedNodup

omit [DecidableEq ω] in
/-- A fiber pops the first waiters of an object and ends its section. -/
theorem Placed.pop {popped rest : List ι} (hp : Placed s place) (hv : s.worker v = .running f)
    (hempty : (s.fiber f).popped = []) (hsplit : s.waiters h = popped ++ rest)
    (hfiber : s'.fiber = Function.update s.fiber f (.destroy op popped))
    (hworker : s'.worker = s.worker) (htasks : s'.tasks = s.tasks)
    (hwaiters : s'.waiters = Function.update s.waiters h rest) :
    Placed s' fun g => if g ∈ popped then .popped f else place g := by
  have hplace : place f = .running v := (hp.running v f).mp (by rw [hv]; rfl)
  have hnodup := hp.listNodup h
  rw [hsplit] at hnodup
  have hdisjoint := List.disjoint_of_nodup_append hnodup
  have hlist := hp.list
  have hmem : ∀ g, place g = .list h ↔ g ∈ popped ∨ g ∈ rest := by
    intro g
    rw [←hlist,hsplit,List.mem_append]
  have hfits := hp.fits
  have hpopped := hp.popped
  have hnone := hp.none_popped hempty
  refine ⟨?_,?_,?_,?_,?_,?_,?_,?_,?_,?_⟩
  all_goals simp only [hfiber,hworker,htasks,hwaiters,Function.update_apply]
  · grind [hp.tasks]
  · intro k g
    have hk := hlist k g
    by_cases hkh : k = h
    · have hd : g ∈ popped → g ∉ rest := fun h1 h2 => hdisjoint h1 h2
      grind
    · grind
  · grind
  · grind [hp.running]
  · grind [hp.parking]
  · grind
  · grind [hp.op]
  · exact hp.tasksNodup
  · grind [hp.listNodup]
  · grind [hp.poppedNodup]

omit [DecidableEq ω] [DecidableEq κ] [DecidableEq γ] in
/-- A fiber schedules a waiter that it popped. -/
theorem Placed.schedule {w : ι} {rest : List ι} (hp : Placed s place)
    (hv : s.worker v = .running f) (hf : s.fiber f = .schedule (w :: rest)) :
    Placed ({ s with tasks := s.tasks ++ [w] }.goto f (afterwards rest))
      (Function.update place w .tasks) := by
  have hplace : place f = .running v := (hp.running v f).mp (by rw [hv]; rfl)
  have hpopped := hp.popped
  have hw : place w = .popped f := by
    rw [←hpopped,hf]
    exact List.mem_cons_self
  have hnodup := hp.poppedNodup f
  rw [hf] at hnodup
  have hafter : (afterwards rest : FiberPc ι κ γ).popped = rest := by
    cases rest <;> rfl
  have hactive : (afterwards rest : FiberPc ι κ γ).active = true := by
    cases rest <;> rfl
  have hfits := hp.fits
  have htasks := hp.tasks
  refine ⟨?_,?_,?_,?_,?_,?_,?_,?_,hp.listNodup,?_⟩
  all_goals simp only [Runtime.goto,Function.update_apply]
  · grind
  · grind [hp.list]
  · grind
  · grind [hp.running]
  · grind [hp.parking]
  · grind
  · grind [hp.op]
  · grind [hp.tasksNodup]
  · grind [hp.poppedNodup]

omit [DecidableEq κ] [DecidableEq γ] in
/-- A worker takes a fiber from the queue of the pool. -/
theorem Placed.take {rest : List ι} (hp : Placed s place) (hv : s.worker v = .idle)
    (ht : s.tasks = f :: rest) (hq : q.active = true) (hpopped : q.popped = []) :
    Placed (({ s with tasks := rest }.goto f q).setWorker v (.running f))
      (Function.update place f (.running v)) := by
  have htasks := hp.tasks
  have hplace : place f = .tasks := by
    rw [←htasks,ht]
    exact List.mem_cons_self
  have hnodup := hp.tasksNodup
  rw [ht] at hnodup
  have hat := hp.at_worker v
  have hfits := hp.fits
  have hrunning := hp.running
  have hparking := hp.parking
  have hpop := hp.popped
  have hbefore : (s.fiber f).popped = [] := by
    have hfit := hfits f
    rw [hplace] at hfit
    rcases hfit with hready | hparked
    · rw [hready]
      rfl
    · exact FiberPc.popped_of_parked hparked
  have hnone := hp.none_popped hbefore
  refine ⟨?_,?_,?_,?_,?_,?_,?_,?_,hp.listNodup,?_⟩
  all_goals simp only [Runtime.goto,Runtime.setWorker,Function.update_apply]
  · grind
  · grind [hp.list]
  · grind
  · grind
  · grind
  · grind
  · grind [hp.op]
  · grind
  · grind [hp.poppedNodup]

omit [DecidableEq ω] [DecidableEq κ] [DecidableEq γ] in
/-- A new fiber is submitted. -/
theorem Placed.submit (hp : Placed s place) (hf : s.fiber f = .fresh) :
    Placed ({ s with tasks := s.tasks ++ [f] }.goto f .ready) (Function.update place f .tasks) := by
  have hfits := hp.fits
  have hplace : place f = .out := Place.out_of_fresh (hf ▸ hfits f)
  have htasks := hp.tasks
  have hpopped := hp.popped
  have hnone := hp.none_popped (f := f) (by rw [hf]; rfl)
  refine ⟨?_,?_,?_,?_,?_,?_,?_,?_,hp.listNodup,?_⟩
  all_goals simp only [Runtime.goto,Function.update_apply]
  · grind
  · grind [hp.list]
  · grind
  · grind [hp.running]
  · grind [hp.parking]
  · grind
  · grind [hp.op]
  · grind [hp.tasksNodup]
  · grind [hp.poppedNodup]

omit [DecidableEq κ] [DecidableEq γ] in
/-- A fiber ends. -/
theorem Placed.finish (hp : Placed s place) (hv : s.worker v = .running f)
    (hf : s.fiber f = .running) :
    Placed ((s.goto f .done).setWorker v .idle) (Function.update place f .out) := by
  have hplace : place f = .running v := (hp.running v f).mp (by rw [hv]; rfl)
  have hat := hp.at_worker v
  have hfits := hp.fits
  have hrunning := hp.running
  have hparking := hp.parking
  have hpopped := hp.popped
  have hnone := hp.none_popped (f := f) (by rw [hf]; rfl)
  refine ⟨?_,?_,?_,?_,?_,?_,?_,hp.tasksNodup,hp.listNodup,?_⟩
  all_goals simp only [Runtime.goto,Runtime.setWorker,Function.update_apply]
  · grind [hp.tasks]
  · grind [hp.list]
  · grind
  · grind
  · grind
  · grind
  · grind [hp.op]
  · grind [hp.poppedNodup]

omit [DecidableEq ι] [DecidableEq κ] [DecidableEq γ] in
theorem afterwards_popped (popped : List ι) :
    (afterwards popped : FiberPc ι κ γ).popped = popped := by
  cases popped <;> rfl

omit [DecidableEq ι] [DecidableEq κ] [DecidableEq γ] in
theorem afterwards_active (popped : List ι) :
    (afterwards popped : FiberPc ι κ γ).active = true := by
  cases popped <;> rfl

omit [DecidableEq ω] [DecidableEq κ] [DecidableEq γ] in
/-- The destructor of a guard moves no fiber. -/
theorem Placed.destroyGuard {popped : List ι} (hp : Placed s place) (hv : s.worker v = .running f)
    (hpopped : (s.fiber f).popped = popped) : Placed (destroyGuard s f op popped) place := by
  unfold FiberSync.destroyGuard
  split
  · exact hp.move hv rfl rfl rfl rfl rfl hpopped.symm
  · exact hp.move hv rfl rfl rfl rfl (afterwards_active popped)
      ((afterwards_popped popped).trans hpopped.symm)

/-- The sections under the spinlock. -/
theorem Placed.runBody (hp : Placed s place) (hv : s.worker v = .running f)
    (hf : s.fiber f = .body op) : ∃ place', Placed (runBody s v f op) place' := by
  have hempty : (s.fiber f).popped = [] := by rw [hf]; rfl
  have hdestroy : ∀ s' : Runtime ω ι κ γ, s'.fiber = Function.update s.fiber f (.destroy op []) →
      s'.worker = s.worker → s'.tasks = s.tasks → s'.waiters = s.waiters → Placed s' place :=
    fun s' h1 h2 h3 h4 => hp.move hv h1 h2 h3 h4 rfl hempty.symm
  unfold FiberSync.runBody
  cases op with
  | lock m =>
    simp only
    split
    · exact ⟨_,hp.suspend hv hempty⟩
    · exact ⟨_,hdestroy _ rfl rfl rfl rfl⟩
  | unlock m =>
    simp only
    split
    · exact ⟨_,hdestroy _ rfl rfl rfl rfl⟩
    next w rest hw =>
      have hsplit : s.waiters (.inl m) = [w] ++ rest := hw
      exact ⟨_,hp.pop hv hempty hsplit rfl rfl rfl rfl⟩
  | add w amount => exact ⟨_,hdestroy _ rfl rfl rfl rfl⟩
  | done w =>
    simp only
    split
    · exact ⟨_,hp.pop hv hempty (List.append_nil _).symm rfl rfl rfl rfl⟩
    · exact ⟨_,hdestroy _ rfl rfl rfl rfl⟩
  | wait w =>
    simp only
    split
    · exact ⟨_,hp.suspend hv hempty⟩
    · exact ⟨_,hdestroy _ rfl rfl rfl rfl⟩

/-- The steps of a fiber. -/
theorem placed_fiberStep {spurious : Bool} (hp : Placed s place) (hv : s.worker v = .running f)
    (hs : fiberStep s v f spurious = some s') : ∃ place', Placed s' place' := by
  unfold fiberStep at hs
  split at hs
  all_goals try cases hs
  next op pc hf =>
    refine ⟨place,hp.move hv rfl rfl rfl rfl ?_ ?_⟩
    · split <;> rfl
    · rw [hf]
      split <;> rfl
  next op hf => exact hp.runBody hv hf
  next op hf => exact ⟨place,hp.destroyGuard hv (by rw [hf]; rfl)⟩
  next op popped hf => exact ⟨place,hp.destroyGuard hv (by rw [hf]; rfl)⟩
  next op popped pc hf =>
    simp only at hs
    split at hs <;> cases hs
    · refine ⟨place,hp.move hv rfl rfl rfl rfl (afterwards_active popped) ?_⟩
      rw [hf]
      exact afterwards_popped popped
    · exact ⟨place,hp.move hv rfl rfl rfl rfl rfl (by rw [hf]; rfl)⟩
  next hf => exact ⟨place,hp.move hv rfl rfl rfl rfl rfl (by rw [hf]; rfl)⟩
  next w rest hf => exact ⟨_,hp.schedule hv hf⟩

/-- Every step keeps each fiber in exactly one place. -/
theorem placed_step {a : Action ω ι κ γ} (hp : Placed s place) (hs : step s a = some s') :
    ∃ place', Placed s' place' := by
  cases a with
  | submit f =>
    simp only [step] at hs
    split at hs <;> cases hs
    next hf => exact ⟨_,hp.submit hf⟩
  | take v =>
    simp only [step] at hs
    split at hs
    next f rest hv ht =>
      split at hs <;> cases hs
      · exact ⟨_,hp.take hv ht rfl rfl⟩
      · exact ⟨_,hp.take hv ht rfl rfl⟩
    next => cases hs
  | call v op =>
    simp only [step] at hs
    split at hs
    next f hv =>
      split at hs <;> cases hs
      next hf => exact ⟨place,hp.move hv rfl rfl rfl rfl rfl (by rw [hf.1]; rfl)⟩
    next => cases hs
  | step v spurious =>
    simp only [step,workerStep] at hs
    split at hs
    next => cases hs
    next f hv => exact placed_fiberStep hp hv hs
    next f op hv =>
      cases hs
      exact ⟨_,hp.park hv rfl rfl rfl rfl rfl rfl⟩
    next h g pc hv =>
      cases hs
      refine ⟨place,hp.worker (v := v) (by rw [hv]; rfl) (by rw [hv]; rfl) rfl rfl rfl rfl ?_ ?_⟩
      · split <;> rfl
      · split <;> rfl
  | finish v =>
    simp only [step] at hs
    split at hs
    next f hv =>
      split at hs <;> cases hs
      next hf => exact ⟨_,hp.finish hv hf⟩
    next => cases hs

end Steps

/-- In every reachable state each fiber is in exactly one place. -/
theorem placed_reachable {s : Runtime ω ι κ γ} (hr : (fibers ω ι κ γ).Reachable s) :
    ∃ place, Placed s place := by
  refine System.Reachable.invariant ?_ ?_ hr
  · refine ⟨fun _ => .out,?_⟩
    constructor <;> simp [fibers,initial,FiberPc.popped,WorkerPc.runs,WorkerPc.parks,Place.fits]
  · rintro s a s' ⟨place,hp⟩ hs
    exact placed_step hp hs

/-- A task of the pool is a fiber that a worker can run: the pool never resumes
a fiber that is not suspended. -/
theorem tasks_runnable {s : Runtime ω ι κ γ} (hr : (fibers ω ι κ γ).Reachable s) {f : ι}
    (hf : f ∈ s.tasks) : s.fiber f = .ready ∨ ∃ op, s.fiber f = .suspended op := by
  obtain ⟨place,hp⟩ := placed_reachable hr
  have hfits := hp.fits f
  rw [(hp.tasks f).mp hf] at hfits
  rcases hfits with hready | hparked
  · exact .inl hready
  · cases hpc : s.fiber f with
    | suspended op => exact .inr ⟨op,rfl⟩
    | _ =>
      rw [hpc] at hparked
      cases hparked

end ConcurrencyRuntime.FiberSync
