import ConcurrencyRuntime.FiberSections
import ConcurrencyRuntime.FiberSyncRelease

/-!
# The guards make the sections atomic

In the runs in which every resumed fiber destroys its guard only after the
worker that suspended it is done with the guard, the accesses of the spinlocks
and the sections between them are a run of whole sections. A section takes
effect where its fiber is done with the data, the section of a fiber that is
suspended where the worker has parked the waiter. Until then the guard of the
fiber keeps the sections of the same object out.
-/

namespace ConcurrencyRuntime.FiberSync

open TransitionSystem QueueSpinLock
open FiberSections (Status)

/-- Where a fiber stands when the accesses of the spinlocks are left out. -/
@[grind =]
def FiberPc.status {ι κ γ : Type*} : FiberPc ι κ γ → Status ι κ γ
  | .fresh => .fresh
  | .ready => .ready
  | .running | .acquire .. | .body _ | .resumed _ => .running
  | .suspended op => .waiting op.host
  | .destroy _ popped | .release _ popped _ | .schedule popped => .after popped
  | .done => .done

/-- The mutex that an operation unlocks. -/
@[grind =]
def Op.unlocks {κ γ : Type*} : Op κ γ → Option κ
  | .unlock m => some m
  | _ => none

/-- The mutex that a fiber is about to unlock. -/
@[grind =]
def FiberPc.unlocks {ι κ γ : Type*} : FiberPc ι κ γ → Option κ
  | .acquire op _ | .body op => op.unlocks
  | _ => none

/-- The fiber of a worker until it is parked. -/
@[grind =]
def WorkerPc.fiber {ι κ γ : Type*} : WorkerPc ι κ γ → Option ι
  | .running f | .parking f _ => some f
  | .idle | .releasing .. => none

/-- The section of the operation ends with its fiber suspended. -/
@[grind =]
def Runtime.waits {ω ι κ γ : Type*} (s : Runtime ω ι κ γ) : Op κ γ → Bool
  | .lock m => s.locked m
  | .wait w => 0 < s.counter w
  | _ => false

/-- The data under the spinlocks, and the queue of the pool. -/
def Runtime.data {ω ι κ γ : Type*} (s : Runtime ω ι κ γ) :
    (κ → Bool) × (κ → Option ι) × (γ → ℕ) × (κ ⊕ γ → List ι) × List ι :=
  (s.locked,s.owner,s.counter,s.waiters,s.tasks)

/-- The data and the places of the fibers are those of the sections that have
taken effect. -/
structure Follows {ω ι κ γ : Type*} (s : Runtime ω ι κ γ) (x : FiberSections.Runtime ω ι κ γ) :
    Prop where
  data : (x.locked,x.owner,x.counter,x.waiters,x.tasks) = s.data
  worker : ∀ v, x.worker v = (s.worker v).fiber
  fiber : ∀ f, (∀ v, (s.worker v).parks ≠ some f) → x.fiber f = (s.fiber f).status
  /-- A fiber that is to be parked is still in its section. -/
  parking : ∀ v f, (s.worker v).parks = some f → x.fiber f = .running

/-- What a section has found stays so until it takes effect. -/
structure Decided {ω ι κ γ : Type*} (s : Runtime ω ι κ γ) : Prop where
  parking : ∀ v f op, s.worker v = .parking f op → s.waits op = true
  owned : ∀ m f, s.owner m = some f → s.locked m = true
  calls : ∀ f m, (s.fiber f).unlocks = some m → s.owner m = some f

variable {ω ι κ γ : Type*} [DecidableEq ω] [DecidableEq ι] [DecidableEq κ] [DecidableEq γ]

/-- The section that takes effect with a step. -/
def label (s : Runtime ω ι κ γ) : Action ω ι κ γ → List (FiberSections.Action ω ι κ γ)
  | .submit f => [.submit f]
  | .take v => [.take v]
  | .call .. => []
  | .step v _ =>
    match s.worker v with
    | .parking _ op => [.perform v op]
    | .running f =>
      match s.fiber f with
      | .body op => if s.waits op then [] else [.perform v op]
      | .schedule (_ :: _) => [.schedule v]
      | _ => []
    | _ => []
  | .finish v => [.finish v]

section Decided

variable {s s' : Runtime ω ι κ γ} {phase : κ ⊕ γ → ι × ℕ → Phase (ι × ℕ)}
  {place : ι → Place ω ι κ γ} {f g : ι} {u v : ω} {op op' : Op κ γ}

omit [DecidableEq ω] [DecidableEq ι] [DecidableEq κ] [DecidableEq γ] in
/-- While a fiber is in its section, no worker is about to park another one in
a section of the same object. -/
theorem Shared.parking_apart (hS : Shared s phase) (hp : Placed s place)
    (hf : s.fiber f = .body op) (hu : s.worker u = .parking g op') : op'.host ≠ op.host := by
  intro hhost
  obtain ⟨qs,hq⟩ := hS.queued op.host
  have hhere : phase op.host (s.guard f) = .holding := by
    refine (hS.view _ _ _ (by rintro ⟨⟩)).mpr (.inl ⟨?_,rfl⟩)
    rw [show (s.guard f).1 = f from rfl,hf]
    rfl
  have hthere : phase op.host (s.guard g) = .holding := by
    refine (hS.view _ _ _ (by rintro ⟨⟩)).mpr (.inr ⟨u,?_⟩)
    rw [hu,←hhost]
    rfl
  have hfirst := hq.head_of (g := s.guard f) (by rw [hhere]; rfl) (by rw [hhere]; rfl)
  have hsecond := hq.head_of (g := s.guard g) (by rw [hthere]; rfl) (by rw [hthere]; rfl)
  rw [hfirst] at hsecond
  obtain rfl : f = g := congrArg Prod.fst (Option.some.inj hsecond)
  have hsuspended := hp.op u f op' hu
  rw [hf] at hsuspended
  cases hsuspended

omit [DecidableEq ω] [DecidableEq ι] [DecidableEq γ] in
theorem Runtime.waits_setMutex {m : κ} (hhost : op.host ≠ .inl m) (locked : Bool)
    (owner : Option ι) : (s.setMutex m locked owner).waits op = s.waits op := by
  cases op with
  | lock m' => exact Function.update_of_ne (by rintro rfl; exact hhost rfl) ..
  | unlock m' | add w amount | done w | wait w => rfl

omit [DecidableEq ω] [DecidableEq ι] [DecidableEq κ] in
theorem Runtime.waits_setCounter {w : γ} (hhost : op.host ≠ .inr w) (counter : ℕ) :
    (s.setCounter w counter).waits op = s.waits op := by
  cases op with
  | wait w' =>
    have hne : w' ≠ w := by
      rintro rfl
      exact hhost rfl
    simp only [Runtime.waits,Runtime.setCounter,Function.update_of_ne hne]
  | lock m | unlock m | add w' amount | done w' => rfl

omit [DecidableEq ω] [DecidableEq ι] [DecidableEq κ] [DecidableEq γ] in
/-- A step that writes no data, and starts neither a park nor a section. -/
theorem Decided.keep (hD : Decided s)
    (hdata : (s'.locked,s'.owner,s'.counter) = (s.locked,s.owner,s.counter))
    (hworker : ∀ v f op, s'.worker v = .parking f op → s.worker v = .parking f op)
    (hfiber : ∀ f m, (s'.fiber f).unlocks = some m → (s.fiber f).unlocks = some m) :
    Decided s' := by
  simp only [Prod.mk.injEq] at hdata
  obtain ⟨hlocked,howner,hcounter⟩ := hdata
  have hwaits : ∀ op, s'.waits op = s.waits op := by
    intro op
    cases op with
    | lock m => exact congrFun hlocked m
    | wait w => simp only [Runtime.waits,hcounter]
    | unlock m | add w amount | done w => rfl
  constructor
  case parking =>
    intro v f op hv
    rw [hwaits]
    exact hD.parking v f op (hworker v f op hv)
  case owned =>
    rw [howner,hlocked]
    exact hD.owned
  case calls =>
    intro f m hm
    rw [howner]
    exact hD.calls f m (hfiber f m hm)

omit [DecidableEq ω] [DecidableEq κ] [DecidableEq γ] in
/-- A fiber goes on and is not about to unlock a mutex. -/
theorem Decided.goto {q : FiberPc ι κ γ} (hD : Decided s)
    (hdata : (s'.locked,s'.owner,s'.counter) = (s.locked,s.owner,s.counter))
    (hworker : ∀ v f op, s'.worker v = .parking f op → s.worker v = .parking f op)
    (hfiber : s'.fiber = Function.update s.fiber f q) (hq : q.unlocks = none) : Decided s' := by
  refine hD.keep hdata hworker ?_
  intro g m hm
  rw [hfiber,Function.update_apply] at hm
  split at hm
  · rw [hq] at hm
    cases hm
  · exact hm

omit [DecidableEq κ] [DecidableEq γ] in
/-- A fiber is suspended by a section that waits. -/
theorem Decided.suspend (hD : Decided s) (hwaits : s.waits op = true) :
    Decided (suspend s v f op) := by
  constructor
  case parking =>
    intro u g op' hu
    simp only [FiberSync.suspend,Runtime.setWorker,Runtime.goto,Function.update_apply] at hu
    split at hu
    · cases hu
      exact hwaits
    · exact hD.parking u g op' hu
  case owned => exact hD.owned
  case calls =>
    intro g m hm
    simp only [FiberSync.suspend,Runtime.setWorker,Runtime.goto,Function.update_apply] at hm
    split at hm
    · cases hm
    · exact hD.calls g m hm

omit [DecidableEq ω] [DecidableEq κ] [DecidableEq γ] in
/-- A section writes the data of its object. -/
theorem Decided.write {q : FiberPc ι κ γ} (hD : Decided s)
    (hapart : ∀ u g op', s.worker u = .parking g op' → op'.host ≠ op.host)
    (hworker : s'.worker = s.worker) (hfiber : s'.fiber = Function.update s.fiber f q)
    (hq : q.unlocks = none)
    (hwaits : ∀ op' : Op κ γ, op'.host ≠ op.host → s'.waits op' = s.waits op')
    (howned : ∀ m g, s'.owner m = some g → s'.locked m = true)
    (hcalls : ∀ g m, g ≠ f → s.owner m = some g → s'.owner m = some g) : Decided s' := by
  constructor
  case parking =>
    intro u g op' hu
    rw [hworker] at hu
    rw [hwaits op' (hapart u g op' hu)]
    exact hD.parking u g op' hu
  case owned => exact howned
  case calls =>
    intro g m hm
    rw [hfiber,Function.update_apply] at hm
    split at hm
    · rw [hq] at hm
      cases hm
    next hg => exact hcalls g m hg (hD.calls g m hm)

/-- The sections keep what the other sections have found. -/
theorem decided_runBody (hD : Decided s) (hf : s.fiber f = .body op)
    (hapart : ∀ u g op', s.worker u = .parking g op' → op'.host ≠ op.host) :
    Decided (runBody s v f op) := by
  cases op with
  | lock m =>
    simp only [runBody]
    split
    next hlocked => exact hD.suspend hlocked
    next hfree =>
      refine hD.write hapart rfl rfl rfl (fun _ hhost => s.waits_setMutex hhost true (some f)) ?_ ?_
      · intro m' g hown
        simp only [Runtime.goto,Runtime.setMutex,Function.update_apply] at hown ⊢
        split
        · rfl
        next hm =>
          rw [if_neg hm] at hown
          exact hD.owned m' g hown
      · intro g m' _ hown
        refine (Function.update_of_ne ?_ ..).trans hown
        rintro rfl
        exact hfree (hD.owned m' g hown)
  | unlock m =>
    have hown := hD.calls f m (by rw [hf]; rfl)
    have hothers : ∀ o g m', g ≠ f → s.owner m' = some g →
        Function.update s.owner m o m' = some g := by
      intro o g m' hg hm'
      refine (Function.update_of_ne ?_ ..).trans hm'
      rintro rfl
      rw [hown] at hm'
      exact hg (Option.some.inj hm').symm
    simp only [runBody]
    split
    · refine hD.write hapart rfl rfl rfl (fun _ hhost => s.waits_setMutex hhost false none) ?_
        (hothers none)
      intro m' g hm'
      simp only [Runtime.goto,Runtime.setMutex,Function.update_apply] at hm' ⊢
      split at hm'
      · cases hm'
      next hm =>
        rw [if_neg hm]
        exact hD.owned m' g hm'
    next w rest hlist =>
      have hsame : Function.update s.locked m (s.locked m) = s.locked := Function.update_eq_self ..
      refine hD.write hapart rfl rfl rfl
        (fun _ hhost => s.waits_setMutex hhost (s.locked m) (some w)) ?_ (hothers (some w))
      intro m' g hm'
      simp only [Runtime.goto,Runtime.setMutex,Runtime.setWaiters,hsame,Function.update_apply]
        at hm' ⊢
      split at hm'
      next hm =>
        rw [hm]
        exact hD.owned m f hown
      next => exact hD.owned m' g hm'
  | add w amount =>
    exact hD.write hapart rfl rfl rfl (fun _ hhost => s.waits_setCounter hhost _) hD.owned
      fun _ _ _ hown => hown
  | done w =>
    simp only [runBody]
    split
    · exact hD.write hapart rfl rfl rfl (fun _ hhost => s.waits_setCounter hhost _) hD.owned
        fun _ _ _ hown => hown
    · exact hD.write hapart rfl rfl rfl (fun _ hhost => s.waits_setCounter hhost _) hD.owned
        fun _ _ _ hown => hown
  | wait w =>
    simp only [runBody]
    split
    next hcounter => exact hD.suspend (decide_eq_true hcounter)
    next => exact hD.goto rfl (fun _ _ _ hu => hu) rfl rfl

end Decided

section Steps

variable {s s' : Runtime ω ι κ γ} {x x' : FiberSections.Runtime ω ι κ γ}
  {phase : κ ⊕ γ → ι × ℕ → Phase (ι × ℕ)} {place : ι → Place ω ι κ γ} {f : ι} {v : ω}
  {op : Op κ γ} {q : FiberPc ι κ γ}

/-- A fiber accesses a spinlock: neither its status nor the data change. -/
structure Quiet {ω ι κ γ : Type*} [DecidableEq ι] (s s' : Runtime ω ι κ γ) (f : ι) : Prop where
  fiber : ∃ q, s'.fiber = Function.update s.fiber f q ∧ q.status = (s.fiber f).status ∧
    ∀ m, q.unlocks = some m → (s.fiber f).unlocks = some m
  worker : s'.worker = s.worker
  data : s'.data = s.data

omit [DecidableEq ω] [DecidableEq κ] [DecidableEq γ] in
theorem Quiet.decided (h : Quiet s s' f) (hD : Decided s) : Decided s' := by
  obtain ⟨q,hfiber,-,hunlocks⟩ := h.fiber
  have hdata := h.data
  simp only [Runtime.data,Prod.mk.injEq] at hdata
  refine hD.keep ?_ ?_ ?_
  · simp only [Prod.mk.injEq]
    exact ⟨hdata.1,hdata.2.1,hdata.2.2.1⟩
  · rw [h.worker]
    exact fun _ _ _ hu => hu
  · intro g m hm
    rw [hfiber,Function.update_apply] at hm
    split at hm
    next hg =>
      rw [hg]
      exact hunlocks m hm
    next => exact hm

omit [DecidableEq ω] [DecidableEq κ] [DecidableEq γ] in
/-- A fiber keeps its status. -/
theorem Follows.keep (hF : Follows s x) (hfiber : s'.fiber = Function.update s.fiber f q)
    (hq : q.status = (s.fiber f).status) (hworker : s'.worker = s.worker)
    (hdata : s'.data = s.data) : Follows s' x := by
  constructor
  case data => exact hF.data.trans hdata.symm
  case worker =>
    rw [hworker]
    exact hF.worker
  case fiber =>
    intro g hg
    rw [hworker] at hg
    rw [hF.fiber g hg,hfiber,Function.update_apply]
    split
    next he => rw [he,hq]
    next => rfl
  case parking =>
    rw [hworker]
    exact hF.parking

omit [DecidableEq ω] [DecidableEq ι] [DecidableEq κ] [DecidableEq γ] in
theorem FiberPc.status_afterwards (popped : List ι) :
    (afterwards popped : FiberPc ι κ γ).status = .after popped := by
  cases popped with
  | nil => rfl
  | cons w rest => rfl

omit [DecidableEq ω] [DecidableEq κ] [DecidableEq γ] in
/-- The end of the destructor of a guard. -/
theorem quiet_dropGuard {popped : List ι} (hf : (s.fiber f).status = .after popped)
    (hfiber : s'.fiber = s.fiber) (hworker : s'.worker = s.worker) (hdata : s'.data = s.data) :
    Quiet s (s'.dropGuard f popped) f := by
  refine ⟨⟨afterwards popped,?_,?_,?_⟩,hworker,hdata⟩
  · rw [←hfiber]
    rfl
  · rw [hf]
    exact FiberPc.status_afterwards popped
  · intro m hm
    cases popped with
    | nil => cases hm
    | cons w rest => cases hm

omit [DecidableEq ω] [DecidableEq κ] [DecidableEq γ] in
/-- The destructor of a guard loads is_owner. -/
theorem quiet_destroyGuard {popped : List ι} (hf : (s.fiber f).status = .after popped) :
    Quiet s (destroyGuard s f op popped) f := by
  unfold destroyGuard
  split
  · refine ⟨⟨.release op popped .hasNext,rfl,hf.symm,?_⟩,rfl,rfl⟩
    rintro m ⟨⟩
  · exact quiet_dropGuard hf rfl rfl rfl

/-- A step of a fiber accesses a spinlock, runs a section or schedules a
waiter. -/
theorem fiberStep_cases {spurious : Bool} (hv : s.worker v = .running f)
    (hs : fiberStep s v f spurious = some s') :
    (Quiet s s' f ∧ label s (.step v spurious) = []) ∨
      (∃ op, s.fiber f = .body op ∧ s' = runBody s v f op) ∨
      ∃ w rest, s.fiber f = .schedule (w :: rest) ∧
        s' = { s with tasks := s.tasks ++ [w] }.goto f (afterwards rest) := by
  cases hf : s.fiber f with
  | fresh | ready | running | suspended op | done => simp [fiberStep,hf] at hs
  | acquire op pc =>
    simp only [fiberStep,hf,Option.some.injEq] at hs
    subst hs
    refine .inl ⟨⟨⟨_,rfl,?_,?_⟩,rfl,rfl⟩,by simp [label,hv,hf]⟩
    · rw [hf]
      split <;> rfl
    · intro m hm
      rw [hf]
      split at hm <;> exact hm
  | body op =>
    simp only [fiberStep,hf,Option.some.injEq] at hs
    exact .inr (.inl ⟨op,rfl,hs.symm⟩)
  | resumed op =>
    simp only [fiberStep,hf,Option.some.injEq] at hs
    subst hs
    exact .inl ⟨quiet_destroyGuard (by rw [hf]; rfl),by simp [label,hv,hf]⟩
  | destroy op popped =>
    simp only [fiberStep,hf,Option.some.injEq] at hs
    subst hs
    exact .inl ⟨quiet_destroyGuard (by rw [hf]; rfl),by simp [label,hv,hf]⟩
  | release op popped pc =>
    simp only [fiberStep,hf] at hs
    refine .inl ⟨?_,by simp [label,hv,hf]⟩
    split at hs <;> cases hs
    next => exact quiet_dropGuard (by rw [hf]; rfl) rfl rfl rfl
    next pc' hne =>
      refine ⟨⟨_,rfl,?_,?_⟩,rfl,rfl⟩
      · rw [hf]
        rfl
      · rintro m ⟨⟩
  | schedule popped =>
    cases popped with
    | nil =>
      simp only [fiberStep,hf,Option.some.injEq] at hs
      subst hs
      refine .inl ⟨⟨⟨_,rfl,?_,?_⟩,rfl,rfl⟩,by simp [label,hv,hf]⟩
      · rw [hf]
        rfl
      · rintro m ⟨⟩
    | cons w rest =>
      simp only [fiberStep,hf,Option.some.injEq] at hs
      exact .inr (.inr ⟨w,rest,rfl,hs.symm⟩)

/-- What the sections have found stays so over every step. -/
theorem decided_step {a : Action ω ι κ γ} (hD : Decided s) (hp : Placed s place)
    (hS : Shared s phase) (hs : step s a = some s') : Decided s' := by
  have hfree : ∀ v (pc : WorkerPc ι κ γ), (∀ f op, pc ≠ .parking f op) → ∀ u f op,
      Function.update s.worker v pc u = .parking f op → s.worker u = .parking f op := by
    intro v pc hpc u f op hu
    rw [Function.update_apply] at hu
    split at hu
    · exact absurd hu (hpc f op)
    · exact hu
  cases a with
  | submit f =>
    simp only [step] at hs
    split at hs <;> cases hs
    exact hD.goto rfl (fun _ _ _ hu => hu) rfl rfl
  | take v =>
    simp only [step] at hs
    split at hs
    next f rest hv ht =>
      split at hs <;> cases hs
      next => exact hD.goto rfl (hfree v (.running f) (by rintro _ _ ⟨⟩)) rfl rfl
      next => exact hD.goto rfl (hfree v (.running f) (by rintro _ _ ⟨⟩)) rfl rfl
    next => cases hs
  | call v op =>
    simp only [step] at hs
    split at hs
    next f hv =>
      split at hs <;> cases hs
      next hf =>
        refine ⟨hD.parking,hD.owned,?_⟩
        intro g m hm
        simp only [Runtime.goto,Function.update_apply] at hm
        split at hm
        next hg =>
          have hpermitted := hf.2
          rw [hg]
          cases op with
          | unlock m' =>
            cases hm
            exact of_decide_eq_true hpermitted
          | lock m' | add w amount | done w | wait w => cases hm
        next => exact hD.calls g m hm
    next => cases hs
  | step v spurious =>
    simp only [step,workerStep] at hs
    split at hs
    next => cases hs
    next f hv =>
      rcases fiberStep_cases hv hs with ⟨hquiet,-⟩ | ⟨op,hf,rfl⟩ | ⟨w,rest,hf,rfl⟩
      · exact hquiet.decided hD
      · exact decided_runBody hD hf fun u g op' hu => hS.parking_apart hp hf hu
      · refine hD.goto rfl (fun _ _ _ hu => hu) rfl ?_
        cases rest with
        | nil => rfl
        | cons w' rest => rfl
    next f op hv =>
      cases hs
      exact hD.keep rfl (hfree v _ (by rintro _ _ ⟨⟩)) fun _ _ hm => hm
    next h g pc hv =>
      cases hs
      refine hD.keep rfl (hfree v _ ?_) fun _ _ hm => hm
      intro f op
      split <;> rintro ⟨⟩
  | finish v =>
    simp only [step] at hs
    split at hs
    next f hv =>
      split at hs <;> cases hs
      exact hD.goto rfl (hfree v .idle (by rintro _ _ ⟨⟩)) rfl rfl
    next => cases hs

omit [DecidableEq ω] [DecidableEq ι] [DecidableEq κ] [DecidableEq γ] in
/-- The fiber of a worker runs outside of the sections, or is in one that has
not taken effect. -/
theorem Follows.running (hF : Follows s x) (hp : Placed s place) (hv : s.worker v = .running f) :
    x.worker v = some f ∧ x.fiber f = (s.fiber f).status := by
  refine ⟨by rw [hF.worker,hv]; rfl,hF.fiber f fun u hu => ?_⟩
  have hrunning := (hp.running v f).mp (by rw [hv]; rfl)
  rw [(hp.parking u f).mp hu] at hrunning
  cases hrunning

omit [DecidableEq ω] [DecidableEq κ] [DecidableEq γ] in
/-- A fiber that no worker is about to park moves on. -/
theorem Follows.move (hF : Follows s x) (hout : ∀ u, (s.worker u).parks ≠ some f)
    (hfiber : s'.fiber = Function.update s.fiber f q)
    (hxfiber : x'.fiber = Function.update x.fiber f q.status)
    (hdata : (x'.locked,x'.owner,x'.counter,x'.waiters,x'.tasks) = s'.data)
    (hworker : ∀ u, x'.worker u = (s'.worker u).fiber)
    (hparks : ∀ u, (s'.worker u).parks = (s.worker u).parks) : Follows s' x' := by
  constructor
  case data => exact hdata
  case worker => exact hworker
  case fiber =>
    intro g hg
    simp only [hparks] at hg
    rw [hxfiber,hfiber,Function.update_apply,Function.update_apply]
    split
    · rfl
    · exact hF.fiber g hg
  case parking =>
    intro u g hu
    rw [hparks] at hu
    rw [hxfiber,Function.update_apply]
    split
    next hg => exact absurd (hg ▸ hu) (hout u)
    next => exact hF.parking u g hu

/-- A section that does not wait takes effect where it runs. -/
theorem Follows.runBody (hF : Follows s x) (hp : Placed s place) (hv : s.worker v = .running f)
    (hf : s.fiber f = .body op) (hwaits : s.waits op = false) :
    Follows (runBody s v f op) (x.perform v f op) := by
  obtain ⟨-,hx⟩ := hF.running hp hv
  rw [hf] at hx
  have hout := hp.no_parks (f := f) (by rw [hf]; rfl)
  have hself : x.fiber = Function.update x.fiber f (.after []) := by
    rw [show (Status.after [] : Status ι κ γ) = x.fiber f from hx.symm]
    exact (Function.update_eq_self ..).symm
  have hdata := hF.data
  simp only [Runtime.data,Prod.mk.injEq] at hdata
  obtain ⟨hlocked,howner,hcounter,hwaiters,htasks⟩ := hdata
  cases op with
  | lock m =>
    have hfree : s.locked m = false := hwaits
    simp only [FiberSync.runBody,FiberSections.Runtime.perform,hlocked,hfree,Bool.false_eq_true,
      if_false]
    refine hF.move hout rfl hself ?_ hF.worker fun _ => rfl
    simp [Runtime.data,Runtime.goto,Runtime.setMutex,howner,hcounter,hwaiters,htasks]
  | unlock m =>
    simp only [FiberSync.runBody,FiberSections.Runtime.perform,hwaiters]
    cases hlist : s.waiters (.inl m) with
    | nil =>
      refine hF.move hout rfl hself ?_ hF.worker fun _ => rfl
      simp [Runtime.data,Runtime.goto,Runtime.setMutex,hlocked,howner,hcounter,htasks]
    | cons w rest =>
      refine hF.move hout rfl rfl ?_ hF.worker fun _ => rfl
      simp [Runtime.data,Runtime.goto,Runtime.setMutex,Runtime.setWaiters,
        FiberSections.Runtime.goto,hlocked,howner,hcounter,htasks]
  | add w amount =>
    simp only [FiberSync.runBody,FiberSections.Runtime.perform,hcounter]
    refine hF.move hout rfl hself ?_ hF.worker fun _ => rfl
    simp only [Runtime.data,Runtime.goto,Runtime.setCounter,hlocked,howner,hwaiters,htasks]
  | done w =>
    by_cases hzero : (s.counter w + 2 ^ 64 - 1) % 2 ^ 64 = 0
    · simp only [FiberSync.runBody,FiberSections.Runtime.perform,hcounter,hwaiters,if_pos hzero]
      refine hF.move hout rfl rfl ?_ hF.worker fun _ => rfl
      simp only [Runtime.data,Runtime.goto,Runtime.setCounter,Runtime.setWaiters,
        FiberSections.Runtime.goto,hlocked,howner,htasks]
    · simp only [FiberSync.runBody,FiberSections.Runtime.perform,hcounter,hwaiters,if_neg hzero]
      refine hF.move hout rfl hself ?_ hF.worker fun _ => rfl
      simp only [Runtime.data,Runtime.goto,Runtime.setCounter,hlocked,howner,htasks]
  | wait w =>
    have hzero : ¬0 < s.counter w := of_decide_eq_false hwaits
    simp only [FiberSync.runBody,FiberSections.Runtime.perform,hcounter,if_neg hzero]
    refine hF.move hout rfl hself ?_ hF.worker fun _ => rfl
    simp [Runtime.data,Runtime.goto,hlocked,howner,hcounter,hwaiters,htasks]

omit [DecidableEq κ] [DecidableEq γ] in
/-- A fiber is suspended in its section, which has not taken effect. -/
theorem Follows.suspend (hF : Follows s x) (hp : Placed s place) (hv : s.worker v = .running f)
    (hf : s.fiber f = .body op) : Follows (suspend s v f op) x := by
  obtain ⟨hxv,hx⟩ := hF.running hp hv
  rw [hf] at hx
  constructor
  case data => exact hF.data
  case worker =>
    intro u
    simp only [FiberSync.suspend,Runtime.setWorker,Function.update_apply]
    split
    next hu =>
      rw [hu,hxv]
      rfl
    next => exact hF.worker u
  case fiber =>
    intro g hg
    have hgf : g ≠ f := by
      rintro rfl
      refine hg v ?_
      simp [FiberSync.suspend,Runtime.setWorker,WorkerPc.parks]
    simp only [FiberSync.suspend,Runtime.setWorker,Runtime.goto,Function.update_of_ne hgf]
    refine hF.fiber g fun u hu => hg u ?_
    have huv : u ≠ v := by
      rintro rfl
      rw [hv] at hu
      cases hu
    simp only [FiberSync.suspend,Runtime.setWorker,Function.update_of_ne huv]
    exact hu
  case parking =>
    intro u g hu
    simp only [FiberSync.suspend,Runtime.setWorker,Function.update_apply] at hu
    split at hu
    · cases hu
      exact hx
    · exact hF.parking u g hu

/-- The section of a suspended fiber takes effect when its waiter is parked. -/
theorem Follows.park (hF : Follows s x) (hD : Decided s) (hp : Placed s place)
    (hv : s.worker v = .parking f op)
    (hdata : s'.data = (s.locked,s.owner,s.counter,
      Function.update s.waiters op.host (s.waiters op.host ++ [f]),s.tasks))
    (hfiber : s'.fiber = s.fiber)
    (hworker : s'.worker = Function.update s.worker v (.releasing op.host (s.guard f) .hasNext)) :
    Follows s' (x.perform v f op) := by
  have hwaits := hD.parking v f op hv
  have hxdata := hF.data
  simp only [Runtime.data,Prod.mk.injEq] at hxdata
  obtain ⟨hlocked,howner,hcounter,hwaiters,htasks⟩ := hxdata
  have hpark : x.perform v f op = x.park v f op.host := by
    cases op with
    | lock m =>
      have hm : s.locked m = true := hwaits
      simp [FiberSections.Runtime.perform,hlocked,hm,Op.host]
    | wait w =>
      have hw : 0 < s.counter w := of_decide_eq_true hwaits
      simp [FiberSections.Runtime.perform,hcounter,hw,Op.host]
    | unlock m | add w amount | done w => cases hwaits
  have hplace := (hp.parking v f).mp (by rw [hv]; rfl)
  have hothers : ∀ u g, (s'.worker u).parks = some g →
      u ≠ v ∧ (s.worker u).parks = some g ∧ g ≠ f := by
    intro u g hu
    rw [hworker,Function.update_apply] at hu
    split at hu
    · cases hu
    next huv =>
      refine ⟨huv,hu,?_⟩
      rintro rfl
      rw [(hp.parking u g).mp hu] at hplace
      cases hplace
      exact huv rfl
  rw [hpark]
  constructor
  case data =>
    rw [hdata]
    simp [FiberSections.Runtime.park,hlocked,howner,hcounter,hwaiters,htasks]
  case worker =>
    intro u
    rw [hworker]
    simp only [FiberSections.Runtime.park,Function.update_apply]
    split
    · rfl
    · exact hF.worker u
  case fiber =>
    intro g hg
    rw [hfiber]
    simp only [FiberSections.Runtime.park,Function.update_apply]
    split
    next hgf =>
      rw [hgf,hp.op v f op hv]
      rfl
    next hgf =>
      refine hF.fiber g fun u hu => hg u ?_
      have huv : u ≠ v := by
        rintro rfl
        rw [hv] at hu
        exact hgf (Option.some.inj hu).symm
      rwa [hworker,Function.update_of_ne huv]
  case parking =>
    intro u g hu
    obtain ⟨-,hu,hgf⟩ := hothers u g hu
    simp only [FiberSections.Runtime.park,Function.update_of_ne hgf]
    exact hF.parking u g hu

omit [DecidableEq ι] [DecidableEq κ] [DecidableEq γ] in
/-- The fibers of the workers after a worker has moved. -/
theorem Follows.workers {o : Option ι} (hF : Follows s x) {pc : WorkerPc ι κ γ} (hpc : pc.fiber = o)
    (u : ω) : Function.update x.worker v o u = (Function.update s.worker v pc u).fiber := by
  rw [Function.update_apply,Function.update_apply]
  split
  · exact hpc.symm
  · exact hF.worker u

omit [DecidableEq ι] [DecidableEq κ] [DecidableEq γ] in
/-- The worker that moves neither was about to park a fiber nor is. -/
theorem parks_update {pc : WorkerPc ι κ γ} (hv : (s.worker v).parks = none) (hpc : pc.parks = none)
    (u : ω) : (Function.update s.worker v pc u).parks = (s.worker u).parks := by
  rw [Function.update_apply]
  split
  next hu => rw [hu,hv,hpc]
  next => rfl

omit [DecidableEq ι] [DecidableEq κ] [DecidableEq γ] in
/-- A worker without a fiber goes on without one. -/
theorem Follows.release {pc : WorkerPc ι κ γ} (hF : Follows s x) (hdata : s'.data = s.data)
    (hfiber : s'.fiber = s.fiber) (hworker : s'.worker = Function.update s.worker v pc)
    (hv : (s.worker v).fiber = none) (hpc : pc.fiber = none) : Follows s' x := by
  have hnone : ∀ pc : WorkerPc ι κ γ, pc.fiber = none → pc.parks = none := by
    intro pc hpc
    cases pc with
    | idle | releasing h g pc => rfl
    | running f | parking f op => cases hpc
  have hparks : ∀ u, (s'.worker u).parks = (s.worker u).parks := by
    rw [hworker]
    exact parks_update (hnone _ hv) (hnone _ hpc)
  constructor
  case data => exact hF.data.trans hdata.symm
  case worker =>
    intro u
    rw [hworker,Function.update_apply]
    split
    next hu => rw [hu,hF.worker,hv,hpc]
    next => exact hF.worker u
  case fiber =>
    intro g hg
    simp only [hparks] at hg
    rw [hfiber]
    exact hF.fiber g hg
  case parking =>
    intro u g hu
    rw [hparks] at hu
    exact hF.parking u g hu

/-- A worker takes the first task. -/
theorem Follows.take {rest : List ι} (hF : Follows s x) (hp : Placed s place)
    (hv : s.worker v = .idle) (ht : s.tasks = f :: rest) (hf : (s.fiber f).status.stopped = true)
    (hq : q.status = .running) :
    ∃ x', FiberSections.step x (.take v) = some x' ∧
      Follows (({ s with tasks := rest }.goto f q).setWorker v (.running f)) x' := by
  have hdata := hF.data
  simp only [Runtime.data,Prod.mk.injEq] at hdata
  obtain ⟨hlocked,howner,hcounter,hwaiters,htasks⟩ := hdata
  have hplace := (hp.tasks f).mp (by rw [ht]; exact List.mem_cons_self)
  have hout : ∀ u, (s.worker u).parks ≠ some f := by
    intro u hu
    rw [(hp.parking u f).mp hu] at hplace
    cases hplace
  have hxv : x.worker v = none := by
    rw [hF.worker,hv]
    rfl
  refine ⟨{ x with tasks := rest, worker := Function.update x.worker v (some f) }.goto f .running,
    ?_,?_⟩
  · simp [FiberSections.step,hxv,htasks,ht,hF.fiber f hout,hf]
  · refine hF.move hout rfl ?_ ?_ (hF.workers rfl)
        (parks_update (s := s) (by rw [hv]; rfl) rfl)
    · rw [hq]
      rfl
    · simp [FiberSections.Runtime.goto,Runtime.data,Runtime.setWorker,Runtime.goto,hlocked,howner,
        hcounter,hwaiters]

/-- A section that waits suspends its fiber. -/
theorem runBody_waits (hwaits : s.waits op = true) : runBody s v f op = suspend s v f op := by
  cases op with
  | lock m => exact if_pos hwaits
  | wait w => exact if_pos (of_decide_eq_true hwaits)
  | unlock m | add w amount | done w => cases hwaits

/-- A new fiber is submitted. -/
theorem Follows.submit (hF : Follows s x) (hp : Placed s place) (hf : s.fiber f = .fresh) :
    ∃ x', FiberSections.step x (.submit f) = some x' ∧
      Follows ({ s with tasks := s.tasks ++ [f] }.goto f .ready) x' := by
  have hdata := hF.data
  simp only [Runtime.data,Prod.mk.injEq] at hdata
  obtain ⟨hlocked,howner,hcounter,hwaiters,htasks⟩ := hdata
  have hout := hp.no_parks (f := f) (by rw [hf]; rfl)
  have hx : x.fiber f = .fresh := by
    rw [hF.fiber f hout,hf]
    rfl
  refine ⟨{ x with tasks := x.tasks ++ [f] }.goto f .ready,by simp [FiberSections.step,hx],?_⟩
  refine hF.move hout rfl rfl ?_ hF.worker fun _ => rfl
  simp [FiberSections.Runtime.goto,Runtime.data,Runtime.goto,hlocked,howner,hcounter,hwaiters,htasks]

/-- The fiber of a worker ends. -/
theorem Follows.finish (hF : Follows s x) (hp : Placed s place) (hv : s.worker v = .running f)
    (hf : s.fiber f = .running) :
    ∃ x', FiberSections.step x (.finish v) = some x' ∧
      Follows ((s.goto f .done).setWorker v .idle) x' := by
  have hdata := hF.data
  simp only [Runtime.data,Prod.mk.injEq] at hdata
  obtain ⟨hlocked,howner,hcounter,hwaiters,htasks⟩ := hdata
  obtain ⟨hxv,hx⟩ := hF.running hp hv
  have hxf : x.fiber f = .running := by
    rw [hx,hf]
    rfl
  refine ⟨{ x with worker := Function.update x.worker v none }.goto f .done,?_,?_⟩
  · simp [FiberSections.step,hxv,hxf]
  · refine hF.move (hp.no_parks (by rw [hf]; rfl)) rfl rfl ?_ (hF.workers rfl)
      (parks_update (s := s) (by rw [hv]; rfl) rfl)
    simp [FiberSections.Runtime.goto,Runtime.data,Runtime.setWorker,Runtime.goto,hlocked,howner,
      hcounter,hwaiters,htasks]

/-- A fiber schedules the next waiter that it popped. -/
theorem Follows.schedule {w : ι} {rest : List ι} (hF : Follows s x) (hp : Placed s place)
    (hv : s.worker v = .running f) (hf : s.fiber f = .schedule (w :: rest)) :
    ∃ x', FiberSections.step x (.schedule v) = some x' ∧
      Follows ({ s with tasks := s.tasks ++ [w] }.goto f (afterwards rest)) x' := by
  have hdata := hF.data
  simp only [Runtime.data,Prod.mk.injEq] at hdata
  obtain ⟨hlocked,howner,hcounter,hwaiters,htasks⟩ := hdata
  obtain ⟨hxv,hx⟩ := hF.running hp hv
  have hxf : x.fiber f = .scheduling (w :: rest) := by
    rw [hx,hf]
    rfl
  refine ⟨{ x with tasks := x.tasks ++ [w] }.goto f (.after rest),?_,?_⟩
  · simp [FiberSections.step,hxv,hxf]
  · refine hF.move (hp.no_parks (by rw [hf]; rfl)) rfl ?_ ?_ hF.worker fun _ => rfl
    · rw [FiberPc.status_afterwards]
      rfl
    · simp [FiberSections.Runtime.goto,Runtime.data,Runtime.goto,hlocked,howner,hcounter,hwaiters,
        htasks]

/-- A section that takes effect where it runs, or where its fiber is parked, is
permitted. -/
theorem Follows.performs (hF : Follows s x) (hxv : x.worker v = some f)
    (hxf : x.fiber f = .running) (hop : ∀ m, op = .unlock m → s.owner m = some f) :
    FiberSections.step x (.perform v op) = some (x.perform v f op) := by
  have hdata := hF.data
  simp only [Runtime.data,Prod.mk.injEq] at hdata
  have hpermitted : FiberSections.permitted x f op = true := by
    cases op with
    | unlock m => simp [FiberSections.permitted,hdata.2.1,hop m rfl]
    | lock m | add w amount | done w | wait w => rfl
  simp [FiberSections.step,hxv,hxf,hpermitted]

/-- Every step is the section that takes effect with it, or none. -/
theorem follows_step {a : Action ω ι κ γ} (hF : Follows s x) (hD : Decided s)
    (hp : Placed s place) (hs : step s a = some s') :
    ∃ x', (FiberSections.sections ω ι κ γ).run x (label s a) = some x' ∧ Follows s' x' := by
  have hone : ∀ b, (∃ x', FiberSections.step x b = some x' ∧ Follows s' x') →
      ∃ x', (FiberSections.sections ω ι κ γ).run x [b] = some x' ∧ Follows s' x' := by
    rintro b ⟨x',hx',hF'⟩
    exact ⟨x',by simp [System.run,FiberSections.sections,hx'],hF'⟩
  cases a with
  | submit f =>
    simp only [step] at hs
    split at hs <;> cases hs
    next hf => exact hone _ (hF.submit hp hf)
  | take v =>
    simp only [step] at hs
    split at hs
    next f rest hv ht =>
      split at hs <;> cases hs
      next hf => exact hone _ (hF.take hp hv ht (by rw [hf]; rfl) rfl)
      next op hf => exact hone _ (hF.take hp hv ht (by rw [hf]; rfl) rfl)
    next => cases hs
  | call v op =>
    simp only [step] at hs
    split at hs
    next f hv =>
      split at hs <;> cases hs
      next hf =>
        refine ⟨x,rfl,hF.keep rfl ?_ rfl rfl⟩
        rw [hf.1]
        rfl
    next => cases hs
  | step v spurious =>
    simp only [step,workerStep] at hs
    split at hs
    next => cases hs
    next f hv =>
      rcases fiberStep_cases hv hs with ⟨hquiet,hlabel⟩ | ⟨op,hf,rfl⟩ | ⟨w,rest,hf,rfl⟩
      · obtain ⟨q,hfiber,hq,-⟩ := hquiet.fiber
        rw [hlabel]
        exact ⟨x,rfl,hF.keep hfiber hq hquiet.worker hquiet.data⟩
      · obtain ⟨hxv,hx⟩ := hF.running hp hv
        rw [hf] at hx
        cases hwaits : s.waits op with
        | false =>
          have hlabel : label s (.step v spurious) = [.perform v op] := by
            simp [label,hv,hf,hwaits]
          rw [hlabel]
          refine hone _ ⟨x.perform v f op,hF.performs hxv hx ?_,hF.runBody hp hv hf hwaits⟩
          rintro m rfl
          exact hD.calls f m (by rw [hf]; rfl)
        | true =>
          have hlabel : label s (.step v spurious) = [] := by
            simp [label,hv,hf,hwaits]
          rw [hlabel,runBody_waits hwaits]
          exact ⟨x,rfl,hF.suspend hp hv hf⟩
      · have hlabel : label s (.step v spurious) = [.schedule v] := by
          simp [label,hv,hf]
        rw [hlabel]
        exact hone _ (hF.schedule hp hv hf)
    next f op hv =>
      cases hs
      have hlabel : label s (.step v spurious) = [.perform v op] := by simp [label,hv]
      have hxv : x.worker v = some f := by
        rw [hF.worker,hv]
        rfl
      have hxf : x.fiber f = .running := hF.parking v f (by rw [hv]; rfl)
      rw [hlabel]
      refine hone _ ⟨x.perform v f op,hF.performs hxv hxf ?_,hF.park hD hp hv rfl rfl rfl⟩
      rintro m rfl
      cases hD.parking v f _ hv
    next h g pc hv =>
      cases hs
      have hlabel : label s (.step v spurious) = [] := by simp [label,hv]
      rw [hlabel]
      refine ⟨x,rfl,hF.release rfl rfl rfl (by rw [hv]; rfl) ?_⟩
      split <;> rfl
  | finish v =>
    simp only [step] at hs
    split at hs
    next f hv =>
      split at hs <;> cases hs
      next hf => exact hone _ (hF.finish hp hv hf)
    next => cases hs

end Steps

section Runs

variable {s : Runtime ω ι κ γ} {acts : List (Action ω ι κ γ)}

omit [DecidableEq ω] [DecidableEq ι] [DecidableEq κ] [DecidableEq γ] in
theorem follows_initial : Follows (initial ω ι κ γ) (FiberSections.initial ω ι κ γ) := by
  constructor
  case data => rfl
  case worker => exact fun _ => rfl
  case fiber => exact fun _ _ => rfl
  case parking => rintro _ _ ⟨⟩

omit [DecidableEq ω] [DecidableEq ι] [DecidableEq κ] [DecidableEq γ] in
theorem decided_initial : Decided (initial ω ι κ γ) := by
  constructor
  case parking => rintro _ _ _ ⟨⟩
  case owned => rintro _ _ ⟨⟩
  case calls => rintro _ _ ⟨⟩

/-- In every run in which the destructors come after the flag is cleared, what
the sections have found stays so until they take effect. -/
theorem decided_reachable (hr : (fibers ω ι κ γ).ReachableUnder Cleared s) : Decided s := by
  refine System.ReachableUnder.invariant decided_initial ?_ hr
  intro s a s' hr hD _ hs
  obtain ⟨⟨place,hp⟩,phase,hS,-⟩ := steady_reachable hr
  exact decided_step hD hp hS hs

/-- Such a run is a run of the atomic sections, in the order in which they
take effect. -/
theorem sections_atomic (hm : (fibers ω ι κ γ).Meets Cleared (initial ω ι κ γ) acts)
    (hr : (fibers ω ι κ γ).run (initial ω ι κ γ) acts = some s) :
    ∃ x, (FiberSections.sections ω ι κ γ).run (FiberSections.initial ω ι κ γ)
        ((fibers ω ι κ γ).image label (initial ω ι κ γ) acts) = some x ∧ Follows s x := by
  have hsim : ∃ x, (FiberSections.sections ω ι κ γ).run (FiberSections.initial ω ι κ γ)
      ((fibers ω ι κ γ).image label (initial ω ι κ γ) acts) = some x ∧
        (fibers ω ι κ γ).ReachableUnder Cleared s ∧ Follows s x := by
    refine System.simulation
      (R := fun s x => (fibers ω ι κ γ).ReachableUnder Cleared s ∧ Follows s x) ?_
      ⟨.start,follows_initial⟩ hm hr
    rintro s x a s' ⟨hr,hF⟩ ha hs
    obtain ⟨⟨place,hp⟩,-⟩ := steady_reachable hr
    obtain ⟨x',hx',hF'⟩ := follows_step hF (decided_reachable hr) hp hs
    exact ⟨x',hx',hr.step ha hs,hF'⟩
  obtain ⟨x,hx,-,hF⟩ := hsim
  exact ⟨x,hx,hF⟩

omit [DecidableEq ω] [DecidableEq ι] [DecidableEq κ] [DecidableEq γ] in
/-- At most one section takes effect with a step. -/
theorem label_cases (s : Runtime ω ι κ γ) (a : Action ω ι κ γ) :
    label s a = [] ∨ ∃ b, label s a = [b] := by
  cases a with
  | submit f | take v | finish v => exact .inr ⟨_,rfl⟩
  | call v op => exact .inl rfl
  | step v spurious =>
    simp only [label]
    split
    · exact .inr ⟨_,rfl⟩
    · split
      · split
        · exact .inl rfl
        · exact .inr ⟨_,rfl⟩
      · exact .inr ⟨_,rfl⟩
      · exact .inl rfl
    · exact .inl rfl

/-- Every state of such a run follows a state of the atomic sections. What the
callers promise about the counters where the sections take effect, they
promise about the atomic sections. -/
theorem follows_reachable (Admitted : (γ → ℕ) → FiberSections.Action ω ι κ γ → Prop)
    (hr : (fibers ω ι κ γ).ReachableUnder
      (fun s a => Cleared s a ∧ ∀ b ∈ label s a, Admitted s.counter b) s) :
    ∃ x, (FiberSections.sections ω ι κ γ).ReachableUnder (fun x b => Admitted x.counter b) x ∧
      Follows s x := by
  refine hr.simulated follows_initial ?_
  intro s x a s' hr _ hF ha hs
  have hcleared := hr.mono fun _ _ h => h.1
  obtain ⟨⟨place,hp⟩,-⟩ := steady_reachable hcleared
  obtain ⟨x',hx',hF'⟩ := follows_step hF (decided_reachable hcleared) hp hs
  refine ⟨label s a,x',?_,hx',hF'⟩
  have hdata := hF.data
  simp only [Runtime.data,Prod.mk.injEq] at hdata
  rcases label_cases s a with hlabel | ⟨b,hlabel⟩
  · rw [hlabel]
    exact trivial
  · have hb := ha.2 b (by rw [hlabel]; exact List.mem_singleton_self b)
    rw [←hdata.2.2.1] at hb
    rw [hlabel]
    refine ⟨hb,?_⟩
    split <;> exact trivial

/-- Without promises of the callers, every state of such a run still follows a
state of the atomic sections. -/
theorem sections_reachable (hr : (fibers ω ι κ γ).ReachableUnder Cleared s) :
    ∃ x, (FiberSections.sections ω ι κ γ).Reachable x ∧ Follows s x :=
  follows_reachable (fun _ _ => True) (hr.mono fun _ _ h => ⟨h,fun _ _ => trivial⟩)

end Runs

end ConcurrencyRuntime.FiberSync
