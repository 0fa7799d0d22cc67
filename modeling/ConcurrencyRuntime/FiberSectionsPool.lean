import ConcurrencyRuntime.FiberSectionsWaiters
import ConcurrencyRuntime.FiberSyncSections
import ConcurrencyRuntime.PoolFibersPlaces

/-!
# The fibers on the intrusive thread pool

The fibers with atomic sections run on the thread pool with its linked lists.
A submission, a resumption and a schedule, which are one step for the sections,
are several steps of the pool. With the guards that make the sections atomic,
the pool may therefore take each section of the source as a single step.
-/

namespace ConcurrencyRuntime.PoolFibers

open TransitionSystem IntrusiveList IntrusivePool ExclusivePlaces LinkedPath
open FiberSections (Status Arranged)

variable {ω ι κ γ ε O : Type*}

/-- The objects that fibers with atomic sections use. -/
def object : κ ⊕ γ → Object κ γ ε
  | .inl m => .mutex m
  | .inr g => .group g

theorem object_injective : Function.Injective (object : κ ⊕ γ → Object κ γ ε) := by
  intro h k hk
  cases h with
  | inl m =>
    cases k with
    | inl m' => cases hk; rfl
    | inr g => cases hk
  | inr g =>
    cases k with
    | inl m => cases hk
    | inr g' => cases hk; rfl

/-- The coroutine of a fiber between the sections. -/
def coroOf : Status ι κ γ → Coro
  | .fresh | .done => .absent
  | .ready | .waiting _ => .stopped
  | .running | .scheduling _ => .running

/-- Where a worker stands between the sections of its fiber, and what its Done
has yet to visit. -/
def stand (x : FiberSections.Runtime ω ι κ γ) (v : ω) : WorkerPc ι ε × List ι :=
  match x.worker v with
  | none => (.pop,[])
  | some f =>
    match (x.fiber f).popped with
    | [] => (.body f,[])
    | w :: rest =>
      match x.fiber w with
      | .waiting (.inr _) => (.walk f w,w :: rest)
      | _ => (.schedule f w .body,[])

/-- The pool between the sections of the fibers: all lists, the data and the
coroutines agree, and no call from outside is in progress. -/
structure Shows (s : Runtime ω ι κ γ ε O) (x : FiberSections.Runtime ω ι κ γ) : Prop where
  sound : Sound s s.content
  tasks : s.content .tasks = x.tasks
  lists : ∀ k, s.content (.list (object k)) = x.waiters k
  events : ∀ e, s.content (.list (.event e)) = []
  outside : ∀ k, s.content (.outside k) = []
  stands : ∀ v, (s.worker v,s.content (.walk v)) = stand x v
  coro : ∀ f, s.coro f = coroOf (x.fiber f)
  /-- The data of the mutexes and wait groups, and the flag of the pool. -/
  data : (s.locked,s.counter,s.shutdown) = (x.locked,x.counter,false)

section Stands

variable {x x' : FiberSections.Runtime ω ι κ γ} {v : ω} {f w : ι} {r : List ι}

theorem stand_none (hv : x.worker v = none) : stand (ε := ε) x v = (.pop,[]) := by
  simp only [stand,hv]

theorem stand_body (hv : x.worker v = some f) (hf : (x.fiber f).popped = []) :
    stand (ε := ε) x v = (.body f,[]) := by
  simp only [stand,hv,hf]

theorem stand_schedule {m : κ} (hv : x.worker v = some f) (hf : (x.fiber f).popped = w :: r)
    (hw : x.fiber w = .waiting (.inl m)) : stand (ε := ε) x v = (.schedule f w .body,[]) := by
  simp only [stand,hv,hf,hw]

theorem stand_walk {g : γ} (hv : x.worker v = some f) (hf : (x.fiber f).popped = w :: r)
    (hw : x.fiber w = .waiting (.inr g)) : stand (ε := ε) x v = (.walk f w,w :: r) := by
  simp only [stand,hv,hf,hw]

/-- A worker stands where it stood while the fiber that moves is neither its
own nor popped. -/
theorem stand_congr (hworker : x'.worker v = x.worker v)
    (hfiber : ∀ g, x.worker v = some g → x'.fiber g = x.fiber g)
    (hpopped : ∀ g w, x.worker v = some g → w ∈ (x.fiber g).popped → x'.fiber w = x.fiber w) :
    stand (ε := ε) x' v = stand x v := by
  cases hv : x.worker v with
  | none => rw [stand_none hv,stand_none (hworker.trans hv)]
  | some g =>
    have hg := hfiber g hv
    simp only [stand,hworker,hv,hg]
    cases hp : (x.fiber g).popped with
    | nil => rfl
    | cons w rest => simp only [hpopped g w hv (by rw [hp]; exact List.mem_cons_self)]

/-- A fiber in the hands of a worker is the hand of its stand. -/
theorem stand_hand (v : ω) : (stand (ε := ε) x v).1.hand = (x.worker v).toList := by
  cases hv : x.worker v with
  | none => rw [stand_none hv]; rfl
  | some g =>
    simp only [stand,hv]
    split
    · rfl
    · split <;> rfl

/-- The stand of a worker with a fiber runs it. -/
theorem stand_status (hv : x.worker v = some f) : (stand (ε := ε) x v).1.status = .running := by
  simp only [stand,hv]
  split
  · rfl
  · split <;> rfl

end Stands

section Calls

variable [DecidableEq ω] [DecidableEq ι] [DecidableEq κ] [DecidableEq γ] [DecidableEq ε]
  [DecidableEq O] {s : Runtime ω ι κ γ ε O} {c : Place ω κ γ ε O → List ι} {v : ω} {f w : ι}
  {after : After ι ε}

/-- A call of Submit on a worker of an open pool, as a whole. -/
theorem submit_run (h : Sound s c) (hv : s.worker v = .submit f (.check w) after)
    (hopen : s.shutdown = false) :
    ∃ s', (fibers ω ι κ γ ε O).run s [.worker v,.worker v,.worker v] = some s' ∧
      Sound s' (Function.update (Function.update c (.call v) []) .tasks (c .tasks ++ [w])) ∧
      s'.worker = Function.update s.worker v (after.resume f) ∧
      (s'.coro,s'.locked,s'.counter,s'.shutdown) =
        (s.coro,s.locked,s.counter,s.shutdown) := by
  have hstay : ∀ (t : Runtime ω ι κ γ ε O) (call call' : SubmitPc ι) (accepted : ι → Bool),
      Sound t c → t.worker v = .submit f call after → task call' = task call →
      Sound ({ t with accepted := accepted }.goto v (.submit f call' after)) c := by
    intro t call call' accepted ht htv htask
    refine ht.stay (.submit f call' after) htv rfl rfl ?_ ?_ ?_ (fun _ => rfl) rfl
    · cases after <;> rfl
    · simp only [WorkerPc.call,htask]
    · cases after <;> rfl
  let s₁ := { s with accepted := Function.update s.accepted w true }.goto v
    (.submit f (.add w) after)
  let s₂ := s₁.goto v (.submit f (.push w) after)
  let s₃ := { s₂ with tasks := s₂.tasks.push w, next := s₂.tasks.pushLinks s₂.next w }.goto v
    (after.resume f)
  have hv₁ : s₁.worker v = .submit f (.add w) after := Function.update_self ..
  have hv₂ : s₂.worker v = .submit f (.push w) after := Function.update_self ..
  have h₁ : Sound s₁ c := hstay s (.check w) (.add w) _ h hv rfl
  have h₂ : Sound s₂ c := hstay s₁ (.add w) (.push w) s₁.accepted h₁ hv₁ rfl
  refine ⟨s₃,?_,h₂.push hv₂,?_,rfl⟩
  · have hs₁ : s.workerStep v = some s₁ := by
      simp only [Runtime.workerStep,hv,Runtime.submit,hopen,Bool.false_eq_true,if_false,s₁]
    have hs₂ : s₁.workerStep v = some s₂ := by
      simp only [Runtime.workerStep,hv₁,Runtime.submit,s₂]
    have hs₃ : s₂.workerStep v = some s₃ := by
      simp only [Runtime.workerStep,hv₂,Runtime.submit,s₃]
    simp only [System.run,fibers,step,hs₁,hs₂,hs₃]
  · simp only [s₃,s₂,s₁,Runtime.goto,Function.update_idem]

/-- A Schedule on a worker of an open pool, as a whole. -/
theorem schedule_run (h : Sound s c) (hv : s.worker v = .schedule f w after)
    (hopen : s.shutdown = false) :
    ∃ labels s', (fibers ω ι κ γ ε O).run s labels = some s' ∧
      Sound s' (Function.update (Function.update c (.call v) []) .tasks (c .tasks ++ [w])) ∧
      s'.worker = Function.update s.worker v (after.resume f) ∧
      (s'.coro,s'.locked,s'.counter,s'.shutdown) =
        (s.coro,s.locked,s.counter,s.shutdown) := by
  let s₁ := { s with handle := Function.update s.handle w none }.goto v
    (.submit f (.check w) after)
  have hv₁ : s₁.worker v = .submit f (.check w) after := Function.update_self ..
  obtain ⟨s',hrun,hsound,hworker,hframe⟩ := submit_run (h.release hv) hv₁ hopen
  refine ⟨[.worker v,.worker v,.worker v,.worker v],s',?_,hsound,?_,hframe⟩
  · have hhandle : s.handle w = some w := h.handleCall v w (by rw [hv]; rfl)
    have hs₁ : s.workerStep v = some s₁ := by
      simp only [Runtime.workerStep,hv,hhandle,s₁]
    rw [System.run]
    simp only [fibers,step,hs₁]
    exact hrun
  · rw [hworker]
    simp only [Runtime.goto,Function.update_idem]

/-- A call of Go from outside of an open pool, as a whole. -/
theorem go_run {k : O} (h : Sound s c) (hk : c (.outside k) = []) (hf : s.coro f = .absent)
    (hopen : s.shutdown = false) :
    ∃ s', (fibers ω ι κ γ ε O).run s [.go k f,.outside k,.outside k,.outside k] = some s' ∧
      Sound s' (Function.update c .tasks (c .tasks ++ [f])) ∧
      s'.coro = Function.update s.coro f .stopped ∧
      (s'.worker,s'.locked,s'.counter,s'.shutdown) =
        (s.worker,s.locked,s.counter,s.shutdown) := by
  have hnone : s.outside k = none := by
    have hout := h.outside k
    rw [hk] at hout
    cases hcall : s.outside k with
    | none => rfl
    | some call =>
      rw [hcall] at hout
      cases hout
  let s₀ : Runtime ω ι κ γ ε O :=
    { s.construct f with outside := Function.update s.outside k (some (.check f)) }
  let s₁ := { s₀ with
    outside := Function.update s₀.outside k (some (.add f))
    accepted := Function.update s₀.accepted f true }
  let s₂ := { s₁ with
    outside := Function.update s₁.outside k (some (.push f)), accepted := s₁.accepted }
  let s₃ := { s₂ with
    tasks := s₂.tasks.push f
    next := s₂.tasks.pushLinks s₂.next f
    outside := Function.update s₂.outside k none }
  have hk₀ : s₀.outside k = some (.check f) := Function.update_self ..
  have hk₁ : s₁.outside k = some (.add f) := Function.update_self ..
  have hk₂ : s₂.outside k = some (.push f) := Function.update_self ..
  have h₀ := h.goOutside hnone hf
  have h₁ := h₀.stayOutside (.add f) (Function.update s₀.accepted f true) hk₀ rfl
  have h₂ := h₁.stayOutside (.push f) s₁.accepted hk₁ rfl
  have h₃ := h₂.pushOutside hk₂
  have hcontent : Function.update (Function.update (Function.update c (.outside k)
      (c (.outside k) ++ [f])) (.outside k) []) .tasks
        (Function.update c (.outside k) (c (.outside k) ++ [f]) .tasks ++ [f]) =
      Function.update c .tasks (c .tasks ++ [f]) := by
    rw [Function.update_idem,←hk,Function.update_eq_self]
    rfl
  rw [hcontent] at h₃
  refine ⟨s₃,?_,h₃,rfl,rfl⟩
  have hs₀ : step s (.go k f) = some s₀ := by simp only [step,hnone,hf,s₀]
  have hs₁ : step s₀ (.outside k) = some s₁ := by
    have hopen₀ : s₀.shutdown = false := hopen
    simp only [step,hk₀,Runtime.submit,hopen₀,Bool.false_eq_true,if_false,s₁]
  have hs₂ : step s₁ (.outside k) = some s₂ := by simp only [step,hk₁,Runtime.submit,s₂]
  have hs₃ : step s₂ (.outside k) = some s₃ := by simp only [step,hk₂,Runtime.submit,s₃]
  simp only [System.run,fibers,hs₀,hs₁,hs₂,hs₃]

end Calls

section Steps

variable [DecidableEq ω] [DecidableEq ι] [DecidableEq κ] [DecidableEq γ] [DecidableEq ε]
  [DecidableEq O] {s s' : Runtime ω ι κ γ ε O} {x x' : FiberSections.Runtime ω ι κ γ}
  {c : Place ω κ γ ε O → List ι} {u v : ω} {f w : ι} {q : Status ι κ γ}

omit [DecidableEq ω] [DecidableEq ι] [DecidableEq κ] [DecidableEq γ] [DecidableEq ε]
  [DecidableEq O] in
/-- The pool is not shut down. -/
theorem Shows.opened (h : Shows s x) : s.shutdown = false := by
  have hdata := h.data
  simp only [Prod.mk.injEq] at hdata
  exact hdata.2.2

omit [DecidableEq ω] [DecidableEq ι] [DecidableEq κ] [DecidableEq γ] [DecidableEq ε]
  [DecidableEq O] in
theorem Shows.mem_hand (h : Shows s x) (hv : x.worker v = some f) :
    f ∈ s.content (.hand v) := by
  rw [h.sound.hand,show s.worker v = (stand x v).1 from congrArg Prod.fst (h.stands v),
    stand_hand,hv]
  exact List.mem_singleton_self f

omit [DecidableEq ω] [DecidableEq ι] [DecidableEq κ] [DecidableEq γ] [DecidableEq ε]
  [DecidableEq O] in
/-- The fiber of a worker runs. -/
theorem Shows.runs (h : Shows s x) (hv : x.worker v = some f) :
    coroOf (x.fiber f) = .running := by
  rw [←h.coro,h.sound.status v f (h.mem_hand hv),
    show s.worker v = (stand x v).1 from congrArg Prod.fst (h.stands v),stand_status hv]

omit [DecidableEq ω] [DecidableEq ι] [DecidableEq κ] [DecidableEq γ] [DecidableEq ε]
  [DecidableEq O] in
/-- A fiber is run by one worker. -/
theorem Shows.alone (h : Shows s x) (hv : x.worker v = some f) (hu : x.worker u = some f) :
    u = v := by
  cases h.sound.exclusive.unique _ _ f (h.mem_hand hu) (h.mem_hand hv)
  rfl

omit [DecidableEq ω] [DecidableEq κ] [DecidableEq γ] [DecidableEq ε] in
/-- The other workers stand where they stood. -/
theorem stand_others (hfiber : x'.fiber = Function.update x.fiber f q)
    (hpopped : ∀ g, f ∉ (x.fiber g).popped) (hu : x.worker u ≠ some f)
    (hworker : x'.worker u = x.worker u) : stand (ε := ε) x' u = stand x u := by
  refine stand_congr hworker ?_ ?_
  · intro g hg
    rw [hfiber]
    refine Function.update_of_ne ?_ ..
    rintro rfl
    exact hu hg
  · intro g w _ hw
    rw [hfiber]
    refine Function.update_of_ne ?_ ..
    rintro rfl
    exact hpopped g hw

omit [DecidableEq ω] [DecidableEq κ] [DecidableEq γ] [DecidableEq ε] [DecidableEq O] in
/-- A fiber moves. The other workers stay where they are. -/
theorem Shows.move (h : Shows s x) (hsound : Sound s' c)
    (hfiber : x'.fiber = Function.update x.fiber f q) (hpopped : ∀ g, f ∉ (x.fiber g).popped)
    (hstands : ∀ u, (x.worker u ≠ some f ∧ x'.worker u = x.worker u ∧
        s'.worker u = s.worker u ∧ c (.walk u) = s.content (.walk u)) ∨
      (s'.worker u,c (.walk u)) = stand x' u)
    (hcoro : s'.coro = Function.update s.coro f (coroOf q)) (htasks : c .tasks = x'.tasks)
    (hlists : ∀ k, c (.list (object k)) = x'.waiters k)
    (hrest : (∀ e, c (.list (.event e)) = []) ∧ ∀ k, c (.outside k) = [])
    (hdata : (s'.locked,s'.counter,s'.shutdown) = (x'.locked,x'.counter,false)) : Shows s' x' := by
  obtain rfl := hsound.content
  refine ⟨hsound,htasks,hlists,hrest.1,hrest.2,?_,?_,hdata⟩
  · intro u
    rcases hstands u with ⟨hu,hworker,hsame,hwalk⟩ | hstand
    · rw [stand_others hfiber hpopped hu hworker,hsame,hwalk]
      exact h.stands u
    · exact hstand
  · intro g
    rw [hcoro,hfiber,Function.update_apply,Function.update_apply]
    split
    · rfl
    · exact h.coro g

omit [DecidableEq ω] [DecidableEq κ] [DecidableEq γ] [DecidableEq ε] [DecidableEq O] in
/-- A fiber that goes on running leaves the coroutines alone. -/
theorem Shows.coro_update (h : Shows s x) (hq : coroOf q = coroOf (x.fiber f)) :
    s.coro = Function.update s.coro f (coroOf q) := by
  rw [hq,←h.coro,Function.update_eq_self]

/-- A new fiber is submitted. -/
theorem Shows.submit (o : O) (h : Shows s x) (hA : Arranged x) (hf : x.fiber f = .fresh) :
    ∃ labels s', (fibers ω ι κ γ ε O).run s labels = some s' ∧
      Shows s' ({ x with tasks := x.tasks ++ [f] }.goto f .ready) := by
  have habsent : s.coro f = .absent := by
    rw [h.coro,hf]
    rfl
  obtain ⟨s',hrun,hsound,hcoro,hframe⟩ := go_run h.sound (h.outside o) habsent h.opened
  simp only [Prod.mk.injEq] at hframe
  obtain ⟨hworker,hlocked,hcounter,hshutdown⟩ := hframe
  have hnowhere := hA.nowhere (f := f) (by rw [hf]; rfl)
  refine ⟨_,s',hrun,h.move hsound rfl (fun g => hnowhere (.popped g)) ?_ hcoro ?_ ?_ ⟨?_,?_⟩ ?_⟩
  · intro u
    refine .inl ⟨?_,rfl,congrFun hworker u,rfl⟩
    intro hu
    have hruns := h.runs hu
    rw [hf] at hruns
    cases hruns
  · exact (Function.update_self ..).trans (congrArg (· ++ [f]) h.tasks)
  · exact fun k => (Function.update_of_ne (by rintro ⟨⟩) ..).trans (h.lists k)
  · exact fun e => (Function.update_of_ne (by rintro ⟨⟩) ..).trans (h.events e)
  · exact fun k => (Function.update_of_ne (by rintro ⟨⟩) ..).trans (h.outside k)
  · rw [hlocked,hcounter,hshutdown]
    exact h.data

omit [DecidableEq ω] [DecidableEq ι] [DecidableEq κ] [DecidableEq γ] [DecidableEq ε]
  [DecidableEq O] in
/-- The worker of the fiber moves with it, the others stay. -/
theorem Shows.others (h : Shows s x) (hv : x.worker v = some f)
    (hworker : ∀ u, u ≠ v → x'.worker u = x.worker u)
    (hsame : ∀ u, u ≠ v → s'.worker u = s.worker u ∧ c (.walk u) = s.content (.walk u))
    (hstand : (s'.worker v,c (.walk v)) = stand x' v) (u : ω) :
    (x.worker u ≠ some f ∧ x'.worker u = x.worker u ∧
        s'.worker u = s.worker u ∧ c (.walk u) = s.content (.walk u)) ∨
      (s'.worker u,c (.walk u)) = stand x' u := by
  by_cases huv : u = v
  · rw [huv]
    exact .inr hstand
  · exact .inl ⟨fun hu => huv (h.alone hv hu),hworker u huv,hsame u huv⟩

omit [DecidableEq ω] [DecidableEq ι] [DecidableEq κ] [DecidableEq γ] [DecidableEq ε]
  [DecidableEq O] in
/-- A worker whose fiber runs outside of the sections is in its routine. -/
theorem Shows.body (h : Shows s x) (hv : x.worker v = some f) (hf : x.fiber f = .running) :
    s.worker v = .body f ∧ s.content (.walk v) = [] := by
  have hstand := h.stands v
  rw [stand_body hv (by rw [hf]; rfl)] at hstand
  exact Prod.mk.inj hstand

omit [DecidableEq ι] in
/-- The list of one object is written. -/
theorem lists_update {W : κ ⊕ γ → List ι}
    (hlists : ∀ k, c (.list (object k)) = W k) (k : κ ⊕ γ) (fs : List ι) (k' : κ ⊕ γ) :
    Function.update c (.list (object k)) fs (.list (object k')) = Function.update W k fs k' := by
  rcases eq_or_ne k' k with rfl | hne
  · rw [Function.update_self,Function.update_self]
  · rw [Function.update_of_ne hne,←hlists]
    refine Function.update_of_ne ?_ ..
    intro he
    exact hne (object_injective (Place.list.inj he))

/-- A section that parks its fiber. -/
theorem Shows.park {k : κ ⊕ γ} (h : Shows s x) (hA : Arranged x) (hv : x.worker v = some f)
    (hf : x.fiber f = .running) :
    Shows ((s.park f (object k)).goto v .pop) (x.park v f k) := by
  obtain ⟨hbody,hwalk⟩ := h.body hv hf
  have hnowhere := hA.nowhere (f := f) (by rw [hf]; rfl)
  have hsound := h.sound.park (o := object k) hbody
  refine h.move hsound rfl (fun g => hnowhere (.popped g)) (h.others hv ?_ ?_ ?_) rfl ?_ ?_
    ⟨?_,?_⟩ h.data
  · exact fun u hu => Function.update_of_ne hu ..
  · exact fun u hu => ⟨Function.update_of_ne hu ..,rfl⟩
  · rw [stand_none (Function.update_self ..)]
    exact Prod.ext (Function.update_self ..) hwalk
  · exact h.tasks
  · intro k'
    simp only [FiberSections.Runtime.park,Function.update_apply,Place.list.injEq,
      object_injective.eq_iff,reduceCtorEq,if_false,h.lists]
  · intro e
    cases k with
    | inl m | inr g => exact h.events e
  · exact h.outside

omit [DecidableEq ι] [DecidableEq κ] [DecidableEq γ] [DecidableEq ε] [DecidableEq O] in
/-- A section that moves no fiber. -/
theorem Shows.proceed (h : Shows s x) (hv : x.worker v = some f) (hf : x.fiber f = .running)
    (hworker : s'.worker = s.worker)
    (hframe : (s'.tasks,s'.next,s'.coro,s'.waiters,s'.link,s'.handle,s'.outside,s'.detached,
        s'.fault) =
      (s.tasks,s.next,s.coro,s.waiters,s.link,s.handle,s.outside,s.detached,s.fault))
    (hx : (x'.tasks,x'.waiters,x'.fiber,x'.worker) = (x.tasks,x.waiters,x.fiber,x.worker))
    (hdata : (s'.locked,s'.counter,s'.shutdown) = (x'.locked,x'.counter,false)) :
    Shows s' x' := by
  have hsound := h.sound.proceed (h.body hv hf).1 hworker hframe
  have hc := hsound.content
  simp only [Prod.mk.injEq] at hframe hx
  obtain ⟨htasks,hwaiters,hfiber,hworkers⟩ := hx
  have hstand : ∀ u, stand (ε := ε) x' u = stand x u := fun u =>
    stand_congr (congrFun hworkers u) (fun g _ => congrFun hfiber g)
      fun _ w _ _ => congrFun hfiber w
  refine ⟨hc ▸ hsound,?_,?_,?_,?_,?_,?_,hdata⟩
  · rw [←hc,htasks]
    exact h.tasks
  · rw [←hc,hwaiters]
    exact h.lists
  · rw [←hc]
    exact h.events
  · rw [←hc]
    exact h.outside
  · intro u
    rw [←hc,hstand,hworker]
    exact h.stands u
  · rw [hframe.2.2.1,hfiber]
    exact h.coro

/-- A worker takes a task and resumes its fiber. -/
theorem Shows.take {rest : List ι} (h : Shows s x) (hA : Arranged x) (hv : x.worker v = none)
    (ht : x.tasks = f :: rest) (hf : (x.fiber f).stopped = true) :
    ∃ labels s', (fibers ω ι κ γ ε O).run s labels = some s' ∧
      Shows s' ({ x with tasks := rest, worker := Function.update x.worker v (some f) }.goto f
        .running) := by
  have hstand := h.stands v
  rw [stand_none hv] at hstand
  obtain ⟨hpop,hwalk⟩ := Prod.mk.inj hstand
  obtain ⟨-,hout⟩ := hA.dequeue ht
  have hstopped : coroOf (x.fiber f) = .stopped := by
    cases hq : x.fiber f with
    | ready | waiting k => rfl
    | fresh | running | scheduling popped | done => simp [hq,Status.stopped] at hf
  have hfree : ∀ u, x.worker u ≠ some f := by
    intro u hu
    have hruns := h.runs hu
    rw [hstopped] at hruns
    cases hruns
  let s₁ := { s with tasks := s.tasks.pop s.next }.goto v (.resume f)
  let s₂ := (s₁.setCoro f .running).goto v (.body f)
  have hv₁ : s₁.worker v = .resume f := Function.update_self ..
  have h₁ := h.sound.take hpop (h.tasks.trans ht)
  have h₂ : Sound s₂ _ := h₁.switch (.body f) hv₁ rfl rfl rfl rfl rfl
  refine ⟨[.worker v,.worker v],s₂,?_,?_⟩
  · have hpopped : s.tasks.popped = some f := by
      rw [h.sound.tasks.pop.1,h.tasks,ht]
      rfl
    have hcoro : s₁.coro f = .stopped := (h.coro f).trans hstopped
    have hs₁ : s.workerStep v = some s₁ := by
      simp only [Runtime.workerStep,hpop,hpopped,s₁]
    have hs₂ : s₁.workerStep v = some s₂ := by
      simp only [Runtime.workerStep,hv₁,hcoro,s₂]
    simp only [System.run,fibers,step,hs₁,hs₂]
  · refine h.move (f := f) (q := .running) h₂ rfl (fun g => hout (.popped g)) ?_ rfl ?_ ?_
      ⟨?_,?_⟩ h.data
    · intro u
      by_cases huv : u = v
      · rw [huv]
        refine .inr ?_
        rw [stand_body (f := f) (Function.update_self ..)]
        · exact Prod.ext (Function.update_self ..) hwalk
        · simp only [FiberSections.Runtime.goto,Function.update_self]
          rfl
      · refine .inl ⟨hfree u,Function.update_of_ne huv ..,?_,rfl⟩
        exact (Function.update_of_ne huv ..).trans (Function.update_of_ne huv ..)
    · rfl
    · exact h.lists
    · exact h.events
    · exact h.outside

/-- The routine of a fiber returns, and its worker deletes it. -/
theorem Shows.finish (h : Shows s x) (hA : Arranged x) (hv : x.worker v = some f)
    (hf : x.fiber f = .running) :
    ∃ labels s', (fibers ω ι κ γ ε O).run s labels = some s' ∧
      Shows s' ({ x with worker := Function.update x.worker v none }.goto f .done) := by
  obtain ⟨hbody,hwalk⟩ := h.body hv hf
  have hnowhere := hA.nowhere (f := f) (by rw [hf]; rfl)
  let s₁ := (s.setCoro f .completed).goto v (.completed f)
  let s₂ := (s₁.setCoro f .absent).goto v .pop
  have hv₁ : s₁.worker v = .completed f := Function.update_self ..
  have h₁ : Sound s₁ s.content := h.sound.switch (.completed f) hbody rfl rfl rfl rfl rfl
  have h₂ : Sound s₂ _ := h₁.delete hv₁
  refine ⟨[.op v .finish,.worker v],s₂,?_,?_⟩
  · have hs₁ : step s (.op v .finish) = some s₁ := by
      simp only [step,hbody,Runtime.perform,s₁]
    have hs₂ : step s₁ (.worker v) = some s₂ := by
      simp only [step,Runtime.workerStep,hv₁,s₂]
    simp only [System.run,fibers,hs₁,hs₂]
  · refine h.move (f := f) (q := .done) h₂ rfl (fun g => hnowhere (.popped g))
      (h.others hv ?_ ?_ ?_) ?_ ?_ ?_ ⟨?_,?_⟩ h.data
    · exact fun u hu => Function.update_of_ne hu ..
    · intro u hu
      exact ⟨(Function.update_of_ne hu ..).trans (Function.update_of_ne hu ..),rfl⟩
    · rw [stand_none (Function.update_self ..)]
      exact Prod.ext (Function.update_self ..) hwalk
    · simp only [s₂,s₁,Runtime.goto,Runtime.setCoro,Function.update_idem]
      rfl
    · exact h.tasks
    · exact h.lists
    · exact h.events
    · exact h.outside

omit [DecidableEq κ] [DecidableEq γ] [DecidableEq ε] [DecidableEq O] in
/-- What a Schedule leaves behind is shown again: the waiter is in the queue,
and the worker stands where the rest of the waiters lead it. -/
theorem Shows.scheduled {rest : List ι} {pc : WorkerPc ι ε} (h : Shows s x) (hA : Arranged x)
    (hv : x.worker v = some f) (hf : x.fiber f = .scheduling (w :: rest)) (hsound : Sound s' c)
    (hworker : s'.worker = Function.update s.worker v pc)
    (hframe : (s'.coro,s'.locked,s'.counter,s'.shutdown) =
      (s.coro,s.locked,s.counter,s.shutdown))
    (htasks : c .tasks = s.content .tasks ++ [w])
    (hplaces : ∀ p, p ≠ .tasks → p ≠ .call v → p ≠ .walk v → c p = s.content p)
    (hstand : (pc,c (.walk v)) =
      stand ({ x with tasks := x.tasks ++ [w] }.goto f (.after rest)) v) :
    Shows s' ({ x with tasks := x.tasks ++ [w] }.goto f (.after rest)) := by
  have hnowhere := hA.nowhere (f := f) (by rw [hf]; rfl)
  simp only [Prod.mk.injEq] at hframe
  obtain ⟨hcoro,hlocked,hcounter,hshutdown⟩ := hframe
  have hafter : coroOf (Status.after rest : Status ι κ γ) = coroOf (x.fiber f) := by
    rw [hf]
    cases rest with
    | nil | cons m rest => rfl
  refine h.move hsound rfl (fun g => hnowhere (.popped g)) (h.others hv ?_ ?_ ?_) ?_ ?_ ?_
    ⟨?_,?_⟩ ?_
  · exact fun _ _ => rfl
  · intro u hu
    refine ⟨?_,hplaces _ (by rintro ⟨⟩) (by rintro ⟨⟩) ?_⟩
    · rw [hworker]
      exact Function.update_of_ne hu ..
    · rintro ⟨⟩
      exact hu rfl
  · rw [hworker,Function.update_self]
    exact hstand
  · rw [hcoro]
    exact h.coro_update hafter
  · rw [htasks,h.tasks]
    rfl
  · exact fun k => (hplaces _ (by rintro ⟨⟩) (by rintro ⟨⟩) (by rintro ⟨⟩)).trans (h.lists k)
  · exact fun e => (hplaces _ (by rintro ⟨⟩) (by rintro ⟨⟩) (by rintro ⟨⟩)).trans (h.events e)
  · exact fun k => (hplaces _ (by rintro ⟨⟩) (by rintro ⟨⟩) (by rintro ⟨⟩)).trans (h.outside k)
  · rw [hlocked,hcounter,hshutdown]
    exact h.data

omit [DecidableEq ω] [DecidableEq κ] [DecidableEq γ] [DecidableEq ε] in
/-- The worker of a fiber that goes on with the other waiters of a wait group. -/
theorem stand_after {rest : List ι} (hA : Arranged x) (hv : x.worker v = some f)
    (hf : x.fiber f = .scheduling (w :: rest)) :
    stand (ε := ε) ({ x with tasks := x.tasks ++ [w] }.goto f (.after rest)) v =
      match rest with
      | [] => (.body f,[])
      | m :: r => (.walk f m,m :: r) := by
  have hnowhere := hA.nowhere (f := f) (by rw [hf]; rfl)
  have hpopped : (x.fiber f).popped = w :: rest := by
    rw [hf]
    rfl
  have hworker : (FiberSections.Runtime.goto { x with tasks := x.tasks ++ [w] } f
      (.after rest)).worker v = some f := hv
  have hself : ((FiberSections.Runtime.goto { x with tasks := x.tasks ++ [w] } f
      (.after rest)).fiber f).popped = rest := by
    simp only [FiberSections.Runtime.goto,Function.update_self]
    exact Status.popped_after rest
  cases rest with
  | nil => exact stand_body hworker hself
  | cons m r =>
    have hmem : m ∈ (x.fiber f).popped := by
      rw [hpopped]
      exact List.mem_cons_of_mem w List.mem_cons_self
    have hmf : m ≠ f := by
      rintro rfl
      exact hnowhere (.popped m) hmem
    obtain ⟨k,hm⟩ := hA.popped f m hmem
    cases k with
    | inl n =>
      -- Unlock pops one waiter
      have hone := hA.lone f m n hmem hm
      rw [hpopped] at hone
      cases (List.cons.inj hone).2
    | inr g => exact stand_walk hworker hself ((Function.update_of_ne hmf ..).trans hm)

/-- The fiber in Unlock schedules the waiter that it popped. -/
theorem Shows.handOver {m : κ} {rest : List ι} (h : Shows s x) (hA : Arranged x)
    (hv : x.worker v = some f) (hf : x.fiber f = .scheduling (w :: rest))
    (hw : x.fiber w = .waiting (.inl m)) :
    ∃ labels s', (fibers ω ι κ γ ε O).run s labels = some s' ∧
      Shows s' ({ x with tasks := x.tasks ++ [w] }.goto f (.after rest)) := by
  have hpopped : (x.fiber f).popped = w :: rest := by
    rw [hf]
    rfl
  obtain rfl : rest = [] := by
    have hone := hA.lone f w m (by rw [hpopped]; exact List.mem_cons_self) hw
    rw [hpopped] at hone
    exact (List.cons.inj hone).2
  have hstand := h.stands v
  rw [stand_schedule hv hpopped hw] at hstand
  obtain ⟨hschedule,hwalk⟩ := Prod.mk.inj hstand
  obtain ⟨labels,s',hrun,hsound,hworker,hframe⟩ := schedule_run h.sound hschedule h.opened
  refine ⟨labels,s',hrun,h.scheduled hA hv hf hsound hworker hframe ?_ ?_ ?_⟩
  · exact Function.update_self ..
  · intro p htasks hcall _
    exact (Function.update_of_ne htasks ..).trans (Function.update_of_ne hcall ..)
  · rw [stand_after hA hv hf]
    exact Prod.ext rfl hwalk

/-- The fiber in Done reads Next of the waiter and schedules it. -/
theorem Shows.visit {g : γ} {rest : List ι} (h : Shows s x) (hA : Arranged x)
    (hv : x.worker v = some f) (hf : x.fiber f = .scheduling (w :: rest))
    (hw : x.fiber w = .waiting (.inr g)) :
    ∃ labels s', (fibers ω ι κ γ ε O).run s labels = some s' ∧
      Shows s' ({ x with tasks := x.tasks ++ [w] }.goto f (.after rest)) := by
  have hpopped : (x.fiber f).popped = w :: rest := by
    rw [hf]
    rfl
  have hstand := h.stands v
  rw [stand_walk hv hpopped hw] at hstand
  obtain ⟨hwalking,hwalk⟩ := Prod.mk.inj hstand
  let s₁ := { s with detached := Function.update s.detached v (s.detached v).tail }.goto v
    (.schedule f w (.walk (s.link w)))
  have hv₁ : s₁.worker v = .schedule f w (.walk (s.link w)) := Function.update_self ..
  obtain ⟨rest',hrest,h₁⟩ := h.sound.visit hwalking
  obtain rfl : rest' = rest := by
    rw [hwalk] at hrest
    exact (List.cons.inj hrest).2.symm
  have hchain : Chain s.link (s.link w) rest' := by
    have hchain := h₁.chain v
    rw [hv₁,←h₁.walk] at hchain
    simp only [Function.update_apply,reduceCtorEq,if_false,if_true] at hchain
    exact hchain
  obtain ⟨labels,s',hrun,hsound,hworker,hframe⟩ := schedule_run h₁ hv₁ h.opened
  have hs₁ : step s (.worker v) = some s₁ := by
    simp only [step,Runtime.workerStep,hwalking,s₁]
  have hgoes : s'.worker = Function.update s.worker v ((After.walk (s.link w)).resume f) := by
    rw [hworker]
    simp only [Runtime.goto,Function.update_idem]
  refine ⟨.worker v :: labels,s',?_,h.scheduled hA hv hf hsound hgoes hframe ?_ ?_ ?_⟩
  · simp only [System.run,fibers,hs₁]
    exact hrun
  · exact Function.update_self ..
  · intro p htasks hcall hwalk
    simp only [Function.update_of_ne htasks,Function.update_of_ne hcall,
      Function.update_of_ne hwalk]
  · rw [stand_after hA hv hf]
    simp only [Function.update_apply,reduceCtorEq,if_false,if_true]
    cases rest' with
    | nil =>
      rw [show s.link w = none from hchain]
      rfl
    | cons m r =>
      rw [hchain.1]
      rfl

omit [DecidableEq ω] [DecidableEq κ] [DecidableEq γ] [DecidableEq ε] [DecidableEq O] in
/-- The sections of Unlock and Done that pop waiters: the worker goes on to
schedule them. -/
theorem Shows.popped {fs : List ι} (h : Shows s x) (hA : Arranged x) (hv : x.worker v = some f)
    (hf : x.fiber f = .running) (hsound : Sound s' c)
    (hfiber : x'.fiber = Function.update x.fiber f (.after fs))
    (hworker : x'.worker = x.worker)
    (hsame : ∀ u, u ≠ v → s'.worker u = s.worker u ∧ c (.walk u) = s.content (.walk u))
    (hstand : (s'.worker v,c (.walk v)) = stand x' v) (hcoro : s'.coro = s.coro)
    (htasks : c .tasks = x'.tasks) (hlists : ∀ k, c (.list (object k)) = x'.waiters k)
    (hrest : (∀ e, c (.list (.event e)) = []) ∧ ∀ k, c (.outside k) = [])
    (hdata : (s'.locked,s'.counter,s'.shutdown) = (x'.locked,x'.counter,false)) :
    Shows s' x' := by
  have hnowhere := hA.nowhere (f := f) (by rw [hf]; rfl)
  have hafter : coroOf (Status.after fs : Status ι κ γ) = coroOf (x.fiber f) := by
    rw [hf]
    cases fs with
    | nil | cons w rest => rfl
  refine h.move hsound hfiber (fun g => hnowhere (.popped g))
    (h.others hv (fun u _ => congrFun hworker u) hsame hstand) ?_ htasks hlists hrest hdata
  rw [hcoro]
  exact h.coro_update hafter

/-- The section of Unlock. -/
theorem Shows.unlock {m : κ} (h : Shows s x) (hA : Arranged x) (hv : x.worker v = some f)
    (hf : x.fiber f = .running) :
    ∃ s', step s (.op v (.unlock m)) = some s' ∧ Shows s' (x.perform v f (.unlock m)) := by
  obtain ⟨hbody,hwalk⟩ := h.body hv hf
  have hcontent : s.content (.list (.mutex m)) = x.waiters (.inl m) := h.lists (.inl m)
  have hempty := (h.sound.lists (.mutex m)).isEmpty
  have hpopped := (h.sound.lists (.mutex m)).pop.1
  rw [hcontent] at hempty hpopped
  have hdata := h.data
  simp only [Prod.mk.injEq] at hdata
  obtain ⟨hlocked,hcounter,hopen⟩ := hdata
  simp only [step,hbody,Runtime.perform,FiberSections.Runtime.perform,hempty,hpopped]
  cases hlist : x.waiters (.inl m) with
  | nil =>
    refine ⟨_,rfl,h.proceed hv hf rfl rfl rfl ?_⟩
    simp only [hlocked,hcounter,hopen]
  | cons w rest =>
    have hw : x.fiber w = .waiting (.inl m) :=
      hA.list (.inl m) w (by rw [hlist]; exact List.mem_cons_self)
    have hwf : w ≠ f := by
      rintro rfl
      rw [hf] at hw
      cases hw
    have hsound : Sound ((s.setWaiters (.mutex m) ((s.waiters (.mutex m)).pop s.link)).goto v
        (.schedule f w .body)) _ :=
      h.sound.popWaiter hbody ⟨rfl,rfl,rfl,rfl⟩ ⟨rfl,rfl⟩ (hcontent.trans hlist)
    refine ⟨_,rfl,h.popped hA hv hf hsound rfl rfl ?_ ?_ rfl h.tasks ?_ ⟨?_,h.outside⟩ h.data⟩
    · exact fun u hu => ⟨Function.update_of_ne hu ..,rfl⟩
    · rw [stand_schedule (f := f) (w := w) (r := []) (m := m)]
      · exact Prod.ext (Function.update_self ..) hwalk
      · exact hv
      · simp only [FiberSections.Runtime.goto,Function.update_self]
        rfl
      · exact (Function.update_of_ne hwf ..).trans hw
    · exact fun k => (Function.update_of_ne (by rintro ⟨⟩) ..).trans
        (lists_update h.lists (.inl m) rest k)
    · exact fun e => (Function.update_of_ne (by rintro ⟨⟩) ..).trans
        ((Function.update_of_ne (by rintro ⟨⟩) ..).trans (h.events e))

/-- The section of Done. -/
theorem Shows.done {g : γ} (h : Shows s x) (hA : Arranged x) (hv : x.worker v = some f)
    (hf : x.fiber f = .running) :
    ∃ s', step s (.op v (.done g)) = some s' ∧ Shows s' (x.perform v f (.done g)) := by
  obtain ⟨hbody,hwalk⟩ := h.body hv hf
  have hcontent : s.content (.list (.group g)) = x.waiters (.inr g) := h.lists (.inr g)
  have hpopped := (h.sound.lists (.group g)).pop.1
  rw [hcontent] at hpopped
  have hdata := h.data
  simp only [Prod.mk.injEq] at hdata
  obtain ⟨hlocked,hcounter,hopen⟩ := hdata
  have hcount : ∀ counter : γ → ℕ, Sound { s with counter := counter } s.content :=
    fun counter => h.sound.proceed hbody rfl rfl
  by_cases hzero : (x.counter g + 2 ^ 64 - 1) % 2 ^ 64 = 0
  · simp only [step,hbody,Runtime.perform,FiberSections.Runtime.perform,hcounter,hpopped,hzero,
      if_true]
    cases hlist : x.waiters (.inr g) with
    | nil =>
      have hsound := (hcount (Function.update x.counter g 0)).clear (hcontent.trans hlist)
      refine ⟨_,rfl,h.popped hA hv hf hsound rfl rfl (fun _ _ => ⟨rfl,rfl⟩) ?_ rfl h.tasks ?_
        ⟨h.events,h.outside⟩ ?_⟩
      · rw [stand_body (f := f)]
        · exact Prod.ext hbody hwalk
        · exact hv
        · simp only [FiberSections.Runtime.goto,Function.update_self]
          rfl
      · intro k
        rw [h.lists]
        simp only [FiberSections.Runtime.goto,Function.update_apply]
        split
        next hk => rw [hk,hlist]
        next => rfl
      · exact congrArg₂ (fun l n => (l,Function.update x.counter g 0,n)) hlocked hopen
    | cons w rest =>
      have hw : x.fiber w = .waiting (.inr g) :=
        hA.list (.inr g) w (by rw [hlist]; exact List.mem_cons_self)
      have hwf : w ≠ f := by
        rintro rfl
        rw [hf] at hw
        cases hw
      have hsound := (hcount (Function.update x.counter g 0)).detach hbody (hcontent.trans hlist)
      refine ⟨_,rfl,h.popped hA hv hf hsound rfl rfl ?_ ?_ rfl h.tasks ?_ ⟨?_,h.outside⟩ ?_⟩
      · intro u hu
        refine ⟨Function.update_of_ne hu ..,Function.update_of_ne ?_ ..⟩
        rintro ⟨⟩
        exact hu rfl
      · rw [stand_walk (f := f) (w := w) (r := rest) (g := g)]
        · refine Prod.ext (Function.update_self ..) ?_
          exact (Function.update_self ..).trans (hcontent.trans hlist)
        · exact hv
        · simp only [FiberSections.Runtime.goto,Function.update_self]
          rfl
        · exact (Function.update_of_ne hwf ..).trans hw
      · exact fun k => (Function.update_of_ne (by rintro ⟨⟩) ..).trans
          (lists_update h.lists (.inr g) [] k)
      · exact fun e => (Function.update_of_ne (by rintro ⟨⟩) ..).trans
          ((Function.update_of_ne (by rintro ⟨⟩) ..).trans (h.events e))
      · exact congrArg₂ (fun l n => (l,Function.update x.counter g 0,n)) hlocked hopen
  · simp only [step,hbody,Runtime.perform,FiberSections.Runtime.perform,hcounter,if_neg hzero]
    refine ⟨_,rfl,h.proceed hv hf rfl rfl rfl ?_⟩
    simp only [hlocked,hopen]

/-- The sections of the fibers are sections of the pool. -/
theorem Shows.perform (op : FiberSync.Op κ γ) (h : Shows s x) (hA : Arranged x)
    (hv : x.worker v = some f) (hf : x.fiber f = .running) :
    ∃ op' s', step s (.op v op') = some s' ∧ Shows s' (x.perform v f op) := by
  obtain ⟨hbody,-⟩ := h.body hv hf
  have hdata := h.data
  simp only [Prod.mk.injEq] at hdata
  obtain ⟨hlocked,hcounter,hopen⟩ := hdata
  cases op with
  | lock m =>
    refine ⟨.lock m,?_⟩
    simp only [step,hbody,Runtime.perform,FiberSections.Runtime.perform,hlocked]
    split
    · exact ⟨_,rfl,h.park (k := .inl m) hA hv hf⟩
    · refine ⟨_,rfl,h.proceed hv hf rfl rfl rfl ?_⟩
      simp only [hcounter,hopen]
  | unlock m => exact ⟨.unlock m,h.unlock hA hv hf⟩
  | add g amount =>
    refine ⟨.add g amount,?_⟩
    simp only [step,hbody,Runtime.perform,FiberSections.Runtime.perform,hcounter]
    refine ⟨_,rfl,h.proceed hv hf rfl rfl rfl ?_⟩
    simp only [hlocked,hopen]
  | done g => exact ⟨.done g,h.done hA hv hf⟩
  | wait g =>
    refine ⟨.wait g,?_⟩
    simp only [step,hbody,Runtime.perform,FiberSections.Runtime.perform,hcounter]
    split
    · exact ⟨_,rfl,h.park (k := .inr g) hA hv hf⟩
    · exact ⟨s,rfl,h⟩

/-- The pool answers every step of the fibers. -/
theorem shows_step (o : O) {a : FiberSections.Action ω ι κ γ} (h : Shows s x) (hA : Arranged x)
    (hs : FiberSections.step x a = some x') :
    ∃ labels s', (fibers ω ι κ γ ε O).run s labels = some s' ∧ Shows s' x' := by
  cases a with
  | submit f =>
    simp only [FiberSections.step] at hs
    split at hs <;> cases hs
    next hf => exact h.submit o hA hf
  | take v =>
    simp only [FiberSections.step] at hs
    split at hs
    next f rest hv ht =>
      split at hs <;> cases hs
      next hf => exact h.take hA hv ht hf
    next => cases hs
  | perform v op =>
    simp only [FiberSections.step] at hs
    split at hs
    next f hv =>
      split at hs <;> cases hs
      next hf =>
        obtain ⟨op',s',hstep,h'⟩ := h.perform op hA hv hf.1
        exact ⟨[.op v op'],s',by simp only [System.run,fibers,hstep],h'⟩
    next => cases hs
  | schedule v =>
    simp only [FiberSections.step] at hs
    split at hs
    next f hv =>
      split at hs <;> cases hs
      next w rest hf =>
        have hmem : w ∈ (x.fiber f).popped := by
          rw [hf]
          exact List.mem_cons_self
        obtain ⟨k,hw⟩ := hA.popped f w hmem
        cases k with
        | inl m => exact h.handOver hA hv hf hw
        | inr g => exact h.visit hA hv hf hw
    next => cases hs
  | finish v =>
    simp only [FiberSections.step] at hs
    split at hs
    next f hv =>
      split at hs <;> cases hs
      next hf => exact h.finish hA hv hf
    next => cases hs

end Steps

section Runs

variable [DecidableEq ω] [DecidableEq ι] [DecidableEq κ] [DecidableEq γ] [DecidableEq ε]
  [DecidableEq O]

omit [DecidableEq ω] [DecidableEq ι] [DecidableEq κ] [DecidableEq γ] [DecidableEq ε]
  [DecidableEq O] in
theorem shows_initial :
    Shows (initial ω ι κ γ ε O) (FiberSections.initial ω ι κ γ) := by
  have hsound : Sound (initial ω ι κ γ ε O) fun _ => [] := sound_initial
  have hc := hsound.content
  refine ⟨hc ▸ hsound,?_,?_,?_,?_,?_,fun _ => rfl,rfl⟩
  all_goals rw [←hc]
  · rfl
  · exact fun _ => rfl
  · exact fun _ => rfl
  · exact fun _ => rfl
  · exact fun _ => rfl

/-- Every state of the fibers is a state of the pool that runs them. The new
fibers come from any thread outside of it. -/
theorem shows_reachable (o : O) {x : FiberSections.Runtime ω ι κ γ}
    (hr : (FiberSections.sections ω ι κ γ).Reachable x) :
    ∃ s, (fibers ω ι κ γ ε O).Reachable s ∧ Shows s x := by
  refine System.ReachableUnder.simulated (A := fibers ω ι κ γ ε O)
    (R := fun (x : FiberSections.Runtime ω ι κ γ) s => Shows s x) hr shows_initial ?_
  intro x s a x' hr _ h _ hs
  obtain ⟨labels,s',hrun,h'⟩ := shows_step o h (FiberSections.arranged_reachable hr) hs
  exact ⟨labels,s',System.meets_of_forall (fun _ _ => trivial) s labels,hrun,h'⟩

/-- With the guards of the source, the fibers are at every moment those of a
pool that takes each section as a single step. -/
theorem pool_of_guards (o : O) {t : FiberSync.Runtime ω ι κ γ}
    (hr : (FiberSync.fibers ω ι κ γ).ReachableUnder FiberSync.Cleared t) :
    ∃ (x : FiberSections.Runtime ω ι κ γ) (s : Runtime ω ι κ γ ε O),
      FiberSync.Follows t x ∧ (fibers ω ι κ γ ε O).Reachable s ∧ Shows s x := by
  obtain ⟨x,hx,hF⟩ := FiberSync.sections_reachable hr
  obtain ⟨s,hs,h⟩ := shows_reachable (ε := ε) o hx
  exact ⟨x,s,hF,hs,h⟩

end Runs

end ConcurrencyRuntime.PoolFibers
