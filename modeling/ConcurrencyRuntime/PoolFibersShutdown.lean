import ConcurrencyRuntime.PoolFibersPlaces

/-!
# Shutdown of a pool with suspended fibers

Submit returns at once when the shutdown flag is set, also when it is called for
a fiber that the pool had accepted before and that yields or is woken up. Such a
fiber is then in no place and is never run to its end. As long as no fiber is on
its way back to the queue when the flag is set, and none starts on it after
that, every accepted fiber is kept.
-/

namespace ConcurrencyRuntime.PoolFibers

open TransitionSystem IntrusiveList IntrusivePool ExclusivePlaces

variable {ω ι κ γ ε O : Type*}

/-- The places whose fibers still have the load of shutdown_ in Submit before
them. -/
def Runtime.pending (s : Runtime ω ι κ γ ε O) : Place ω κ γ ε O → Bool
  | .call v =>
    match s.worker v with
    | .schedule .. | .submit _ (.check _) _ => true
    | _ => false
  | .walk _ => true
  | .outside k =>
    match s.outside k with
    | some (.check _) => true
    | _ => false
  | _ => false

/-- Every fiber that was accepted and is not deleted is in the queue, in the
hands of a worker, in a list of waiters, or in a call that will enqueue it: one
that is past its load of shutdown_, or has the load before it and would read
false. -/
def Runtime.Kept (s : Runtime ω ι κ γ ε O) : Prop :=
  ∀ f, s.accepted f = true → s.coro f ≠ .absent →
    ∃ p, f ∈ s.content p ∧ (s.pending p = true → s.shutdown = false)

/-- The steps that begin to bring a suspended fiber back to the queue: a yield,
an Unlock, a Done or a turn of Fire that takes a waiter. -/
def Runtime.resubmits (s : Runtime ω ι κ γ ε O) : Action ω ι κ γ ε O → Bool
  | .op _ .yield => true
  | .op _ (.unlock m) => !(s.waiters (.mutex m)).isEmpty
  | .op _ (.done g) => !(s.waiters (.group g)).isEmpty && (s.counter g + 2 ^ 64 - 1) % 2 ^ 64 == 0
  | .worker v =>
    match s.worker v with
    | .fire _ e => !(s.waiters (.event e)).isEmpty
    | _ => false
  | _ => false

/-- The fiber of a Schedule or Submit on a worker before its load of shutdown_. -/
def WorkerPc.pending {ι ε : Type*} : WorkerPc ι ε → List ι
  | .schedule _ w _ => [w]
  | .submit _ (.check g) _ => [g]
  | _ => []

/-- The fiber is on its way to the queue, with the load of shutdown_ before it. -/
def Runtime.Pending (s : Runtime ω ι κ γ ε O) (f : ι) : Prop :=
  (∃ v, f ∈ (s.worker v).pending) ∨ (∃ v, f ∈ s.detached v) ∨ ∃ k, s.outside k = some (.check f)

/-- StartShutdown does not run while an accepted fiber is on its way back to the
queue and has the load of shutdown_ before it, and no fiber starts on its way
back after that. -/
def ResubmitsFirst (s : Runtime ω ι κ γ ε O) (a : Action ω ι κ γ ε O) : Prop :=
  (s.resubmits a = true → s.shutdown = false) ∧
    match a with
    | .startShutdown => ∀ f, s.Pending f → s.accepted f = false
    | _ => True

instance [Fintype ω] [Fintype ι] [Fintype O] [DecidableEq ι] (s : Runtime ω ι κ γ ε O) :
    ∀ a, Decidable (ResubmitsFirst s a)
  | .startShutdown =>
    have (f : ι) : Decidable (s.Pending f) := inferInstanceAs (Decidable (_ ∨ _ ∨ _))
    inferInstanceAs (Decidable ((_ → _) ∧ ∀ f, s.Pending f → s.accepted f = false))
  | .worker _ | .op .. | .go .. | .outside _ => inferInstanceAs (Decidable ((_ → _) ∧ True))

/-- The pending fibers are those in the pending places. -/
theorem pending_of_content {s : Runtime ω ι κ γ ε O} {p : Place ω κ γ ε O} {f : ι}
    (hp : s.pending p = true) (hf : f ∈ s.content p) : s.Pending f := by
  cases p with
  | call v =>
    refine Or.inl ⟨v,?_⟩
    simp only [Runtime.pending] at hp
    simp only [Runtime.content] at hf
    split at hp
    next hv =>
      rw [hv] at hf ⊢
      exact hf
    next hv =>
      rw [hv] at hf ⊢
      exact hf
    next => cases hp
  | walk v => exact Or.inr (Or.inl ⟨v,hf⟩)
  | outside k =>
    refine Or.inr (Or.inr ⟨k,?_⟩)
    simp only [Runtime.pending] at hp
    simp only [Runtime.content] at hf
    split at hp
    next hk =>
      rw [hk] at hf ⊢
      cases List.mem_singleton.mp hf
      rfl
    next => cases hp
  | tasks | hand v | list o => cases hp

/-- The fibers that a sound state keeps. -/
structure Keeping (s : Runtime ω ι κ γ ε O) : Prop where
  covered : ∀ f, s.accepted f = true → s.coro f ≠ .absent → ∃ p, f ∈ s.content p
  unaccepted : s.shutdown = true → ∀ f, s.Pending f → s.accepted f = false

theorem Keeping.kept {s : Runtime ω ι κ γ ε O} (h : Keeping s) : s.Kept := by
  intro f haccepted hcoro
  obtain ⟨p,hp⟩ := h.covered f haccepted hcoro
  refine ⟨p,hp,fun hpending => ?_⟩
  by_contra hshutdown
  have hf := h.unaccepted (by simpa using hshutdown) f (pending_of_content hpending hp)
  rw [haccepted] at hf
  cases hf

variable [DecidableEq ω] [DecidableEq ι] [DecidableEq κ] [DecidableEq γ] [DecidableEq ε]
  [DecidableEq O]

section Steps

variable {s s' : Runtime ω ι κ γ ε O} {v : ω} {f g : ι} {a : Action ω ι κ γ ε O}

omit [DecidableEq ι] [DecidableEq κ] [DecidableEq γ] [DecidableEq ε] [DecidableEq O] in
/-- A worker moves on to a point without a pending fiber, or with one that was
pending. -/
theorem pending_move (pc : WorkerPc ι ε) (hg : s'.Pending g)
    (hworker : s'.worker = Function.update s.worker v pc) (hpc : ∀ g ∈ pc.pending, s.Pending g)
    (hdetached : ∀ u, s'.detached u ⊆ s.detached u) (houtside : s'.outside = s.outside) :
    s.Pending g := by
  rcases hg with ⟨u,hu⟩ | ⟨u,hu⟩ | ⟨k,hk⟩
  · rw [hworker] at hu
    rcases eq_or_ne u v with rfl | hne
    · rw [Function.update_self] at hu
      exact hpc g hu
    · rw [Function.update_of_ne hne] at hu
      exact Or.inl ⟨u,hu⟩
  · exact Or.inr (Or.inl ⟨u,hdetached u hu⟩)
  · exact Or.inr (Or.inr ⟨k,houtside ▸ hk⟩)

omit [DecidableEq ι] [DecidableEq κ] [DecidableEq γ] [DecidableEq ε] [DecidableEq O] in
/-- A worker moves on to a point without a pending fiber. -/
theorem pending_leave (pc : WorkerPc ι ε) (hg : s'.Pending g)
    (hworker : s'.worker = Function.update s.worker v pc) (hpc : pc.pending = [])
    (hdetached : s'.detached = s.detached) (houtside : s'.outside = s.outside) : s.Pending g := by
  refine pending_move pc hg hworker ?_ (fun u => ?_) houtside
  · rw [hpc]
    rintro _ ⟨⟩
  · rw [hdetached]
    exact List.Subset.refl _

omit [DecidableEq ω] [DecidableEq ι] [DecidableEq κ] [DecidableEq γ] [DecidableEq ε]
  [DecidableEq O] in
/-- A step that moves no worker leaves the pending fibers. -/
theorem pending_same (hg : s'.Pending g) (hworker : s'.worker = s.worker)
    (hdetached : s'.detached = s.detached) (houtside : s'.outside = s.outside) : s.Pending g := by
  simp only [Runtime.Pending,hworker,hdetached,houtside] at hg
  exact hg

omit [DecidableEq O] in
/-- What an operation of a routine does to the flag, to the history and to the
pending fibers, when it brings no fiber back. -/
theorem perform_pending {op : Op ι κ γ ε} (hs : s.perform v f op = some s') :
    s'.shutdown = s.shutdown ∧ (s'.accepted g = true → s.accepted g = true) ∧
      (s.resubmits (.op v op : Action ω ι κ γ ε O) = false → s'.Pending g →
        s.Pending g ∨ s'.accepted g = false) := by
  cases op with
  | yield =>
    cases hs
    exact ⟨rfl,id,by rintro ⟨⟩⟩
  | go k =>
    simp only [Runtime.perform] at hs
    split at hs <;> cases hs
    refine ⟨rfl,?_,fun _ hg => ?_⟩
    · simp only [Runtime.goto,Runtime.construct,Function.update_apply]
      split
      · rintro ⟨⟩
      · exact id
    · rcases eq_or_ne g k with rfl | hne
      · exact Or.inr (Function.update_self ..)
      · refine Or.inl ?_
        rcases hg with ⟨u,hu⟩ | hg
        · simp only [Runtime.goto,Runtime.construct,Function.update_apply] at hu
          split at hu
          next => exact absurd (List.mem_singleton.mp hu) hne
          next => exact Or.inl ⟨u,hu⟩
        · exact Or.inr hg
  | lock m =>
    simp only [Runtime.perform] at hs
    split at hs <;> cases hs
    next => exact ⟨rfl,id,fun _ hg => Or.inl (pending_leave _ hg rfl rfl rfl rfl)⟩
    next => exact ⟨rfl,id,fun _ hg => Or.inl (pending_same hg rfl rfl rfl)⟩
  | unlock m =>
    simp only [Runtime.perform] at hs
    split at hs
    next =>
      cases hs
      exact ⟨rfl,id,fun _ hg => Or.inl (pending_same hg rfl rfl rfl)⟩
    next hempty =>
      have hfull : s.resubmits (.op v (.unlock m) : Action ω ι κ γ ε O) = true := by
        simpa [Runtime.resubmits] using hempty
      split at hs <;> cases hs
      · exact ⟨rfl,id,fun hnot => absurd hfull (by rw [hnot]; rintro ⟨⟩)⟩
      · exact ⟨rfl,id,fun _ hg => Or.inl (pending_same hg rfl rfl rfl)⟩
  | add k amount =>
    cases hs
    exact ⟨rfl,id,fun _ hg => Or.inl (pending_same hg rfl rfl rfl)⟩
  | done k =>
    simp only [Runtime.perform] at hs
    split at hs
    next hzero =>
      cases hpopped : (s.waiters (.group k)).popped with
      | none =>
        rw [hpopped] at hs
        cases hs
        exact ⟨rfl,id,fun _ hg => Or.inl (pending_same hg rfl rfl rfl)⟩
      | some w =>
        have hfull : s.resubmits (.op v (.done k) : Action ω ι κ γ ε O) = true := by
          have hempty : (s.waiters (.group k)).isEmpty = false := by
            rw [←Bool.not_eq_true]
            intro hempty
            simp [Header.popped,eq_of_beq hempty] at hpopped
          simp only [Runtime.resubmits,hempty,Bool.not_false,Bool.true_and,beq_iff_eq]
          exact hzero
        rw [hpopped] at hs
        cases hs
        exact ⟨rfl,id,fun hnot => absurd hfull (by rw [hnot]; rintro ⟨⟩)⟩
    next =>
      cases hs
      exact ⟨rfl,id,fun _ hg => Or.inl (pending_same hg rfl rfl rfl)⟩
  | wait k =>
    simp only [Runtime.perform] at hs
    split at hs <;> cases hs
    next => exact ⟨rfl,id,fun _ hg => Or.inl (pending_leave _ hg rfl rfl rfl rfl)⟩
    next => exact ⟨rfl,id,fun _ hg => Or.inl hg⟩
  | await e =>
    simp only [Runtime.perform] at hs
    split at hs <;> cases hs
    exact ⟨rfl,id,fun _ hg => Or.inl (pending_leave _ hg rfl rfl rfl rfl)⟩
  | fire e =>
    simp only [Runtime.perform] at hs
    split at hs <;> cases hs
    exact ⟨rfl,id,fun _ hg => Or.inl (pending_leave _ hg rfl rfl rfl rfl)⟩
  | finish =>
    cases hs
    exact ⟨rfl,id,fun _ hg => Or.inl (pending_leave _ hg rfl rfl rfl rfl)⟩

omit [DecidableEq ω] [DecidableEq κ] [DecidableEq γ] [DecidableEq ε] [DecidableEq O] in
/-- What a step of Submit does to the flag and to the history. -/
theorem submit_history (s : Runtime ω ι κ γ ε O) (call : SubmitPc ι) (g : ι) :
    (s.submit call).1.shutdown = s.shutdown ∧ (s.submit call).1.coro = s.coro ∧
      (s.submit call).1.worker = s.worker ∧ (s.submit call).1.outside = s.outside ∧
      (s.submit call).1.detached = s.detached ∧
      ((s.submit call).1.accepted g = true →
        s.accepted g = true ∨ call = .check g ∧ s.shutdown = false) ∧
      ∀ k, (s.submit call).2 ≠ some (.check k) := by
  cases call with
  | check k =>
    by_cases hshutdown : s.shutdown = true
    · have hcheck : s.submit (.check k) = (s,none) := if_pos hshutdown
      rw [hcheck]
      exact ⟨rfl,rfl,rfl,rfl,rfl,Or.inl,by rintro _ ⟨⟩⟩
    · have hcheck : s.submit (.check k) =
          ({ s with accepted := Function.update s.accepted k true },some (.add k)) :=
        if_neg hshutdown
      rw [hcheck]
      refine ⟨rfl,rfl,rfl,rfl,rfl,?_,by rintro _ ⟨⟩⟩
      simp only [Function.update_apply]
      split
      next hg => exact fun _ => Or.inr ⟨by rw [hg],by simpa using hshutdown⟩
      next => exact Or.inl
  | add k | push k => exact ⟨rfl,rfl,rfl,rfl,rfl,Or.inl,by rintro _ ⟨⟩⟩

/-- What a step of a worker does to the flag, to the history and to the pending
fibers, when it brings no fiber back. -/
theorem workerStep_pending (h : Sound s s.content) (hs : s.workerStep v = some s') :
    s'.shutdown = s.shutdown ∧
      (s'.accepted g = true → s.accepted g = true ∨
        s.submits (.worker v : Action ω ι κ γ ε O) = some (.check g) ∧ s.shutdown = false) ∧
      (s.resubmits (.worker v : Action ω ι κ γ ε O) = false → s'.Pending g → s.Pending g) := by
  simp only [Runtime.workerStep] at hs
  split at hs
  next hv =>
    split at hs <;> cases hs <;>
      exact ⟨rfl,Or.inl,fun _ hg => pending_leave _ hg rfl rfl rfl rfl⟩
  next hv =>
    cases hs
    refine ⟨rfl,Or.inl,fun _ hg => pending_leave _ hg rfl ?_ rfl rfl⟩
    split <;> rfl
  next k hv =>
    split at hs <;> cases hs
    next => exact ⟨rfl,Or.inl,fun _ hg => pending_leave _ hg rfl rfl rfl rfl⟩
    next => exact ⟨rfl,Or.inl,fun _ hg => pending_same hg rfl rfl rfl⟩
  next => cases hs
  next k w hv =>
    cases hs
    refine ⟨rfl,Or.inl,fun _ hg => pending_move _ hg rfl ?_ ?_ rfl⟩
    · intro x hx
      cases List.mem_singleton.mp hx
      obtain ⟨rest,hwalk,-⟩ := h.visit hv
      refine Or.inr (Or.inl ⟨v,?_⟩)
      rw [←h.walk,hwalk]
      exact List.mem_cons_self
    · intro u
      simp only [Runtime.goto,Function.update_apply]
      split
      next hu =>
        rw [hu]
        exact List.tail_subset _
      next => exact List.Subset.refl _
  next k w after hv =>
    rw [h.handleCall v w (by rw [hv]; rfl)] at hs
    cases hs
    refine ⟨rfl,Or.inl,fun _ hg => pending_move _ hg rfl ?_ (fun _ => List.Subset.refl _) rfl⟩
    intro x hx
    refine Or.inl ⟨v,?_⟩
    rw [hv]
    exact hx
  next k call after hv =>
    cases hs
    obtain ⟨hshutdown,-,hworker,houtside,hdetached,haccepted,hnext⟩ := submit_history s call g
    refine ⟨hshutdown,?_,fun _ hg => ?_⟩
    · intro hg
      simp only [Runtime.submits,hv,Option.some.injEq]
      exact haccepted hg
    · refine pending_leave _ hg (by rw [Runtime.goto,hworker]) ?_ hdetached houtside
      split
      next call' hcall =>
        cases call' with
        | check x => exact absurd hcall (hnext x)
        | add x | push x => rfl
      next => cases after with
        | walk next => cases next <;> rfl
        | body | fire e | returned => rfl
  next k e hv =>
    split at hs
    next =>
      cases hs
      exact ⟨rfl,Or.inl,fun _ hg => pending_leave _ hg rfl rfl rfl rfl⟩
    next hempty =>
      have hfull : s.resubmits (.worker v : Action ω ι κ γ ε O) = true := by
        simpa [Runtime.resubmits,hv] using hempty
      split at hs <;> cases hs
      · exact ⟨rfl,Or.inl,fun hnot => absurd hfull (by rw [hnot]; rintro ⟨⟩)⟩
      · exact ⟨rfl,Or.inl,fun _ hg => pending_same hg rfl rfl rfl⟩
  next k hv =>
    cases hs
    exact ⟨rfl,Or.inl,fun _ hg => pending_leave _ hg rfl rfl rfl rfl⟩
  next => cases hs

omit [DecidableEq O] in
/-- An operation of a routine constructs no accepted fiber. -/
theorem perform_absent {op : Op ι κ γ ε} (hs : s.perform v f op = some s')
    (hf : s.coro f ≠ .absent) (hg : s.coro g = .absent) (haccepted : s'.accepted g = true) :
    s'.coro g = .absent := by
  have hne : g ≠ f := by
    rintro rfl
    exact hf hg
  have hother : ∀ c, Function.update s.coro f c g = .absent := fun c =>
    (Function.update_of_ne hne ..).trans hg
  cases op with
  | yield | finish =>
    cases hs
    exact hother _
  | go k =>
    simp only [Runtime.perform] at hs
    split at hs <;> cases hs
    rcases eq_or_ne g k with rfl | hk
    · simp [Runtime.goto,Runtime.construct] at haccepted
    · simpa [Runtime.goto,Runtime.construct,hk] using hg
  | lock m =>
    simp only [Runtime.perform] at hs
    split at hs <;> cases hs
    · exact hother _
    · exact hg
  | unlock m =>
    simp only [Runtime.perform] at hs
    split at hs
    · cases hs
      exact hg
    · split at hs <;> cases hs <;> exact hg
  | add k amount =>
    cases hs
    exact hg
  | done k =>
    simp only [Runtime.perform] at hs
    split at hs
    · split at hs <;> cases hs <;> exact hg
    · cases hs
      exact hg
  | wait k =>
    simp only [Runtime.perform] at hs
    split at hs <;> cases hs
    · exact hother _
    · exact hg
  | await e =>
    simp only [Runtime.perform] at hs
    split at hs <;> cases hs
    exact hother _
  | fire e =>
    simp only [Runtime.perform] at hs
    split at hs <;> cases hs
    exact hg

omit [DecidableEq O] in
/-- A step of a worker outside of routines constructs no fiber. -/
theorem workerStep_absent (hs : s.workerStep v = some s') (hg : s.coro g = .absent) :
    s'.coro g = .absent := by
  simp only [Runtime.workerStep] at hs
  split at hs
  case h_1 => split at hs <;> cases hs <;> exact hg
  case h_3 k hv =>
    split at hs <;> cases hs
    next hk =>
      have hne : g ≠ k := by
        rintro rfl
        rw [hg] at hk
        cases hk
      exact (Function.update_of_ne hne ..).trans hg
    next => exact hg
  case h_6 => split at hs <;> cases hs <;> exact hg
  case h_7 k call after hv =>
    cases hs
    exact (congrFun (submit_history s call g).2.1 g).trans hg
  case h_8 =>
    split at hs
    · cases hs
      exact hg
    · split at hs <;> cases hs <;> exact hg
  case h_9 k hv =>
    cases hs
    simp only [Runtime.goto,Runtime.setCoro,Function.update_apply]
    split
    · rfl
    · exact hg
  all_goals
    cases hs <;> exact hg

/-- Each step constructs no accepted fiber. -/
theorem step_absent (h : Sound s s.content) (hs : step s a = some s') (hg : s.coro g = .absent)
    (haccepted : s'.accepted g = true) : s'.coro g = .absent := by
  cases a with
  | worker v => exact workerStep_absent hs hg
  | op v op =>
    simp only [step] at hs
    split at hs
    next f hv =>
      refine perform_absent hs ?_ hg haccepted
      rw [h.status v f (by rw [h.hand,hv]; exact List.mem_singleton_self f),hv]
      rintro ⟨⟩
    next => cases hs
  | go k f =>
    simp only [step] at hs
    split at hs <;> cases hs
    rcases eq_or_ne g f with rfl | hf
    · simp [Runtime.construct] at haccepted
    · simpa [Runtime.construct,hf] using hg
  | outside k =>
    simp only [step] at hs
    split at hs <;> cases hs
    next call hk => exact (congrFun (submit_history s call g).2.1 g).trans hg
  | startShutdown =>
    cases hs
    exact hg

/-- What each step does to the history and to the pending fibers. -/
theorem step_pending (h : Sound s s.content) (hs : step s a = some s') :
    (s'.shutdown = true → s.shutdown = true ∨ a = .startShutdown) ∧
      (s'.accepted g = true → s.accepted g = true ∨
        s.submits a = some (.check g) ∧ s.shutdown = false) ∧
      (s.resubmits a = false → s'.Pending g → s.Pending g ∨ s'.accepted g = false) := by
  cases a with
  | worker v =>
    obtain ⟨hshutdown,haccepted,hpending⟩ := workerStep_pending (g := g) h hs
    exact ⟨fun hset => Or.inl (hshutdown ▸ hset),haccepted,
      fun hnot hg => Or.inl (hpending hnot hg)⟩
  | op v op =>
    simp only [step] at hs
    split at hs
    next f hv =>
      obtain ⟨hshutdown,haccepted,hpending⟩ := perform_pending (g := g) hs
      exact ⟨fun hset => Or.inl (hshutdown ▸ hset),fun hg => Or.inl (haccepted hg),hpending⟩
    next => cases hs
  | go k f =>
    simp only [step] at hs
    split at hs <;> cases hs
    refine ⟨Or.inl,?_,fun _ hg => ?_⟩
    · simp only [Runtime.construct,Function.update_apply]
      split
      · rintro ⟨⟩
      · exact Or.inl
    · rcases eq_or_ne g f with rfl | hne
      · exact Or.inr (Function.update_self ..)
      · refine Or.inl ?_
        rcases hg with hg | hg | ⟨j,hj⟩
        · exact Or.inl hg
        · exact Or.inr (Or.inl hg)
        · simp only [Function.update_apply] at hj
          split at hj
          next =>
            cases hj
            exact absurd rfl hne
          next => exact Or.inr (Or.inr ⟨j,hj⟩)
  | outside k =>
    simp only [step] at hs
    split at hs <;> cases hs
    next call hk =>
      obtain ⟨hshutdown,-,hworker,-,hdetached,haccepted,hnext⟩ := submit_history s call g
      refine ⟨fun hset => Or.inl (hshutdown ▸ hset),?_,fun _ hg => Or.inl ?_⟩
      · intro hg
        simp only [Runtime.submits,hk,Option.some.injEq]
        exact haccepted hg
      · simp only [Runtime.Pending,hworker,hdetached] at hg
        rcases hg with hg | hg | ⟨j,hj⟩
        · exact Or.inl hg
        · exact Or.inr (Or.inl hg)
        · simp only [Function.update_apply] at hj
          split at hj
          next => exact absurd hj (hnext g)
          next => exact Or.inr (Or.inr ⟨j,hj⟩)
  | startShutdown =>
    cases hs
    exact ⟨fun _ => Or.inr rfl,Or.inl,fun _ hg => Or.inl hg⟩

omit [DecidableEq ω] [DecidableEq ι] [DecidableEq κ] [DecidableEq γ] [DecidableEq ε]
  [DecidableEq O] in
/-- The fiber of a call of Submit is in its place, and pending before the load. -/
theorem submits_content (h : s.submits a = some (.check f)) :
    (∃ p, f ∈ s.content p) ∧ s.Pending f := by
  cases a with
  | worker v =>
    simp only [Runtime.submits] at h
    split at h
    next k call after hv =>
      cases h
      refine ⟨⟨.call v,?_⟩,Or.inl ⟨v,?_⟩⟩
      · simp [Runtime.content,hv,WorkerPc.call,task]
      · simp [hv,WorkerPc.pending]
    next => cases h
  | outside k =>
    simp only [Runtime.submits] at h
    refine ⟨⟨.outside k,?_⟩,Or.inr (Or.inr ⟨k,h⟩)⟩
    simp [Runtime.content,h,task]
  | op v op | go k f | startShutdown => cases h

/-- Each step that meets the condition keeps the accepted fibers. -/
theorem Keeping.step (h : Sound s s.content) (hk : Keeping s) (ha : ResubmitsFirst s a)
    (hs : step s a = some s') : Keeping s' := by
  obtain ⟨c',hc',hcovers⟩ := h.step hs
  rw [hc'.content] at hcovers
  refine ⟨?_,?_⟩
  · intro f haccepted hcoro
    obtain ⟨-,hstill,-⟩ := step_pending (g := f) h hs
    have hin : ∃ p, f ∈ s.content p := by
      rcases hstill haccepted with hold | ⟨hsubmits,-⟩
      · exact hk.covered f hold fun habsent => hcoro (step_absent h hs habsent haccepted)
      · exact (submits_content hsubmits).1
    obtain ⟨p,hp⟩ := hin
    rcases hcovers p f hp with (⟨v,rfl,hv⟩ | ⟨hsubmits,hshutdown⟩) | hq
    · -- the fiber is deleted by this step
      simp only [PoolFibers.step,Runtime.workerStep,hv] at hs
      cases hs
      simp [Runtime.goto,Runtime.setCoro] at hcoro
    · have hnot := hk.unaccepted hshutdown f (submits_content hsubmits).2
      rcases hstill haccepted with hold | ⟨-,hunset⟩
      · rw [hnot] at hold
        cases hold
      · rw [hshutdown] at hunset
        cases hunset
    · exact hq
  · intro hset f hpending
    obtain ⟨hshutdown,hstill,hback⟩ := step_pending (g := f) h hs
    rcases hshutdown hset with hold | rfl
    · have hnot : s.resubmits a = false := by
        rw [←Bool.not_eq_true]
        intro hresubmits
        rw [ha.1 hresubmits] at hold
        cases hold
      rcases hback hnot hpending with hbefore | hnew
      · have hunaccepted := hk.unaccepted hold f hbefore
        rw [←Bool.not_eq_true]
        intro haccepted
        rcases hstill haccepted with hacc | ⟨-,hunset⟩
        · rw [hunaccepted] at hacc
          cases hacc
        · rw [hold] at hunset
          cases hunset
      · exact hnew
    · cases hs
      exact ha.2 f hpending

end Steps

/-- In every run in which no accepted fiber is on its way back to the queue,
before its load of shutdown_, when the flag is set or later, every accepted
fiber that is not deleted is kept. -/
theorem accepted_fibers_kept {s : Runtime ω ι κ γ ε O}
    (hr : (fibers ω ι κ γ ε O).ReachableUnder ResubmitsFirst s) : s.Kept := by
  refine Keeping.kept (System.ReachableUnder.invariant ?_ ?_ hr)
  · exact ⟨by rintro _ ⟨⟩,by rintro ⟨⟩⟩
  · intro s a s' hr hk ha hs
    exact hk.step (sound_reachable hr.reachable) ha hs

/-- A fiber yields, is run again, and the pool is shut down while it runs. -/
def keepSchedule : List (Action Unit (Fin 2) Unit Unit Unit Unit) :=
  [.go () 0,.outside (),.outside (),.outside (),.worker (),.worker (),.op () .yield,.worker (),
    .worker (),.worker (),.worker (),.worker (),.startShutdown]

theorem accepted_fibers_kept_yield : ∃ s,
    (fibers Unit (Fin 2) Unit Unit Unit Unit).ReachableUnder ResubmitsFirst s ∧
    s.shutdown = true ∧ s.worker () = .body 0 ∧ s.Kept := by
  have hends : (fibers Unit (Fin 2) Unit Unit Unit Unit).Ends (initial ..) keepSchedule fun s =>
      s.shutdown = true ∧ s.worker () = .body 0 := by
    decide
  have hmeets : (fibers Unit (Fin 2) Unit Unit Unit Unit).Meets ResubmitsFirst (initial ..)
      keepSchedule := by
    decide
  obtain ⟨s,hr,hdone⟩ := System.Ends.reachableUnder hends hmeets
  exact ⟨s,hr,hdone.1,hdone.2,accepted_fibers_kept hr⟩

/-- The pool is shut down while a fiber runs, and the fiber yields. -/
def dropSchedule : List (Action Unit (Fin 2) Unit Unit Unit Unit) :=
  [.go () 0,.outside (),.outside (),.outside (),.worker (),.worker (),.startShutdown,.op () .yield,
    .worker ()]

theorem yielding_fiber_dropped : ∃ s, (fibers Unit (Fin 2) Unit Unit Unit Unit).Reachable s ∧
    s.accepted 0 = true ∧ s.coro 0 = .stopped ∧ (∀ p, s.content p = []) ∧ ¬ s.Kept := by
  have hends : (fibers Unit (Fin 2) Unit Unit Unit Unit).Ends (initial ..) dropSchedule fun s =>
      s.accepted 0 = true ∧ s.coro 0 = .stopped ∧ s.tasks.contents s.next = [] ∧
        s.worker () = .pop ∧ s.detached () = [] ∧ s.outside () = none ∧
        (s.waiters (.mutex ())).contents s.link = [] ∧
        (s.waiters (.group ())).contents s.link = [] ∧
        (s.waiters (.event ())).contents s.link = [] := by
    decide
  obtain ⟨s,hr,haccepted,hcoro,htasks,hworker,hdetached,houtside,hmutex,hgroup,hevent⟩ :=
    System.Ends.reachable hends
  have hempty : ∀ p, s.content p = [] := by
    intro p
    cases p with
    | tasks => exact htasks
    | hand v => simp [Runtime.content,hworker,WorkerPc.hand]
    | call v => simp [Runtime.content,hworker,WorkerPc.call]
    | walk v => exact hdetached
    | list o =>
      cases o with
      | mutex m => exact hmutex
      | group g => exact hgroup
      | event e => exact hevent
    | outside k => simp [Runtime.content,houtside]
  refine ⟨s,hr,haccepted,hcoro,hempty,fun hkept => ?_⟩
  obtain ⟨p,hp,-⟩ := hkept 0 haccepted (by rw [hcoro]; rintro ⟨⟩)
  rw [hempty p] at hp
  cases hp

end ConcurrencyRuntime.PoolFibers
