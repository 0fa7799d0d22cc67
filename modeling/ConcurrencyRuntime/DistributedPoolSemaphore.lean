import ConcurrencyRuntime.DistributedPoolSignals

/-!
# The tokens of a worker

A binary semaphore must not be released while it has a token. Push, WakUpForShutdown and
the destructor of a worker do not look whether it has: it has none at every release as long
as each of these calls begins when the token of the one before is taken, and a call that
begins earlier can run into the token.
-/

namespace ConcurrencyRuntime.DistributedPool

open TransitionSystem

variable {n : ℕ} {K O Q : Type*}

/-- The worker that a Push begins at. -/
def SubmitPc.begins : SubmitPc n K → Option (Fin n)
  | .enqueue w _ => some w
  | _ => none

/-- The worker at which a call begins that releases its semaphore: a Push with its push to the
queue, WakUpForShutdown when WaitShutdown comes to the worker, the destructor with its store. -/
def Pool.begins (s : Pool n K O Q) : Action n K O Q → Option (Fin n)
  | .worker w => (s.worker w).inCall.bind SubmitPc.begins
  | .outside o => (s.outside o).bind SubmitPc.begins
  | a => s.ownerBegins a

/-- The worker whose semaphore a thread in such a call releases, or the owner. -/
def Pool.bound (s : Pool n K O Q) : Option (Thread n O) → Option (Fin n)
  | some t => s.due t
  | none => s.ownerDue

/-- The worker whose semaphore the next step of the thread releases, or of the owner. -/
def Pool.releasing (s : Pool n K O Q) : Option (Thread n O) → Option (Fin n)
  | some t =>
    match s.inCall t with
    | some (.release w) => some w
    | _ => none
  | none => s.ownerDue

/-- No release is executed on a semaphore that has a token. -/
def Respected (s : Pool n K O Q) : Prop :=
  ∀ r w, s.releasing r = some w → s.smph w = 0

/-- A call that releases the semaphore of a worker begins when there is no token and no
other such call. -/
def Spaced (s : Pool n K O Q) (a : Action n K O Q) : Prop :=
  ∀ w, s.begins a = some w → s.smph w = 0 ∧ ∀ r, s.bound r ≠ some w

instance [Fintype O] : Fintype (Thread n O) :=
  Fintype.ofEquiv (Fin n ⊕ O)
    { toFun := Sum.elim .worker .outside
      invFun := fun
        | .worker w => .inl w
        | .outside o => .inr o
      left_inv := by rintro (w | o) <;> rfl
      right_inv := by rintro (w | o) <;> rfl }

instance [Fintype O] (s : Pool n K O Q) (a : Action n K O Q) : Decidable (Spaced s a) :=
  inferInstanceAs (Decidable (∀ w, s.begins a = some w → s.smph w = 0 ∧ ∀ r, s.bound r ≠ some w))

/-- A token and the calls that bring one are together at most one. -/
def Unshared (s : Pool n K O Q) : Prop :=
  ∀ r w, s.bound r = some w → s.smph w = 0 ∧ ∀ r', s.bound r' = some w → r' = r

section Tokens

variable {s s' : Pool n K O Q} {a : Action n K O Q} {w : Fin n} {r : Option (Thread n O)}

/-- A thread that executes a release is in a call that brings a token. -/
theorem bound_of_releasing (h : s.releasing r = some w) : s.bound r = some w := by
  cases r with
  | none => exact h
  | some t =>
    simp only [Pool.releasing] at h
    split at h
    next v hcall =>
      rw [Pool.bound,Pool.due,hcall]
      exact h
    next => cases h

/-- Calls go away, and tokens. -/
theorem Unshared.fewer (h : Unshared s) (hbound : ∀ r, s'.bound r = s.bound r ∨ s'.bound r = none)
    (hsmph : ∀ w, s.smph w = 0 → s'.smph w = 0) : Unshared s' := by
  have hback : ∀ {r w}, s'.bound r = some w → s.bound r = some w := by
    intro r w hr
    rcases hbound r with hsame | hnone
    · exact hsame.symm.trans hr
    · cases hnone.symm.trans hr
  intro r w hr
  obtain ⟨hzero,hunique⟩ := h r w (hback hr)
  exact ⟨hsmph w hzero,fun r' hr' => hunique r' (hback hr')⟩

/-- The only call at a worker brings its token. -/
theorem Unshared.release (h : Unshared s) (hr : s.bound r = some w) (hdone : s'.bound r = none)
    (hothers : ∀ r', r' ≠ r → s'.bound r' = s.bound r')
    (hsmph : s'.smph = Function.update s.smph w (s.smph w + 1)) : Unshared s' := by
  intro r' v hr'
  have hne : r' ≠ r := by
    rintro rfl
    cases hdone.symm.trans hr'
  rw [hothers r' hne] at hr'
  obtain ⟨hzero,hunique⟩ := h r' v hr'
  have hv : v ≠ w := by
    rintro rfl
    exact hne (hunique r hr).symm
  refine ⟨?_,fun r'' hr'' => ?_⟩
  · rw [hsmph,Function.update_of_ne hv]
    exact hzero
  · have hne' : r'' ≠ r := by
      rintro rfl
      cases hdone.symm.trans hr''
    exact hunique r'' ((hothers r'' hne').symm.trans hr'')

/-- A call begins where there is neither a token nor a call. -/
theorem Unshared.begin (h : Unshared s) (hfree : s.smph w = 0 ∧ ∀ r, s.bound r ≠ some w)
    (hr : s'.bound r = some w) (hothers : ∀ r', r' ≠ r → s'.bound r' = s.bound r')
    (hsmph : s'.smph = s.smph) : Unshared s' := by
  have hother : ∀ r' v, s'.bound r' = some v → r' = r ∧ v = w ∨ r' ≠ r ∧ s.bound r' = some v := by
    intro r' v hr'
    rcases eq_or_ne r' r with rfl | hne
    · exact Or.inl ⟨rfl,Option.some.inj (hr'.symm.trans hr)⟩
    · exact Or.inr ⟨hne,(hothers r' hne).symm.trans hr'⟩
  intro r' v hr'
  rw [hsmph]
  rcases hother r' v hr' with ⟨rfl,rfl⟩ | ⟨hne,hold⟩
  · refine ⟨hfree.1,fun r'' hr'' => ?_⟩
    rcases hother r'' v hr'' with ⟨he,-⟩ | ⟨-,hbound⟩
    · exact he
    · exact absurd hbound (hfree.2 r'')
  · refine ⟨(h r' v hold).1,fun r'' hr'' => ?_⟩
    rcases hother r'' v hr'' with ⟨-,rfl⟩ | ⟨-,hbound⟩
    · exact absurd hold (hfree.2 r')
    · exact (h r' v hold).2 r'' hbound

/-- Outside of calls a worker takes tokens only. -/
theorem WorkerTurn.smph_zero {g g' : Signals n K} {v : Fin n} {spot spot' : Spot}
    (h : WorkerTurn g v spot g' spot') (hzero : g.smph w = 0) : g'.smph w = 0 := by
  cases h with
  | acquire =>
    simp only [Function.update_apply]
    split
    next he =>
      rw [←he,hzero]
    next => exact hzero
  | busy | ready | pop | empty | look | found | poll | exit | emptySub | check | stay | suspend
  | addSuspended | leave | flagged | doze | finish | timeout => exact hzero

variable [DecidableEq K] [DecidableEq O] [DecidableEq Q]

omit [DecidableEq K] [DecidableEq Q] in
/-- A thread goes on, and no other thread comes to a call or leaves one. -/
theorem bound_others {t : Thread n O} {x : Option (Fin n)}
    (hdue : s'.due = Function.update s.due t x)
    (howner : s'.ownerDue = s.ownerDue) (hr : r ≠ some t) : s'.bound r = s.bound r := by
  cases r with
  | none => exact howner
  | some u =>
    rw [Pool.bound,hdue,Function.update_of_ne fun he => hr (congrArg some he)]
    rfl

omit [DecidableEq K] [DecidableEq Q] in
/-- A thread goes on in a call. -/
theorem Unshared.call {t : Thread n O} {call : SubmitPc n K} (h : Unshared s)
    (hspaced : Spaced s t.action) (hcall : s.inCall t = some call)
    (hsignals : s'.signals = s.signals.submit call)
    (hdue : s'.due = Function.update s.due t call.dueNext) (howner : s'.ownerDue = s.ownerDue) :
    Unshared s' := by
  have hown : s.bound (some t) = call.due := by rw [Pool.bound,Pool.due,hcall]; rfl
  have hnext : s'.bound (some t) = call.dueNext := by rw [Pool.bound,hdue,Function.update_self]
  have hothers : ∀ r, r ≠ some t → s'.bound r = s.bound r := fun r hr => bound_others hdue howner hr
  have hsmph : s'.smph = (s.signals.submit call).smph := congrArg Signals.smph hsignals
  cases call with
  | state | add | progress | route | global | reset | wakeUp =>
    refine h.fewer (fun r => Or.inl ?_) fun w hzero => by rw [hsmph]; exact hzero
    rcases eq_or_ne r (some t) with rfl | hne
    · exact hnext.trans hown.symm
    · exact hothers r hne
  | enqueue w task =>
    have hbegins : s.begins t.action = some w := by
      cases t with
      | worker v => exact congrArg (fun call => Option.bind call SubmitPc.begins) hcall
      | outside o => exact congrArg (fun call => Option.bind call SubmitPc.begins) hcall
    exact h.begin (hspaced w hbegins) hnext hothers hsmph
  | release w => exact h.release hown hnext hothers hsmph

omit [DecidableEq K] [DecidableEq Q] in
/-- Every step whose calls are spaced keeps tokens unshared. -/
theorem Signalled.unshared (h : Signalled s a s') (hspaced : Spaced s a) (hi : Unshared s) :
    Unshared s' := by
  cases h with
  | call action hcall hsignals hdue _ howner =>
    subst action
    exact hi.call hspaced hcall hsignals hdue howner
  | worker _ hturn hdue _ howner =>
    refine hi.fewer (fun r => Or.inl ?_) fun w => hturn.smph_zero
    cases r with
    | none => exact howner
    | some t => exact congrFun hdue t
  | create hsignals hdue _ howner =>
    refine hi.fewer (fun r => ?_) fun w hzero => ?_
    · cases r with
      | none => exact Or.inr howner
      | some t => exact Or.inl (congrFun hdue t)
    · exact (congrFun (congrArg Signals.smph hsignals) w).trans hzero
  | release hbound hsignals hdue _ howner =>
    refine hi.release (r := none) hbound howner (fun r hr => ?_) (congrArg Signals.smph hsignals)
    cases r with
    | none => exact absurd rfl hr
    | some t => exact congrFun hdue t
  | other hsignals hdue _ howner =>
    have hsmph : s'.smph = s.smph := congrArg Signals.smph hsignals
    have hthread : ∀ t : Thread n O, s'.bound (some t) = s.bound (some t) :=
      fun t => congrFun hdue t
    by_cases hbegin : ∃ w, s'.ownerDue = some w ∧ s.ownerBegins a = some w
    · obtain ⟨w,hw,hbegins⟩ := hbegin
      have hbegins' : s.begins a = some w := by
        cases a with
        | waitShutdown | owner => exact hbegins
        | worker | op | timeout | go | wake | outside | start | destroy | waiter | spurious =>
          cases hbegins
      refine hi.begin (r := none) (hspaced w hbegins') hw (fun r hr => ?_) hsmph
      cases r with
      | none => exact absurd rfl hr
      | some t => exact hthread t
    · refine hi.fewer (fun r => ?_) fun w hzero => by rw [hsmph]; exact hzero
      cases r with
      | none =>
        rcases howner with hsame | hnone | hbegins
        · exact Or.inl hsame
        · exact Or.inr hnone
        · refine Or.inr (Option.eq_none_iff_forall_ne_some.mpr fun w hw => hbegin ⟨w,hw,?_⟩)
          exact hbegins.symm.trans hw
      | some t => exact Or.inl (hthread t)

/-- In every run in which the calls that release a semaphore are spaced, every release finds
the semaphore without a token. -/
theorem releases_respected {fiber : K → Bool}
    (hr : (system n K O Q fiber).ReachableUnder Spaced s) : Respected s := by
  have hunshared : Unshared s := by
    refine System.ReachableUnder.invariant ?_ ?_ hr
    · have hnone : ∀ r, (initial n K O Q).bound r = none
        | none | some (.worker _) | some (.outside _) => rfl
      intro r w hw
      cases (hnone r).symm.trans hw
    · intro s a s' hreach hi hspaced hstep
      exact (step_signalled (unstarted hreach.reachable) hstep).unshared hspaced hi
  exact fun r w hw => (hunshared r w (bound_of_releasing hw)).1

section Defect

variable {fiber : K → Bool} {t : Thread n O} {call : SubmitPc n K}

omit [DecidableEq O] [DecidableEq Q] in
/-- A worker in a call can take its next step. -/
theorem workerStep_call {v : Fin n} (hcall : (s.worker v).inCall = some call) :
    ∃ pc, s.workerStep v = some ((s.submit call).1.goto v pc) ∧ pc.inCall = (s.submit call).2 := by
  cases hw : s.worker v with
  | submitting task stage call' =>
    rw [hw] at hcall
    cases hcall
    refine ⟨.afterSubmit task stage (s.submit call).2,by rw [Pool.workerStep,hw],?_⟩
    cases (s.submit call).2 <;> rfl
  | push call' =>
    rw [hw] at hcall
    cases hcall
    refine ⟨.afterPush (s.submit call).2,by rw [Pool.workerStep,hw],?_⟩
    cases (s.submit call).2 <;> rfl
  | _ =>
    rw [hw] at hcall
    cases hcall

/-- A thread in a call can take its next step, which concerns no other thread. -/
theorem step_call (fiber : K → Bool) (hcall : s.inCall t = some call) :
    ∃ s', step fiber s t.action = some s' ∧ s'.inCall t = (s.submit call).2 ∧
      s'.signals = s.signals.submit call ∧ ∀ r, r ≠ some t → s'.bound r = s.bound r := by
  obtain ⟨hworker,houtside,howner,-⟩ := submit_threads s call
  obtain ⟨hdues,-⟩ := due_congr hworker houtside
  cases t with
  | outside o =>
    have ho : s.outside o = some call := hcall
    have hdue := due_gotoOutside (s.submit call).1 o (s.submit call).2
    rw [hdues] at hdue
    refine ⟨(s.submit call).1.gotoOutside o (s.submit call).2,?_,Function.update_self ..,
      submit_signals s call,fun r hr => bound_others hdue ?_ hr⟩
    · simp only [Thread.action,step,ho]
    · simp only [Pool.ownerDue,Pool.gotoOutside,howner]
  | worker v =>
    obtain ⟨pc,hstep,hpc⟩ := workerStep_call hcall
    have hdue := due_goto (s.submit call).1 v pc
    rw [hdues] at hdue
    refine ⟨_,hstep,?_,submit_signals s call,fun r hr => bound_others hdue ?_ hr⟩
    · rw [←hpc]
      exact congrArg WorkerPc.inCall (Function.update_self ..)
    · simp only [Pool.ownerDue,Pool.goto,howner]

/-- A call at a worker can go on to its release while no other thread moves. -/
theorem bound_releases (fiber : K → Bool) (hr : s.bound r = some w) :
    ∃ acts s', (system n K O Q fiber).run s acts = some s' ∧ s'.releasing r = some w ∧
      s'.smph = s.smph ∧ ∀ r', r' ≠ r → s'.bound r' = s.bound r' := by
  have hrelease : ∀ {s : Pool n K O Q} {t}, s.inCall t = some (.release w) →
      s.releasing (some t) = some w := by
    intro s t hcall
    rw [Pool.releasing,hcall]
  cases r with
  | none => exact ⟨[],s,rfl,hr,rfl,fun _ _ => rfl⟩
  | some t =>
    obtain ⟨call,hcall,hdue⟩ := Option.bind_eq_some_iff.mp hr
    cases call with
    | state | add | progress | route | global | enqueue => cases hdue
    | release v =>
      cases hdue
      exact ⟨[],s,rfl,hrelease hcall,rfl,fun _ _ => rfl⟩
    | wakeUp v =>
      cases hdue
      obtain ⟨s₁,hstep,hcall₁,hsignals,hothers⟩ := step_call fiber hcall
      refine ⟨[t.action],s₁,?_,hrelease hcall₁,congrArg Signals.smph hsignals,hothers⟩
      rw [System.run,show (system n K O Q fiber).step s t.action = some s₁ from hstep]
      rfl
    | reset v =>
      cases hdue
      obtain ⟨s₁,hstep,hcall₁,hsignals,hothers⟩ := step_call fiber hcall
      obtain ⟨s₂,hstep₂,hcall₂,hsignals₂,hothers₂⟩ := step_call fiber hcall₁
      refine ⟨[t.action,t.action],s₂,?_,hrelease hcall₂,?_,?_⟩
      · rw [System.run,show (system n K O Q fiber).step s t.action = some s₁ from hstep]
        change (system n K O Q fiber).run s₁ [t.action] = some s₂
        rw [System.run,show (system n K O Q fiber).step s₁ t.action = some s₂ from hstep₂]
        rfl
      · have h₁ : s₁.smph = s.smph := congrArg Signals.smph hsignals
        exact (congrArg Signals.smph hsignals₂).trans h₁
      · exact fun r' hr' => (hothers₂ r' hr').trans (hothers r' hr')

/-- A release that is executed leaves a token. -/
theorem releasing_step (fiber : K → Bool) (hr : s.releasing r = some w) :
    ∃ a s', step fiber s a = some s' ∧ 0 < s'.smph w ∧ ∀ r', r' ≠ r → s'.bound r' = s.bound r' := by
  cases r with
  | some t =>
    simp only [Pool.releasing] at hr
    split at hr
    next v hcall =>
      cases hr
      obtain ⟨s',hstep,-,hsignals,hothers⟩ := step_call fiber hcall
      refine ⟨t.action,s',hstep,?_,hothers⟩
      rw [show s'.smph = _ from congrArg Signals.smph hsignals]
      exact (submit_release s.signals w w).2 (Or.inr rfl)
    next => cases hr
  | none =>
    have hworkers : ∀ {i : ℕ}, workerAt n i = some w → ∃ hi : i < n, (⟨i,hi⟩ : Fin n) = w := by
      intro i hi
      obtain ⟨hlt,he⟩ := Option.dite_none_right_eq_some.mp hi
      exact ⟨hlt,Option.some.inj he⟩
    simp only [Pool.releasing,Pool.ownerDue] at hr
    refine ⟨.owner,?_⟩
    split at hr
    next i howner =>
      obtain ⟨hi,rfl⟩ := hworkers hr
      refine ⟨{ s with smph := Function.update s.smph ⟨i,hi⟩ (s.smph ⟨i,hi⟩ + 1), owner := .join i },
        ?_,?_,?_⟩
      · simp only [step,Pool.ownerStep,howner,dif_pos hi]
      · simp
      · rintro (_ | t) hne
        · exact absurd rfl hne
        · rfl
    next i howner =>
      obtain ⟨hi,rfl⟩ := hworkers hr
      refine ⟨{ s with
        smph := Function.update s.smph ⟨i,hi⟩ (s.smph ⟨i,hi⟩ + 1), owner := .joinAgain i },?_,?_,?_⟩
      · simp only [step,Pool.ownerStep,howner,dif_pos hi]
      · simp
      · rintro (_ | t) hne
        · exact absurd rfl hne
        · rfl
    next => cases hr

/-- A call at a worker that has a token can run into it. -/
theorem violated_of_token (fiber : K → Bool) (hr : s.bound r = some w) (htoken : 0 < s.smph w) :
    ∃ acts s', (system n K O Q fiber).run s acts = some s' ∧ ¬Respected s' := by
  obtain ⟨acts,s',hrun,hreleasing,hsmph,-⟩ := bound_releases fiber hr
  refine ⟨acts,s',hrun,fun h => ?_⟩
  have hzero := h r w hreleasing
  rw [hsmph] at hzero
  omega

/-- Of two calls at a worker the second can run into the token of the first. -/
theorem violated_of_two (fiber : K → Bool) {r' : Option (Thread n O)} (hr : s.bound r = some w)
    (hr' : s.bound r' = some w) (hne : r ≠ r') :
    ∃ acts s', (system n K O Q fiber).run s acts = some s' ∧ ¬Respected s' := by
  obtain ⟨acts,s₁,hrun,hreleasing,-,hothers⟩ := bound_releases fiber hr'
  obtain ⟨a,s₂,hstep,htoken,hothers₂⟩ := releasing_step fiber hreleasing
  have hbound : s₂.bound r = some w := (hothers₂ r hne).trans ((hothers r hne).trans hr)
  obtain ⟨acts₃,s₃,hrun₃,hviolated⟩ := violated_of_token fiber hbound htoken
  refine ⟨acts ++ a :: acts₃,s₃,?_,hviolated⟩
  rw [System.run_append,hrun,Option.bind_some,System.run,
    show (system n K O Q fiber).step s₁ a = some s₂ from hstep]
  exact hrun₃

/-- A call that begins at a worker is bound to release its semaphore. -/
theorem begins_bound (hstep : step fiber s a = some s') (hbegins : s.begins a = some w) :
    ∃ r, s.bound r = none ∧ s'.bound r = some w ∧ s'.smph = s.smph ∧
      ∀ r', r' ≠ r → s'.bound r' = s.bound r' := by
  -- a Push begins
  have hpush : ∀ t : Thread n O, a = t.action → (s.inCall t).bind SubmitPc.begins = some w →
      ∃ r, s.bound r = none ∧ s'.bound r = some w ∧ s'.smph = s.smph ∧
        ∀ r', r' ≠ r → s'.bound r' = s.bound r' := by
    rintro t rfl hcall
    obtain ⟨call,hcall,hw⟩ := Option.bind_eq_some_iff.mp hcall
    cases call with
    | state | add | progress | route | global | reset | wakeUp | release => cases hw
    | enqueue v task =>
      cases hw
      obtain ⟨s₁,hstep₁,hcall₁,hsignals,hothers⟩ := step_call fiber hcall
      cases hstep.symm.trans hstep₁
      refine ⟨some t,?_,?_,congrArg Signals.smph hsignals,hothers⟩
      · rw [Pool.bound,Pool.due,hcall]
        rfl
      · rw [Pool.bound,Pool.due,hcall₁]
        rfl
  -- the owner comes to a worker
  have howner : s.ownerDue = none → s'.ownerDue = some w → s'.smph = s.smph → s'.due = s.due →
      ∃ r, s.bound r = none ∧ s'.bound r = some w ∧ s'.smph = s.smph ∧
        ∀ r', r' ≠ r → s'.bound r' = s.bound r' := by
    intro hnone hsome hsmph hdue
    refine ⟨none,hnone,hsome,hsmph,?_⟩
    rintro (_ | t) hne
    · exact absurd rfl hne
    · exact congrFun hdue t
  cases a with
  | worker v => exact hpush (.worker v) rfl hbegins
  | outside o => exact hpush (.outside o) rfl hbegins
  | op | timeout | go | wake | start | destroy | waiter | spurious => cases hbegins
  | waitShutdown =>
    cases ho : s.owner with
    | fresh | started | closed =>
      simp only [step,ho] at hstep
      cases hstep
      exact howner (by simp only [Pool.ownerDue,ho]) hbegins rfl rfl
    | start | wake | join | flag | release | joinAgain | assertTasks | destroyed | aborted =>
      simp only [step,ho] at hstep
      cases hstep
  | owner =>
    cases ho : s.owner with
    | join i =>
      simp only [Pool.begins,Pool.ownerBegins,ho] at hbegins
      simp only [step,Pool.ownerStep,ho] at hstep
      split at hstep
      next =>
        obtain ⟨-,⟨⟩⟩ := Option.ite_none_right_eq_some.mp hstep
        exact howner (by simp only [Pool.ownerDue,ho]) hbegins rfl rfl
      next => cases hstep
    | flag i =>
      simp only [Pool.begins,Pool.ownerBegins,ho] at hbegins
      simp only [step,Pool.ownerStep,ho] at hstep
      split at hstep
      next =>
        cases hstep
        exact howner (by simp only [Pool.ownerDue,ho]) hbegins rfl rfl
      next hi =>
        rw [workerAt,dif_neg hi] at hbegins
        cases hbegins
    | fresh | start | started | wake | closed | release | joinAgain | assertTasks | destroyed
    | aborted =>
      simp only [Pool.begins,Pool.ownerBegins,ho] at hbegins
      cases hbegins

/-- A step that begins a call too early leads to a release of a semaphore with a token. -/
theorem violated_of_not_spaced (hstep : step fiber s a = some s') (hearly : ¬Spaced s a) :
    ∃ acts t, (system n K O Q fiber).run s' acts = some t ∧ ¬Respected t := by
  simp only [Spaced,not_forall,not_and_or,not_not] at hearly
  obtain ⟨w,hbegins,hearly⟩ := hearly
  obtain ⟨r,hnone,hr,hsmph,hothers⟩ := begins_bound hstep hbegins
  rcases hearly with htoken | ⟨r',hr'⟩
  · refine violated_of_token fiber hr ?_
    rw [hsmph]
    exact Nat.pos_of_ne_zero htoken
  · have hne : r ≠ r' := by
      rintro rfl
      cases hnone.symm.trans hr'
    exact violated_of_two fiber hr ((hothers r' hne.symm).trans hr') hne

end Defect

/-- A worker takes two tasks one after the other from the global queue. -/
def twoTasks : List (Action 1 (Fin 2) (Fin 1) (Fin 1)) :=
  List.flatten [[.start,.owner,.owner,.go 0 0],List.replicate 5 (.outside 0),[.go 0 1],
    List.replicate 5 (.outside 0),List.replicate 11 (.worker 0),[.op 0 .finish],
    List.replicate 7 (.worker 0)]

theorem twoTasks_ends : (system 1 (Fin 2) (Fin 1) (Fin 1) fun _ => false).Ends
    (initial 1 (Fin 2) (Fin 1) (Fin 1)) twoTasks
    fun s => s.releasing (some (.worker 0)) = some 0 ∧ s.smph 0 = 1 := by
  decide +kernel

/-- The second Push of the worker to itself releases its semaphore with the token of the first. -/
theorem release_with_token :
    ¬∀ s, (system 1 (Fin 2) (Fin 1) (Fin 1) fun _ => false).Reachable s → Respected s := by
  intro h
  obtain ⟨s,hr,hreleasing,htoken⟩ := twoTasks_ends.reachable
  cases htoken.symm.trans (h s hr _ _ hreleasing)

/-- The second task comes when the worker has taken the token of the first. -/
def spacedTasks : List (Action 1 (Fin 2) (Fin 1) (Fin 1)) :=
  List.flatten [[.start,.owner,.owner,.go 0 0],List.replicate 5 (.outside 0),
    List.replicate 11 (.worker 0),[.op 0 .finish],List.replicate 13 (.worker 0),[.go 0 1],
    List.replicate 5 (.outside 0),List.replicate 7 (.worker 0)]

theorem spacedTasks_ends : (system 1 (Fin 2) (Fin 1) (Fin 1) fun _ => false).Ends
    (initial 1 (Fin 2) (Fin 1) (Fin 1)) spacedTasks
    fun s => s.releasing (some (.worker 0)) = some 0 ∧ s.runs 0 = [0] := by
  decide +kernel

theorem spacedTasks_meets : (system 1 (Fin 2) (Fin 1) (Fin 1) fun _ => false).Meets Spaced
    (initial 1 (Fin 2) (Fin 1) (Fin 1)) spacedTasks := by
  decide +kernel

theorem releases_respected_twice :
    ∃ s, (system 1 (Fin 2) (Fin 1) (Fin 1) fun _ => false).ReachableUnder Spaced s ∧
      s.releasing (some (.worker 0)) = some 0 ∧ s.runs 0 = [0] ∧ s.smph 0 = 0 := by
  obtain ⟨s,hr,hreleasing,hruns⟩ := spacedTasks_ends.reachableUnder spacedTasks_meets
  exact ⟨s,hr,hreleasing,hruns,releases_respected hr _ _ hreleasing⟩

end Tokens

end ConcurrencyRuntime.DistributedPool
