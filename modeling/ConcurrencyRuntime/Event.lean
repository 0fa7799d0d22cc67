import ConcurrencyRuntime.IntrusiveList
import ConcurrencyRuntime.SpinLock
import ConcurrencyRuntime.TransitionSystem

/-!
# The event and the ownership flag of its guard

Wait takes the spinlock into a unique_lock, moves it into the waiter on the
stack of the fiber and suspends. The worker that ran the fiber then parks the
waiter, unlocks the spinlock and only after that clears the ownership flag of
the unique_lock. A Fire may schedule the fiber in between, and the fiber then
destroys the unique_lock on another worker: its destructor unlocks the
spinlock when it still finds the flag set. One step is one access to the word
of the spinlock, to an ownership flag, to the list of waiters under the
spinlock, or to the queue of the pool.
-/

namespace ConcurrencyRuntime.Event

open TransitionSystem SpinLock IntrusiveList

/-- Program points of a fiber, in the order of the source. -/
inductive FiberPc (ι : Type*) where
  /-- Not submitted to the pool. -/
  | fresh
  /-- Submitted and not run yet. -/
  | ready
  /-- Outside of Wait and Fire. -/
  | running
  /-- Wait: the exchange of the spinlock. -/
  | waitExchange
  /-- Wait: the load that waits for the spinlock to be free. -/
  | waitSpin
  /-- Wait: the store of the ownership flag. -/
  | waitOwn
  /-- AwaitSuspend, run by the worker: Park. -/
  | parking
  /-- AwaitSuspend: guard.unlock() unlocks the spinlock. -/
  | unlocking
  /-- Suspended. -/
  | suspended
  /-- Wait, resumed: the destructor reads the ownership flag. -/
  | waitDestroy
  /-- Wait, resumed: the destructor unlocks the spinlock. -/
  | waitUnlock
  /-- Wait, resumed: the destructor clears the flag. -/
  | waitClear
  /-- Fire: the exchange of the spinlock. -/
  | fireExchange
  /-- Fire: the load that waits for the spinlock to be free. -/
  | fireSpin
  /-- Fire: the store of the ownership flag. -/
  | fireOwn
  /-- Fire: the test of the list and Pop. -/
  | fireLoop
  /-- Fire: the submission of a popped waiter to the pool. -/
  | fireSchedule (waiter : ι)
  /-- Fire: the destructor reads the ownership flag. -/
  | fireDestroy
  /-- Fire: the destructor unlocks the spinlock. -/
  | fireUnlock
  /-- Fire: the destructor clears the flag. -/
  | fireClear
  /-- Finished. -/
  | done
  deriving DecidableEq

/-- What a worker of the pool is doing. -/
inductive WorkerPc (ι : Type*) where
  /-- Looking for a task. -/
  | idle
  /-- Running a fiber, or the AwaitSuspend of the fiber it ran. -/
  | running (f : ι)
  /-- In AwaitSuspend after the unlock: the store that clears the flag. -/
  | clearing (f : ι)
  deriving DecidableEq

/-- The event, its fibers and the pool. A waiter and its unique_lock live on
the stack of their fiber and are addressed by it. -/
structure Runtime (ω ι : Type*) where
  /-- The spinlock, held for fibers. -/
  spinlock : Lock ι
  /-- The header of the list of waiters. -/
  waiters : Header ι
  /-- The next field of each waiter. -/
  next : ι → Option ι
  /-- The ownership flag of the unique_lock of each fiber. -/
  owns : ι → Bool
  /-- Where each fiber stands. -/
  fiber : ι → FiberPc ι
  /-- What each worker is doing. -/
  worker : ω → WorkerPc ι
  /-- The queue of the pool. -/
  tasks : List ι

/-- Scheduler choices. -/
inductive Action (ω ι : Type*) where
  /-- A new fiber is submitted to the pool. -/
  | submit (f : ι)
  /-- An idle worker takes the first task. -/
  | take (v : ω)
  /-- The fiber of a worker calls Wait. -/
  | wait (v : ω)
  /-- The fiber of a worker calls Fire. -/
  | fire (v : ω)
  /-- A worker takes its next step. -/
  | step (v : ω)
  /-- The fiber of a worker ends. -/
  | finish (v : ω)

variable {ω ι : Type*} [DecidableEq ω] [DecidableEq ι]

/-- Move a fiber. -/
def Runtime.goto (s : Runtime ω ι) (f : ι) (pc : FiberPc ι) : Runtime ω ι :=
  { s with fiber := Function.update s.fiber f pc }

/-- Move a worker. -/
def Runtime.setWorker (s : Runtime ω ι) (v : ω) (pc : WorkerPc ι) : Runtime ω ι :=
  { s with worker := Function.update s.worker v pc }

/-- Write an ownership flag. -/
def Runtime.setOwns (s : Runtime ω ι) (f : ι) (b : Bool) : Runtime ω ι :=
  { s with owns := Function.update s.owns f b }

/-- The next step of a fiber on its worker. -/
def fiberStep (s : Runtime ω ι) (v : ω) (f : ι) : Option (Runtime ω ι) :=
  match s.fiber f with
  | .fresh | .ready | .running | .suspended | .done => none
  | .waitExchange =>
    if s.spinlock.word then some (s.goto f .waitSpin)
    else some ({ s with spinlock := s.spinlock.acquire f }.goto f .waitOwn)
  | .waitSpin => if s.spinlock.word then some s else some (s.goto f .waitExchange)
  | .waitOwn => some ({ s with next := Function.update s.next f none }.setOwns f true |>.goto f .parking)
  | .parking =>
    some ({ s with
      waiters := s.waiters.push f
      next := s.waiters.pushLinks s.next f }.goto f .unlocking)
  | .unlocking =>
    some ({ s with spinlock := s.spinlock.release f }.goto f .suspended |>.setWorker v (.clearing f))
  | .waitDestroy => if s.owns f then some (s.goto f .waitUnlock) else some (s.goto f .running)
  | .waitUnlock => some ({ s with spinlock := s.spinlock.release f }.goto f .waitClear)
  | .waitClear => some ((s.setOwns f false).goto f .running)
  | .fireExchange =>
    if s.spinlock.word then some (s.goto f .fireSpin)
    else some ({ s with spinlock := s.spinlock.acquire f }.goto f .fireOwn)
  | .fireSpin => if s.spinlock.word then some s else some (s.goto f .fireExchange)
  | .fireOwn => some ((s.setOwns f true).goto f .fireLoop)
  | .fireLoop =>
    match s.waiters.popped with
    | some w => some ({ s with waiters := s.waiters.pop s.next }.goto f (.fireSchedule w))
    | none => some (s.goto f .fireDestroy)
  | .fireSchedule w => some ({ s with tasks := s.tasks ++ [w] }.goto f .fireLoop)
  | .fireDestroy => if s.owns f then some (s.goto f .fireUnlock) else some (s.goto f .running)
  | .fireUnlock => some ({ s with spinlock := s.spinlock.release f }.goto f .fireClear)
  | .fireClear => some ((s.setOwns f false).goto f .running)

/-- One scheduled step. -/
def step (s : Runtime ω ι) : Action ω ι → Option (Runtime ω ι)
  | .submit f =>
    if s.fiber f = .fresh then some ({ s with tasks := s.tasks ++ [f] }.goto f .ready) else none
  | .take v =>
    match s.worker v,s.tasks with
    | .idle,f :: rest =>
      match s.fiber f with
      | .ready => some (({ s with tasks := rest }.goto f .running).setWorker v (.running f))
      | .suspended => some (({ s with tasks := rest }.goto f .waitDestroy).setWorker v (.running f))
      | _ => none
    | _,_ => none
  | .wait v =>
    match s.worker v with
    | .running f => if s.fiber f = .running then some (s.goto f .waitExchange) else none
    | _ => none
  | .fire v =>
    match s.worker v with
    | .running f => if s.fiber f = .running then some (s.goto f .fireExchange) else none
    | _ => none
  | .step v =>
    match s.worker v with
    | .running f => fiberStep s v f
    | .clearing f => some ((s.setOwns f false).setWorker v .idle)
    | .idle => none
  | .finish v =>
    match s.worker v with
    | .running f =>
      if s.fiber f = .running then some ((s.goto f .done).setWorker v .idle) else none
    | _ => none

/-- A new event and an idle pool. -/
def initial (ω ι : Type*) : Runtime ω ι :=
  ⟨.new ι,.clear,fun _ => none,fun _ => false,fun _ => .fresh,fun _ => .idle,[]⟩

/-- The event as a transition system. -/
def event (ω ι : Type*) [DecidableEq ω] [DecidableEq ι] : System (Runtime ω ι) (Action ω ι) :=
  ⟨initial ω ι,step⟩

/-- The program points between an acquisition of the spinlock and its release:
the critical sections of Wait with its Park and of Fire. -/
@[grind =]
def FiberPc.holds {ι : Type*} : FiberPc ι → Bool
  | .waitOwn | .parking | .unlocking | .fireOwn | .fireLoop | .fireSchedule _ | .fireDestroy
  | .fireUnlock => true
  | _ => false

/-- The program points at which the ownership flag is set. -/
@[grind =]
def FiberPc.owned {ι : Type*} : FiberPc ι → Bool
  | .parking | .unlocking | .fireLoop | .fireSchedule _ | .fireDestroy | .fireUnlock
  | .fireClear => true
  | _ => false

/-- The spinlock is only unlocked for its holder, once for each acquisition,
and at most one critical section is active. -/
structure HolderUnlocks {ω ι : Type*} (s : Runtime ω ι) : Prop where
  /-- No unlock was for another than the holder. -/
  stray : s.spinlock.stray = 0
  /-- Each acquisition was unlocked once, but that of the active section. -/
  once : ∀ f, s.spinlock.acquired f = s.spinlock.released f + (s.fiber f).holds.toNat
  /-- Two active sections are one. -/
  one_section : ∀ f g, (s.fiber f).holds = true → (s.fiber g).holds = true → f = g

/-- The resumed fiber reads the ownership flag in its destructor only after
the worker that suspended it has cleared the flag. -/
def Cleared {ω ι : Type*} (s : Runtime ω ι) : Action ω ι → Prop
  | .step v => ∀ f, s.worker v = .running f → s.fiber f = .waitDestroy →
    ∀ u, s.worker u ≠ .clearing f
  | _ => True

/-- While the destructor waits for the flag to be cleared, the flags are what
the program points say. -/
structure Flags {ω ι : Type*} (s : Runtime ω ι) : Prop where
  owned : ∀ f, (s.fiber f).owned = true → s.owns f = true
  cleared : ∀ f, s.owns f = true → (s.fiber f).owned = true ∨ ∃ v, s.worker v = .clearing f
  clearing : ∀ v f, s.worker v = .clearing f → s.fiber f = .suspended ∨ s.fiber f = .waitDestroy
  clearingSet : ∀ v f, s.worker v = .clearing f → s.owns f = true
  clearingUnique : ∀ u v f, s.worker u = .clearing f → s.worker v = .clearing f → u = v
  noUnlock : ∀ f, s.fiber f ≠ .waitUnlock ∧ s.fiber f ≠ .waitClear

section Steps

variable {s s' : Runtime ω ι} {f : ι} {q : FiberPc ι} {v : ω}

omit [DecidableEq ω] in
/-- A fiber that no worker is clearing moves together with its flag. -/
theorem Flags.move {b : Bool} (h : Flags s) (hfiber : s'.fiber = Function.update s.fiber f q)
    (hworker : s'.worker = s.worker) (howns : s'.owns = Function.update s.owns f b)
    (hclr : ∀ v, s.worker v ≠ .clearing f) (hb : q.owned = b)
    (hno : q ≠ .waitUnlock ∧ q ≠ .waitClear) : Flags s' := by
  have hclearing := h.clearing
  have hcleared := h.cleared
  refine ⟨?_,?_,?_,?_,?_,?_⟩
  all_goals simp only [hfiber,hworker,howns,Function.update_apply]
  · grind [h.owned]
  · grind
  · grind
  · grind [h.clearingSet]
  · exact h.clearingUnique
  · grind [h.noUnlock]

omit [DecidableEq ω] in
/-- The same with the flag left alone. -/
theorem Flags.moveKeep (h : Flags s) (hfiber : s'.fiber = Function.update s.fiber f q)
    (hworker : s'.worker = s.worker) (howns : s'.owns = s.owns)
    (hclr : ∀ v, s.worker v ≠ .clearing f) (hq : q.owned = (s.fiber f).owned)
    (hno : q ≠ .waitUnlock ∧ q ≠ .waitClear) : Flags s' := by
  refine h.move (b := s.owns f) hfiber hworker (by simp [howns]) hclr ?_ hno
  rw [hq]
  cases ho : (s.fiber f).owned with
  | true => rw [h.owned f ho]
  | false =>
    cases hs : s.owns f with
    | false => rfl
    | true =>
      rcases h.cleared f hs with hc | ⟨v,hv⟩
      · rw [ho] at hc
        cases hc
      · exact absurd hv (hclr v)

/-- The suspending worker unlocks and is left with the flag to clear. -/
theorem Flags.suspend {l : Lock ι} (h : Flags s) (hpc : s.fiber f = .unlocking)
    (hv : s.worker v = .running f) :
    Flags ({ s with spinlock := l }.goto f .suspended |>.setWorker v (.clearing f)) := by
  have hclearing := h.clearing
  have hcleared := h.cleared
  have hown := h.owned f (by rw [hpc]; rfl)
  refine ⟨?_,?_,?_,?_,?_,?_⟩
  all_goals simp only [Runtime.goto,Runtime.setWorker,Function.update_apply]
  · grind [h.owned]
  · intro g hg
    by_cases hgf : g = f
    · exact Or.inr ⟨v,by simp [hgf]⟩
    · rcases hcleared g hg with ho | ⟨u,hu⟩
      · exact Or.inl (by simpa [hgf] using ho)
      · refine Or.inr ⟨u,?_⟩
        grind
  · grind
  · grind [h.clearingSet]
  · grind [h.clearingUnique]
  · grind [h.noUnlock]

omit [DecidableEq ι] in
/-- A worker that was not clearing takes up a fiber or drops it. -/
theorem Flags.setWorker {w : WorkerPc ι} (h : Flags s) (hold : ∀ f, s.worker v ≠ .clearing f)
    (hnew : ∀ f, w ≠ .clearing f) : Flags (s.setWorker v w) := by
  have hcleared := h.cleared
  refine ⟨h.owned,?_,?_,?_,?_,h.noUnlock⟩
  all_goals simp only [Runtime.setWorker,Function.update_apply]
  · intro g hg
    rcases hcleared g hg with ho | ⟨u,hu⟩
    · exact Or.inl ho
    · refine Or.inr ⟨u,?_⟩
      grind
  · grind [h.clearing]
  · grind [h.clearingSet]
  · grind [h.clearingUnique]

omit [DecidableEq ω] in
/-- A suspended fiber is resumed into its destructor, cleared or not. -/
theorem Flags.resume (h : Flags s) (hpc : s.fiber f = .suspended) :
    Flags (s.goto f .waitDestroy) := by
  have hcleared := h.cleared
  refine ⟨?_,?_,?_,h.clearingSet,h.clearingUnique,?_⟩
  all_goals simp only [Runtime.goto,Function.update_apply]
  · grind [h.owned]
  · grind
  · grind [h.clearing]
  · grind [h.noUnlock]

/-- The suspending worker clears the flag. -/
theorem Flags.clear (h : Flags s) (hv : s.worker v = .clearing f) :
    Flags ((s.setOwns f false).setWorker v .idle) := by
  have hcleared := h.cleared
  have hf := h.clearing v f hv
  have honly := fun u hu => h.clearingUnique u v f hu hv
  refine ⟨?_,?_,?_,?_,?_,h.noUnlock⟩
  all_goals simp only [Runtime.setOwns,Runtime.setWorker,Function.update_apply]
  · grind [h.owned]
  · intro g hg
    have hgf : g ≠ f := by
      rintro rfl
      simp at hg
    rcases hcleared g (by simpa [hgf] using hg) with ho | ⟨u,hu⟩
    · exact Or.inl ho
    · refine Or.inr ⟨u,?_⟩
      grind
  · grind [h.clearing]
  · grind [h.clearingSet]
  · grind [h.clearingUnique]

omit [DecidableEq ω] in
/-- Moving a fiber between points that agree on the spinlock. -/
theorem agrees_goto (h : Agrees s.spinlock fun f => (s.fiber f).holds)
    (hq : q.holds = (s.fiber f).holds) :
    Agrees s.spinlock fun g => (Function.update s.fiber f q g).holds := by
  refine h.congr fun g => ?_
  rw [Function.update_apply]
  split
  next hg => rw [hg,hq]
  next => rfl

end Steps

/-- The spinlock and the flags are what the program points say. -/
def Guarded {ω ι : Type*} (s : Runtime ω ι) : Prop :=
  (Agrees s.spinlock fun f => (s.fiber f).holds) ∧ Flags s

section Runs

variable {s s' : Runtime ω ι} {f : ι} {q : FiberPc ι} {v : ω}

omit [DecidableEq ω] [DecidableEq ι] in
theorem guarded_initial : Guarded (initial ω ι) := by
  refine ⟨agrees_new,?_⟩
  constructor <;> simp [initial,FiberPc.owned]

omit [DecidableEq ω] in
/-- A step of a fiber that touches neither the spinlock nor a flag. -/
theorem Guarded.quiet (h : Guarded s) (hfiber : s'.fiber = s.fiber) (hworker : s'.worker = s.worker)
    (howns : s'.owns = s.owns) (hlock : s'.spinlock = s.spinlock)
    (hclr : ∀ u, s.worker u ≠ .clearing f)
    (hq : (q.holds,q.owned) = ((s.fiber f).holds,(s.fiber f).owned))
    (hno : q ≠ .waitUnlock ∧ q ≠ .waitClear) : Guarded (s'.goto f q) := by
  simp only [Prod.mk.injEq] at hq
  refine ⟨?_,h.2.moveKeep (by rw [Runtime.goto,hfiber]) hworker howns hclr hq.2 hno⟩
  simp only [Runtime.goto,hfiber,hlock]
  exact agrees_goto h.1 hq.1

/-- Every step of a fiber keeps the guards, when its destructor runs after the
flag was cleared. -/
theorem guarded_fiberStep (h : Guarded s) (hv : s.worker v = .running f)
    (hclr : ∀ u, s.worker u ≠ .clearing f) (hs : fiberStep s v f = some s') : Guarded s' := by
  obtain ⟨hA,hF⟩ := id h
  have hother : ∀ q : FiberPc ι, ∀ g, g ≠ f →
      (Function.update s.fiber f q g).holds = (s.fiber g).holds :=
    fun q g hg => by rw [Function.update_of_ne hg]
  have hself : ∀ q : FiberPc ι, (Function.update s.fiber f q f).holds = q.holds :=
    fun q => by rw [Function.update_self]
  unfold fiberStep at hs
  split at hs
  iterate 5 cases hs
  next hpc =>
    split at hs <;> cases hs
    next hw => exact h.quiet rfl rfl rfl rfl hclr (by rw [hpc]; rfl) (by simp)
    next hw =>
      exact ⟨hA.acquire (by simpa using hw) (hself _) (hother _),
        hF.moveKeep rfl rfl rfl hclr (by rw [hpc]; rfl) (by simp)⟩
  next hpc =>
    split at hs <;> cases hs
    next hw => exact h
    next hw => exact h.quiet rfl rfl rfl rfl hclr (by rw [hpc]; rfl) (by simp)
  next hpc =>
    cases hs
    exact ⟨agrees_goto hA (by rw [hpc]; rfl),hF.move rfl rfl rfl hclr rfl (by simp)⟩
  next hpc =>
    cases hs
    exact h.quiet rfl rfl rfl rfl hclr (by rw [hpc]; rfl) (by simp)
  next hpc =>
    cases hs
    exact ⟨hA.release (by simp only [hpc]; rfl) (hself _) (hother _),hF.suspend hpc hv⟩
  next hpc =>
    split at hs <;> cases hs
    next ho =>
      rcases hF.cleared f ho with hc | ⟨u,hu⟩
      · rw [hpc] at hc
        cases hc
      · exact absurd hu (hclr u)
    next ho => exact h.quiet rfl rfl rfl rfl hclr (by rw [hpc]; rfl) (by simp)
  next hpc => exact absurd hpc (hF.noUnlock f).1
  next hpc => exact absurd hpc (hF.noUnlock f).2
  next hpc =>
    split at hs <;> cases hs
    next hw => exact h.quiet rfl rfl rfl rfl hclr (by rw [hpc]; rfl) (by simp)
    next hw =>
      exact ⟨hA.acquire (by simpa using hw) (hself _) (hother _),
        hF.moveKeep rfl rfl rfl hclr (by rw [hpc]; rfl) (by simp)⟩
  next hpc =>
    split at hs <;> cases hs
    next hw => exact h
    next hw => exact h.quiet rfl rfl rfl rfl hclr (by rw [hpc]; rfl) (by simp)
  next hpc =>
    cases hs
    exact ⟨agrees_goto hA (by rw [hpc]; rfl),hF.move rfl rfl rfl hclr rfl (by simp)⟩
  next hpc =>
    split at hs <;> cases hs <;> exact h.quiet rfl rfl rfl rfl hclr (by rw [hpc]; rfl) (by simp)
  next w hpc =>
    cases hs
    exact h.quiet rfl rfl rfl rfl hclr (by rw [hpc]; rfl) (by simp)
  next hpc =>
    have ho := hF.owned f (by rw [hpc]; rfl)
    rw [ho] at hs
    cases hs
    exact h.quiet rfl rfl rfl rfl hclr (by rw [hpc]; rfl) (by simp)
  next hpc =>
    cases hs
    exact ⟨hA.release (by simp only [hpc]; rfl) (hself _) (hother _),
      hF.moveKeep rfl rfl rfl hclr (by rw [hpc]; rfl) (by simp)⟩
  next hpc =>
    cases hs
    exact ⟨agrees_goto hA (by rw [hpc]; rfl),hF.move rfl rfl rfl hclr rfl (by simp)⟩

/-- Every step keeps the guards, when destructors run after the flag was
cleared. -/
theorem guarded_step {a : Action ω ι} (h : Guarded s) (ha : Cleared s a)
    (hs : step s a = some s') : Guarded s' := by
  have hclr : ∀ f, s.fiber f ≠ .suspended → s.fiber f ≠ .waitDestroy →
      ∀ u, s.worker u ≠ .clearing f := by
    intro f hsus hdes u hu
    rcases h.2.clearing u f hu with hf | hf
    · exact hsus hf
    · exact hdes hf
  cases a with
  | submit f =>
    simp only [step] at hs
    split at hs <;> cases hs
    next hpc =>
      exact h.quiet rfl rfl rfl rfl (hclr f (by simp [hpc]) (by simp [hpc]))
        (by rw [hpc]; rfl) (by simp)
  | take v =>
    simp only [step] at hs
    split at hs
    next f rest hv ht =>
      split at hs <;> cases hs
      next hpc =>
        have h' : Guarded ({ s with tasks := rest }.goto f .running) :=
          h.quiet rfl rfl rfl rfl (hclr f (by simp [hpc]) (by simp [hpc]))
            (by rw [hpc]; rfl) (by simp)
        exact ⟨h'.1,h'.2.setWorker (by simp [Runtime.goto,hv]) (by simp)⟩
      next hpc =>
        have hF : Flags ({ s with tasks := rest }.goto f .waitDestroy) := { h.2.resume hpc with }
        exact ⟨agrees_goto h.1 (by rw [hpc]; rfl),
          hF.setWorker (by simp [Runtime.goto,hv]) (by simp)⟩
    next => cases hs
  | wait v | fire v =>
    simp only [step] at hs
    split at hs
    next f hv =>
      split at hs <;> cases hs
      next hpc =>
        exact h.quiet rfl rfl rfl rfl (hclr f (by simp [hpc]) (by simp [hpc])) (by rw [hpc]; rfl)
          (by simp)
    next => cases hs
  | step v =>
    simp only [step] at hs
    split at hs
    next f hv =>
      by_cases hsus : s.fiber f = .suspended
      · simp [fiberStep,hsus] at hs
      by_cases hdes : s.fiber f = .waitDestroy
      · exact guarded_fiberStep h hv (ha f hv hdes) hs
      · exact guarded_fiberStep h hv (hclr f hsus hdes) hs
    next f hv =>
      cases hs
      exact ⟨h.1,h.2.clear hv⟩
    next => cases hs
  | finish v =>
    simp only [step] at hs
    split at hs
    next f hv =>
      split at hs <;> cases hs
      next hpc =>
        have h' : Guarded (s.goto f .done) :=
          h.quiet rfl rfl rfl rfl (hclr f (by simp [hpc]) (by simp [hpc]))
            (by rw [hpc]; rfl) (by simp)
        exact ⟨h'.1,h'.2.setWorker (by simp [Runtime.goto,hv]) (by simp)⟩
    next => cases hs

/-- Every state of such a run is guarded. -/
theorem guarded_reachable (hr : (event ω ι).ReachableUnder Cleared s) : Guarded s := by
  refine System.ReachableUnder.invariant ?_ ?_ hr
  · exact guarded_initial
  · exact fun _ _ _ _ h ha hs => guarded_step h ha hs

/-- In every run whose resumed fibers destroy their guard after it was
cleared, the spinlock is unlocked for its holder only. -/
theorem holder_unlocks (hr : (event ω ι).ReachableUnder Cleared s) : HolderUnlocks s := by
  have h := guarded_reachable hr
  exact ⟨h.1.stray,h.1.counts,fun f g hf hg => h.1.unique hf hg⟩

end Runs

instance [Fintype ω] [Fintype ι] (s : Runtime ω ι) : ∀ a, Decidable (Cleared s a)
  | .step v => inferInstanceAs (Decidable (∀ f, s.worker v = .running f → s.fiber f = .waitDestroy →
      ∀ u, s.worker u ≠ .clearing f))
  | .submit _ | .take _ | .wait _ | .fire _ | .finish _ => isTrue trivial

/-- A worker takes a number of steps. -/
def steps {ω ι : Type*} (v : ω) (n : ℕ) : List (Action ω ι) := List.replicate n (.step v)

/-- Fiber 0 waits, fiber 1 fires, the suspending worker clears the flag and
then fiber 0 leaves its Wait on another worker. -/
def waitFire : List (Action (Fin 3) (Fin 2)) :=
  [[.submit 0,.submit 1,.take 0,.take 1,.wait 0],steps 0 4,[.fire 1],steps 1 8,
    [.take 2,.step 0,.step 2]].flatten

theorem waitFire_ends : (event (Fin 3) (Fin 2)).Ends (initial (Fin 3) (Fin 2)) waitFire
    fun s => s.fiber 0 = .running ∧ s.fiber 1 = .running ∧ s.spinlock.released 0 = 1 ∧
      s.spinlock.released 1 = 1 := by
  decide +kernel

theorem waitFire_cleared :
    (event (Fin 3) (Fin 2)).Meets Cleared (initial (Fin 3) (Fin 2)) waitFire := by
  decide +kernel

theorem holder_unlocks_wait_fire :
    ∃ s, (event (Fin 3) (Fin 2)).ReachableUnder Cleared s ∧
      (s.fiber 0 = .running ∧ s.fiber 1 = .running ∧ s.spinlock.released 0 = 1 ∧
        s.spinlock.released 1 = 1) ∧ HolderUnlocks s := by
  obtain ⟨s,hr,hend⟩ := waitFire_ends.reachableUnder waitFire_cleared
  exact ⟨s,hr,hend,holder_unlocks hr⟩

/-- The suspending worker 0 stops between the unlock and the store of the
flag. Fiber 0 is fired, resumed on worker 3 and finds its flag set; it unlocks
the spinlock that fiber 2 has just taken, and the Fire of fiber 1 enters as
well. -/
theorem second_unlock_ends : (event (Fin 4) (Fin 3)).Ends (initial (Fin 4) (Fin 3))
    [[.submit 0,.submit 1,.submit 2,.take 0,.take 1,.take 2,.wait 0],steps 0 4,[.fire 1],
      steps 1 8,[.take 3,.step 3,.fire 2,.step 2,.step 3,.fire 1,.step 1]].flatten
    fun s => (s.fiber 1).holds = true ∧ (s.fiber 2).holds = true ∧ s.spinlock.stray = 1 ∧
      s.spinlock.acquired 0 = 1 ∧ s.spinlock.released 0 = 2 := by
  decide +kernel

theorem spinlock_unlocked_twice :
    ¬∀ s, (event (Fin 4) (Fin 3)).Reachable s → HolderUnlocks s := by
  intro hall
  obtain ⟨s,hr,h1,h2,-⟩ := second_unlock_ends.reachable
  exact absurd ((hall s hr).one_section 1 2 h1 h2) (by decide)

/-- The condition leaves out nothing harmless: a destructor that reads the flag
before it is cleared unlocks the spinlock a second time. -/
theorem early_destructor_unlocks {ω ι : Type*} [DecidableEq ω] [DecidableEq ι] {s : Runtime ω ι}
    {u v : ω} {f : ι} (hr : (event ω ι).ReachableUnder Cleared s) (hu : s.worker u = .clearing f)
    (hv : s.worker v = .running f) (hf : s.fiber f = .waitDestroy) :
    ∃ s', (event ω ι).run s [.step v,.step v] = some s' ∧ ¬HolderUnlocks s' := by
  obtain ⟨hA,hF⟩ := guarded_reachable hr
  have hset := hF.clearingSet u f hu
  have hne : s.spinlock.holder ≠ some f := by
    intro hh
    have hc := hA.holder f hh
    rw [hf] at hc
    cases hc
  refine ⟨{ s.goto f .waitUnlock with spinlock := s.spinlock.release f }.goto f .waitClear,?_,?_⟩
  · simp [System.run,event,step,fiberStep,Runtime.goto,hv,hf,hset]
  · intro h
    have hstray := h.stray
    simp [Runtime.goto,Lock.release,hne] at hstray

end ConcurrencyRuntime.Event
