import ConcurrencyRuntime.Coroutine

/-!
# The thread-local current_fiber

Run of a fiber calls Switch, which stores the fiber into current_fiber, resumes its
coroutine and clears the pointer; it does not restore it. The code on a thread or in
the body of a fiber may run fibers, as the loop of an executor that it drives, so runs
nest. A fiber is queued by Go, and again after each suspension through the handle that
its awaiter gets.
-/

namespace ConcurrencyRuntime.FiberSelf

open TransitionSystem
open Coroutine (Stack)

/-- Where the code on a stack stands, or continues once it is switched to. -/
inductive Pc (φ : Type*) where
  /-- The fiber is not constructed. -/
  | fresh
  /-- Run of the coroutine is entered. -/
  | start
  /-- The code of a thread or the body of a fiber, with the executors they drive. -/
  | user
  /-- Switch: the store of this into current_fiber. -/
  | switchStore (f : φ)
  /-- Switch: Resume of the coroutine, which switches to its context. -/
  | switchResume (f : φ)
  /-- Switch: the store of null into current_fiber. -/
  | switchClear (f : φ)
  /-- Run, behind Switch: the tests of IsCompleted and of the awaiter. -/
  | runCheck (f : φ)
  /-- Suspend: the load of Self, its assertion, and the switch to the caller. -/
  | suspend
  /-- The coroutine, after the routine has returned or thrown: is_completed_. -/
  | complete
  /-- The coroutine: ExitTo. -/
  | exit
  /-- ExitTo, behind the switch: std::abort. -/
  | exited
  deriving DecidableEq

/-- The hands in which a fiber is. -/
inductive Status where
  /-- Not constructed. -/
  | absent
  /-- Submitted to an executor. -/
  | queued
  /-- In a call of Run. -/
  | running
  /-- Suspended, its handle with an awaiter. -/
  | stopped
  /-- Deleted, or lost where it had no awaiter. -/
  | ended
  deriving DecidableEq

/-- Threads, fibers and what is suspended where. -/
structure World (τ φ : Type*) where
  /-- Where the code on each stack stands. -/
  pc : Stack τ φ → Pc φ
  /-- The stack on which each thread runs. -/
  running : τ → Stack τ φ
  /-- The thread-local pointer. -/
  currentFiber : τ → Option φ
  /-- The stack suspended in coro_ctx_ of each fiber. -/
  coroCtx : φ → Option (Stack τ φ)
  /-- The stack suspended in caller_ctx_ of each fiber. -/
  callerCtx : φ → Option (Stack τ φ)
  /-- The flag is_completed_ of each fiber. -/
  isCompleted : φ → Bool
  /-- The fiber has an awaiter_. -/
  awaiter : φ → Bool
  /-- The hands in which each fiber is. -/
  status : φ → Status
  /-- History: the fibers whose Switch on the thread has stored them and has not
  cleared the pointer, innermost first. -/
  active : τ → List φ

/-- What the threads do. -/
inductive Action (τ φ : Type*) where
  /-- The code on a thread calls Go for a new fiber. -/
  | go (t : τ) (f : φ)
  /-- The code on a thread takes a fiber from an executor and calls Run. -/
  | run (t : τ) (f : φ)
  /-- The code on a thread calls Suspend, from Yield, Lock or Wait. -/
  | suspend (t : τ)
  /-- The body on a thread returns, or throws. -/
  | leave (t : τ) (thrown : Bool)
  /-- The handle of a stopped fiber is used to schedule it. -/
  | schedule (f : φ)
  /-- A thread takes its next step in Run, Switch or Suspend. -/
  | step (t : τ)

variable {τ φ : Type*} [DecidableEq τ] [DecidableEq φ]

/-- Move the code on a stack. -/
def World.goto (s : World τ φ) (x : Stack τ φ) (pc : Pc φ) : World τ φ :=
  { s with pc := Function.update s.pc x pc }

/-- A thread suspends its stack, which is to continue at a program point, and
continues the stack of another context. -/
def World.switch (s : World τ φ) (t : τ) (pc : Pc φ) (target : Stack τ φ) : World τ φ :=
  { s.goto (s.running t) pc with running := Function.update s.running t target }

/-- A fiber changes hands. -/
def World.hand {τ φ : Type*} [DecidableEq φ] (s : World τ φ) (f : φ)
    (status : Status) : World τ φ :=
  { s with status := Function.update s.status f status }

/-- What becomes of a fiber that has come back from Switch. -/
def World.verdict {τ φ : Type*} (s : World τ φ) (f : φ) : Status :=
  if s.isCompleted f then .ended else if s.awaiter f then .stopped else .ended

/-- The next step of a thread. A failed assertion ends the program. -/
def threadStep (s : World τ φ) (t : τ) : Option (World τ φ) :=
  match s.pc (s.running t) with
  | .fresh | .user | .exited => none
  | .start => some (s.goto (s.running t) .user)
  | .switchStore f =>
    some ({ s with
      currentFiber := Function.update s.currentFiber t (some f)
      active := Function.update s.active t (f :: s.active t) }.goto (s.running t) (.switchResume f))
  | .switchResume f =>
    match s.coroCtx f with
    | some target =>
      some ({ s with callerCtx := Function.update s.callerCtx f (some (s.running t)) }.switch t
        (.switchClear f) target)
    | none => none
  | .switchClear f =>
    some ({ s with
      currentFiber := Function.update s.currentFiber t none
      active := Function.update s.active t (s.active t).tail }.goto (s.running t) (.runCheck f))
  | .runCheck f => some ((s.hand f (s.verdict f)).goto (s.running t) .user)
  | .suspend =>
    match s.currentFiber t with
    | some f =>
      match s.callerCtx f with
      | some target =>
        some ({ s with
          awaiter := Function.update s.awaiter f true
          coroCtx := Function.update s.coroCtx f (some (s.running t)) }.switch t .user target)
      | none => none
    | none => none
  | .complete =>
    match s.running t with
    | .coro f =>
      some ({ s with isCompleted := Function.update s.isCompleted f true }.goto (s.running t) .exit)
    | .thread _ => none
  | .exit =>
    match s.running t with
    | .coro f =>
      match s.callerCtx f with
      | some target =>
        some ({ s with coroCtx := Function.update s.coroCtx f (some (s.running t)) }.switch t .exited
          target)
      | none => none
    | .thread _ => none

/-- One action. -/
def step (s : World τ φ) : Action τ φ → Option (World τ φ)
  | .go t f =>
    if s.pc (s.running t) = .user ∧ s.pc (.coro f) = .fresh then
      some (({ s with coroCtx := Function.update s.coroCtx f (some (.coro f)) }.goto (.coro f)
        .start).hand f .queued)
    else none
  | .run t f =>
    if s.pc (s.running t) = .user ∧ s.status f = .queued then
      some ((s.hand f .running).goto (s.running t) (.switchStore f))
    else none
  | .suspend t =>
    if s.pc (s.running t) = .user then some (s.goto (s.running t) .suspend) else none
  | .leave t _ =>
    match s.running t,s.pc (s.running t) with
    | .coro f,.user => some (s.goto (.coro f) .complete)
    | _,_ => none
  | .schedule f => if s.status f = .stopped then some (s.hand f .queued) else none
  | .step t => threadStep s t

/-- Every thread runs its own code and there is no fiber. -/
def initial (τ φ : Type*) : World τ φ where
  pc
    | .thread _ => .user
    | .coro _ => .fresh
  running := .thread
  currentFiber _ := none
  coroCtx _ := none
  callerCtx _ := none
  isCompleted _ := false
  awaiter _ := false
  status _ := .absent
  active _ := []

/-- The fibers as a transition system. -/
def fibers (τ φ : Type*) [DecidableEq τ] [DecidableEq φ] : System (World τ φ) (Action τ φ) :=
  ⟨initial τ φ,step⟩

/-- Switch clears the pointer on the stack of the thread itself, not in the body of
another fiber. -/
def Outermost {τ φ : Type*} (s : World τ φ) : Action τ φ → Prop
  | .step t => ∀ f, s.pc (s.running t) = .switchClear f → s.running t = .thread t
  | _ => True

/-- A thread is between the store of a fiber and the switch to it, or between the
switch back from it and the store of null. -/
def Pc.between {φ : Type*} : Pc φ → Bool
  | .switchResume _ | .switchClear _ => true
  | _ => false

/-- The pointer of each thread is the innermost fiber that it has made active, which is
the one whose body executes except while a Switch is between its two stores. -/
def SelfExecutes {τ φ : Type*} (s : World τ φ) : Prop :=
  ∀ t, s.currentFiber t = (s.active t).head? ∧
    ((s.pc (s.running t)).between = false → s.currentFiber t = (s.running t).coroutine)

/-- The call of Run that the code on a stack is in. -/
def Pc.runs {φ : Type*} : Pc φ → Option φ
  | .switchStore f | .switchResume f | .switchClear f | .runCheck f => some f
  | _ => none

/-- A step of the code on a stack stands for one of Resume, which restores the pointer
where Switch clears it. -/
def Pc.Matches {τ φ : Type*} : Pc φ → Coroutine.Pc τ φ → Prop
  | .fresh,.fresh | .start,.start | .user,.user | .runCheck _,.user | .suspend,.suspend
  | .complete,.complete | .exit,.exit | .exited,.exited => True
  | .switchStore f,.resumeLoad c _ | .switchResume f,.resumeSwitch c _ _
  | .switchClear f,.resumeRestore c _ _ => c = f
  | _,_ => False

/-- The fibers are where the coroutines are. -/
structure Related {τ φ : Type*} (s : World τ φ) (w : Coroutine.World τ φ) : Prop where
  pc : ∀ x, (s.pc x).Matches (w.pc x)
  running : w.running = s.running
  current : w.currentCoro = s.currentFiber
  coroCtx : w.coroCtx = s.coroCtx
  callerCtx : w.callerCtx = s.callerCtx
  isCompleted : w.isCompleted = s.isCompleted
  active : w.active = s.active

/-- Whose hands the fibers are in, by where their stacks stand. -/
structure Held {τ φ : Type*} (s : World τ φ) : Prop where
  /-- A call of Run has its fiber, and it is the only one. -/
  frames : ∀ x f, (s.pc x).runs = some f → s.status f = .running
  unique : ∀ x y f, (s.pc x).runs = some f → (s.pc y).runs = some f → x = y
  idle : ∀ f, s.status f = .queued ∨ s.status f = .stopped →
    s.pc (.coro f) = .start ∨ s.pc (.coro f) = .user
  ready : ∀ x f, s.pc x = .switchStore f ∨ s.pc x = .switchResume f →
    s.pc (.coro f) = .start ∨ s.pc (.coro f) = .user
  back : ∀ t f, s.pc (s.running t) = .switchClear f ∨ s.pc (s.running t) = .runCheck f →
    s.isCompleted f = true ∨ s.pc (.coro f) = .user
  completed : ∀ f, s.isCompleted f = true ↔ s.pc (.coro f) = .exit ∨ s.pc (.coro f) = .exited
  absent : ∀ f, s.pc (.coro f) = .fresh → s.status f = .absent

/-- What the nesting of the coroutines says of the fibers: threads run on different
stacks, the stack below a fiber waits in its Switch, and a fiber that is switched to
continues on its own stack. -/
structure Placed {τ φ : Type*} (s : World τ φ) : Prop where
  running : ∀ t u, s.running t = s.running u → t = u
  below : ∀ t f, s.running t = .coro f →
    ∃ y, s.callerCtx f = some y ∧ s.pc y = .switchClear f ∧ ∀ u, s.running u ≠ y
  resume : ∀ t f, s.pc (s.running t) = .switchResume f → s.coroCtx f = some (.coro f)
  self : SelfExecutes s

section Steps

variable {s s' : World τ φ} {w : Coroutine.World τ φ} {nest : τ → List φ} {t : τ} {f : φ}

omit [DecidableEq τ] [DecidableEq φ] in
theorem Pc.Matches.between {p : Pc φ} {q : Coroutine.Pc τ φ} (h : p.Matches q)
    (hp : p.between = false) : q.between = [] := by
  cases q with
  | resumeSwitch c call callerCoro | resumeRestore c call callerCoro =>
    cases p <;> simp [Pc.Matches,Pc.between] at h hp
  | _ => rfl

omit [DecidableEq τ] [DecidableEq φ] in
theorem Related.placed (h : Related s w) (hn : Coroutine.Nested w nest) : Placed s where
  running t u he := by
    by_contra hne
    refine hn.running_ne (u := t) (t := u) hne ?_
    rw [h.running,he]
  below t f hf := by
    rw [← h.running] at hf
    obtain ⟨rest,hnest⟩ := hn.running_coro hf
    have hsuffix : f :: rest <:+ nest t := by rw [hnest]
    obtain ⟨hcaller,call,hpc,-⟩ := hn.links t f rest hsuffix
    rw [h.callerCtx] at hcaller
    refine ⟨Coroutine.stackOf t rest,hcaller,?_,?_⟩
    · have hmatch := h.pc (Coroutine.stackOf t rest)
      rw [hpc] at hmatch
      cases hs : s.pc (Coroutine.stackOf t rest) <;> simp [hs,Pc.Matches] at hmatch
      rw [hmatch]
    · intro u hu
      exact hn.waiting_ne (u := u) hsuffix (by rw [h.running,hu])
  resume t f hpc := by
    have hmatch := h.pc (s.running t)
    rw [hpc,← h.running] at hmatch
    have hactivating : (w.pc (w.running t)).activating = some f := by
      cases hw : w.pc (w.running t) <;> simp [hw,Pc.Matches] at hmatch
      rw [hmatch]
      rfl
    obtain ⟨hout,hready,-⟩ := hn.activating t f hactivating
    rw [← h.coroCtx]
    exact hn.ready f hready hout
  self t := by
    rw [← h.current,← h.active]
    refine ⟨hn.current t,?_⟩
    intro hbetween
    rw [← h.running]
    refine hn.current_running t ?_
    rw [h.running]
    exact (h.pc (s.running t)).between hbetween

omit [DecidableEq τ] [DecidableEq φ] in
/-- The fiber whose body executes is in a call of Run, and neither about to be switched
to nor back from it. -/
theorem Held.executing (h : Held s) (hp : Placed s) (hf : s.running t = .coro f) :
    s.status f = .running ∧ (∀ x, s.pc x ≠ .switchStore f ∧ s.pc x ≠ .switchResume f) ∧
      ∀ u, s.pc (s.running u) ≠ .switchClear f ∧ s.pc (s.running u) ≠ .runCheck f := by
  obtain ⟨y,-,hy,hwait⟩ := hp.below t f hf
  have hruns : (s.pc y).runs = some f := by
    rw [hy]
    rfl
  refine ⟨h.frames y f hruns,?_,?_⟩
  · intro x
    refine ⟨?_,?_⟩
    all_goals
      intro hx
      have he := h.unique x y f (by rw [hx]; rfl) hruns
      rw [he,hy] at hx
      cases hx
  · intro u
    refine ⟨?_,?_⟩
    all_goals
      intro hx
      exact hwait u (h.unique _ y f (by rw [hx]; rfl) hruns)

omit [DecidableEq τ] [DecidableEq φ] in
/-- A queued fiber can be resumed. -/
theorem Held.inactive (h : Held s) (hr : Related s w) (hp : Placed s) (hf : s.status f = .queued) :
    Coroutine.Inactive w f ∧ w.isCompleted f = false := by
  have hnorun : ∀ x, (s.pc x).runs ≠ some f := by
    intro x hx
    rw [h.frames x f hx] at hf
    cases hf
  have hidle := h.idle f (.inl hf)
  refine ⟨⟨?_,?_,?_⟩,?_⟩
  · have hmatch := hr.pc (.coro f)
    rcases hidle with hpc | hpc
    all_goals
      rw [hpc] at hmatch
      cases hw : w.pc (.coro f) <;> simp [hw,Pc.Matches] at hmatch
    · exact .inl rfl
    · exact .inr rfl
  · intro t ht
    rw [hr.running] at ht
    rw [(h.executing hp ht).1] at hf
    cases hf
  · intro x hx
    have hmatch := hr.pc x
    have hno := hnorun x
    cases hw : w.pc x <;> simp [hw,Coroutine.Pc.activating] at hx
    all_goals
      subst hx
      cases hs : s.pc x <;> simp [hs,hw,Pc.Matches] at hmatch
    all_goals
      rw [hs,hmatch] at hno
      exact hno rfl
  · rw [hr.isCompleted]
    cases hc : s.isCompleted f with
    | false => rfl
    | true =>
      rcases (h.completed f).mp hc with he | he
      all_goals
        rw [he] at hidle
        rcases hidle with hidle | hidle <;> cases hidle

/-- Every step of a thread keeps the fibers in the hands that their stacks say. -/
theorem held_threadStep (h : Held s) (hp : Placed s) (hs : threadStep s t = some s') : Held s' := by
  have hexec := fun f => h.executing (t := t) (f := f) hp
  have hrun := hp.running
  obtain ⟨hframes,hunique,hidle,hready,hback,hcompleted,habsent⟩ := h
  cases hpc : s.pc (s.running t) with
  | fresh | user | exited => simp [threadStep,hpc] at hs
  | start | switchStore f | switchClear f | runCheck f =>
    simp only [threadStep,hpc,Option.some.injEq] at hs
    subst hs
    refine ⟨?_,?_,?_,?_,?_,?_,?_⟩
    all_goals simp only [World.goto,World.hand,World.verdict,Function.update_apply]
    all_goals grind [Pc.runs]
  | switchResume f =>
    simp only [threadStep,hpc,hp.resume t f hpc,Option.some.injEq] at hs
    subst hs
    refine ⟨?_,?_,?_,?_,?_,?_,?_⟩
    all_goals simp only [World.switch,World.goto,Function.update_apply]
    all_goals grind [Pc.runs]
  | suspend | complete | exit =>
    cases hx : s.running t with
    | thread u =>
      have hself := (hp.self t).2 (by rw [hpc]; rfl)
      rw [hx] at hself hpc
      simp [threadStep,hpc,hx,hself,Stack.coroutine] at hs
    | coro f =>
      have hself := (hp.self t).2 (by rw [hpc]; rfl)
      obtain ⟨y,hcaller,hy,hwait⟩ := hp.below t f hx
      rw [hx] at hself hpc
      simp only [threadStep,hpc,hx,hself,Stack.coroutine,hcaller,Option.some.injEq] at hs
      subst hs
      refine ⟨?_,?_,?_,?_,?_,?_,?_⟩
      all_goals simp only [World.switch,World.goto,Function.update_apply,hx]
      all_goals grind [Pc.runs]

/-- The code on a thread calls Suspend or ends a body. -/
theorem Held.leave {q : Pc φ} (h : Held s) (hp : Placed s) (hpc : s.pc (s.running t) = .user)
    (hq : q = .suspend ∨ q = .complete) : Held (s.goto (s.running t) q) := by
  have hexec := fun f => h.executing (t := t) (f := f) hp
  have hrun := hp.running
  obtain ⟨hframes,hunique,hidle,hready,hback,hcompleted,habsent⟩ := h
  refine ⟨?_,?_,?_,?_,?_,?_,?_⟩
  all_goals simp only [World.goto,Function.update_apply]
  all_goals grind [Pc.runs]

/-- Every action keeps the fibers in the hands that their stacks say. -/
theorem held_step {a : Action τ φ} (h : Held s) (hp : Placed s)
    (hs : step s a = some s') : Held s' := by
  cases a with
  | step t => exact held_threadStep h hp hs
  | go t f =>
    obtain ⟨⟨hpc,hfresh⟩,⟨⟩⟩ := Option.ite_none_right_eq_some.mp hs
    obtain ⟨hframes,hunique,hidle,hready,hback,hcompleted,habsent⟩ := h
    refine ⟨?_,?_,?_,?_,?_,?_,?_⟩
    all_goals simp only [World.goto,World.hand,Function.update_apply]
    all_goals grind [Pc.runs]
  | run t f =>
    obtain ⟨⟨hpc,hqueued⟩,⟨⟩⟩ := Option.ite_none_right_eq_some.mp hs
    have hexec := fun f => h.executing (t := t) (f := f) hp
    have hrun := hp.running
    obtain ⟨hframes,hunique,hidle,hready,hback,hcompleted,habsent⟩ := h
    refine ⟨?_,?_,?_,?_,?_,?_,?_⟩
    all_goals simp only [World.goto,World.hand,Function.update_apply]
    all_goals grind [Pc.runs]
  | schedule f =>
    obtain ⟨hstopped,⟨⟩⟩ := Option.ite_none_right_eq_some.mp hs
    obtain ⟨hframes,hunique,hidle,hready,hback,hcompleted,habsent⟩ := h
    refine ⟨?_,hunique,?_,hready,hback,hcompleted,?_⟩
    all_goals simp only [World.hand,Function.update_apply]
    all_goals grind
  | suspend t =>
    obtain ⟨hpc,⟨⟩⟩ := Option.ite_none_right_eq_some.mp hs
    exact h.leave hp hpc (.inl rfl)
  | leave t thrown =>
    simp only [step] at hs
    split at hs
    next f hx hpc =>
      cases hs
      rw [← hx]
      exact h.leave hp hpc (.inr rfl)
    next => cases hs

omit [DecidableEq τ] [DecidableEq φ] in
/-- The program points of Switch are those of Resume. -/
theorem Pc.Matches.exists_call {p : Pc φ} {q : Coroutine.Pc τ φ} (h : p.Matches q) :
    (p = .switchStore f → ∃ call, q = .resumeLoad f call) ∧
    (p = .switchResume f → ∃ call caller, q = .resumeSwitch f call caller) ∧
    (p = .switchClear f → ∃ call caller, q = .resumeRestore f call caller) := by
  refine ⟨?_,?_,?_⟩
  all_goals
    rintro rfl
    cases q <;> simp [Pc.Matches] at h
    simp [h]

/-- The program point of a coroutine, outside of Switch. -/
def Pc.plain {τ φ : Type*} : Pc φ → Option (Coroutine.Pc τ φ)
  | .fresh => some .fresh
  | .start => some .start
  | .user | .runCheck _ => some .user
  | .suspend => some .suspend
  | .complete => some .complete
  | .exit => some .exit
  | .exited => some .exited
  | .switchStore _ | .switchResume _ | .switchClear _ => none

omit [DecidableEq τ] [DecidableEq φ] in
theorem Pc.Matches.eq {p : Pc φ} {q q' : Coroutine.Pc τ φ} (h : p.Matches q)
    (hp : p.plain = some q') : q = q' := by
  cases p with
  | switchStore f | switchResume f | switchClear f => cases hp
  | _ => cases q <;> first | exact Option.some.inj hp | cases h

/-- The code on one stack moves on both sides. -/
theorem Related.matches_update {p : Pc φ} {q : Coroutine.Pc τ φ} (h : Related s w) (x : Stack τ φ)
    (hpq : p.Matches q) (y : Stack τ φ) :
    (Function.update s.pc x p y).Matches (Function.update w.pc x q y) := by
  by_cases he : y = x
  · subst he
    simpa only [Function.update_self] using hpq
  · simpa only [Function.update_of_ne he] using h.pc y

/-- A step of a thread is answered by steps of the coroutines. Where Switch clears the
pointer Resume restores null, for the thread was in no coroutine before. -/
theorem related_threadStep (h : Related s w) (hn : Coroutine.Nested w nest)
    (hr : (Coroutine.coroutines τ φ).ReachableUnder Coroutine.Contract w)
    (hout : Outermost s (.step t)) (hs : threadStep s t = some s') :
    ∃ w', (Coroutine.coroutines τ φ).ReachableUnder Coroutine.Contract w' ∧ Related s' w' := by
  have hreach : ∀ w', Coroutine.threadStep w t = some w' →
      (Coroutine.coroutines τ φ).ReachableUnder Coroutine.Contract w' :=
    fun w' hw => hr.step (a := .step t) trivial hw
  have hmatch := h.pc (s.running t)
  have hrunning : w.running t = s.running t := congrFun h.running t
  cases hpc : s.pc (s.running t) with
  | fresh | user | exited => simp [threadStep,hpc] at hs
  | start =>
    simp only [threadStep,hpc,Option.some.injEq] at hs
    subst hs
    rw [hpc] at hmatch
    have hw : w.pc (s.running t) = .start := hmatch.eq rfl
    refine ⟨w.goto (s.running t) .user,hreach _ ?_,?_⟩
    · simp only [Coroutine.threadStep,hrunning,hw]
    · exact ⟨h.matches_update _ trivial,h.running,h.current,h.coroCtx,h.callerCtx,h.isCompleted,
        h.active⟩
  | runCheck f =>
    simp only [threadStep,hpc,Option.some.injEq] at hs
    subst hs
    rw [hpc] at hmatch
    have hw : w.pc (s.running t) = .user := hmatch.eq rfl
    refine ⟨w,hr,?_,h.running,h.current,h.coroCtx,h.callerCtx,h.isCompleted,h.active⟩
    intro y
    have hup := h.matches_update (p := .user) (q := .user) (s.running t) trivial y
    rwa [← hw,Function.update_eq_self] at hup
  | switchStore f =>
    simp only [threadStep,hpc,Option.some.injEq] at hs
    subst hs
    obtain ⟨call,hw⟩ := hmatch.exists_call.1 hpc
    -- Resume loads the pointer first
    have hload : (Coroutine.coroutines τ φ).ReachableUnder Coroutine.Contract
        (w.goto (s.running t) (.resumeStore f call (w.currentCoro t))) := by
      refine hreach _ ?_
      simp only [Coroutine.threadStep,hrunning,hw]
    have hstore : (Coroutine.coroutines τ φ).step
        (w.goto (s.running t) (.resumeStore f call (w.currentCoro t))) (.step t) =
        some { w.setCurrent t (some f) with
          active := Function.update w.active t (f :: w.active t)
          pc := Function.update w.pc (s.running t) (.resumeSwitch f call (w.currentCoro t)) } := by
      simp [Coroutine.coroutines,Coroutine.step,Coroutine.threadStep,Coroutine.World.goto,
        Coroutine.World.setCurrent,hrunning]
    refine ⟨_,hload.step (a := .step t) trivial hstore,?_⟩
    refine ⟨h.matches_update _ rfl,h.running,?_,h.coroCtx,h.callerCtx,h.isCompleted,?_⟩
    · simp only [Coroutine.World.setCurrent,World.goto,h.current]
    · simp only [World.goto,h.active]
  | switchResume f =>
    obtain ⟨call,caller,hw⟩ := hmatch.exists_call.2.1 hpc
    have hctx : s.coroCtx f = some (.coro f) := (h.placed hn).resume t f hpc
    have hctx' : w.coroCtx f = some (.coro f) := by rw [h.coroCtx,hctx]
    simp only [threadStep,hpc,hctx,Option.some.injEq] at hs
    subst hs
    refine ⟨_,hreach ({ w with
      callerCtx := Function.update w.callerCtx f (some (w.running t))
      activation := Function.update w.activation f (some call) }.switch t
        (.resumeRestore f call caller)
        (.coro f)) ?_,?_⟩
    · simp only [Coroutine.threadStep,hrunning,hw,hctx']
    · refine ⟨?_,?_,h.current,h.coroCtx,?_,h.isCompleted,h.active⟩
      · simp only [World.switch,World.goto,Coroutine.World.switch,Coroutine.World.goto,hrunning]
        exact h.matches_update _ rfl
      · simp only [World.switch,World.goto,Coroutine.World.switch,Coroutine.World.goto,h.running]
      · simp only [World.switch,World.goto,Coroutine.World.switch,Coroutine.World.goto,
          hrunning,h.callerCtx]
  | switchClear f =>
    simp only [threadStep,hpc,Option.some.injEq] at hs
    subst hs
    obtain ⟨call,caller,hw⟩ := hmatch.exists_call.2.2 hpc
    have hcaller : caller = none := by
      have hthread : Coroutine.stackOf t (nest t) = .thread t := by
        rw [← hn.running t,hrunning]
        exact hout f hpc
      have hempty : nest t = [] := by
        cases hnest : nest t with
        | nil => rfl
        | cons g rest =>
          rw [hnest] at hthread
          cases hthread
      have hremembers := hn.remembers t
      rw [hrunning,hw,hempty] at hremembers
      exact hremembers.2.2
    refine ⟨_,hreach ({ w.setCurrent t caller with
      active := Function.update w.active t (w.active t).tail }.goto (s.running t) .user) ?_,?_⟩
    · simp only [Coroutine.threadStep,hrunning,hw]
    · refine ⟨h.matches_update _ trivial,h.running,?_,h.coroCtx,h.callerCtx,h.isCompleted,?_⟩
      · simp only [Coroutine.World.goto,Coroutine.World.setCurrent,World.goto,h.current,hcaller]
      · simp only [Coroutine.World.goto,World.goto,h.active]
  | suspend =>
    have hself := ((h.placed hn).self t).2 (by rw [hpc]; rfl)
    cases hx : s.running t with
    | thread u =>
      rw [hx] at hself
      simp [threadStep,hpc,hself,Stack.coroutine] at hs
    | coro f =>
      obtain ⟨y,hcaller,-⟩ := (h.placed hn).below t f hx
      rw [hx] at hself
      simp only [threadStep,hpc,hself,Stack.coroutine,hcaller,Option.some.injEq] at hs
      subst hs
      rw [hpc] at hmatch
      have hw : w.pc (s.running t) = .suspend := hmatch.eq rfl
      have hself' : w.currentCoro t = some f := by rw [h.current,hself]; rfl
      have hcaller' : w.callerCtx f = some y := by rw [h.callerCtx,hcaller]
      refine ⟨_,hreach ({ w with
        coroCtx := Function.update w.coroCtx f (some (w.running t)) }.switch t .user y) ?_,?_⟩
      · simp only [Coroutine.threadStep,hrunning,hw,hself',hcaller']
      · refine ⟨?_,?_,h.current,?_,h.callerCtx,h.isCompleted,h.active⟩
        all_goals simp only [World.switch,World.goto,Coroutine.World.switch,
          Coroutine.World.goto,hrunning]
        · exact h.matches_update _ trivial
        · rw [h.running]
        · rw [h.coroCtx]
  | complete =>
    cases hx : s.running t with
    | thread u =>
      rw [hx] at hpc
      simp [threadStep,hpc,hx] at hs
    | coro f =>
      rw [hpc] at hmatch
      have hw : w.pc (s.running t) = .complete := hmatch.eq rfl
      rw [hx] at hpc hw hrunning
      simp only [threadStep,hpc,hx,Option.some.injEq] at hs
      subst hs
      refine ⟨_,hreach ({ w with
        isCompleted := Function.update w.isCompleted f true }.goto (.coro f) .exit) ?_,?_⟩
      · simp only [Coroutine.threadStep,hrunning,hw]
      · refine ⟨h.matches_update _ trivial,h.running,h.current,h.coroCtx,h.callerCtx,?_,h.active⟩
        simp only [World.goto,Coroutine.World.goto,h.isCompleted]
  | exit =>
    cases hx : s.running t with
    | thread u =>
      rw [hx] at hpc
      simp [threadStep,hpc,hx] at hs
    | coro f =>
      obtain ⟨y,hcaller,-⟩ := (h.placed hn).below t f hx
      have hcaller' : w.callerCtx f = some y := by rw [h.callerCtx,hcaller]
      rw [hpc] at hmatch
      have hw : w.pc (s.running t) = .exit := hmatch.eq rfl
      rw [hx] at hpc hw hrunning
      simp only [threadStep,hpc,hx,hcaller,Option.some.injEq] at hs
      subst hs
      refine ⟨_,hreach ({ w with
        coroCtx := Function.update w.coroCtx f (some (.coro f)) }.switch t .exited y) ?_,?_⟩
      · simp only [Coroutine.threadStep,hrunning,hw,hcaller']
      · refine ⟨?_,?_,h.current,?_,h.callerCtx,h.isCompleted,h.active⟩
        all_goals simp only [World.switch,World.goto,Coroutine.World.switch,
          Coroutine.World.goto,hrunning,hx]
        · exact h.matches_update _ trivial
        · rw [h.running]
        · rw [h.coroCtx]

/-- An action is answered by steps of the coroutines. -/
theorem related_step {a : Action τ φ} (h : Related s w)
    (hn : Coroutine.Nested w nest) (hheld : Held s)
    (hr : (Coroutine.coroutines τ φ).ReachableUnder Coroutine.Contract w) (hout : Outermost s a)
    (hs : step s a = some s') :
    ∃ w', (Coroutine.coroutines τ φ).ReachableUnder Coroutine.Contract w' ∧ Related s' w' := by
  have huser : ∀ t, s.pc (s.running t) = .user → w.pc (w.running t) = .user := by
    intro t hpc
    have hmatch := h.pc (s.running t)
    rw [hpc] at hmatch
    rw [h.running]
    exact hmatch.eq rfl
  cases a with
  | step t => exact related_threadStep h hn hr hout hs
  | schedule f =>
    obtain ⟨-,⟨⟩⟩ := Option.ite_none_right_eq_some.mp hs
    exact ⟨w,hr,h.pc,h.running,h.current,h.coroCtx,h.callerCtx,h.isCompleted,h.active⟩
  | go t f =>
    obtain ⟨⟨hpc,hfresh⟩,⟨⟩⟩ := Option.ite_none_right_eq_some.mp hs
    have hfresh' : w.pc (.coro f) = .fresh := by
      have hmatch := h.pc (.coro f)
      rw [hfresh] at hmatch
      exact hmatch.eq rfl
    refine ⟨_,hr.step (a := .construct t f) trivial (if_pos ⟨huser t hpc,hfresh'⟩),?_⟩
    refine ⟨h.matches_update _ trivial,h.running,h.current,?_,h.callerCtx,h.isCompleted,h.active⟩
    simp only [World.hand,World.goto,Coroutine.World.goto,h.coroCtx]
  | run t f =>
    obtain ⟨⟨hpc,hqueued⟩,⟨⟩⟩ := Option.ite_none_right_eq_some.mp hs
    have hinactive := hheld.inactive h (h.placed hn) hqueued
    refine ⟨_,hr.step (a := .resume t f) hinactive (if_pos (huser t hpc)),?_⟩
    refine ⟨?_,h.running,h.current,h.coroCtx,h.callerCtx,h.isCompleted,h.active⟩
    simp only [World.hand,World.goto,Coroutine.World.goto,h.running]
    exact h.matches_update _ rfl
  | suspend t =>
    obtain ⟨hpc,⟨⟩⟩ := Option.ite_none_right_eq_some.mp hs
    refine ⟨_,hr.step (a := .suspend t) trivial (if_pos (huser t hpc)),?_⟩
    refine ⟨?_,h.running,h.current,h.coroCtx,h.callerCtx,h.isCompleted,h.active⟩
    simp only [World.goto,Coroutine.World.goto,h.running]
    exact h.matches_update _ trivial
  | leave t thrown =>
    simp only [step] at hs
    split at hs
    next f hx hpc =>
      cases hs
      have hw := huser t hpc
      have hx' : w.running t = .coro f := by rw [h.running,hx]
      rw [hx'] at hw
      refine ⟨w.goto (.coro f) .complete,hr.step (a := .leave t thrown) trivial ?_,?_⟩
      · simp only [Coroutine.coroutines,Coroutine.step,hx',hw]
      · exact ⟨h.matches_update _ trivial,h.running,h.current,h.coroCtx,h.callerCtx,h.isCompleted,
          h.active⟩
    next => cases hs

end Steps

omit [DecidableEq τ] [DecidableEq φ] in
theorem held_initial : Held (initial τ φ) where
  frames f _ := by cases f <;> rintro ⟨⟩
  unique f _ _ := by cases f <;> rintro ⟨⟩
  idle _ hf := by rcases hf with hf | hf <;> cases hf
  ready f _ hx := by cases f <;> rcases hx with hx | hx <;> cases hx
  back _ _ ht := by rcases ht with ht | ht <;> cases ht
  completed _ := iff_of_false (by rintro ⟨⟩) (by rintro (h | h) <;> cases h)
  absent _ _ := rfl

omit [DecidableEq τ] [DecidableEq φ] in
theorem related_initial : Related (initial τ φ) (Coroutine.initial τ φ) where
  pc f := by cases f <;> trivial
  running := rfl
  current := rfl
  coroCtx := rfl
  callerCtx := rfl
  isCompleted := rfl
  active := rfl

/-- The states of the runs in which Switch clears the pointer on the stack of its
thread only. -/
theorem related_reachable {s : World τ φ} (hr : (fibers τ φ).ReachableUnder Outermost s) :
    ∃ w nest, Coroutine.Nested w nest ∧ Related s w := by
  have hinv : Held s ∧ ∃ w, (Coroutine.coroutines τ φ).ReachableUnder Coroutine.Contract w ∧
      Related s w := by
    refine hr.invariant ?_ ?_
    · exact ⟨held_initial,_,.start,related_initial⟩
    · rintro s a s' - ⟨hheld,w,hw,h⟩ ha hs
      obtain ⟨nest,hn⟩ := Coroutine.nested_reachable hw
      exact ⟨held_step hheld (h.placed hn) hs,related_step h hn hheld hw ha hs⟩
  obtain ⟨-,w,hw,h⟩ := hinv
  obtain ⟨nest,hn⟩ := Coroutine.nested_reachable hw
  exact ⟨w,nest,hn,h⟩

/-- Switch that clears the pointer inside the body of another fiber makes it wrong. -/
theorem not_selfExecutes_of_clear {s s' : World τ φ} {t : τ} {f g : φ}
    (hpc : s.pc (s.running t) = .switchClear f) (hg : s.running t = .coro g)
    (hs : step s (.step t) = some s') : ¬SelfExecutes s' := by
  simp only [step,threadStep,hpc,Option.some.injEq] at hs
  subst hs
  intro hself
  have hnow := (hself t).2 (by simp [World.goto,Pc.between])
  simp [World.goto,hg,Stack.coroutine] at hnow

/-- A run in which the pointer is right all the time clears it on the stack of its
thread only. -/
theorem meets_of_selfExecutes {acts : List (Action τ φ)} {s s' : World τ φ}
    (hr : (fibers τ φ).ReachableUnder Outermost s) (hrun : (fibers τ φ).run s acts = some s')
    (hself : ∀ front back u, acts = front ++ back → (fibers τ φ).run s front = some u →
      SelfExecutes u) : (fibers τ φ).Meets Outermost s acts := by
  induction acts generalizing s with
  | nil => exact trivial
  | cons a rest ih =>
    cases hs : (fibers τ φ).step s a with
    | none => simp [System.run,hs] at hrun
    | some u =>
      rw [System.run,hs] at hrun
      have hallowed : Outermost s a := by
        cases a with
        | step t =>
          intro f hpc
          obtain ⟨w,nest,hn,h⟩ := related_reachable hr
          have hplace : s.running t = Coroutine.stackOf t (nest t) := by
            rw [← hn.running t,h.running]
          cases hnest : nest t with
          | nil => rw [hplace,hnest]; rfl
          | cons g below =>
            have hg : s.running t = .coro g := by rw [hplace,hnest]; rfl
            refine absurd (hself [.step t] rest u rfl ?_) (not_selfExecutes_of_clear hpc hg hs)
            simp [System.run,hs]
        | _ => exact trivial
      rw [System.Meets,hs]
      refine ⟨hallowed,ih (hr.step hallowed hs) hrun ?_⟩
      intro front back v hsplit hv
      refine hself (a :: front) back v (by rw [hsplit]; rfl) ?_
      rw [System.run,hs]
      exact hv

/-- Self is the fiber that is executing in all states of a run if and only if no Switch
of the run clears the pointer inside the body of another fiber. -/
theorem self_executes_iff {acts : List (Action τ φ)} {s' : World τ φ}
    (hrun : (fibers τ φ).run (fibers τ φ).start acts = some s') :
    (∀ front back u, acts = front ++ back → (fibers τ φ).run (fibers τ φ).start front = some u →
      SelfExecutes u) ↔ (fibers τ φ).Meets Outermost (fibers τ φ).start acts := by
  refine ⟨meets_of_selfExecutes .start hrun,?_⟩
  rintro hmeets front back u rfl hu
  obtain ⟨w,nest,hn,h⟩ := related_reachable (System.ReachableUnder.run .start hmeets.front hu)
  exact (h.placed hn).self

instance decidableOutermost [Fintype φ] (s : World τ φ) : ∀ a, Decidable (Outermost s a)
  | .step t => inferInstanceAs
    (Decidable (∀ f, s.pc (s.running t) = .switchClear f → s.running t = .thread t))
  | .go .. | .run .. | .suspend _ | .leave .. | .schedule _ => isTrue trivial

/-- A thread runs a fiber, from Run into its body. -/
def enters {τ φ : Type*} (t : τ) (f : φ) : List (Action τ φ) :=
  .run t f :: List.replicate 3 (.step t)

/-- Fiber 0 suspends itself on thread 0 and is resumed on thread 1, where its body runs
fiber 1, which does not come back. -/
def resumes : List (Action (Fin 2) (Fin 2)) :=
  [[.go 0 0],enters 0 0,
    [.suspend 0,.step 0,.step 0,.step 0,.schedule 0,.run 1 0,.step 1,.step 1,.go 1 1],
    enters 1 1].flatten

theorem resumes_ends : (fibers (Fin 2) (Fin 2)).Ends (initial (Fin 2) (Fin 2)) resumes
    fun s => s.currentFiber 1 = some 1 ∧ s.active 1 = [1,0] := by
  decide +kernel

theorem resumes_meets :
    (fibers (Fin 2) (Fin 2)).Meets Outermost (initial (Fin 2) (Fin 2)) resumes := by
  decide +kernel

theorem self_executes_resumes :
    ∃ s, (fibers (Fin 2) (Fin 2)).run (initial (Fin 2) (Fin 2)) resumes = some s ∧
      s.active 1 = [1,0] ∧ SelfExecutes s := by
  obtain ⟨s,hrun,-,hactive⟩ := resumes_ends.exists_run
  refine ⟨s,hrun,hactive,(self_executes_iff hrun).mpr resumes_meets resumes [] s ?_ hrun⟩
  simp

/-- The body of fiber 0 drives an executor that runs fiber 1 to its end. -/
def nests : List (Action (Fin 1) (Fin 2)) :=
  [[.go 0 0],enters 0 0,[.go 0 1],enters 0 1,[.leave 0 false],List.replicate 4 (.step 0)].flatten

theorem nests_ends : (fibers (Fin 1) (Fin 2)).Ends (initial (Fin 1) (Fin 2)) nests
    fun s => s.running 0 = .coro 0 ∧ s.pc (.coro 0) = .user ∧ s.currentFiber 0 = none := by
  decide +kernel

/-- Back in the body of fiber 0, Self is null, and a Yield there fails its assertion. -/
theorem nested_run_clears_self :
    ∃ s, (fibers (Fin 1) (Fin 2)).Reachable s ∧ s.running 0 = .coro 0 ∧ s.pc (.coro 0) = .user ∧
      s.currentFiber 0 = none ∧ ¬SelfExecutes s ∧
      ∃ s', (fibers (Fin 1) (Fin 2)).step s (.suspend 0) = some s' ∧
        (fibers (Fin 1) (Fin 2)).step s' (.step 0) = none := by
  obtain ⟨s,hr,hrunning,hpc,hnone⟩ := nests_ends.reachable
  have huser : s.pc (s.running 0) = .user := by rw [hrunning,hpc]
  refine ⟨s,hr,hrunning,hpc,hnone,?_,s.goto (s.running 0) .suspend,if_pos huser,?_⟩
  · intro hself
    have hnow := (hself 0).2 (by rw [huser]; rfl)
    rw [hnone,hrunning] at hnow
    cases hnow
  · simp [fibers,step,threadStep,World.goto,hnone]

end ConcurrencyRuntime.FiberSelf
