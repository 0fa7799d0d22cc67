import ConcurrencyRuntime.TransitionSystem

/-!
# Coroutines and the thread-local current_coro

Every thread and every coroutine has a stack of its own. A context holds the
stack whose code was suspended into it, and a switch suspends the running
stack into one context and continues the stack of another. One step is one
access to current_coro, one switch, or the end of a routine; the code of the
routines decides when to construct, resume and suspend, and when to return or
throw.
-/

namespace ConcurrencyRuntime.Coroutine

open TransitionSystem

/-- The stacks. -/
inductive Stack (τ κ : Type*) where
  /-- The stack of a thread. -/
  | thread (t : τ)
  /-- The buffer of a coroutine. -/
  | coro (c : κ)
  deriving DecidableEq

/-- History: which call of Resume this is. -/
structure Call (τ κ : Type*) where
  /-- The calls are numbered. -/
  ticket : ℕ
  /-- The thread that made the call. -/
  thread : τ
  /-- What current_coro was when the call was made. -/
  before : Option κ
  deriving DecidableEq

/-- Where the code on a stack stands, or continues once it is switched to. -/
inductive Pc (τ κ : Type*) where
  /-- The coroutine is not constructed. -/
  | fresh
  /-- Run of the coroutine is entered. -/
  | start
  /-- The code of a thread or of a routine. -/
  | user
  /-- Resume: the load of current_coro into caller_coro. -/
  | resumeLoad (c : κ) (call : Call τ κ)
  /-- Resume: the store of this into current_coro. -/
  | resumeStore (c : κ) (call : Call τ κ) (callerCoro : Option κ)
  /-- Resume: caller_ctx_.SwitchTo(coro_ctx_). -/
  | resumeSwitch (c : κ) (call : Call τ κ) (callerCoro : Option κ)
  /-- Resume: the store of caller_coro into current_coro. -/
  | resumeRestore (c : κ) (call : Call τ κ) (callerCoro : Option κ)
  /-- Suspend: the assertion and coro_ctx_.SwitchTo(caller_ctx_). -/
  | suspend
  /-- Run, after the routine has returned or thrown: the store to is_completed_. -/
  | complete
  /-- Run: coro_ctx_.ExitTo(caller_ctx_). -/
  | exit
  /-- ExitTo, behind the switch: std::abort. -/
  | exited
  deriving DecidableEq

/-- Threads, coroutines and what is suspended where. -/
structure World (τ κ : Type*) where
  /-- Where the code on each stack stands. -/
  pc : Stack τ κ → Pc τ κ
  /-- The stack on which each thread runs. -/
  running : τ → Stack τ κ
  /-- The thread-local pointer. -/
  currentCoro : τ → Option κ
  /-- The stack suspended in coro_ctx_ of each coroutine. -/
  coroCtx : κ → Option (Stack τ κ)
  /-- The stack suspended in caller_ctx_ of each coroutine. -/
  callerCtx : κ → Option (Stack τ κ)
  /-- The flag is_completed_ of each coroutine. -/
  isCompleted : κ → Bool
  /-- History: the number of calls of Resume. -/
  tickets : ℕ
  /-- History: the call of Resume that last switched to each coroutine. -/
  activation : κ → Option (Call τ κ)
  /-- History: the coroutines that each thread has made active by a Resume
  that has not made the caller current again, innermost first. -/
  active : τ → List κ

/-- What the threads do. -/
inductive Action (τ κ : Type*) where
  /-- The code on a thread constructs a coroutine. -/
  | construct (t : τ) (c : κ)
  /-- The code on a thread calls Resume. -/
  | resume (t : τ) (c : κ)
  /-- The code on a thread calls Suspend. -/
  | suspend (t : τ)
  /-- The routine on a thread returns, or throws. -/
  | leave (t : τ) (thrown : Bool)
  /-- A thread takes its next step in Resume, Suspend or Run. -/
  | step (t : τ)

variable {τ κ : Type*} [DecidableEq τ] [DecidableEq κ]

/-- Move the code on a stack. -/
def World.goto (s : World τ κ) (x : Stack τ κ) (pc : Pc τ κ) : World τ κ :=
  { s with pc := Function.update s.pc x pc }

/-- A thread writes its current_coro. -/
def World.setCurrent {τ κ : Type*} [DecidableEq τ] (s : World τ κ) (t : τ) (c : Option κ) :
    World τ κ :=
  { s with currentCoro := Function.update s.currentCoro t c }

/-- A thread suspends its stack, which is to continue at a program point, and
continues the stack of another context. -/
def World.switch (s : World τ κ) (t : τ) (pc : Pc τ κ) (target : Stack τ κ) : World τ κ :=
  { s.goto (s.running t) pc with running := Function.update s.running t target }

/-- The next step of a thread. A failed assertion ends the program. -/
def threadStep (s : World τ κ) (t : τ) : Option (World τ κ) :=
  match s.pc (s.running t) with
  | .fresh | .user | .exited => none
  | .start => some (s.goto (s.running t) .user)
  | .resumeLoad c call => some (s.goto (s.running t) (.resumeStore c call (s.currentCoro t)))
  | .resumeStore c call callerCoro =>
    some ({ s.setCurrent t (some c) with
      active := Function.update s.active t (c :: s.active t) }.goto (s.running t)
        (.resumeSwitch c call callerCoro))
  | .resumeSwitch c call callerCoro =>
    match s.coroCtx c with
    | some target =>
      some ({ s with
        callerCtx := Function.update s.callerCtx c (some (s.running t))
        activation := Function.update s.activation c (some call) }.switch t
          (.resumeRestore c call callerCoro) target)
    | none => none
  | .resumeRestore _ _ callerCoro =>
    some ({ s.setCurrent t callerCoro with
      active := Function.update s.active t (s.active t).tail }.goto (s.running t) .user)
  | .suspend =>
    match s.currentCoro t with
    | some c =>
      match s.callerCtx c with
      | some target =>
        some ({ s with coroCtx := Function.update s.coroCtx c (some (s.running t)) }.switch t .user
          target)
      | none => none
    | none => none
  | .complete =>
    match s.running t with
    | .coro c =>
      some ({ s with isCompleted := Function.update s.isCompleted c true }.goto (s.running t) .exit)
    | .thread _ => none
  | .exit =>
    match s.running t with
    | .coro c =>
      match s.callerCtx c with
      | some target =>
        some ({ s with coroCtx := Function.update s.coroCtx c (some (s.running t)) }.switch t .exited
          target)
      | none => none
    | .thread _ => none

/-- One action. -/
def step (s : World τ κ) : Action τ κ → Option (World τ κ)
  | .construct t c =>
    if s.pc (s.running t) = .user ∧ s.pc (.coro c) = .fresh then
      some ({ s with coroCtx := Function.update s.coroCtx c (some (.coro c)) }.goto (.coro c) .start)
    else none
  | .resume t c =>
    if s.pc (s.running t) = .user then
      some ({ s with tickets := s.tickets + 1 }.goto (s.running t)
        (.resumeLoad c ⟨s.tickets,t,s.currentCoro t⟩))
    else none
  | .suspend t =>
    if s.pc (s.running t) = .user then some (s.goto (s.running t) .suspend) else none
  | .leave t _ =>
    match s.running t,s.pc (s.running t) with
    | .coro c,.user => some (s.goto (.coro c) .complete)
    | _,_ => none
  | .step t => threadStep s t

/-- Every thread runs its own code and no coroutine is constructed. -/
def initial (τ κ : Type*) : World τ κ where
  pc
    | .thread _ => .user
    | .coro _ => .fresh
  running := .thread
  currentCoro _ := none
  coroCtx _ := none
  callerCtx _ := none
  isCompleted _ := false
  tickets := 0
  activation _ := none
  active _ := []

/-- The coroutines as a transition system. -/
def coroutines (τ κ : Type*) [DecidableEq τ] [DecidableEq κ] : System (World τ κ) (Action τ κ) :=
  ⟨initial τ κ,step⟩

/-- The coroutine that a call of Resume is about to switch to. -/
@[grind =]
def Pc.activating {τ κ : Type*} : Pc τ κ → Option κ
  | .resumeLoad c _ | .resumeStore c _ _ | .resumeSwitch c _ _ => some c
  | _ => none

/-- A coroutine that is constructed, that runs on no thread and waits for no
other one, and that no call of Resume is about to switch to. -/
def Inactive {τ κ : Type*} (s : World τ κ) (c : κ) : Prop :=
  (s.pc (.coro c) = .start ∨ s.pc (.coro c) = .user) ∧ (∀ t, s.running t ≠ .coro c) ∧
    ∀ x, (s.pc x).activating ≠ some c

/-- A coroutine is resumed only while it is neither active nor completed. -/
def Contract {τ κ : Type*} (s : World τ κ) : Action τ κ → Prop
  | .resume _ c => Inactive s c ∧ s.isCompleted c = false
  | _ => True

/-- The stack on which a thread runs inside these coroutines, innermost first. -/
def stackOf {τ κ : Type*} (t : τ) : List κ → Stack τ κ
  | [] => .thread t
  | c :: _ => .coro c

/-- The coroutine that a call of Resume has made current and not switched to,
or has come back from. -/
@[grind =]
def Pc.between {τ κ : Type*} : Pc τ κ → List κ
  | .resumeSwitch c _ _ | .resumeRestore c _ _ => [c]
  | _ => []

/-- A call of Resume remembers its thread and the coroutine that made it. -/
@[grind =]
def Pc.Remembers {τ κ : Type*} (t : τ) (h : Option κ) : Pc τ κ → Prop
  | .resumeLoad _ call => call.thread = t ∧ call.before = h
  | .resumeStore _ call callerCoro | .resumeSwitch _ call callerCoro
  | .resumeRestore _ call callerCoro => call.thread = t ∧ call.before = h ∧ callerCoro = h
  | _ => True

/-- The program points outside of Resume of a coroutine that is constructed. -/
@[grind =]
def Pc.outside {τ κ : Type*} : Pc τ κ → Bool
  | .fresh | .resumeLoad .. | .resumeStore .. | .resumeSwitch .. | .resumeRestore .. => false
  | _ => true

/-- Each thread runs inside nested coroutines, each of which was switched to
by a call of Resume in the next one that waits for it; the other coroutines
are suspended or over. -/
structure Nested {τ κ : Type*} (s : World τ κ) (nest : τ → List κ) : Prop where
  running : ∀ t, s.running t = stackOf t (nest t)
  active : ∀ t, s.active t = (s.pc (s.running t)).between ++ nest t
  current : ∀ t, s.currentCoro t = (s.active t).head?
  nodup : ∀ t, (nest t).Nodup
  apart : ∀ t u c, c ∈ nest t → c ∈ nest u → t = u
  links : ∀ t c rest, c :: rest <:+ nest t → s.callerCtx c = some (stackOf t rest) ∧
    ∃ call, s.pc (stackOf t rest) = .resumeRestore c call rest.head? ∧
      s.activation c = some call ∧ call.thread = t ∧ call.before = rest.head?
  remembers : ∀ t, (s.pc (s.running t)).Remembers t (nest t).head?
  ready : ∀ c, (s.pc (.coro c) = .start ∨ s.pc (.coro c) = .user) → (∀ t, c ∉ nest t) →
    s.coroCtx c = some (.coro c)
  activating : ∀ t c, (s.pc (s.running t)).activating = some c → (∀ u, c ∉ nest u) ∧
    (s.pc (.coro c) = .start ∨ s.pc (.coro c) = .user) ∧
      ∀ u, (s.pc (s.running u)).activating = some c → u = t
  fresh : ∀ t c, c ∈ nest t → s.pc (.coro c) ≠ .fresh

section Steps

variable {s s' : World τ κ} {nest : τ → List κ} {t u : τ} {c : κ} {rest : List κ}

omit [DecidableEq τ] [DecidableEq κ] in
/-- A waiting stack is not the running stack of any thread. -/
theorem Nested.waiting_ne (h : Nested s nest) (hrest : c :: rest <:+ nest t) :
    stackOf t rest ≠ s.running u := by
  rw [h.running u]
  cases rest with
  | nil =>
    cases hu : nest u with
    | nil =>
      rintro ⟨⟩
      rw [hu] at hrest
      cases List.suffix_nil.mp hrest
    | cons d l => rintro ⟨⟩
  | cons d l =>
    cases hu : nest u with
    | nil => rintro ⟨⟩
    | cons e l' =>
      rintro ⟨⟩
      have hmem : d ∈ nest t := hrest.subset (by simp)
      obtain rfl := h.apart t u d hmem (by simp [hu])
      have hnodup := h.nodup t
      obtain ⟨front,hfront⟩ := hrest
      -- d is the head of the nest and occurs behind c as well
      rw [hu] at hfront hnodup
      cases front with
      | nil =>
        cases hfront
        simp at hnodup
      | cons e front =>
        cases hfront
        simp at hnodup

omit [DecidableEq τ] [DecidableEq κ] in
/-- A coroutine inside which a thread runs is running or waits in Resume. -/
theorem Nested.not_mem_of_inactive (h : Nested s nest) (hc : Inactive s c)
    (u : τ) : c ∉ nest u := by
  intro hmem
  obtain ⟨front,back,hsplit⟩ := List.append_of_mem hmem
  cases front using List.reverseRecOn with
  | nil =>
    refine hc.2.1 u ?_
    rw [h.running u,hsplit]
    rfl
  | append_singleton front d _ =>
    obtain ⟨-,call,hpc,-⟩ := h.links u d (c :: back) ⟨front,by rw [hsplit]; simp⟩
    have hcoro : s.pc (.coro c) = .resumeRestore d call (some c) := hpc
    rcases hc.1 with hpc' | hpc' <;> rw [hcoro] at hpc' <;> cases hpc'

omit [DecidableEq τ] [DecidableEq κ] in
/-- Two threads run on two stacks. -/
theorem Nested.running_ne (h : Nested s nest) (hne : u ≠ t) : s.running u ≠ s.running t := by
  rw [h.running u,h.running t]
  cases hu : nest u with
  | nil =>
    cases ht : nest t with
    | nil =>
      rintro ⟨⟩
      exact hne rfl
    | cons d l => rintro ⟨⟩
  | cons c l =>
    cases ht : nest t with
    | nil => rintro ⟨⟩
    | cons d l' =>
      rintro ⟨⟩
      exact hne (h.apart u t c (by simp [hu]) (by simp [ht]))

omit [DecidableEq τ] [DecidableEq κ] in
/-- A thread runs on the stack of a coroutine inside which it is. -/
theorem Nested.running_coro (h : Nested s nest) (hc : s.running t = .coro c) :
    ∃ rest, nest t = c :: rest := by
  rw [h.running t] at hc
  cases ht : nest t with
  | nil =>
    rw [ht] at hc
    cases hc
  | cons d rest =>
    rw [ht] at hc
    cases hc
    exact ⟨rest,rfl⟩

/-- A thread moves on its stack. -/
theorem Nested.move {q : Pc τ κ} (h : Nested s nest)
    (hpc : s'.pc = Function.update s.pc (s.running t) q) (hrun : s'.running = s.running)
    (hactive : s'.active = Function.update s.active t (q.between ++ nest t))
    (hcurrent : s'.currentCoro = Function.update s.currentCoro t (q.between ++ nest t).head?)
    (hframe : (s'.callerCtx,s'.coroCtx,s'.activation) = (s.callerCtx,s.coroCtx,s.activation))
    (hremembers : q.Remembers t (nest t).head?)
    (hactivating : ∀ c, q.activating = some c → (∀ u, c ∉ nest u) ∧
      (s.pc (.coro c) = .start ∨ s.pc (.coro c) = .user) ∧
        ∀ u, (s.pc (s.running u)).activating = some c → u = t)
    (hfresh : q ≠ .fresh) : Nested s' nest := by
  simp only [Prod.mk.injEq] at hframe
  obtain ⟨hcaller,hctx,hactivation⟩ := hframe
  have hself : s'.pc (s.running t) = q := by rw [hpc,Function.update_self]
  have hother : ∀ x, x ≠ s.running t → s'.pc x = s.pc x := by
    intro x hx
    rw [hpc,Function.update_of_ne hx]
  have hthread : ∀ u, u ≠ t → s'.pc (s.running u) = s.pc (s.running u) :=
    fun u hu => hother _ (h.running_ne hu)
  have hcoro : ∀ c, c ∉ nest t → s'.pc (.coro c) = s.pc (.coro c) := by
    intro c hc
    refine hother _ ?_
    intro he
    obtain ⟨rest,hrest⟩ := h.running_coro he.symm
    exact hc (by simp [hrest])
  refine { h with running := ?_, active := ?_, current := ?_, links := ?_, remembers := ?_,
                  ready := ?_, activating := ?_, fresh := ?_ }
  · rw [hrun]
    exact h.running
  · intro u
    rw [hrun,hactive]
    by_cases hu : u = t
    · subst hu
      rw [hself,Function.update_self]
    · rw [hthread u hu,Function.update_of_ne hu]
      exact h.active u
  · intro u
    rw [hactive,hcurrent]
    by_cases hu : u = t
    · subst hu
      simp only [Function.update_self]
    · simp only [Function.update_of_ne hu]
      exact h.current u
  · intro u c rest hrest
    rw [hcaller,hactivation,hother _ (h.waiting_ne hrest)]
    exact h.links u c rest hrest
  · intro u
    rw [hrun]
    by_cases hu : u = t
    · subst hu
      rwa [hself]
    · rw [hthread u hu]
      exact h.remembers u
  · intro c hc hnot
    rw [hcoro c (hnot t)] at hc
    rw [hctx]
    exact h.ready c hc hnot
  · intro u c hc
    rw [hrun] at hc ⊢
    -- the call under way at u, and no other call for the same coroutine
    have hfacts : (∀ v, c ∉ nest v) ∧ (s.pc (.coro c) = .start ∨ s.pc (.coro c) = .user) := by
      by_cases hu : u = t
      · subst hu
        rw [hself] at hc
        exact ⟨(hactivating c hc).1,(hactivating c hc).2.1⟩
      · rw [hthread u hu] at hc
        exact ⟨(h.activating u c hc).1,(h.activating u c hc).2.1⟩
    refine ⟨hfacts.1,by rw [hcoro c (hfacts.1 t)]; exact hfacts.2,?_⟩
    intro v hv
    by_cases hu : u = t
    · subst hu
      rw [hself] at hc
      by_cases hvu : v = u
      · exact hvu
      · rw [hthread v hvu] at hv
        exact (hactivating c hc).2.2 v hv
    · rw [hthread u hu] at hc
      by_cases hvt : v = t
      · subst hvt
        rw [hself] at hv
        exact ((hactivating c hv).2.2 u hc).symm
      · rw [hthread v hvt] at hv
        exact (h.activating u c hc).2.2 v hv
  · intro u c hc
    by_cases he : Stack.coro c = s.running t
    · rw [he,hself]
      exact hfresh
    · rw [hother _ he]
      exact h.fresh u c hc

/-- A thread moves on its stack and current_coro stays. -/
theorem Nested.keep {q : Pc τ κ} (h : Nested s nest)
    (hpc : s'.pc = Function.update s.pc (s.running t) q) (hrun : s'.running = s.running)
    (hactive : s'.active = s.active) (hcurrent : s'.currentCoro = s.currentCoro)
    (hframe : (s'.callerCtx,s'.coroCtx,s'.activation) = (s.callerCtx,s.coroCtx,s.activation))
    (hq : q.between = (s.pc (s.running t)).between) (hremembers : q.Remembers t (nest t).head?)
    (hactivating : ∀ c, q.activating = some c → (∀ u, c ∉ nest u) ∧
      (s.pc (.coro c) = .start ∨ s.pc (.coro c) = .user) ∧
        ∀ u, (s.pc (s.running u)).activating = some c → u = t)
    (hfresh : q ≠ .fresh) : Nested s' nest := by
  refine h.move hpc hrun ?_ ?_ hframe hremembers hactivating hfresh
  · rw [hactive,hq,←h.active t]
    exact (Function.update_eq_self ..).symm
  · rw [hcurrent,hq,←h.active t,←h.current t]
    exact (Function.update_eq_self ..).symm

/-- A thread moves on its stack outside of Resume. -/
theorem Nested.goto {r q : Pc τ κ} (h : Nested s nest) (hr : s.pc (s.running t) = r)
    (hpc : s'.pc = Function.update s.pc (s.running t) q) (hrun : s'.running = s.running)
    (hactive : s'.active = s.active) (hcurrent : s'.currentCoro = s.currentCoro)
    (hframe : (s'.callerCtx,s'.coroCtx,s'.activation) = (s.callerCtx,s.coroCtx,s.activation))
    (hout : r.outside = true) (hq : q.outside = true) : Nested s' nest := by
  have hbetween : ∀ q : Pc τ κ, q.outside = true → q.between = [] := by
    intro q hq
    cases q <;> first | rfl | cases hq
  refine h.keep hpc hrun hactive hcurrent hframe ?_ ?_ ?_ ?_
  · rw [hr,hbetween q hq,hbetween r hout]
  · cases q <;> trivial
  · intro c hc
    cases q with
    | start | user | suspend | complete | exit | exited => cases hc
    | fresh | resumeLoad | resumeStore | resumeSwitch | resumeRestore => cases hq
  · rintro rfl
    cases hq

/-- Resume switches to a coroutine. -/
theorem Nested.enter {call : Call τ κ} {callerCoro : Option κ} (h : Nested s nest)
    (hpc : s.pc (s.running t) = .resumeSwitch c call callerCoro) :
    Nested ({ s with
      callerCtx := Function.update s.callerCtx c (some (s.running t))
      activation := Function.update s.activation c (some call) }.switch t
        (.resumeRestore c call callerCoro) (.coro c)) (Function.update nest t (c :: nest t)) := by
  obtain ⟨hnot,hready,hunique⟩ := h.activating t c (by rw [hpc]; rfl)
  have hremembers := h.remembers t
  rw [hpc] at hremembers
  obtain ⟨hthread,hbefore,rfl⟩ := hremembers
  have hself : Stack.coro c ≠ s.running t := by
    intro he
    obtain ⟨rest,hrest⟩ := h.running_coro he.symm
    exact hnot t (by simp [hrest])
  have hcoro : ∀ d, d ∉ nest t → Stack.coro d ≠ s.running t := by
    intro d hd he
    obtain ⟨rest,hrest⟩ := h.running_coro he.symm
    exact hd (by simp [hrest])
  constructor
  all_goals try simp only [World.switch,World.goto]
  · intro u
    by_cases hu : u = t
    · subst hu
      simp only [Function.update_self,stackOf]
    · simp only [Function.update_of_ne hu]
      exact h.running u
  · intro u
    by_cases hu : u = t
    · subst hu
      simp only [Function.update_self,Function.update_of_ne hself]
      have hold := h.active u
      rw [hpc] at hold
      rw [hold]
      rcases hready with hr | hr <;> rw [hr] <;> rfl
    · simp only [Function.update_of_ne hu,Function.update_of_ne (h.running_ne hu)]
      exact h.active u
  · exact h.current
  · intro u
    by_cases hu : u = t
    · subst hu
      rw [Function.update_self]
      exact List.nodup_cons.mpr ⟨hnot u,h.nodup u⟩
    · rw [Function.update_of_ne hu]
      exact h.nodup u
  · intro u v d hd hd'
    have hapart := h.apart u v d
    simp only [Function.update_apply] at hd hd'
    grind
  · intro u d rest hrest
    have hold : ∀ d' rest', d' :: rest' <:+ nest u → d' ≠ c := by
      rintro d' rest' hsuffix rfl
      exact hnot u (hsuffix.subset List.mem_cons_self)
    have hkeep : d :: rest <:+ nest u →
        Function.update s.callerCtx c (some (s.running t)) d = some (stackOf u rest) ∧ ∃ call',
          Function.update s.pc (s.running t) (.resumeRestore c call (nest t).head?)
            (stackOf u rest) = .resumeRestore d call' rest.head? ∧
          Function.update s.activation c (some call) d = some call' ∧ call'.thread = u ∧
            call'.before = rest.head? := by
      intro hsuffix
      rw [Function.update_of_ne (hold d rest hsuffix),Function.update_of_ne (hold d rest hsuffix),
        Function.update_of_ne (h.waiting_ne hsuffix)]
      exact h.links u d rest hsuffix
    by_cases hu : u = t
    · subst hu
      rw [Function.update_self,List.suffix_cons_iff] at hrest
      rcases hrest with hrest | hrest
      · cases hrest
        rw [Function.update_self,Function.update_self,←h.running u,Function.update_self]
        exact ⟨rfl,call,rfl,rfl,hthread,hbefore⟩
      · exact hkeep hrest
    · rw [Function.update_of_ne hu] at hrest
      exact hkeep hrest
  · intro u
    by_cases hu : u = t
    · subst hu
      simp only [Function.update_self,Function.update_of_ne hself]
      rcases hready with hr | hr <;> rw [hr] <;> trivial
    · simp only [Function.update_of_ne hu,Function.update_of_ne (h.running_ne hu)]
      exact h.remembers u
  · intro d hd hout
    have hnest : ∀ u, d ∉ nest u := by
      intro u hu
      refine hout u ?_
      by_cases hut : u = t
      · subst hut
        simp [hu]
      · simpa [hut] using hu
    rw [Function.update_of_ne (hcoro d (hnest t))] at hd
    exact h.ready d hd hnest
  · intro u d hd
    by_cases hu : u = t
    · subst hu
      simp only [Function.update_self,Function.update_of_ne hself] at hd
      rcases hready with hr | hr <;> rw [hr] at hd <;> cases hd
    · simp only [Function.update_of_ne hu,Function.update_of_ne (h.running_ne hu)] at hd
      obtain ⟨hout,hstate,hone⟩ := h.activating u d hd
      have hdc : d ≠ c := by
        rintro rfl
        exact hu (hunique u hd)
      refine ⟨?_,by rwa [Function.update_of_ne (hcoro d (hout t))],?_⟩
      · intro v
        by_cases hv : v = t
        · subst hv
          simp [hdc,hout v]
        · simpa [hv] using hout v
      · intro v hv
        by_cases hvt : v = t
        · subst hvt
          simp only [Function.update_self,Function.update_of_ne hself] at hv
          rcases hready with hr | hr <;> rw [hr] at hv <;> cases hv
        · simp only [Function.update_of_ne hvt,Function.update_of_ne (h.running_ne hvt)] at hv
          exact hone v hv
  · intro u d hd
    by_cases he : Stack.coro d = s.running t
    · rw [he,Function.update_self]
      rintro ⟨⟩
    · rw [Function.update_of_ne he]
      by_cases hdc : d = c
      · subst hdc
        rcases hready with hr | hr <;> rw [hr] <;> rintro ⟨⟩
      · refine h.fresh u d ?_
        by_cases hu : u = t
        · subst hu
          simpa [hdc] using hd
        · simpa [hu] using hd

/-- Control goes back from a coroutine to the call of Resume that waits for it. -/
theorem Nested.back {q : Pc τ κ} (h : Nested s nest) (hnest : nest t = c :: rest)
    (hactive : s.active t = c :: rest) :
    Nested ({ s with coroCtx := Function.update s.coroCtx c (some (s.running t)) }.switch t q
      (stackOf t rest)) (Function.update nest t rest) := by
  have hrun : s.running t = .coro c := by rw [h.running t,hnest]; rfl
  obtain ⟨-,call,hpc,-,hthread,hbefore⟩ := h.links t c rest (by rw [hnest])
  have hne : stackOf t rest ≠ s.running t := h.waiting_ne (c := c) (by rw [hnest])
  have hsub : ∀ u d, d ∈ Function.update nest t rest u → d ∈ nest u := by
    intro u d hd
    by_cases hu : u = t
    · subst hu
      rw [Function.update_self] at hd
      rw [hnest]
      exact List.mem_cons_of_mem _ hd
    · rwa [Function.update_of_ne hu] at hd
  have hcrest : c ∉ rest := by
    have hnodup := h.nodup t
    rw [hnest] at hnodup
    exact (List.nodup_cons.mp hnodup).1
  have hgone : ∀ u, c ∉ Function.update nest t rest u := by
    intro u hu
    by_cases hut : u = t
    · subst hut
      rw [Function.update_self] at hu
      exact hcrest hu
    · rw [Function.update_of_ne hut] at hu
      exact hut (h.apart u t c hu (by rw [hnest]; exact List.mem_cons_self))
  constructor
  all_goals try simp only [World.switch,World.goto]
  · intro u
    by_cases hu : u = t
    · subst hu
      simp only [Function.update_self]
    · simp only [Function.update_of_ne hu]
      exact h.running u
  · intro u
    by_cases hu : u = t
    · subst hu
      simp only [Function.update_self,Function.update_of_ne hne]
      rw [hpc,hactive]
      rfl
    · simp only [Function.update_of_ne hu,Function.update_of_ne (h.running_ne hu)]
      exact h.active u
  · exact h.current
  · intro u
    by_cases hu : u = t
    · subst hu
      have hnodup := h.nodup u
      rw [hnest] at hnodup
      rw [Function.update_self]
      exact (List.nodup_cons.mp hnodup).2
    · rw [Function.update_of_ne hu]
      exact h.nodup u
  · exact fun u v d hd hd' => h.apart u v d (hsub u d hd) (hsub v d hd')
  · intro u d l hl
    have hold : d :: l <:+ nest u := by
      by_cases hu : u = t
      · subst hu
        rw [Function.update_self] at hl
        rw [hnest]
        exact hl.trans (List.suffix_cons ..)
      · rwa [Function.update_of_ne hu] at hl
    rw [Function.update_of_ne (h.waiting_ne hold)]
    exact h.links u d l hold
  · intro u
    by_cases hu : u = t
    · subst hu
      simp only [Function.update_self,Function.update_of_ne hne]
      rw [hpc]
      exact ⟨hthread,hbefore,rfl⟩
    · simp only [Function.update_of_ne hu,Function.update_of_ne (h.running_ne hu)]
      exact h.remembers u
  · intro d hd hout
    by_cases hdc : d = c
    · subst hdc
      rw [Function.update_self,hrun]
    · rw [Function.update_of_ne hdc]
      rw [hrun,Function.update_of_ne (by simpa using hdc)] at hd
      refine h.ready d hd fun u hu => hout u ?_
      by_cases hut : u = t
      · subst hut
        rw [hnest] at hu
        rw [Function.update_self]
        exact (List.mem_cons.mp hu).resolve_left hdc
      · rwa [Function.update_of_ne hut]
  · intro u d hd
    by_cases hu : u = t
    · subst hu
      simp only [Function.update_self,Function.update_of_ne hne] at hd
      rw [hpc] at hd
      cases hd
    · simp only [Function.update_of_ne hu,Function.update_of_ne (h.running_ne hu)] at hd
      obtain ⟨hout,hstate,hone⟩ := h.activating u d hd
      have hdc : d ≠ c := by
        rintro rfl
        exact hout t (by rw [hnest]; exact List.mem_cons_self)
      refine ⟨fun v hv => hout v (hsub v d hv),?_,?_⟩
      · rwa [hrun,Function.update_of_ne (by simpa using hdc)]
      · intro v hv
        by_cases hvt : v = t
        · subst hvt
          simp only [Function.update_self,Function.update_of_ne hne] at hv
          rw [hpc] at hv
          cases hv
        · simp only [Function.update_of_ne hvt,Function.update_of_ne (h.running_ne hvt)] at hv
          exact hone v hv
  · intro u d hd
    have hdc : d ≠ c := by
      rintro rfl
      exact hgone u hd
    rw [hrun,Function.update_of_ne (by simpa using hdc)]
    exact h.fresh u d (hsub u d hd)

/-- A coroutine is constructed. -/
theorem Nested.construct (h : Nested s nest) (hc : s.pc (.coro c) = .fresh) :
    Nested ({ s with coroCtx := Function.update s.coroCtx c (some (.coro c)) }.goto (.coro c) .start)
      nest := by
  have hnot : ∀ u, c ∉ nest u := fun u hu => h.fresh u c hu hc
  have hrun : ∀ u, s.running u ≠ .coro c := by
    intro u he
    obtain ⟨rest,hrest⟩ := h.running_coro he
    exact hnot u (by simp [hrest])
  constructor
  all_goals try simp only [World.goto,Function.update_of_ne (hrun _)]
  · exact h.running
  · exact h.active
  · exact h.current
  · exact h.nodup
  · exact h.apart
  · intro u d rest hrest
    have hwait : stackOf u rest ≠ .coro c := by
      cases rest with
      | nil => rintro ⟨⟩
      | cons e l =>
        rintro ⟨⟩
        exact hnot u (hrest.subset (by simp))
    rw [Function.update_of_ne hwait]
    exact h.links u d rest hrest
  · exact h.remembers
  · intro d hd hout
    by_cases hdc : d = c
    · subst hdc
      rw [Function.update_self]
    · rw [Function.update_of_ne hdc]
      rw [Function.update_of_ne (by simpa using hdc)] at hd
      exact h.ready d hd hout
  · intro u d hd
    obtain ⟨hout,hstate,hone⟩ := h.activating u d hd
    have hdc : d ≠ c := by
      rintro rfl
      rw [hc] at hstate
      rcases hstate with hstate | hstate <;> cases hstate
    exact ⟨hout,by rwa [Function.update_of_ne (by simpa using hdc)],hone⟩
  · intro u d hd
    have hdc : d ≠ c := by
      rintro rfl
      exact hnot u hd
    rw [Function.update_of_ne (by simpa using hdc)]
    exact h.fresh u d hd

omit [DecidableEq τ] [DecidableEq κ] in
/-- A thread in the code of a coroutine, or in Suspend or Run of it, has the
coroutine as the innermost active one, and its Resume waits. -/
theorem Nested.caller (h : Nested s nest) (hbetween : (s.pc (s.running t)).between = [])
    (hcurrent : s.currentCoro t = some c) : ∃ rest, nest t = c :: rest ∧ s.running t = .coro c ∧
      s.active t = c :: rest ∧ s.callerCtx c = some (stackOf t rest) := by
  have hactive := h.active t
  rw [hbetween,List.nil_append] at hactive
  rw [h.current t,hactive] at hcurrent
  obtain ⟨rest,hrest⟩ := List.head?_eq_some_iff.mp hcurrent
  refine ⟨rest,hrest,?_,hactive.trans hrest,(h.links t c rest (by rw [hrest])).1⟩
  rw [h.running t,hrest]
  rfl

/-- The steps of a thread. -/
theorem nested_threadStep (h : Nested s nest) (hs : threadStep s t = some s') :
    ∃ nest', Nested s' nest' := by
  have hremembers := h.remembers t
  have hactive := h.active t
  have hcurrent := h.current t
  cases hpc : s.pc (s.running t) with
  | fresh | user | exited => simp [threadStep,hpc] at hs
  | start =>
    simp only [threadStep,hpc,Option.some.injEq] at hs
    subst hs
    exact ⟨nest,h.goto hpc rfl rfl rfl rfl rfl rfl rfl⟩
  | resumeLoad c call =>
    simp only [threadStep,hpc,Option.some.injEq] at hs
    subst hs
    rw [hpc] at hremembers hactive
    rw [hactive] at hcurrent
    refine ⟨nest,h.keep rfl rfl rfl rfl rfl (by rw [hpc]; rfl)
      ⟨hremembers.1,hremembers.2,hcurrent⟩ ?_ (by rintro ⟨⟩)⟩
    exact fun d hd => h.activating t d (by rw [hpc]; exact hd)
  | resumeStore c call callerCoro =>
    simp only [threadStep,hpc,Option.some.injEq] at hs
    subst hs
    rw [hpc] at hremembers hactive
    refine ⟨nest,h.move rfl rfl ?_ rfl rfl hremembers ?_ (by rintro ⟨⟩)⟩
    · rw [hactive]
      rfl
    · exact fun d hd => h.activating t d (by rw [hpc]; exact hd)
  | resumeSwitch c call callerCoro =>
    obtain ⟨hnot,hready,-⟩ := h.activating t c (by rw [hpc]; rfl)
    simp only [threadStep,hpc,h.ready c hready hnot,Option.some.injEq] at hs
    subst hs
    exact ⟨_,h.enter hpc⟩
  | resumeRestore c call callerCoro =>
    simp only [threadStep,hpc,Option.some.injEq] at hs
    subst hs
    rw [hpc] at hremembers hactive
    refine ⟨nest,h.move rfl rfl ?_ ?_ rfl trivial (by rintro _ ⟨⟩) (by rintro ⟨⟩)⟩
    · rw [hactive]
      rfl
    · rw [hremembers.2.2]
      rfl
  | suspend =>
    simp only [threadStep,hpc] at hs
    split at hs
    next c hc =>
      obtain ⟨rest,hnest,-,hlist,hcaller⟩ := h.caller (by rw [hpc]; rfl) hc
      simp only [hcaller,Option.some.injEq] at hs
      subst hs
      exact ⟨_,h.back hnest hlist⟩
    next => cases hs
  | complete =>
    simp only [threadStep,hpc] at hs
    split at hs <;> cases hs
    exact ⟨nest,h.goto hpc rfl rfl rfl rfl rfl rfl rfl⟩
  | exit =>
    simp only [threadStep,hpc] at hs
    split at hs
    next c hc =>
      obtain ⟨rest,hnest⟩ := h.running_coro hc
      rw [hpc] at hactive
      have hcaller := (h.links t c rest (by rw [hnest])).1
      simp only [hcaller,Option.some.injEq] at hs
      subst hs
      exact ⟨_,h.back hnest (hactive.trans hnest)⟩
    next => cases hs

/-- Every action keeps the nesting. -/
theorem nested_step {a : Action τ κ} (h : Nested s nest) (ha : Contract s a)
    (hs : step s a = some s') : ∃ nest', Nested s' nest' := by
  cases a with
  | construct t c =>
    simp only [step] at hs
    split at hs <;> cases hs
    next hpc => exact ⟨nest,h.construct hpc.2⟩
  | resume t c =>
    simp only [step] at hs
    split at hs <;> cases hs
    next hpc =>
    have hactive := h.active t
    rw [hpc] at hactive
    have hcurrent := h.current t
    rw [hactive] at hcurrent
    refine ⟨nest,h.keep rfl rfl rfl rfl rfl (by rw [hpc]; rfl) ⟨rfl,hcurrent⟩ ?_ (by rintro ⟨⟩)⟩
    rintro d ⟨⟩
    refine ⟨h.not_mem_of_inactive ha.1,ha.1.1,fun u hu => ?_⟩
    exact absurd hu (ha.1.2.2 (s.running u))
  | suspend t =>
    simp only [step] at hs
    split at hs <;> cases hs
    next hpc =>
    exact ⟨nest,h.goto hpc rfl rfl rfl rfl rfl rfl rfl⟩
  | leave t thrown =>
    simp only [step] at hs
    split at hs <;> cases hs
    next c hrun hpc =>
    rw [←hrun]
    exact ⟨nest,h.goto hpc rfl rfl rfl rfl rfl rfl rfl⟩
  | step t => exact nested_threadStep h hs

end Steps

omit [DecidableEq τ] [DecidableEq κ] in
/-- At first no thread is inside a coroutine. -/
theorem nested_initial : Nested (initial τ κ) fun _ => [] where
  running _ := rfl
  active _ := rfl
  current _ := rfl
  nodup _ := List.nodup_nil
  apart := by rintro _ _ _ ⟨⟩
  links t c rest hrest := by cases List.suffix_nil.mp hrest
  remembers _ := trivial
  ready c hc := by rcases hc with hc | hc <;> cases hc
  activating := by rintro _ _ ⟨⟩
  fresh := by rintro _ _ ⟨⟩

/-- The coroutine whose stack this is. -/
def Stack.coroutine {τ κ : Type*} : Stack τ κ → Option κ
  | .thread _ => none
  | .coro c => some c

/-- The thread-local pointer follows the nesting of Resume. -/
structure Follows (s : World τ κ) : Prop where
  /-- The pointer is the innermost active coroutine, which is the one that
  runs except while a Resume is between its two stores. -/
  current : ∀ t, s.currentCoro t = (s.active t).head? ∧
    ((s.pc (s.running t)).between = [] → s.currentCoro t = (s.running t).coroutine)
  /-- Suspend and the end of Run switch to the call of Resume that last
  switched to the coroutine, on the thread that made it. -/
  back : ∀ t c, s.running t = .coro c → s.pc (.coro c) = .suspend ∨ s.pc (.coro c) = .exit →
    ∃ s' call callerCoro, step s (.step t) = some s' ∧ s.activation c = some call ∧
      call.thread = t ∧ s'.pc (s'.running t) = .resumeRestore c call callerCoro
  /-- Resume returns, with the pointer that it was called with. -/
  returns : ∀ t c call callerCoro, s.pc (s.running t) = .resumeRestore c call callerCoro →
    ∃ s', step s (.step t) = some s' ∧ s'.running = s.running ∧ s'.pc (s'.running t) = .user ∧
      call.thread = t ∧ s'.currentCoro t = call.before

omit [DecidableEq τ] [DecidableEq κ] in
/-- The pointer is the innermost active coroutine. -/
theorem Nested.current_running {s : World τ κ} {nest : τ → List κ} (h : Nested s nest) (t : τ)
    (hbetween : (s.pc (s.running t)).between = []) :
    s.currentCoro t = (s.running t).coroutine := by
  rw [h.current t,h.active t,hbetween,h.running t]
  cases nest t with
  | nil => rfl
  | cons c rest => rfl

/-- Nested threads follow the nesting. -/
theorem Nested.follows {s : World τ κ} {nest : τ → List κ} (h : Nested s nest) : Follows s where
  current t := ⟨h.current t,h.current_running t⟩
  back t c hrun hpc := by
    obtain ⟨rest,hnest⟩ := h.running_coro hrun
    obtain ⟨hcaller,call,hwait,hactivation,hthread,-⟩ := h.links t c rest (by rw [hnest])
    have hne : stackOf t rest ≠ .coro c := hrun ▸ h.waiting_ne (c := c) (by rw [hnest])
    rw [←hrun] at hpc
    have hbetween : (s.pc (s.running t)).between = [] := by
      rcases hpc with hpc | hpc <;> rw [hpc] <;> rfl
    have hcurrent : s.currentCoro t = some c := by
      rw [h.current_running t hbetween,hrun]
      rfl
    rcases hpc with hpc | hpc
    · refine ⟨{ s with coroCtx := Function.update s.coroCtx c (some (s.running t)) }.switch t .user
        (stackOf t rest),call,rest.head?,?_,hactivation,hthread,?_⟩
      · simp only [step,threadStep,hpc,hcurrent,hcaller]
      · simpa [World.switch,World.goto,hrun,hne] using hwait
    · refine ⟨{ s with coroCtx := Function.update s.coroCtx c (some (s.running t)) }.switch t .exited
        (stackOf t rest),call,rest.head?,?_,hactivation,hthread,?_⟩
      · rw [hrun] at hpc
        simp only [step,threadStep,hrun,hpc,hcaller]
      · simpa [World.switch,World.goto,hrun,hne] using hwait
  returns t c call callerCoro hpc := by
    have hremembers := h.remembers t
    rw [hpc] at hremembers
    refine ⟨{ s.setCurrent t callerCoro with
      active := Function.update s.active t (s.active t).tail }.goto (s.running t) .user,?_,rfl,
      Function.update_self ..,hremembers.1,?_⟩
    · simp only [step,threadStep,hpc]
    · rw [hremembers.2.1,←hremembers.2.2]
      exact Function.update_self ..

/-- Every state of a run that keeps the contract is nested. -/
theorem nested_reachable {s : World τ κ} (hr : (coroutines τ κ).ReachableUnder Contract s) :
    ∃ nest, Nested s nest := by
  refine hr.invariant ⟨_,nested_initial⟩ ?_
  rintro s a s' - ⟨nest,h⟩ ha hs
  exact nested_step h ha hs

/-- For any number of threads and coroutines, in every interleaving in which a
coroutine is resumed only while it is neither active nor completed. -/
theorem current_follows_nesting {s : World τ κ}
    (hr : (coroutines τ κ).ReachableUnder Contract s) : Follows s := by
  obtain ⟨nest,h⟩ := nested_reachable hr
  exact h.follows

instance [Fintype τ] [Fintype κ] (s : World τ κ) (c : κ) : Decidable (Inactive s c) :=
  decidable_of_iff ((s.pc (.coro c) = .start ∨ s.pc (.coro c) = .user) ∧
    (∀ t, s.running t ≠ .coro c) ∧ (∀ t, (s.pc (.thread t)).activating ≠ some c) ∧
      ∀ d, (s.pc (.coro d)).activating ≠ some c) (by
    refine and_congr_right fun _ => and_congr_right fun _ => ⟨fun h x => ?_,fun h => ?_⟩
    · cases x with
      | thread t => exact h.1 t
      | coro d => exact h.2 d
    · exact ⟨fun t => h (.thread t),fun d => h (.coro d)⟩)

instance [Fintype τ] [Fintype κ] (s : World τ κ) : ∀ a, Decidable (Contract s a)
  | .resume _ c => inferInstanceAs (Decidable (Inactive s c ∧ s.isCompleted c = false))
  | .construct .. | .suspend _ | .leave .. | .step _ => isTrue trivial

/-- A thread takes a number of steps. -/
def steps {τ κ : Type*} (t : τ) (n : ℕ) : List (Action τ κ) := List.replicate n (.step t)

/-- Thread 0 resumes coroutine 0, which constructs coroutine 1 and resumes it;
coroutine 1 suspends and so does coroutine 0. Thread 1 resumes coroutine 0,
which resumes coroutine 1 again; that one throws. -/
def migrate : List (Action (Fin 2) (Fin 2)) :=
  [[.construct 0 0,.resume 0 0],steps 0 4,[.construct 0 1,.resume 0 1],steps 0 4,[.suspend 0],
    steps 0 2,[.suspend 0],steps 0 2,[.resume 1 0],steps 1 3,[.resume 1 1],steps 1 3,
    [.leave 1 true],steps 1 1].flatten

theorem migrate_ends : (coroutines (Fin 2) (Fin 2)).Ends (initial (Fin 2) (Fin 2)) migrate
    fun s => s.currentCoro 0 = none ∧ s.currentCoro 1 = some 1 ∧ s.active 1 = [1,0] ∧
      s.running 1 = .coro 1 ∧ s.pc (.coro 1) = .exit := by
  decide +kernel

theorem migrate_contract :
    (coroutines (Fin 2) (Fin 2)).Meets Contract (initial (Fin 2) (Fin 2)) migrate := by
  decide +kernel

theorem current_follows_nesting_migrate :
    ∃ s, (coroutines (Fin 2) (Fin 2)).ReachableUnder Contract s ∧
      (s.currentCoro 0 = none ∧ s.currentCoro 1 = some 1 ∧ s.active 1 = [1,0] ∧
        s.running 1 = .coro 1 ∧ s.pc (.coro 1) = .exit) ∧ Follows s := by
  obtain ⟨s,hr,hend⟩ := migrate_ends.reachableUnder migrate_contract
  exact ⟨s,hr,hend,current_follows_nesting hr⟩

end ConcurrencyRuntime.Coroutine
