import ConcurrencyRuntime.IntrusiveList
import ConcurrencyRuntime.TransitionSystem

/-!
# Whom Fire wakes

Wait up to Park and Fire are sections under the spinlock, so no Wait parks while a
Fire is going on. The fibers that Fire schedules do start meanwhile: they leave Wait,
destroy their waiters, whose memory is then used for anything, and may be the next to
Wait. Waiters are addressed apart from their fibers, for each Wait makes a new one.
-/

namespace ConcurrencyRuntime.EventWake

open TransitionSystem IntrusiveList

/-- Program points of a fiber. -/
inductive FiberPc (α : Type*) where
  /-- Not submitted to the executor. -/
  | fresh
  /-- Submitted and not run yet. -/
  | ready
  /-- Outside of Wait and Fire. -/
  | running
  /-- Suspended in Wait, its waiter in the list or popped from it. -/
  | parked (waiter : α)
  /-- Scheduled by a Fire and not resumed yet. -/
  | woken (waiter : α)
  /-- Resumed in Wait, its waiter not destroyed yet. -/
  | returning (waiter : α)
  /-- In Fire. -/
  | firing
  /-- Finished. -/
  | done
  deriving DecidableEq

/-- The waiter on the stack of the fiber. -/
def FiberPc.waiter {α : Type*} : FiberPc α → Option α
  | .parked w | .woken w | .returning w => some w
  | _ => none

/-- Program points of Fire, under the spinlock. -/
inductive FirePc (ι α : Type*) where
  /-- The test of the list, and Pop. -/
  | loop
  /-- Schedule of the popped waiter: Release of its stopped fiber. -/
  | release (waiter : α)
  /-- Schedule: the fiber is submitted to its executor. -/
  | submit (waiter : α) (f : ι)
  /-- A null waiter was called, a null fiber released, or a fiber submitted that is
  not suspended. -/
  | fault
  deriving DecidableEq

/-- A call of Fire. -/
structure Firing (ι α : Type*) where
  /-- The fiber that calls, if it is one. -/
  caller : Option ι
  pc : FirePc ι α
  /-- The fibers scheduled so far, with their waiters, in order. -/
  served : List (ι × α)

/-- A section that is over. -/
inductive Section (ι : Type*) where
  /-- Wait, up to Park. -/
  | park (f : ι)
  /-- Fire, with the fibers it has scheduled. -/
  | fire (fs : List ι)

/-- The event, the memory of waiters and the fibers. -/
structure State (ι α : Type*) where
  /-- The list of waiters. -/
  waiters : Header α
  /-- The next field of each waiter. -/
  next : α → Option α
  /-- The stopped_fiber of each waiter. -/
  stoppedFiber : α → Option ι
  /-- There is a waiter at the address. -/
  alive : α → Bool
  /-- Where each fiber stands. -/
  fiber : ι → FiberPc α
  /-- The Fire that holds the spinlock. -/
  firing : Option (Firing ι α)
  /-- All sections so far. -/
  sections : List (Section ι)

/-- Scheduler choices. -/
inductive Action (ι α : Type*) where
  /-- A new fiber is submitted. -/
  | submit (f : ι)
  /-- A submitted fiber begins. -/
  | start (f : ι)
  /-- The section of Wait, with its waiter at an unused address. -/
  | wait (f : ι) (waiter : α)
  /-- A scheduled fiber is resumed. -/
  | resume (f : ι)
  /-- Wait returns and destroys its waiter. -/
  | destroy (f : ι)
  /-- Memory in which there is no waiter is used for something else. -/
  | reuse (waiter : α) (next : Option α) (stopped : Option ι)
  /-- A fiber, or another thread, calls Fire and gets the spinlock. -/
  | fire (caller : Option ι)
  /-- The next step of the Fire that holds the spinlock. -/
  | fireStep
  /-- A fiber ends. -/
  | finish (f : ι)
  deriving DecidableEq

variable {ι α : Type*} [DecidableEq ι] [DecidableEq α]

/-- Move a fiber. -/
def State.goto {α : Type*} (s : State ι α) (f : ι) (pc : FiberPc α) : State ι α :=
  { s with fiber := Function.update s.fiber f pc }

/-- Move the Fire. -/
def State.goFire {ι α : Type*} (s : State ι α) (r : Firing ι α) (pc : FirePc ι α) : State ι α :=
  { s with firing := some { r with pc := pc } }

/-- Fire unlocks the spinlock and returns. -/
def State.endFire {α : Type*} (s : State ι α) (r : Firing ι α) : State ι α :=
  { s with
    firing := none
    sections := s.sections ++ [.fire (r.served.map Prod.fst)]
    fiber :=
      match r.caller with
      | none => s.fiber
      | some f => Function.update s.fiber f .running }

/-- The waiter is constructed and parked. -/
def State.park (s : State ι α) (f : ι) (w : α) : State ι α :=
  { s with
    next := s.waiters.pushLinks (Function.update s.next w none) w
    waiters := s.waiters.push w
    stoppedFiber := Function.update s.stoppedFiber w (some f)
    alive := Function.update s.alive w true
    fiber := Function.update s.fiber f (.parked w)
    sections := s.sections ++ [.park f] }

/-- One step of Fire. -/
def fireStep (s : State ι α) (r : Firing ι α) : Option (State ι α) :=
  match r.pc with
  | .loop =>
    if s.waiters.isEmpty then some (s.endFire r)
    else
      match s.waiters.popped with
      | some w => some ({ s with waiters := s.waiters.pop s.next }.goFire r (.release w))
      | none => some (s.goFire r .fault)
  | .release w =>
    match s.stoppedFiber w with
    | some f =>
      some ({ s with stoppedFiber := Function.update s.stoppedFiber w none }.goFire r (.submit w f))
    | none => some (s.goFire r .fault)
  | .submit w f =>
    match s.fiber f with
    | .parked w' =>
      some ((s.goto f (.woken w')).goFire { r with served := r.served ++ [(f,w)] } .loop)
    | _ => some (s.goFire r .fault)
  | .fault => none

/-- The waiters that the next step of Fire reads: Pop follows the next field of the
first waiter when there are more, and Release exchanges the field of its waiter. -/
def Firing.reads {ι α : Type*} (r : Firing ι α) (s : State ι α) : List α :=
  match r.pc with
  | .loop => if 1 < s.waiters.size then s.waiters.head.toList else []
  | .release w => [w]
  | .submit _ _ | .fault => []

/-- The steps that Fire still makes: three for each waiter, and one for the last test. -/
def Firing.left {ι α : Type*} (r : Firing ι α) (s : State ι α) : ℕ :=
  3 * s.waiters.size +
    match r.pc with
    | .loop => 1
    | .release _ => 3
    | .submit _ _ => 2
    | .fault => 0

/-- One step. -/
def step (s : State ι α) : Action ι α → Option (State ι α)
  | .submit f => if s.fiber f = .fresh then some (s.goto f .ready) else none
  | .start f => if s.fiber f = .ready then some (s.goto f .running) else none
  | .wait f w =>
    if s.fiber f = .running ∧ s.firing.isNone ∧ s.alive w = false then some (s.park f w) else none
  | .resume f =>
    match s.fiber f with
    | .woken w => some (s.goto f (.returning w))
    | _ => none
  | .destroy f =>
    match s.fiber f with
    | .returning w => some { s.goto f .running with alive := Function.update s.alive w false }
    | _ => none
  | .reuse w next stopped =>
    if s.alive w = false then
      some { s with
        next := Function.update s.next w next
        stoppedFiber := Function.update s.stoppedFiber w stopped }
    else none
  | .fire caller =>
    if s.firing.isSome then none
    else
      match caller with
      | none => some { s with firing := some ⟨none,.loop,[]⟩ }
      | some f =>
        if s.fiber f = .running then some { s.goto f .firing with firing := some ⟨some f,.loop,[]⟩ }
        else none
  | .fireStep =>
    match s.firing with
    | some r => fireStep s r
    | none => none
  | .finish f => if s.fiber f = .running then some (s.goto f .done) else none

/-- A new event, in memory that holds anything. -/
def event (next : α → Option α) (stopped : α → Option ι) : System (State ι α) (Action ι α) :=
  ⟨⟨.clear,next,stopped,fun _ => false,fun _ => .fresh,none,[]⟩,step⟩

/-- The fibers parked since the last Fire, in parking order. -/
def sinceFire {ι : Type*} (sections : List (Section ι)) : List ι :=
  sections.foldl
    (fun fs x =>
      match x with
      | .park f => fs ++ [f]
      | .fire _ => [])
    []

@[simp]
theorem sinceFire_park {ι : Type*} (sections : List (Section ι)) (f : ι) :
    sinceFire (sections ++ [.park f]) = sinceFire sections ++ [f] := by
  simp [sinceFire]

@[simp]
theorem sinceFire_fire {ι : Type*} (sections : List (Section ι)) (fs : List ι) :
    sinceFire (sections ++ [.fire fs]) = [] := by
  simp [sinceFire]

/-- Every Fire has scheduled the fibers that were parked since the Fire before it, in
their order and each of them once. -/
def Exact {ι : Type*} (sections : List (Section ι)) : Prop :=
  ∀ front fs back, sections = front ++ .fire fs :: back → fs = sinceFire front ∧ fs.Nodup

theorem Exact.park {ι : Type*} {sections : List (Section ι)} (h : Exact sections) (f : ι) :
    Exact (sections ++ [.park f]) := by
  intro front fs back he
  rcases List.eq_nil_or_concat back with rfl | ⟨back,last,rfl⟩
  · have hlast := congrArg List.getLast? he
    simp at hlast
  · rw [List.concat_eq_append,← List.cons_append,← List.append_assoc] at he
    exact h front fs back (List.append_inj_left' he rfl)

theorem Exact.fire {ι : Type*} {sections : List (Section ι)} (h : Exact sections) {gs : List ι}
    (hgs : gs = sinceFire sections) (hnd : gs.Nodup) : Exact (sections ++ [.fire gs]) := by
  intro front fs back he
  rcases List.eq_nil_or_concat back with rfl | ⟨back,last,rfl⟩
  · obtain ⟨hfront,hfs⟩ := List.append_inj' he rfl
    simp only [List.cons.injEq,Section.fire.injEq,and_true] at hfs
    rw [← hfront,← hfs]
    exact ⟨hgs,hnd⟩
  · rw [List.concat_eq_append,← List.cons_append,← List.append_assoc] at he
    exact h front fs back (List.append_inj_left' he rfl)

/-- Where a Fire stands, given the waiter that it has popped and not yet scheduled. -/
def Firing.At {ι α : Type*} (r : Firing ι α) (s : State ι α) (current : List (ι × α)) : Prop :=
  match r.pc with
  | .loop => current = []
  | .release w => ∃ f, current = [(f,w)] ∧ s.stoppedFiber w = some f
  | .submit w f => current = [(f,w)]
  | .fault => False

/-- The fibers parked since the last Fire are those that the present one has served,
the one that it has popped, and those in the list. -/
structure Inv {ι α : Type*} (s : State ι α) (served current rest : List (ι × α)) : Prop where
  holds : Holds s.next s.waiters (rest.map Prod.snd)
  stopped : ∀ p ∈ rest, s.stoppedFiber p.2 = some p.1
  parked : ∀ f w, s.fiber f = .parked w ↔ (f,w) ∈ current ++ rest
  since : sinceFire s.sections = (served ++ current ++ rest).map Prod.fst
  fibers : ((served ++ current ++ rest).map Prod.fst).Nodup
  addresses : ((served ++ current ++ rest).map Prod.snd).Nodup
  alive : ∀ f w, (s.fiber f).waiter = some w → s.alive w = true
  own : ∀ f g w, (s.fiber f).waiter = some w → (s.fiber g).waiter = some w → f = g
  idle : s.firing = none → served = [] ∧ current = []
  fire : ∀ r, s.firing = some r → r.served = served ∧ r.At s current
  caller : ∀ r f, s.firing = some r → r.caller = some f → s.fiber f = .firing
  history : Exact s.sections

section Steps

variable {s : State ι α} {served current rest : List (ι × α)} {f : ι} {w : α} {q : FiberPc α}

omit [DecidableEq α] in
/-- A fiber moves that is not parked before or after, and gets no waiter. -/
theorem Inv.move (h : Inv s served current rest) (hold : ∀ w, s.fiber f ≠ .parked w)
    (hnew : ∀ w, q ≠ .parked w) (hw : ∀ w, q.waiter = some w → (s.fiber f).waiter = some w)
    (hcaller : ∀ r, s.firing = some r → r.caller ≠ some f) :
    Inv (s.goto f q) served current rest := by
  have hwaiter : ∀ g w, (Function.update s.fiber f q g).waiter = some w →
      (s.fiber g).waiter = some w := by
    intro g w hg
    by_cases he : g = f
    · subst he
      rw [Function.update_self] at hg
      exact hw w hg
    · rwa [Function.update_of_ne he] at hg
  refine ⟨h.holds,h.stopped,?_,h.since,h.fibers,h.addresses,?_,?_,h.idle,h.fire,?_,h.history⟩
  · intro g w
    rw [← h.parked g w]
    by_cases he : g = f
    · subst he
      simp only [State.goto,Function.update_self]
      exact iff_of_false (hnew w) (hold w)
    · simp only [State.goto,Function.update_of_ne he]
  · exact fun g w hg => h.alive g w (hwaiter g w hg)
  · exact fun g g' w hg hg' => h.own g g' w (hwaiter g w hg) (hwaiter g' w hg')
  · intro r g hr hc
    have hne : g ≠ f := by
      rintro rfl
      exact hcaller r hr hc
    simpa only [State.goto,Function.update_of_ne hne] using h.caller r g hr hc

omit [DecidableEq ι] in
/-- A waiter is destroyed that belongs to no fiber any more. -/
theorem Inv.destroy (h : Inv s served current rest) (hw : ∀ g, (s.fiber g).waiter ≠ some w) :
    Inv { s with alive := Function.update s.alive w false } served current rest := by
  refine ⟨h.holds,h.stopped,h.parked,h.since,h.fibers,h.addresses,?_,h.own,h.idle,h.fire,h.caller,
    h.history⟩
  intro g v hg
  have hne : v ≠ w := by
    rintro rfl
    exact hw g hg
  simpa only [Function.update_of_ne hne] using h.alive g v hg

omit [DecidableEq ι] [DecidableEq α] in
/-- The waiters of the list, and the one that Fire has popped, are there. -/
theorem Inv.alive_of_mem (h : Inv s served current rest) {p : ι × α} (hp : p ∈ current ++ rest) :
    s.alive p.2 = true := by
  have hpark := (h.parked p.1 p.2).mpr hp
  exact h.alive p.1 p.2 (by rw [hpark]; rfl)

omit [DecidableEq ι] in
/-- Memory in which there is no waiter changes. -/
theorem Inv.reuse (h : Inv s served current rest) (hw : s.alive w = false) (x : Option α)
    (y : Option ι) :
    Inv { s with
      next := Function.update s.next w x
      stoppedFiber := Function.update s.stoppedFiber w y } served current rest := by
  have hne : ∀ p ∈ current ++ rest, p.2 ≠ w := by
    rintro p hp rfl
    rw [h.alive_of_mem hp] at hw
    cases hw
  refine ⟨?_,?_,h.parked,h.since,h.fibers,h.addresses,h.alive,h.own,h.idle,?_,h.caller,h.history⟩
  · refine h.holds.write ?_ x
    intro hmem
    obtain ⟨p,hp,he⟩ := List.mem_map.mp hmem
    exact hne p (List.mem_append_right _ hp) he
  · intro p hp
    simpa only [Function.update_of_ne (hne p (List.mem_append_right _ hp))] using h.stopped p hp
  · intro r hr
    obtain ⟨hserved,hat⟩ := h.fire r hr
    refine ⟨hserved,?_⟩
    unfold Firing.At at hat ⊢
    cases hpc : r.pc with
    | loop | submit => simpa [hpc] using hat
    | fault => simp [hpc] at hat
    | release v =>
      simp only [hpc] at hat
      obtain ⟨g,hcur,hstop⟩ := hat
      have hv : v ≠ w := hne (g,v) (by simp [hcur])
      exact ⟨g,hcur,by simpa only [Function.update_of_ne hv] using hstop⟩

/-- Wait, up to Park. -/
theorem Inv.park (h : Inv s served current rest) (hf : s.fiber f = .running)
    (hfree : s.firing = none) (hw : s.alive w = false) :
    Inv (s.park f w) served current (rest ++ [(f,w)]) := by
  obtain ⟨rfl,rfl⟩ := h.idle hfree
  have hparked : ∀ g v, s.fiber g = .parked v ↔ (g,v) ∈ rest := h.parked
  have hne : ∀ p ∈ rest, p.2 ≠ w := by
    rintro p hp rfl
    rw [h.alive_of_mem hp] at hw
    cases hw
  have hout : w ∉ rest.map Prod.snd := by
    intro hmem
    obtain ⟨p,hp,he⟩ := List.mem_map.mp hmem
    exact hne p hp he
  have houtf : f ∉ rest.map Prod.fst := by
    intro hmem
    obtain ⟨p,hp,rfl⟩ := List.mem_map.mp hmem
    have hpark := (hparked p.1 p.2).mpr hp
    rw [hf] at hpark
    cases hpark
  have hwaiter : ∀ g, (s.fiber g).waiter ≠ some w := by
    intro g hg
    rw [h.alive g w hg] at hw
    cases hw
  refine ⟨?_,?_,?_,?_,?_,?_,?_,?_,?_,?_,?_,?_⟩
  · rw [List.map_append]
    exact (h.holds.write hout none).push hout
  · intro p hp
    rcases List.mem_append.mp hp with hp | hp
    · simpa only [State.park,Function.update_of_ne (hne p hp)] using h.stopped p hp
    · rw [List.mem_singleton.mp hp]
      exact Function.update_self ..
  · intro g v
    simp only [State.park,List.nil_append,List.mem_append,List.mem_singleton,Prod.mk.injEq]
    by_cases hg : g = f
    · subst hg
      have hno : (g,v) ∉ rest := fun hp => houtf (List.mem_map_of_mem hp)
      simp [hno,eq_comm]
    · simp only [Function.update_of_ne hg,hparked,hg,false_and,or_false]
  · simpa [State.park] using h.since
  · have hold : (rest.map Prod.fst).Nodup := h.fibers
    simpa using hold.concat houtf
  · have hold : (rest.map Prod.snd).Nodup := h.addresses
    simpa using hold.concat hout
  · intro g v hg
    by_cases hv : v = w
    · subst hv
      exact Function.update_self ..
    · simp only [State.park,Function.update_of_ne hv]
      refine h.alive g v ?_
      by_cases he : g = f
      · subst he
        simp only [State.park,Function.update_self,FiberPc.waiter,Option.some.injEq] at hg
        exact absurd hg.symm hv
      · simpa only [State.park,Function.update_of_ne he] using hg
  · intro g g' v hg hg'
    simp only [State.park,Function.update_apply] at hg hg'
    grind [h.own g g' v,FiberPc.waiter]
  · exact fun _ => ⟨rfl,rfl⟩
  · intro r hr
    simp [State.park,hfree] at hr
  · intro r g hr
    simp [State.park,hfree] at hr
  · exact h.history.park f

omit [DecidableEq ι] [DecidableEq α] in
/-- Fire gets the spinlock. -/
theorem Inv.begin (h : Inv s served current rest) (hfree : s.firing = none) {caller : Option ι}
    (hcaller : ∀ g, caller = some g → s.fiber g = .firing) :
    Inv { s with firing := some ⟨caller,.loop,[]⟩ } served current rest := by
  obtain ⟨rfl,rfl⟩ := h.idle hfree
  refine ⟨h.holds,h.stopped,h.parked,h.since,h.fibers,h.addresses,h.alive,h.own,?_,?_,?_,h.history⟩
  · simp
  · rintro r hr
    cases hr
    exact ⟨rfl,rfl⟩
  · rintro r g hr hg
    cases hr
    exact hcaller g hg

omit [DecidableEq ι] [DecidableEq α] in
/-- Fire pops a waiter. -/
theorem Inv.pop {r : Firing ι α} (h : Inv s served [] ((f,w) :: rest)) (hr : s.firing = some r) :
    Inv ({ s with waiters := s.waiters.pop s.next }.goFire r (.release w)) served [(f,w)] rest := by
  refine ⟨h.holds.pop.2,?_,h.parked,?_,?_,?_,h.alive,h.own,?_,?_,?_,h.history⟩
  · exact fun p hp => h.stopped p (List.mem_cons_of_mem _ hp)
  · simpa [State.goFire] using h.since
  · simpa using h.fibers
  · simpa using h.addresses
  · simp [State.goFire]
  · rintro r' hr'
    cases hr'
    exact ⟨(h.fire r hr).1,f,rfl,h.stopped (f,w) List.mem_cons_self⟩
  · rintro r' g hr' hg
    cases hr'
    exact h.caller r g hr hg

omit [DecidableEq ι] in
/-- Fire releases the fiber of the popped waiter. -/
theorem Inv.release {r : Firing ι α} (h : Inv s served [(f,w)] rest) (hr : s.firing = some r) :
    Inv ({ s with stoppedFiber := Function.update s.stoppedFiber w none }.goFire r (.submit w f))
      served [(f,w)] rest := by
  refine ⟨h.holds,?_,h.parked,h.since,h.fibers,h.addresses,h.alive,h.own,?_,?_,?_,h.history⟩
  · intro p hp
    have hne : p.2 ≠ w := by
      rintro rfl
      have hnd := h.addresses
      rw [List.append_assoc,List.map_append] at hnd
      have hcur := (List.nodup_append.mp hnd).2.1
      simp only [List.cons_append,List.nil_append,List.map_cons,List.nodup_cons] at hcur
      exact hcur.1 (List.mem_map_of_mem hp)
    simpa only [State.goFire,Function.update_of_ne hne] using h.stopped p hp
  · simp [State.goFire]
  · rintro r' hr'
    cases hr'
    exact ⟨(h.fire r hr).1,rfl⟩
  · rintro r' g hr' hg
    cases hr'
    exact h.caller r g hr hg

omit [DecidableEq α] in
/-- Fire submits the fiber of the popped waiter. -/
theorem Inv.schedule {r : Firing ι α} (h : Inv s served [(f,w)] rest) (hr : s.firing = some r) :
    Inv ((s.goto f (.woken w)).goFire { r with served := r.served ++ [(f,w)] } .loop)
      (served ++ [(f,w)]) [] rest := by
  have hf : s.fiber f = .parked w := (h.parked f w).mpr (by simp)
  have hout : ∀ v, (f,v) ∉ rest := by
    intro v hv
    have hnd := h.fibers
    rw [List.append_assoc,List.map_append] at hnd
    have hcur := (List.nodup_append.mp hnd).2.1
    simp only [List.cons_append,List.nil_append,List.map_cons,List.nodup_cons] at hcur
    exact hcur.1 (List.mem_map_of_mem hv)
  have hwaiter : ∀ g v, (Function.update s.fiber f (.woken w) g).waiter = some v →
      (s.fiber g).waiter = some v := by
    intro g v hg
    by_cases he : g = f
    · subst he
      rw [Function.update_self] at hg
      rw [hf]
      exact hg
    · rwa [Function.update_of_ne he] at hg
  refine ⟨h.holds,h.stopped,?_,?_,?_,?_,?_,?_,?_,?_,?_,h.history⟩
  · intro g v
    simp only [State.goFire,State.goto]
    by_cases he : g = f
    · subst he
      simp [hout v]
    · rw [Function.update_of_ne he,h.parked g v]
      simp [he]
  · simpa [State.goFire,State.goto] using h.since
  · simpa using h.fibers
  · simpa using h.addresses
  · exact fun g v hg => h.alive g v (hwaiter g v hg)
  · exact fun g g' v hg hg' => h.own g g' v (hwaiter g v hg) (hwaiter g' v hg')
  · simp [State.goFire]
  · rintro r' hr'
    cases hr'
    exact ⟨by rw [(h.fire r hr).1],rfl⟩
  · rintro r' g hr' hg
    cases hr'
    have hcaller := h.caller r g hr hg
    have hne : g ≠ f := by
      rintro rfl
      rw [hf] at hcaller
      cases hcaller
    simpa only [State.goFire,State.goto,Function.update_of_ne hne] using hcaller

omit [DecidableEq α] in
/-- Fire finds no waiter and returns. -/
theorem Inv.finish {r : Firing ι α} (h : Inv s served [] []) (hr : s.firing = some r) :
    Inv (s.endFire r) [] [] [] := by
  have hparked : ∀ g v, s.fiber g ≠ .parked v := by
    intro g v hg
    have hmem := (h.parked g v).mp hg
    simp at hmem
  have hsince : (r.served.map Prod.fst) = sinceFire s.sections := by
    rw [h.since,(h.fire r hr).1]
    simp
  have hexact : Exact (s.sections ++ [.fire (r.served.map Prod.fst)]) := by
    refine h.history.fire hsince ?_
    rw [hsince,h.since]
    exact h.fibers
  have hend : Inv { s with
      firing := none
      sections := s.sections ++ [.fire (r.served.map Prod.fst)] } [] [] [] := by
    refine ⟨h.holds,h.stopped,h.parked,?_,by simp,by simp,h.alive,h.own,?_,?_,?_,hexact⟩
    all_goals simp
  -- the caller is the only fiber to move
  cases hc : r.caller with
  | none =>
    simp only [State.endFire,hc]
    exact hend
  | some g =>
    simp only [State.endFire,hc]
    refine hend.move (hparked g) ?_ ?_ ?_
    all_goals simp [FiberPc.waiter]

/-- The next step of Fire: it reads only waiters of fibers that are parked, and is one
step closer to its end. -/
theorem Inv.fireStep {r : Firing ι α} (h : Inv s served current rest) (hr : s.firing = some r) :
    (∀ v ∈ r.reads s, v ∉ served.map Prod.snd ∧ ∃ g, s.fiber g = .parked v) ∧
    ∃ s' served' current' rest', EventWake.fireStep s r = some s' ∧
      Inv s' served' current' rest' ∧
      ((s'.firing = none ∧ r.left s = 1) ∨
        ∃ r', s'.firing = some r' ∧ r'.left s' + 1 = r.left s) := by
  obtain ⟨hserved,hat⟩ := h.fire r hr
  unfold Firing.At at hat
  have hsize : s.waiters.size = rest.length := by simpa using h.holds.size
  cases hpc : r.pc with
  | fault => simp [hpc] at hat
  | loop =>
    simp only [hpc] at hat
    subst hat
    simp only [Firing.reads,Firing.left,EventWake.fireStep,hpc]
    cases rest with
    | nil =>
      have hempty : s.waiters.isEmpty = true := by simp [Header.isEmpty,hsize]
      refine ⟨by simp [hsize],s.endFire r,[],[],[],by simp [hempty],h.finish hr,?_⟩
      exact Or.inl ⟨rfl,by simp [hsize]⟩
    | cons p rest =>
      obtain ⟨f,w⟩ := p
      have hempty : s.waiters.isEmpty = false := by simp [Header.isEmpty,hsize]
      have hpop : s.waiters.popped = some w := h.holds.pop.1
      have hhead : s.waiters.head = some w := h.holds.head
      refine ⟨?_,_,served,[(f,w)],rest,by simp [hempty,hpop],h.pop hr,Or.inr ⟨_,rfl,?_⟩⟩
      · intro v hv
        have hvw : v = w := by
          rw [hhead] at hv
          split at hv
          · simpa using hv
          · cases hv
        subst hvw
        refine ⟨?_,f,(h.parked f v).mpr (by simp)⟩
        have hnd := h.addresses
        simp only [List.append_nil,List.map_append,List.map_cons] at hnd
        exact fun hmem => (List.nodup_append.mp hnd).2.2 v hmem v List.mem_cons_self rfl
      · have hpopped : (s.waiters.pop s.next).size = rest.length := by
          simpa using h.holds.pop.2.size
        simp only [State.goFire,hpopped,hsize,List.length_cons]
        omega
  | release w =>
    simp only [hpc] at hat
    obtain ⟨f,rfl,hstop⟩ := hat
    simp only [Firing.reads,Firing.left,EventWake.fireStep,hpc,hstop]
    refine ⟨?_,_,served,_,rest,rfl,h.release hr,Or.inr ⟨_,rfl,rfl⟩⟩
    intro v hv
    cases List.mem_singleton.mp hv
    refine ⟨?_,f,(h.parked f w).mpr (by simp)⟩
    have hnd := h.addresses
    simp only [List.append_assoc,List.map_append,List.map_cons] at hnd
    exact fun hmem => (List.nodup_append.mp hnd).2.2 w hmem w List.mem_cons_self rfl
  | submit w f =>
    simp only [hpc] at hat
    subst hat
    have hf : s.fiber f = .parked w := (h.parked f w).mpr (by simp)
    simp only [Firing.reads,Firing.left,EventWake.fireStep,hpc,hf]
    refine ⟨by simp,_,_,[],rest,rfl,h.schedule hr,Or.inr ⟨_,rfl,rfl⟩⟩

omit [DecidableEq ι] [DecidableEq α] in
/-- A fiber that is not in Fire calls no Fire. -/
theorem Inv.not_caller (h : Inv s served current rest) (hf : s.fiber f ≠ .firing) :
    ∀ r, s.firing = some r → r.caller ≠ some f :=
  fun r hr hc => hf (h.caller r f hr hc)

/-- Every action keeps the invariant. -/
theorem Inv.step {s' : State ι α} {a : Action ι α} (h : Inv s served current rest)
    (hs : EventWake.step s a = some s') :
    ∃ served' current' rest', Inv s' served' current' rest' := by
  -- the moves of one fiber from one program point to another
  have hmove : ∀ {f p q}, s.fiber f = p → (∀ w, p ≠ .parked w) → p ≠ .firing →
      (∀ w, q ≠ .parked w) → (∀ w, q.waiter = some w → p.waiter = some w) →
      Inv (s.goto f q) served current rest := by
    rintro f p q rfl hp hpf hq hw
    exact h.move hp hq hw (h.not_caller hpf)
  cases a with
  | submit f =>
    obtain ⟨hf,⟨⟩⟩ := Option.ite_none_right_eq_some.mp hs
    exact ⟨_,_,_,hmove hf (by simp) (by simp) (by simp) (by simp [FiberPc.waiter])⟩
  | start f =>
    obtain ⟨hf,⟨⟩⟩ := Option.ite_none_right_eq_some.mp hs
    exact ⟨_,_,_,hmove hf (by simp) (by simp) (by simp) (by simp [FiberPc.waiter])⟩
  | finish f =>
    obtain ⟨hf,⟨⟩⟩ := Option.ite_none_right_eq_some.mp hs
    exact ⟨_,_,_,hmove hf (by simp) (by simp) (by simp) (by simp [FiberPc.waiter])⟩
  | wait f w =>
    obtain ⟨⟨hf,hfree,hw⟩,⟨⟩⟩ := Option.ite_none_right_eq_some.mp hs
    exact ⟨_,_,_,h.park hf (Option.isNone_iff_eq_none.mp hfree) hw⟩
  | resume f =>
    simp only [EventWake.step] at hs
    split at hs
    · rename_i w hf
      cases hs
      exact ⟨_,_,_,hmove hf (by simp) (by simp) (by simp) (by simp [FiberPc.waiter])⟩
    · cases hs
  | destroy f =>
    simp only [EventWake.step] at hs
    split at hs
    · rename_i w hf
      cases hs
      have hrun : Inv (s.goto f .running) served current rest :=
        hmove hf (by simp) (by simp) (by simp) (by simp [FiberPc.waiter])
      refine ⟨_,_,_,hrun.destroy ?_⟩
      intro g hg
      simp only [State.goto] at hg
      by_cases he : g = f
      · subst he
        simp [FiberPc.waiter] at hg
      · rw [Function.update_of_ne he] at hg
        exact he (h.own g f w hg (by rw [hf]; rfl))
    · cases hs
  | reuse w x y =>
    obtain ⟨hw,⟨⟩⟩ := Option.ite_none_right_eq_some.mp hs
    exact ⟨_,_,_,h.reuse hw x y⟩
  | fire caller =>
    simp only [EventWake.step] at hs
    split at hs
    · cases hs
    · rename_i hfree
      have hnone : s.firing = none := by simpa using hfree
      cases caller with
      | none =>
        cases hs
        exact ⟨_,_,_,h.begin hnone (by simp)⟩
      | some f =>
        obtain ⟨hf,⟨⟩⟩ := Option.ite_none_right_eq_some.mp hs
        have hin : Inv (s.goto f .firing) served current rest :=
          hmove hf (by simp) (by simp) (by simp) (by simp [FiberPc.waiter])
        refine ⟨_,_,_,hin.begin hnone ?_⟩
        rintro g hg
        cases hg
        exact Function.update_self ..
  | fireStep =>
    simp only [EventWake.step] at hs
    cases hr : s.firing with
    | none => simp [hr] at hs
    | some r =>
      simp only [hr] at hs
      obtain ⟨-,t,served',current',rest',ht,hinv,-⟩ := h.fireStep hr
      cases ht.symm.trans hs
      exact ⟨_,_,_,hinv⟩

end Steps

section Runs

variable {next : α → Option α} {stopped : α → Option ι} {s s' : State ι α}

theorem inv_reachable (hs : (event next stopped).Reachable s) :
    ∃ served current rest, Inv s served current rest := by
  refine System.Reachable.invariant ?_ ?_ hs
  · refine ⟨[],[],[],holds_clear,?_,?_,?_,?_,?_,?_,?_,?_,?_,?_,?_⟩
    all_goals simp [event,sinceFire,FiberPc.waiter,Exact]
  · rintro s a s' ⟨served,current,rest,h⟩ hstep
    exact h.step hstep

/-- Other actions do not touch the Fire. -/
theorem firing_of_step {a : Action ι α} {r : Firing ι α} (hs : step s a = some s')
    (ha : a ≠ .fireStep) (hr : s.firing = some r) :
    s'.firing = some r ∧ s'.waiters = s.waiters := by
  cases a with
  | fireStep => exact absurd rfl ha
  | submit f | start f | finish f | reuse w x y =>
    obtain ⟨-,⟨⟩⟩ := Option.ite_none_right_eq_some.mp hs
    exact ⟨hr,rfl⟩
  | wait f w => simp [step,hr] at hs
  | fire caller => simp [step,hr] at hs
  | resume f | destroy f =>
    simp only [step] at hs
    split at hs
    · cases hs
      exact ⟨hr,rfl⟩
    · cases hs

/-- A Fire goes on for as many of its own steps as are left, whatever else happens. -/
theorem firing_of_run {acts : List (Action ι α)} {r : Firing ι α}
    (hs : (event next stopped).Reachable s) (hr : s.firing = some r)
    (hrun : (event next stopped).run s acts = some s') (hlt : acts.count .fireStep < r.left s) :
    ∃ r', s'.firing = some r' ∧ r'.left s' + acts.count .fireStep = r.left s := by
  induction acts generalizing s r with
  | nil =>
    cases hrun
    exact ⟨r,hr,rfl⟩
  | cons a rest ih =>
    cases hstep : (event next stopped).step s a with
    | none => simp [System.run,hstep] at hrun
    | some t =>
      rw [System.run,hstep] at hrun
      by_cases ha : a = .fireStep
      · subst ha
        rw [List.count_cons_self] at hlt ⊢
        obtain ⟨served,current,ws,h⟩ := inv_reachable hs
        obtain ⟨-,u,-,-,-,hu,-,hend⟩ := h.fireStep hr
        have hut : u = t := by
          have hfire : fireStep s r = some t := by simpa [event,step,hr] using hstep
          exact Option.some.inj (hu.symm.trans hfire)
        subst hut
        rcases hend with ⟨-,hone⟩ | ⟨r',hr',hleft⟩
        · omega
        · obtain ⟨r'',hr'',hcount⟩ := ih (hs.next hstep) hr' hrun (by omega)
          exact ⟨r'',hr'',by omega⟩
      · rw [List.count_cons_of_ne ha] at hlt ⊢
        obtain ⟨hr',hw⟩ := firing_of_step hstep ha hr
        have hleft : r.left t = r.left s := by simp only [Firing.left,hw]
        rw [← hleft] at hlt ⊢
        exact ih (hs.next hstep) hr' hrun hlt

omit [DecidableEq ι] [DecidableEq α] in
/-- The steps left to a Fire that is about to test the list. -/
theorem Inv.left_loop {served current rest : List (ι × α)} {r : Firing ι α}
    (h : Inv s served current rest) (hpc : r.pc = .loop) : r.left s = 3 * rest.length + 1 := by
  have hsize : s.waiters.size = rest.length := by simpa using h.holds.size
  simp only [Firing.left,hpc,hsize]

/-- The last step of a Fire. -/
theorem Inv.last {served current rest : List (ι × α)} {r : Firing ι α}
    (h : Inv s served current rest) (hr : s.firing = some r) (hone : r.left s = 1) :
    EventWake.fireStep s r = some (s.endFire r) ∧ r.served.map Prod.fst = sinceFire s.sections := by
  obtain ⟨hserved,hat⟩ := h.fire r hr
  unfold Firing.At at hat
  have hsize : s.waiters.size = rest.length := by simpa using h.holds.size
  simp only [Firing.left,hsize] at hone
  cases hpc : r.pc with
  | fault => simp [hpc] at hat
  | release w => simp [hpc] at hone
  | submit w f => simp [hpc] at hone
  | loop =>
    simp only [hpc] at hat hone
    have hnil : rest = [] := List.length_eq_zero_iff.mp (by omega)
    subst hat hnil
    have hempty : s.waiters.isEmpty = true := by simp [Header.isEmpty,hsize]
    refine ⟨by simp [EventWake.fireStep,hpc,hempty],?_⟩
    rw [h.since,hserved]
    simp

end Runs

/-- A fiber that parks belongs to those parked since the last Fire until the next one. -/
theorem mem_sinceFire {ι : Type*} (front mid : List (Section ι)) (f : ι)
    (hmid : ∀ gs, .fire gs ∉ mid) : f ∈ sinceFire (front ++ .park f :: mid) := by
  induction mid using List.reverseRecOn with
  | nil => simp
  | append_singleton mid last ih =>
    rw [← List.cons_append,← List.append_assoc]
    have hbefore := ih fun gs hg => hmid gs (List.mem_append_left _ hg)
    cases last with
    | park g =>
      rw [sinceFire_park]
      exact List.mem_append_left _ hbefore
    | fire gs => exact absurd (by simp) (hmid gs)

/-- Two fibers park; the first is woken by a Fire and has destroyed its waiter, whose
memory is in use again, while the Fire has the second one popped. -/
def overlap : List (Action (Fin 2) (Fin 2)) :=
  [.submit 0,.start 0,.wait 0 1,.submit 1,.start 1,.wait 1 0,.fire none,.fireStep,.fireStep,
    .fireStep,.resume 0,.destroy 0,.reuse 1 (some 1) (some 1),.fireStep]

theorem overlap_ends :
    (event (fun _ => some 0) fun _ => none).Ends
      (event (fun _ => some 0) fun _ => none).start overlap
      fun s => (s.firing.map Firing.pc) = some (.release 0) := by
  decide +kernel

end ConcurrencyRuntime.EventWake
