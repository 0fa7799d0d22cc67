import ConcurrencyRuntime.ExclusivePlaces
import ConcurrencyRuntime.FiberSync

/-!
# Fibers with atomic sections

What the spinlocks are for: the fibers, mutexes and wait groups with every
section as one step. The section of a Lock or a Wait that waits ends with the
fiber in the list of waiters and its worker free. The waiters that an Unlock
or a Done has popped are scheduled in turn, in steps of their own.
-/

namespace ConcurrencyRuntime.FiberSections

open TransitionSystem ExclusivePlaces
open FiberSync (Op)

/-- Where a fiber stands between the sections. -/
inductive Status (ι κ γ : Type*) where
  /-- Not submitted to the pool. -/
  | fresh
  /-- Submitted and not run yet. -/
  | ready
  /-- Running outside of the sections. -/
  | running
  /-- Suspended by a section of an object until a worker resumes it. -/
  | waiting (h : κ ⊕ γ)
  /-- Behind a section that popped waiters, which are to be scheduled. -/
  | scheduling (popped : List ι)
  /-- Finished. -/
  | done
  deriving DecidableEq

/-- The objects, the fibers and the pool. -/
structure Runtime (ω ι κ γ : Type*) where
  /-- The flag of each mutex. -/
  locked : κ → Bool
  /-- The owner of each mutex. -/
  owner : κ → Option ι
  /-- The counter of each wait group, a 64-bit word. -/
  counter : γ → ℕ
  /-- The waiters of each object. -/
  waiters : κ ⊕ γ → List ι
  /-- Where each fiber stands. -/
  fiber : ι → Status ι κ γ
  /-- The fiber that each worker runs. -/
  worker : ω → Option ι
  /-- The queue of the pool. -/
  tasks : List ι

/-- Scheduler choices. -/
inductive Action (ω ι κ γ : Type*) where
  /-- A new fiber is submitted to the pool. -/
  | submit (f : ι)
  /-- A free worker takes the first task. -/
  | take (v : ω)
  /-- The fiber of a worker runs a section. -/
  | perform (v : ω) (op : Op κ γ)
  /-- The fiber of a worker schedules the next waiter that it popped. -/
  | schedule (v : ω)
  /-- The fiber of a worker ends. -/
  | finish (v : ω)

/-- The waiters that a fiber popped and did not schedule yet. -/
@[grind =]
def Status.popped {ι κ γ : Type*} : Status ι κ γ → List ι
  | .scheduling popped => popped
  | _ => []

/-- A worker may resume the fiber. -/
@[grind =]
def Status.stopped {ι κ γ : Type*} : Status ι κ γ → Bool
  | .ready | .waiting _ => true
  | _ => false

/-- What a fiber does behind a section. -/
@[grind =]
def Status.after {ι κ γ : Type*} (popped : List ι) : Status ι κ γ :=
  if popped.isEmpty then .running else .scheduling popped

variable {ω ι κ γ : Type*} [DecidableEq ω] [DecidableEq ι] [DecidableEq κ] [DecidableEq γ]

/-- Move a fiber. -/
def Runtime.goto (x : Runtime ω ι κ γ) (f : ι) (q : Status ι κ γ) : Runtime ω ι κ γ :=
  { x with fiber := Function.update x.fiber f q }

/-- A section ends with its fiber in the list of the object. -/
def Runtime.park (x : Runtime ω ι κ γ) (v : ω) (f : ι) (h : κ ⊕ γ) : Runtime ω ι κ γ :=
  { x with
    waiters := Function.update x.waiters h (x.waiters h ++ [f])
    fiber := Function.update x.fiber f (.waiting h)
    worker := Function.update x.worker v none }

/-- The sections. -/
def Runtime.perform (x : Runtime ω ι κ γ) (v : ω) (f : ι) : Op κ γ → Runtime ω ι κ γ
  | .lock m =>
    if x.locked m then x.park v f (.inl m)
    else { x with
      locked := Function.update x.locked m true
      owner := Function.update x.owner m (some f) }
  | .unlock m =>
    match x.waiters (.inl m) with
    | [] => { x with
      locked := Function.update x.locked m false
      owner := Function.update x.owner m none }
    | w :: rest =>
      { x with
        owner := Function.update x.owner m (some w)
        waiters := Function.update x.waiters (.inl m) rest }.goto f (.after [w])
  | .add w amount =>
    { x with counter := Function.update x.counter w ((x.counter w + amount) % 2 ^ 64) }
  | .done w =>
    if (x.counter w + 2 ^ 64 - 1) % 2 ^ 64 = 0 then
      { x with
        counter := Function.update x.counter w 0
        waiters := Function.update x.waiters (.inr w) [] }.goto f (.after (x.waiters (.inr w)))
    else
      { x with counter := Function.update x.counter w ((x.counter w + 2 ^ 64 - 1) % 2 ^ 64) }
  | .wait w => if 0 < x.counter w then x.park v f (.inr w) else x

/-- Unlock is called by the owner only. -/
def permitted (x : Runtime ω ι κ γ) (f : ι) : Op κ γ → Bool
  | .unlock m => x.owner m = some f
  | _ => true

/-- One scheduled step. -/
def step (x : Runtime ω ι κ γ) : Action ω ι κ γ → Option (Runtime ω ι κ γ)
  | .submit f =>
    if x.fiber f = .fresh then some ({ x with tasks := x.tasks ++ [f] }.goto f .ready) else none
  | .take v =>
    match x.worker v,x.tasks with
    | none,f :: rest =>
      if (x.fiber f).stopped then
        some ({ x with
          tasks := rest
          worker := Function.update x.worker v (some f) }.goto f .running)
      else none
    | _,_ => none
  | .perform v op =>
    match x.worker v with
    | some f =>
      if x.fiber f = .running ∧ permitted x f op = true then some (x.perform v f op) else none
    | none => none
  | .schedule v =>
    match x.worker v with
    | some f =>
      match x.fiber f with
      | .scheduling (w :: rest) => some ({ x with tasks := x.tasks ++ [w] }.goto f (.after rest))
      | _ => none
    | none => none
  | .finish v =>
    match x.worker v with
    | some f =>
      if x.fiber f = .running then
        some ({ x with worker := Function.update x.worker v none }.goto f .done)
      else none
    | none => none

/-- New objects and a pool without fibers. -/
def initial (ω ι κ γ : Type*) : Runtime ω ι κ γ where
  locked _ := false
  owner _ := none
  counter _ := 0
  waiters _ := []
  fiber _ := .fresh
  worker _ := none
  tasks := []

/-- The sections as a transition system. -/
def sections (ω ι κ γ : Type*) [DecidableEq ω] [DecidableEq ι] [DecidableEq κ] [DecidableEq γ] :
    System (Runtime ω ι κ γ) (Action ω ι κ γ) :=
  ⟨initial ω ι κ γ,step⟩

/-- Where a suspended fiber can be. -/
inductive Place (ι κ γ : Type*) where
  /-- In the queue of the pool. -/
  | tasks
  /-- In the list of waiters of an object. -/
  | list (h : κ ⊕ γ)
  /-- Popped by a fiber. -/
  | popped (u : ι)
  deriving DecidableEq

/-- The fibers at each place. -/
def Runtime.content {ω ι κ γ : Type*} (x : Runtime ω ι κ γ) : Place ι κ γ → List ι
  | .tasks => x.tasks
  | .list h => x.waiters h
  | .popped u => (x.fiber u).popped

/-- Every suspended fiber is in one place at most, the others are in none. -/
structure Arranged {ω ι κ γ : Type*} (x : Runtime ω ι κ γ) : Prop where
  exclusive : Exclusive x.content
  stopped : ∀ p f, f ∈ x.content p → (x.fiber f).stopped = true
  list : ∀ h f, f ∈ x.waiters h → x.fiber f = .waiting h
  popped : ∀ u f, f ∈ (x.fiber u).popped → ∃ h, x.fiber f = .waiting h
  /-- Unlock pops one waiter. -/
  lone : ∀ u f m, f ∈ (x.fiber u).popped → x.fiber f = .waiting (.inl m) → (x.fiber u).popped = [f]

section Steps

variable {x x' : Runtime ω ι κ γ} {v : ω} {f w : ι} {h : κ ⊕ γ} {rest : List ι} {q : Status ι κ γ}

omit [DecidableEq ω] [DecidableEq ι] [DecidableEq κ] [DecidableEq γ] in
theorem Status.popped_after (popped : List ι) :
    (Status.after popped : Status ι κ γ).popped = popped := by
  cases popped with
  | nil => rfl
  | cons w rest => rfl

omit [DecidableEq ι] [DecidableEq κ] [DecidableEq γ] in
theorem Status.popped_of_stopped (hq : q.stopped = true) : q.popped = [] := by
  cases q with
  | ready | waiting k => rfl
  | fresh | running | scheduling popped | done => cases hq

omit [DecidableEq ω] [DecidableEq ι] [DecidableEq κ] [DecidableEq γ] in
/-- A fiber that is not suspended is nowhere. -/
theorem Arranged.nowhere (hA : Arranged x) (hf : (x.fiber f).stopped = false) (p : Place ι κ γ) :
    f ∉ x.content p := by
  intro hmem
  rw [hA.stopped p f hmem] at hf
  cases hf

omit [DecidableEq ω] [DecidableEq κ] [DecidableEq γ] in
/-- A fiber that is nowhere moves on with what it popped. -/
theorem Arranged.goto (hA : Arranged x) (hf : ∀ p, f ∉ x.content p)
    (hq : q.popped = (x.fiber f).popped) :
    Arranged (x.goto f q) ∧ ∀ p, f ∉ (x.goto f q).content p := by
  have hpopped : ∀ u, ((x.goto f q).fiber u).popped = (x.fiber u).popped := by
    intro u
    simp only [Runtime.goto,Function.update_apply]
    split
    next hu => rw [hu,hq]
    next => rfl
  have hcontent : (x.goto f q).content = x.content := by
    funext p
    cases p with
    | tasks | list h => rfl
    | popped u => exact hpopped u
  have hfiber : ∀ p g, g ∈ x.content p → (x.goto f q).fiber g = x.fiber g := by
    intro p g hg
    refine Function.update_of_ne ?_ ..
    rintro rfl
    exact hf p hg
  refine ⟨?_,by rwa [hcontent]⟩
  constructor
  case exclusive =>
    rw [hcontent]
    exact hA.exclusive
  case stopped =>
    intro p g hg
    rw [hcontent] at hg
    rw [hfiber p g hg]
    exact hA.stopped p g hg
  case list =>
    intro h g hg
    rw [hfiber (.list h) g hg]
    exact hA.list h g hg
  case popped =>
    intro u g hg
    rw [hpopped] at hg
    rw [hfiber (.popped u) g hg]
    exact hA.popped u g hg
  case lone =>
    intro u g m hg hwait
    rw [hpopped] at hg ⊢
    rw [hfiber (.popped u) g hg] at hwait
    exact hA.lone u g m hg hwait

omit [DecidableEq ω] in
/-- A suspended fiber is put in the queue. -/
theorem Arranged.enqueue (hA : Arranged x) (hf : ∀ p, f ∉ x.content p)
    (hstopped : (x.fiber f).stopped = true) : Arranged { x with tasks := x.tasks ++ [f] } := by
  have hcontent : ({ x with tasks := x.tasks ++ [f] } : Runtime ω ι κ γ).content =
      Function.update x.content .tasks (x.content .tasks ++ [f]) := by
    funext p
    cases p with
    | tasks => rfl
    | list h | popped u => exact (Function.update_of_ne (by rintro ⟨⟩) ..).symm
  refine ⟨?_,?_,hA.list,hA.popped,hA.lone⟩
  · rw [hcontent]
    exact hA.exclusive.insert hf
  · intro p g hg
    cases p with
    | tasks =>
      rcases List.mem_append.mp hg with hg | hg
      · exact hA.stopped .tasks g hg
      · rw [List.mem_singleton.mp hg]
        exact hstopped
    | list h => exact hA.stopped (.list h) g hg
    | popped u => exact hA.stopped (.popped u) g hg

omit [DecidableEq ω] in
/-- The first fiber is taken from the queue. -/
theorem Arranged.dequeue (hA : Arranged x) (ht : x.tasks = f :: rest) :
    Arranged { x with tasks := rest } ∧
      ∀ p, f ∉ ({ x with tasks := rest } : Runtime ω ι κ γ).content p := by
  have hcontent : ({ x with tasks := rest } : Runtime ω ι κ γ).content =
      Function.update x.content .tasks rest := by
    funext p
    cases p with
    | tasks => rfl
    | list h | popped u => exact (Function.update_of_ne (by rintro ⟨⟩) ..).symm
  have hperm : (x.content .tasks).Perm (f :: rest) := by
    rw [Runtime.content,ht]
  have hsub : rest.Subperm (x.content .tasks) :=
    (List.sublist_cons_self f rest).subperm.trans hperm.symm.subperm
  refine ⟨⟨?_,?_,hA.list,hA.popped,hA.lone⟩,?_⟩
  · rw [hcontent]
    exact hA.exclusive.keep hsub
  · intro p g hg
    cases p with
    | tasks => exact hA.stopped .tasks g (hsub.subset hg)
    | list h => exact hA.stopped (.list h) g hg
    | popped u => exact hA.stopped (.popped u) g hg
  · rw [hcontent]
    exact hA.exclusive.gone hperm

omit [DecidableEq ω] in
/-- A fiber joins the waiters of the object it waits for. -/
theorem Arranged.join (hA : Arranged x) (hf : ∀ p, f ∉ x.content p) (hw : x.fiber f = .waiting h) :
    Arranged { x with waiters := Function.update x.waiters h (x.waiters h ++ [f]) } := by
  have hcontent : ({ x with waiters := Function.update x.waiters h (x.waiters h ++ [f]) } :
      Runtime ω ι κ γ).content =
      Function.update x.content (.list h) (x.content (.list h) ++ [f]) := by
    funext p
    cases p with
    | tasks | popped u => exact (Function.update_of_ne (by rintro ⟨⟩) ..).symm
    | list k => simp [Runtime.content,Function.update_apply]
  have hlist : ∀ k g, g ∈ Function.update x.waiters h (x.waiters h ++ [f]) k →
      x.fiber g = .waiting k := by
    intro k g hg
    rw [Function.update_apply] at hg
    split at hg
    next hk =>
      subst hk
      rcases List.mem_append.mp hg with hg | hg
      · exact hA.list k g hg
      · rw [List.mem_singleton.mp hg]
        exact hw
    next => exact hA.list k g hg
  refine ⟨?_,?_,hlist,hA.popped,hA.lone⟩
  · rw [hcontent]
    exact hA.exclusive.insert hf
  · intro p g hg
    cases p with
    | tasks => exact hA.stopped .tasks g hg
    | popped u => exact hA.stopped (.popped u) g hg
    | list k =>
      rw [hlist k g hg]
      rfl

omit [DecidableEq ω] [DecidableEq κ] [DecidableEq γ] in
/-- A fiber comes to have other waiters in its hands, which were suspended by
the same object. -/
theorem Arranged.carry {popped : List ι} (hA : Arranged x) (hf : ∀ p, f ∉ x.content p)
    (hfiber : x'.fiber = Function.update x.fiber f (.after popped))
    (hex : Exclusive x'.content) (hcontent : ∀ p g, g ∈ x'.content p → ∃ p', g ∈ x.content p')
    (hlist : ∀ k g, g ∈ x'.waiters k → g ∈ x.waiters k)
    (hwait : ∀ g ∈ popped, ∃ k, x.fiber g = .waiting k)
    (hlone : ∀ g m, g ∈ popped → x.fiber g = .waiting (.inl m) → popped = [g]) : Arranged x' := by
  have hsame : ∀ p g, g ∈ x'.content p → x'.fiber g = x.fiber g := by
    intro p g hg
    obtain ⟨p',hg'⟩ := hcontent p g hg
    rw [hfiber]
    refine Function.update_of_ne ?_ ..
    rintro rfl
    exact hf p' hg'
  have hpopped : ∀ u, (x'.fiber u).popped = if u = f then popped else (x.fiber u).popped := by
    intro u
    rw [hfiber,Function.update_apply]
    split
    · exact Status.popped_after popped
    · rfl
  constructor
  case exclusive => exact hex
  case stopped =>
    intro p g hg
    obtain ⟨p',hg'⟩ := hcontent p g hg
    rw [hsame p g hg]
    exact hA.stopped p' g hg'
  case list =>
    intro k g hg
    rw [hsame (.list k) g hg]
    exact hA.list k g (hlist k g hg)
  case popped =>
    intro u g hg
    rw [hsame (.popped u) g hg]
    rw [hpopped] at hg
    split at hg
    · exact hwait g hg
    · exact hA.popped u g hg
  case lone =>
    intro u g m hg hgm
    rw [hsame (.popped u) g hg] at hgm
    rw [hpopped] at hg ⊢
    split at hg
    next hu =>
      rw [if_pos hu]
      exact hlone g m hg hgm
    next hu =>
      rw [if_neg hu]
      exact hA.lone u g m hg hgm

omit [DecidableEq ω] in
/-- Unlock pops the first waiter. -/
theorem Arranged.popOne {m : κ} (hA : Arranged x) (hf : x.fiber f = .running)
    (hlist : x.waiters (.inl m) = w :: rest)
    (hfiber : x'.fiber = Function.update x.fiber f (.after [w])) (htasks : x'.tasks = x.tasks)
    (hwaiters : x'.waiters = Function.update x.waiters (.inl m) rest) : Arranged x' := by
  have hnowhere := hA.nowhere (f := f) (by rw [hf]; rfl)
  have hempty : x.content (.popped f) = [] := by
    rw [Runtime.content,hf]
    rfl
  have hw : w ∈ x.waiters (.inl m) := by
    rw [hlist]
    exact List.mem_cons_self
  have hperm : (x.content (.list (.inl m))).Perm (w :: rest) := by
    rw [Runtime.content,hlist]
  have hcontent : x'.content = Function.update (Function.update x.content (.list (.inl m)) rest)
      (.popped f) (x.content (.popped f) ++ [w]) := by
    funext p
    cases p with
    | tasks => exact htasks
    | list k => simp [Runtime.content,hwaiters,Function.update_apply]
    | popped u =>
      simp only [Runtime.content,hfiber,Function.update_apply,Place.popped.injEq,reduceCtorEq,
        if_false]
      split
      next hu =>
        rw [hf]
        exact Status.popped_after [w]
      next => rfl
  refine hA.carry hnowhere hfiber ?_ ?_ ?_ ?_ ?_
  · rw [hcontent]
    exact hA.exclusive.move hperm (by rintro ⟨⟩)
  · intro p g hg
    rw [hcontent,hempty] at hg
    simp only [Function.update_apply] at hg
    split at hg
    · exact ⟨.list (.inl m),by rw [List.mem_singleton.mp hg]; exact hw⟩
    · split at hg
      · exact ⟨.list (.inl m),hperm.symm.subset (List.mem_cons_of_mem w hg)⟩
      · exact ⟨p,hg⟩
  · intro k g hg
    rw [hwaiters,Function.update_apply] at hg
    split at hg
    next hk =>
      rw [hk,hlist]
      exact List.mem_cons_of_mem w hg
    next => exact hg
  · intro g hg
    rw [List.mem_singleton.mp hg]
    exact ⟨_,hA.list _ w hw⟩
  · intro g _ hg _
    rw [List.mem_singleton.mp hg]

omit [DecidableEq ω] in
/-- Done pops all waiters. -/
theorem Arranged.popAll {g : γ} (hA : Arranged x) (hf : x.fiber f = .running)
    (hfiber : x'.fiber = Function.update x.fiber f (.after (x.waiters (.inr g))))
    (htasks : x'.tasks = x.tasks)
    (hwaiters : x'.waiters = Function.update x.waiters (.inr g) []) : Arranged x' := by
  have hnowhere := hA.nowhere (f := f) (by rw [hf]; rfl)
  have hcontent : x'.content = Function.update (Function.update x.content (.list (.inr g)) [])
      (.popped f) (x.content (.list (.inr g))) := by
    funext p
    cases p with
    | tasks => exact htasks
    | list k => simp [Runtime.content,hwaiters,Function.update_apply]
    | popped u =>
      simp only [Runtime.content,hfiber,Function.update_apply,Place.popped.injEq,reduceCtorEq,
        if_false]
      split
      next hu => exact Status.popped_after _
      next => rfl
  refine hA.carry hnowhere hfiber ?_ ?_ ?_ ?_ ?_
  · rw [hcontent]
    exact hA.exclusive.moveAll
  · intro p u hu
    rw [hcontent] at hu
    simp only [Function.update_apply] at hu
    split at hu
    · exact ⟨.list (.inr g),hu⟩
    · split at hu
      · cases hu
      · exact ⟨p,hu⟩
  · intro k u hu
    rw [hwaiters,Function.update_apply] at hu
    split at hu
    · cases hu
    · exact hu
  · exact fun u hu => ⟨_,hA.list _ u hu⟩
  · intro u m hu hwait
    rw [hA.list _ u hu] at hwait
    cases hwait

omit [DecidableEq ω] in
/-- A popped waiter is scheduled. -/
theorem Arranged.schedule (hA : Arranged x) (hf : x.fiber f = .scheduling (w :: rest)) :
    Arranged ({ x with tasks := x.tasks ++ [w] }.goto f (.after rest)) := by
  have hnowhere := hA.nowhere (f := f) (by rw [hf]; rfl)
  have hpopped : (x.fiber f).popped = w :: rest := by
    rw [hf]
    rfl
  have hperm : (x.content (.popped f)).Perm (w :: rest) := by
    rw [Runtime.content,hpopped]
  have hcontent : ({ x with tasks := x.tasks ++ [w] }.goto f (.after rest)).content =
      Function.update (Function.update x.content (.popped f) rest) .tasks
        (x.content .tasks ++ [w]) := by
    funext p
    cases p with
    | tasks => rfl
    | list k => rfl
    | popped u =>
      simp only [Runtime.content,Runtime.goto,Function.update_apply,Place.popped.injEq,
        reduceCtorEq,if_false]
      split
      next hu => exact Status.popped_after rest
      next => rfl
  refine hA.carry hnowhere rfl ?_ ?_ (fun _ _ hg => hg) ?_ ?_
  · rw [hcontent]
    exact hA.exclusive.move hperm (by rintro ⟨⟩)
  · intro p g hg
    rw [hcontent] at hg
    simp only [Function.update_apply] at hg
    split at hg
    · rcases List.mem_append.mp hg with hg | hg
      · exact ⟨.tasks,hg⟩
      · rw [List.mem_singleton.mp hg]
        exact ⟨.popped f,hperm.symm.subset List.mem_cons_self⟩
    · split at hg
      · exact ⟨.popped f,hperm.symm.subset (List.mem_cons_of_mem w hg)⟩
      · exact ⟨p,hg⟩
  · exact fun g hg => hA.popped f g (by rw [hpopped]; exact List.mem_cons_of_mem w hg)
  · intro g m hg hwait
    have hone := hA.lone f g m (by rw [hpopped]; exact List.mem_cons_of_mem w hg) hwait
    rw [hpopped] at hone
    cases hone
    cases hg

/-- A section that parks its fiber. -/
theorem Arranged.park (hA : Arranged x) (hf : x.fiber f = .running) : Arranged (x.park v f h) := by
  have hnowhere := hA.nowhere (f := f) (by rw [hf]; rfl)
  obtain ⟨hgoto,hout⟩ := hA.goto (q := .waiting h) hnowhere (by rw [hf]; rfl)
  have hjoin := hgoto.join hout (Function.update_self ..)
  exact ⟨hjoin.exclusive,hjoin.stopped,hjoin.list,hjoin.popped,hjoin.lone⟩

/-- The sections keep the fibers in their places. -/
theorem Arranged.perform {op : Op κ γ} (hA : Arranged x) (hf : x.fiber f = .running) :
    Arranged (x.perform v f op) := by
  have hsame : ∀ x' : Runtime ω ι κ γ, x'.fiber = x.fiber → x'.tasks = x.tasks →
      x'.waiters = x.waiters → Arranged x' := by
    intro x' hfiber htasks hwaiters
    have hcontent : x'.content = x.content := by
      funext p
      cases p with
      | tasks => exact htasks
      | list k => exact congrFun hwaiters k
      | popped u => rw [Runtime.content,Runtime.content,hfiber]
    refine ⟨?_,?_,?_,?_,?_⟩
    · rw [hcontent]
      exact hA.exclusive
    · rw [hcontent,hfiber]
      exact hA.stopped
    · rw [hwaiters,hfiber]
      exact hA.list
    · rw [hfiber]
      exact hA.popped
    · rw [hfiber]
      exact hA.lone
  unfold Runtime.perform
  cases op with
  | lock m =>
    simp only
    split
    · exact hA.park hf
    · exact hsame _ rfl rfl rfl
  | unlock m =>
    simp only
    split
    · exact hsame _ rfl rfl rfl
    next w rest hlist => exact hA.popOne hf hlist rfl rfl rfl
  | add w amount => exact hsame _ rfl rfl rfl
  | done w =>
    simp only
    split
    · exact hA.popAll hf rfl rfl rfl
    · exact hsame _ rfl rfl rfl
  | wait w =>
    simp only
    split
    · exact hA.park hf
    · exact hA

/-- Every step keeps the fibers in their places. -/
theorem arranged_step {a : Action ω ι κ γ} (hA : Arranged x) (hs : step x a = some x') :
    Arranged x' := by
  cases a with
  | submit f =>
    simp only [step] at hs
    split at hs <;> cases hs
    next hf =>
      have hnowhere := hA.nowhere (f := f) (by rw [hf]; rfl)
      obtain ⟨hgoto,hout⟩ := hA.goto (q := .ready) hnowhere (by rw [hf]; rfl)
      refine hgoto.enqueue hout ?_
      simp only [Runtime.goto,Function.update_self]
      rfl
  | take v =>
    simp only [step] at hs
    split at hs
    next f rest hv ht =>
      split at hs <;> cases hs
      next hf =>
        obtain ⟨hrest,hout⟩ := hA.dequeue ht
        have hnone := Status.popped_of_stopped hf
        have hgoto := (hrest.goto (q := .running) hout hnone.symm).1
        exact ⟨hgoto.exclusive,hgoto.stopped,hgoto.list,hgoto.popped,hgoto.lone⟩
    next => cases hs
  | perform v op =>
    simp only [step] at hs
    split at hs
    next f hv =>
      split at hs <;> cases hs
      next hf => exact hA.perform hf.1
    next => cases hs
  | schedule v =>
    simp only [step] at hs
    split at hs
    next f hv =>
      split at hs <;> cases hs
      next w rest hf => exact hA.schedule hf
    next => cases hs
  | finish v =>
    simp only [step] at hs
    split at hs
    next f hv =>
      split at hs <;> cases hs
      next hf =>
        have hgoto := (hA.goto (q := .done) (hA.nowhere (by rw [hf]; rfl)) (by rw [hf]; rfl)).1
        exact ⟨hgoto.exclusive,hgoto.stopped,hgoto.list,hgoto.popped,hgoto.lone⟩
    next => cases hs

end Steps

omit [DecidableEq ω] [DecidableEq ι] [DecidableEq κ] [DecidableEq γ] in
/-- Nothing is anywhere at first. -/
theorem arranged_initial : Arranged (initial ω ι κ γ) := by
  have hcontent : (initial ω ι κ γ).content = fun _ => [] := by
    funext p
    cases p with
    | tasks | list k | popped u => rfl
  constructor
  case exclusive =>
    rw [hcontent]
    exact exclusive_empty
  case stopped =>
    rw [hcontent]
    rintro _ _ ⟨⟩
  case list => rintro _ _ ⟨⟩
  case popped => rintro _ _ ⟨⟩
  case lone => rintro _ _ _ ⟨⟩

/-- Every state reached is in order. -/
theorem arranged_reachable {x : Runtime ω ι κ γ} (hr : (sections ω ι κ γ).Reachable x) :
    Arranged x :=
  hr.invariant arranged_initial fun _ _ _ hA hs => arranged_step hA hs

end ConcurrencyRuntime.FiberSections
