import ConcurrencyRuntime.IntrusiveList
import ConcurrencyRuntime.TransitionSystem

/-!
# The fiber mutex with its waiters

Each section under spinlock_ is one step, as the guards make it in the runs of
mutex_of_guards; the section of a Lock that parks ends after Park in
AwaitSuspend. Unlock hands the mutex to the first waiter without clearing
locked_, leaves its section, and schedules the waiter in a step of its own; a
worker resumes it later. The owner may thus be a fiber that was popped and is
not scheduled, or scheduled and not resumed.
-/

namespace ConcurrencyRuntime.AsyncMutex

open TransitionSystem IntrusiveList

/-- Where a fiber stands. -/
inductive FiberPc (ι : Type*) where
  /-- Running outside of Lock and Unlock. -/
  | outside
  /-- Suspended by Lock until a worker resumes it. -/
  | suspended
  /-- In Unlock after its section, with next_waiter to schedule. The number of
  hand-offs before this one is kept as history. -/
  | unlocking (nextWaiter : ι) (ticket : ℕ)
  deriving DecidableEq

/-- The mutex, its waiters, the pool and the history. A waiter lives on the
stack of its fiber and is addressed by it. -/
structure Mutex (ι : Type*) where
  /-- The flag that Lock tests. -/
  locked : Bool
  /-- The header of the list of waiters. -/
  waiters : Header ι
  /-- The next field of each waiter. -/
  next : ι → Option ι
  /-- Where each fiber stands. -/
  fiber : ι → FiberPc ι
  /-- The queue of the pool. -/
  tasks : List ι
  /-- History: the fiber took the free path of Lock or was popped by Unlock,
  and has not called Unlock since. -/
  owns : ι → Bool
  /-- History: fibers in the order of Park. -/
  parks : List ι
  /-- History: fibers in the order in which Unlock popped them. -/
  grants : List ι
  /-- History: the tickets of the waiters that were scheduled. -/
  schedules : List ℕ

/-- Scheduler choices. -/
inductive Action (ι : Type*) where
  /-- A fiber runs the section of Lock. -/
  | lock (f : ι)
  /-- The owner runs the section of Unlock. -/
  | unlock (f : ι)
  /-- A fiber in Unlock schedules the waiter it popped. -/
  | schedule (f : ι)
  /-- A worker takes the first task and resumes it. -/
  | resume

variable {ι : Type*} [DecidableEq ι]

/-- Lock takes a free mutex, and parks a new waiter on a locked one. -/
def lock (s : Mutex ι) (f : ι) : Mutex ι :=
  if s.locked then
    { s with
      waiters := s.waiters.push f
      next := s.waiters.pushLinks (Function.update s.next f none) f
      fiber := Function.update s.fiber f .suspended
      parks := s.parks ++ [f] }
  else { s with locked := true, owns := Function.update s.owns f true }

/-- Unlock frees the mutex when nobody waits, and pops the first waiter
otherwise. -/
def unlock (s : Mutex ι) (f : ι) : Mutex ι :=
  if s.waiters.isEmpty then { s with locked := false, owns := Function.update s.owns f false }
  else
    match s.waiters.popped with
    | none => { s with waiters := s.waiters.pop s.next, owns := Function.update s.owns f false }
    | some w => { s with
        waiters := s.waiters.pop s.next
        fiber := Function.update s.fiber f (.unlocking w s.grants.length)
        owns := Function.update (Function.update s.owns f false) w true
        grants := s.grants ++ [w] }

/-- One scheduled step. -/
def step (s : Mutex ι) : Action ι → Option (Mutex ι)
  | .lock f => if s.fiber f = .outside then some (lock s f) else none
  | .unlock f => if s.fiber f = .outside ∧ s.owns f = true then some (unlock s f) else none
  | .schedule f =>
    match s.fiber f with
    | .unlocking w k => some { s with
        fiber := Function.update s.fiber f .outside
        tasks := s.tasks ++ [w]
        schedules := s.schedules ++ [k] }
    | _ => none
  | .resume =>
    match s.tasks with
    | w :: rest =>
      if s.fiber w = .suspended then
        some { s with tasks := rest, fiber := Function.update s.fiber w .outside }
      else none
    | [] => none

/-- A new mutex and fibers that have not used it. -/
def initial (ι : Type*) : Mutex ι :=
  ⟨false,.clear,fun _ => none,fun _ => .outside,[],fun _ => false,[],[],[]⟩

/-- The mutex as a transition system. -/
def mutex (ι : Type*) [DecidableEq ι] : System (Mutex ι) (Action ι) :=
  ⟨initial ι,step⟩

/-- Where the ownership and every waiter are, with the waiters written out. -/
structure Accounted {ι : Type*} (s : Mutex ι) (ws : List ι) : Prop where
  /-- The list of waiters holds exactly the fibers that parked and were not
  popped, in the order of Park. -/
  holds : Holds s.next s.waiters ws
  parks : s.parks = s.grants ++ ws
  waiting : ∀ f ∈ ws, s.fiber f = .suspended
  /-- A free mutex has neither waiters nor an owner. -/
  free : s.locked = false → ws = [] ∧ ∀ f, s.owns f = false
  held : s.locked = true → ∃ f, s.owns f = true
  unique : ∀ f g, s.owns f = true → s.owns g = true → f = g
  /-- A popped waiter owns the mutex and is out of the list and of the pool
  until it is scheduled, for the first time. -/
  popped : ∀ u w k, s.fiber u = .unlocking w k → s.owns w = true ∧ s.fiber w = .suspended ∧
    w ∉ ws ∧ w ∉ s.tasks ∧ k + 1 = s.grants.length ∧ k ∉ s.schedules
  poppedUnique : ∀ u v w x k j, s.fiber u = .unlocking w k → s.fiber v = .unlocking x j → u = v
  /-- A scheduled waiter owns the mutex until it is resumed. -/
  scheduled : ∀ w ∈ s.tasks, s.owns w = true ∧ s.fiber w = .suspended ∧ w ∉ ws
  tasks : s.tasks.Nodup
  /-- A suspended fiber waits, is about to be scheduled or is scheduled. -/
  placed : ∀ f, s.fiber f = .suspended →
    f ∈ ws ∨ (∃ u k, s.fiber u = .unlocking f k) ∨ f ∈ s.tasks
  schedules : s.schedules.Nodup
  granted : ∀ k ∈ s.schedules, k < s.grants.length

section Steps

variable {s s' : Mutex ι} {ws : List ι} {f : ι}

omit [DecidableEq ι] in
theorem accounted_initial : Accounted (initial ι) [] := by
  constructor <;> simp [initial,holds_clear]

/-- Lock keeps the account: the free path makes the only owner, the other
path appends a waiter. -/
theorem Accounted.lock (h : Accounted s ws) (hf : s.fiber f = .outside) :
    ∃ ws', Accounted (lock s f) ws' := by
  have hout : f ∉ ws := by
    intro hmem
    rw [h.waiting f hmem] at hf
    cases hf
  have hpop : ∀ u k, s.fiber u ≠ .unlocking f k := by
    intro u k hu
    rw [(h.popped u f k hu).2.1] at hf
    cases hf
  have htask : f ∉ s.tasks := by
    intro hmem
    rw [(h.scheduled f hmem).2.1] at hf
    cases hf
  unfold AsyncMutex.lock
  split
  next hl =>
    refine ⟨ws ++ [f],?_⟩
    refine ⟨(h.holds.write hout none).push hout,by simp [h.parks],?_,by simp [hl],h.held,h.unique,
      ?_,?_,?_,h.tasks,?_,h.schedules,h.granted⟩
    all_goals simp only [Function.update_apply]
    · grind [h.waiting]
    · grind [h.popped]
    · grind [h.poppedUnique]
    · grind [h.scheduled]
    · grind [h.placed]
  next hl =>
    have hnobody := (h.free (by simpa using hl)).2
    refine ⟨ws,h.holds,h.parks,h.waiting,by rintro ⟨⟩,fun _ => ⟨f,by simp⟩,?_,?_,h.poppedUnique,?_,
      h.tasks,h.placed,h.schedules,h.granted⟩
    all_goals simp only [Function.update_apply]
    · grind
    · grind [h.popped]
    · grind [h.scheduled]

/-- Unlock keeps the account: nobody else can be in Unlock, and the popped
waiter becomes the only owner. -/
theorem Accounted.unlock (h : Accounted s ws) (hf : s.fiber f = .outside) (ho : s.owns f = true) :
    ∃ ws', Accounted (unlock s f) ws' := by
  have honly : ∀ g, s.owns g = true → g = f := fun g hg => h.unique g f hg ho
  have hnone : ∀ u w k, s.fiber u ≠ .unlocking w k := by
    intro u w k hu
    obtain ⟨hw,hs,-⟩ := h.popped u w k hu
    rw [honly w hw,hf] at hs
    cases hs
  have hidle : s.tasks = [] := by
    rw [List.eq_nil_iff_forall_not_mem]
    intro w hw
    obtain ⟨hown,hs,-⟩ := h.scheduled w hw
    rw [honly w hown,hf] at hs
    cases hs
  obtain ⟨hpopped,hpop⟩ := h.holds.pop
  unfold AsyncMutex.unlock
  rw [h.holds.isEmpty,hpopped]
  cases ws with
  | nil =>
    refine ⟨[],h.holds,h.parks,h.waiting,fun _ => ⟨rfl,?_⟩,by rintro ⟨⟩,?_,?_,h.poppedUnique,?_,
      h.tasks,h.placed,h.schedules,h.granted⟩
    all_goals simp only [List.isEmpty_nil,if_true,Function.update_apply]
    · grind
    · grind
    · grind
    · grind
  | cons w rest =>
    have hw := h.waiting w List.mem_cons_self
    have hgranted := h.granted
    have hplaced := h.placed
    have hnd := List.nodup_cons.mp h.holds.nodup
    have hne : w ≠ f := by
      rintro rfl
      rw [hw] at hf
      cases hf
    refine ⟨rest,hpop,by simp [h.parks],?_,?_,fun _ => ⟨w,by simp⟩,?_,?_,?_,?_,h.tasks,?_,
      h.schedules,?_⟩
    all_goals simp only [Function.update_apply,List.isEmpty_cons,Bool.false_eq_true,if_false,
      List.head?_cons]
    · grind [h.waiting]
    · grind [h.free]
    · grind
    · grind
    · grind
    · grind
    · intro g hg
      by_cases hgw : g = w
      · exact Or.inr (Or.inl ⟨f,s.grants.length,by simp [hgw]⟩)
      · grind
    · grind

/-- Schedule moves the popped waiter into the pool, once. -/
theorem Accounted.schedule {w : ι} {k : ℕ} (h : Accounted s ws) (hf : s.fiber f = .unlocking w k) :
    Accounted { s with
      fiber := Function.update s.fiber f .outside
      tasks := s.tasks ++ [w]
      schedules := s.schedules ++ [k] } ws := by
  obtain ⟨hown,hs,hws,ht,hk,hnew⟩ := h.popped f w k hf
  have honly := fun u v j hu => h.poppedUnique u f v w j k hu hf
  have hplaced := h.placed
  have hgranted := h.granted
  refine ⟨h.holds,h.parks,?_,h.free,h.held,h.unique,?_,?_,?_,?_,?_,?_,?_⟩
  all_goals simp only [Function.update_apply]
  · grind [h.waiting]
  · grind
  · grind
  · grind [h.scheduled]
  · grind [h.tasks]
  · grind
  · grind [h.schedules]
  · grind

/-- A worker resumes the owner, which leaves Lock. -/
theorem Accounted.resume {w : ι} {rest : List ι} (h : Accounted s ws) (ht : s.tasks = w :: rest) :
    Accounted { s with tasks := rest, fiber := Function.update s.fiber w .outside } ws := by
  obtain ⟨hown,hs,hws⟩ := h.scheduled w (by simp [ht])
  have htasks := h.tasks
  refine ⟨h.holds,h.parks,?_,h.free,h.held,h.unique,?_,?_,?_,?_,?_,h.schedules,h.granted⟩
  all_goals simp only [Function.update_apply]
  · grind [h.waiting]
  · grind [h.popped]
  · grind [h.poppedUnique]
  · grind [h.scheduled]
  · grind
  · grind [h.placed]

/-- Every step keeps the account. -/
theorem accounted_step {a : Action ι} (h : Accounted s ws) (hs : step s a = some s') :
    ∃ ws', Accounted s' ws' := by
  cases a with
  | lock f =>
    simp only [step] at hs
    split at hs <;> cases hs
    next hf => exact h.lock hf
  | unlock f =>
    simp only [step] at hs
    split at hs <;> cases hs
    next hf => exact h.unlock hf.1 hf.2
  | schedule f =>
    simp only [step] at hs
    split at hs <;> cases hs
    next w k hf => exact ⟨ws,h.schedule hf⟩
  | resume =>
    simp only [step] at hs
    split at hs
    next w rest ht =>
      split at hs <;> cases hs
      exact ⟨ws,h.resume ht⟩
    next => cases hs

/-- Every reachable mutex is accounted for. -/
theorem accounted_reachable (hr : (mutex ι).Reachable s) : ∃ ws, Accounted s ws := by
  refine System.Reachable.invariant ?_ ?_ hr
  · exact ⟨[],accounted_initial⟩
  · rintro s a s' ⟨ws,h⟩ hs
    exact accounted_step h hs

end Steps

/-- Mutual exclusion, hand-off in the order of parking, no lost waiter. -/
structure Excludes {ι : Type*} (s : Mutex ι) : Prop where
  /-- At most one fiber owns the mutex. -/
  owner_unique : ∀ f g, s.owns f = true → s.owns g = true → f = g
  /-- The flag is false exactly when there is no owner. -/
  locked_iff : s.locked = false ↔ ∀ f, s.owns f = false
  /-- Nobody waits for a free mutex. -/
  free_empty : s.locked = false → s.waiters.isEmpty = true
  /-- The waiters in the list are suspended, and they are exactly those that
  parked and were not popped: owners are made in the order of Park, and a
  waiter stays in the list until it is made the owner. -/
  fifo : ∃ ws, Holds s.next s.waiters ws ∧ s.parks = s.grants ++ ws ∧
    ∀ f ∈ ws, s.fiber f = .suspended
  /-- A waiter is scheduled at most once, and only after it was popped. -/
  scheduled_once : s.schedules.Nodup ∧ ∀ k ∈ s.schedules, k < s.grants.length
  /-- A suspended fiber that left the list owns the mutex, and is held by the
  Unlock that popped it or by the pool. -/
  popped_owner : ∀ f ws, Holds s.next s.waiters ws → s.fiber f = .suspended → f ∉ ws →
    s.owns f = true ∧ ((∃ u k, s.fiber u = .unlocking f k) ∨ f ∈ s.tasks)

/-- For any number of fibers and every order of steps. -/
theorem mutex_excludes {s : Mutex ι} (hr : (mutex ι).Reachable s) : Excludes s := by
  obtain ⟨ws,h⟩ := accounted_reachable hr
  refine ⟨h.unique,?_,?_,⟨ws,h.holds,h.parks,h.waiting⟩,⟨h.schedules,h.granted⟩,?_⟩
  · constructor
    · exact fun hl => (h.free hl).2
    · intro hnobody
      by_contra hl
      obtain ⟨f,hf⟩ := h.held (by simpa using hl)
      rw [hnobody f] at hf
      cases hf
  · intro hl
    rw [h.holds.isEmpty,(h.free hl).1]
    rfl
  · intro f ws' hholds hf hout
    rw [hholds.unique h.holds] at hout
    rcases h.placed f hf with hmem | ⟨u,k,hu⟩ | hmem
    · exact absurd hmem hout
    · exact ⟨(h.popped u f k hu).1,Or.inl ⟨u,k,hu⟩⟩
    · exact ⟨(h.scheduled f hmem).1,Or.inr hmem⟩

/-- Two fibers park; the owner hands over to the first, which is the owner
before it is scheduled, and a third Lock parks behind the second. -/
theorem mutex_excludes_handoff :
    ∃ s, (mutex (Fin 4)).Reachable s ∧
      (s.fiber 0 = .unlocking 1 0 ∧ s.owns 1 = true ∧ s.tasks = [] ∧ s.parks = [1,2,3]) ∧
      Excludes s := by
  have hrun : (mutex (Fin 4)).Ends (initial (Fin 4))
      [.lock 0,.lock 1,.lock 2,.unlock 0,.lock 3]
      fun s => s.fiber 0 = .unlocking 1 0 ∧ s.owns 1 = true ∧ s.tasks = [] ∧ s.parks = [1,2,3] := by
    decide
  obtain ⟨s,hr,hend⟩ := hrun.reachable
  exact ⟨s,hr,hend,mutex_excludes hr⟩

end ConcurrencyRuntime.AsyncMutex
