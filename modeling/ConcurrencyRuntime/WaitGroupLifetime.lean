import ConcurrencyRuntime.QueueSpinLock
import ConcurrencyRuntime.Tally
import ConcurrencyRuntime.TransitionSystem

/-!
# The end of a wait group

One fiber constructs a wait group, calls Add with n, then Wait, and destroys the
wait group when Wait has returned; n other parties call Done once each, at any
moment. One step is one atomic access of the queue spinlock, one access to a field
of the wait group or one step of the walk over the waiters; only the Park and the
Release of a Wait that suspends are one step together. A Done accesses the lock
word for the last time before its hand-over can be seen, and the fields before
that, so that nothing of the wait group is accessed after Wait has returned.
-/

namespace ConcurrencyRuntime.WaitGroupLifetime

open TransitionSystem QueueSpinLock Tally

/-- The guards of the two calls of the fiber and of the calls of Done. -/
inductive Guard (n : ℕ) where
  | add
  | wait
  | done (i : Fin n)
  deriving DecidableEq

/-- The waiters that can be in the list: the one of the fiber. -/
inductive Waiter where
  | fiber
  deriving DecidableEq

/-- Program points of the fiber. -/
inductive FiberPc (n : ℕ) where
  /-- Add: Acquire. -/
  | addAcquire (pc : AcquirePc (Guard n))
  /-- Add: the load of counter_. -/
  | addLoad
  /-- Add: the store of the sum. -/
  | addStore (value : ℕ)
  /-- Add: the destructor of the guard loads is_owner. -/
  | addDestroy
  /-- Add: Release. -/
  | addRelease (pc : ReleasePc (Guard n))
  /-- Wait: Acquire. -/
  | waitAcquire (pc : AcquirePc (Guard n))
  /-- Wait: the load of counter_. -/
  | waitTest
  /-- Wait: AwaitSuspend parks the waiter and releases the guard. -/
  | waitPark
  /-- Suspended in Wait. -/
  | parked
  /-- Scheduled, and not resumed yet. -/
  | scheduled
  /-- Resumed: the destructor of the guard loads is_owner. -/
  | resumed
  /-- Wait did not suspend: the destructor of the guard loads is_owner. -/
  | waitDestroy
  /-- Wait: Release. -/
  | waitRelease (pc : ReleasePc (Guard n))
  /-- Wait has returned; the wait group is destroyed. -/
  | returned
  deriving DecidableEq

/-- Program points of a call of Done. -/
inductive DonePc (n : ℕ) where
  /-- Not called yet. -/
  | fresh
  /-- Acquire. -/
  | acquire (pc : AcquirePc (Guard n))
  /-- The load of counter_. -/
  | load
  /-- The store of the difference. -/
  | store (value : ℕ)
  /-- The load of counter_ that is compared with zero. -/
  | test
  /-- The Pop of the first waiter. -/
  | pop
  /-- The Clear of the list, with the popped waiter and those linked behind it. -/
  | clear (waiters : List Waiter)
  /-- The destructor of the guard loads is_owner. -/
  | destroy (waiters : List Waiter)
  /-- Release. -/
  | release (waiters : List Waiter) (pc : ReleasePc (Guard n))
  /-- The walk: Next of a waiter. -/
  | next (waiter : Waiter) (rest : List Waiter)
  /-- The walk: Schedule of a waiter. -/
  | schedule (waiter : Waiter) (rest : List Waiter)
  /-- Done has returned. -/
  | finished
  deriving DecidableEq

/-- The wait group, the fiber and the parties. -/
structure State (n : ℕ) where
  /-- The field counter_, a 64-bit word. -/
  counter : ℕ
  /-- The field spinlock_, with the fields of the guards. -/
  spinlock : Lock (Guard n)
  /-- The field wg_waiters_, oldest first. -/
  wgWaiters : List Waiter
  /-- The fiber. -/
  fiber : FiberPc n
  /-- The calls of Done. -/
  party : Fin n → DonePc n

/-- Scheduler choices; a weak compare-exchange reads the flag. -/
inductive Action (n : ℕ) where
  /-- The next step of the fiber. -/
  | fiber (spurious : Bool)
  /-- A party calls Done. -/
  | call (i : Fin n)
  /-- The next step of a call of Done. -/
  | party (i : Fin n) (spurious : Bool)

variable {n : ℕ}

/-- Stay in Acquire, or go on when it has returned. -/
def afterAcquire {P : Type} (stay : AcquirePc (Guard n) → P) (after : P) : AcquirePc (Guard n) → P
  | .returned => after
  | pc => stay pc

/-- Stay in Release, or go on when it has returned. -/
def afterRelease {P : Type} (stay : ReleasePc (Guard n) → P) (after : P) : ReleasePc (Guard n) → P
  | .returned => after
  | pc => stay pc

/-- The whole Release of a guard as one step, enabled where it can come to its end:
a guard that has exchanged the tail must have linked itself before. -/
def releaseAll (l : Lock (Guard n)) (g : Guard n) : Option (Lock (Guard n)) :=
  match l.next g with
  | some next => some ((l.setOwner next).release g false .clear).1
  | none =>
    if l.tail = some g then some (Lock.release { l with tail := none } g false .clear).1 else none

/-- One step of the fiber. -/
def State.fiberStep (s : State n) (spurious : Bool) : Option (State n) :=
  match s.fiber with
  | .addAcquire pc =>
    some { s with
      spinlock := (s.spinlock.acquire .add pc).1
      fiber := afterAcquire .addAcquire .addLoad (s.spinlock.acquire .add pc).2 }
  | .addLoad => some { s with fiber := .addStore s.counter }
  | .addStore value => some { s with counter := (value + n) % 2 ^ 64, fiber := .addDestroy }
  | .addDestroy =>
    some { s with
      fiber := if s.spinlock.isOwner .add then .addRelease .hasNext else .waitAcquire .exchange }
  | .addRelease pc =>
    some { s with
      spinlock := (s.spinlock.release .add spurious pc).1
      fiber := afterRelease .addRelease (.waitAcquire .exchange)
        (s.spinlock.release .add spurious pc).2 }
  | .waitAcquire pc =>
    some { s with
      spinlock := (s.spinlock.acquire .wait pc).1
      fiber := afterAcquire .waitAcquire .waitTest (s.spinlock.acquire .wait pc).2 }
  | .waitTest => some { s with fiber := if 0 < s.counter then .waitPark else .waitDestroy }
  | .waitPark =>
    match releaseAll s.spinlock .wait with
    | some l =>
      some { s with spinlock := l, wgWaiters := s.wgWaiters ++ [.fiber], fiber := .parked }
    | none => none
  | .parked => none
  | .scheduled => some { s with fiber := .resumed }
  | .resumed | .waitDestroy =>
    some { s with
      fiber := if s.spinlock.isOwner .wait then .waitRelease .hasNext else .returned }
  | .waitRelease pc =>
    some { s with
      spinlock := (s.spinlock.release .wait spurious pc).1
      fiber := afterRelease .waitRelease .returned (s.spinlock.release .wait spurious pc).2 }
  | .returned => none

/-- Move a call of Done. -/
def State.goto (s : State n) (i : Fin n) (pc : DonePc n) : State n :=
  { s with party := Function.update s.party i pc }

/-- Where a call of Done goes when its guard is destroyed. -/
def walk : List Waiter → DonePc n
  | [] => .finished
  | w :: rest => .next w rest

/-- Schedule of the waiter of the fiber. -/
def FiberPc.wake : FiberPc n → FiberPc n
  | .parked => .scheduled
  | pc => pc

/-- One step of a call of Done. -/
def State.partyStep (s : State n) (i : Fin n) (spurious : Bool) : Option (State n) :=
  match s.party i with
  | .fresh | .finished => none
  | .acquire pc =>
    some ({ s with spinlock := (s.spinlock.acquire (.done i) pc).1 }.goto i
      (afterAcquire .acquire .load (s.spinlock.acquire (.done i) pc).2))
  | .load => some (s.goto i (.store s.counter))
  | .store value => some ({ s with counter := (value + 2 ^ 64 - 1) % 2 ^ 64 }.goto i .test)
  | .test => some (s.goto i (if s.counter = 0 then .pop else .destroy []))
  | .pop => some ({ s with wgWaiters := s.wgWaiters.tail }.goto i (.clear s.wgWaiters))
  | .clear waiters => some ({ s with wgWaiters := [] }.goto i (.destroy waiters))
  | .destroy waiters =>
    some (s.goto i
      (if s.spinlock.isOwner (.done i) then .release waiters .hasNext else walk waiters))
  | .release waiters pc =>
    some ({ s with spinlock := (s.spinlock.release (.done i) spurious pc).1 }.goto i
      (afterRelease (.release waiters) (walk waiters) (s.spinlock.release (.done i) spurious pc).2))
  | .next w rest => some (s.goto i (.schedule w rest))
  | .schedule _ rest => some ({ s with fiber := s.fiber.wake }.goto i (walk rest))

/-- One scheduled step. -/
def step (s : State n) : Action n → Option (State n)
  | .fiber spurious => s.fiberStep spurious
  | .call i =>
    match s.party i with
    | .fresh => some (s.goto i (.acquire .exchange))
    | _ => none
  | .party i spurious => s.partyStep i spurious

/-- A new wait group, before Add. -/
def initial (n : ℕ) : State n :=
  ⟨0,Lock.new _,[],.addAcquire .exchange,fun _ => .fresh⟩

/-- The wait group with its fiber and its parties. -/
def waitGroup (n : ℕ) : System (State n) (Action n) := ⟨initial n,step⟩

/-- The next step of a call of Done reads or writes counter_, wg_waiters_ or the
tail of the spinlock. -/
def DonePc.touches : DonePc n → Bool
  | .acquire .exchange | .load | .store _ | .test | .pop | .clear _ | .release _ .cas => true
  | _ => false

/-- A call of Done that has no access to the wait group left. -/
def DonePc.past : DonePc n → Bool
  | .release _ .clear | .next .. | .schedule .. | .finished => true
  | _ => false

/-- A call of Done that has decremented the counter. -/
def DonePc.stored : DonePc n → ℕ
  | .fresh | .acquire _ | .load | .store _ => 0
  | _ => 1

/-- A call of Done that has read zero, so far as its program point tells. -/
def DonePc.zero : DonePc n → Bool
  | .pop | .clear _ | .destroy (_ :: _) | .release (_ :: _) _ | .next .. | .schedule .. => true
  | _ => false

/-- The fiber has added. -/
def FiberPc.added : FiberPc n → Bool
  | .addAcquire _ | .addLoad | .addStore _ => false
  | _ => true

/-- Wait has read zero, or the fiber was scheduled. -/
def FiberPc.over : FiberPc n → Bool
  | .scheduled | .resumed | .waitDestroy | .waitRelease _ | .returned => true
  | _ => false

/-- The phase of the guard of Add. -/
def FiberPc.addPhase : FiberPc n → Phase (Guard n)
  | .addAcquire pc => pc.phase
  | .addLoad | .addStore _ | .addDestroy => .holding
  | .addRelease pc => pc.phase
  | _ => .out

/-- The phase of the guard of Wait. -/
def FiberPc.waitPhase : FiberPc n → Phase (Guard n)
  | .waitAcquire pc => pc.phase
  | .waitTest | .waitPark | .waitDestroy => .holding
  | .waitRelease pc => pc.phase
  | _ => .out

/-- The phase of the guard of Done. -/
def DonePc.phase : DonePc n → Phase (Guard n)
  | .acquire pc => pc.phase
  | .load | .store _ | .test | .pop | .clear _ | .destroy _ => .holding
  | .release _ pc => pc.phase
  | _ => .out

/-- The phase of each guard. -/
def State.phase (s : State n) : Guard n → Phase (Guard n)
  | .add => s.fiber.addPhase
  | .wait => s.fiber.waitPhase
  | .done i => (s.party i).phase

/-- The fiber has not exchanged the tail for Wait. -/
def FiberPc.beforeWait : FiberPc n → Bool
  | .addAcquire _ | .addLoad | .addStore _ | .addDestroy | .addRelease _
  | .waitAcquire .exchange => true
  | _ => false

/-- The guard has not exchanged the tail. -/
def State.entering (s : State n) : Guard n → Bool
  | .add => s.fiber = .addAcquire .exchange
  | .wait => s.fiber.beforeWait
  | .done i => s.party i = .fresh ∨ s.party i = .acquire .exchange

/-- The guards, the counter and what zero means. -/
structure Inv (s : State n) : Prop where
  queued : ∃ q, Queued s.spinlock s.phase q
  next : ∀ g, s.entering g = true → s.spinlock.next g = none
  /-- The counter is what was added less the number of calls that decremented it. -/
  counter : (s.counter + tally DonePc.stored s.party) % 2 ^ 64 =
    (if s.fiber.added then n else 0) % 2 ^ 64
  word : s.counter < 2 ^ 64
  addLoaded : ∀ value, s.fiber = .addStore value → value = s.counter
  loaded : ∀ i value, s.party i = .store value → value = s.counter
  fiberFault : s.fiber ≠ .addRelease .fault ∧ s.fiber ≠ .waitRelease .fault
  partyFault : ∀ i waiters pc, s.party i = .release waiters pc → pc ≠ .fault ∧ pc ≠ .returned
  /-- When Wait is over, so is every call of Done. -/
  ended : s.fiber.over = true → ∀ i, (s.party i).past = true
  /-- When a call of Done has read zero, every other one is over. -/
  zero : ∀ i, (s.party i).zero = true → ∀ j, j ≠ i → (s.party j).past = true

section Lemmas

variable {s s' : State n} {g g' : Guard n} {i j : Fin n}

/-- The guard has the lock. -/
def Section (p : Phase (Guard n)) : Prop := p.queued = true ∧ p.behind = false

/-- One guard at a time has the lock. -/
theorem Inv.exclusive (h : Inv s) (hg : Section (s.phase g))
    (hg' : Section (s.phase g')) : g = g' := by
  obtain ⟨q,hq⟩ := h.queued
  have hhead := hq.head_of hg.1 hg.2
  have hhead' := hq.head_of hg'.1 hg'.2
  exact Option.some.inj (hhead.symm.trans hhead')

/-- A guard that has the lock and has not begun to release it is an owner. -/
theorem Inv.owner (h : Inv s) (hg : s.phase g = .holding) : s.spinlock.isOwner g = true := by
  obtain ⟨q,hq⟩ := h.queued
  have hhead := hq.head_of (g := g) (by rw [hg]; rfl) (by rw [hg]; rfl)
  exact (hq.owner g).mpr (Or.inr ⟨hhead,by rw [hg]; rintro ⟨⟩⟩)

/-- A guard that is out of the queue is no owner. -/
theorem Inv.not_owner (h : Inv s) (hg : s.phase g = .out) : s.spinlock.isOwner g = false := by
  obtain ⟨q,hq⟩ := h.queued
  rw [Bool.eq_false_iff]
  intro howner
  rcases (hq.owner g).mp howner with hc | ⟨hhead,-⟩
  · rw [hg] at hc
    cases hc
  · have hmem := (hq.mem g).mp (List.mem_of_getElem? hhead)
    rw [hg] at hmem
    cases hmem

/-- A guard that has not exchanged the tail is out of the queue. -/
theorem entering_out (hg : s.entering g = true) : s.phase g = .out := by
  cases g with
  | add =>
    simp only [State.entering,decide_eq_true_eq] at hg
    rw [State.phase,hg]
    rfl
  | wait =>
    rw [State.entering] at hg
    rw [State.phase]
    cases hpc : s.fiber with
    | waitAcquire pc =>
      rw [hpc] at hg
      cases pc with
      | exchange => rfl
      | setOwner | setNext ancestor | spin | returned => cases hg
    | waitTest | waitPark | waitDestroy | waitRelease =>
      rw [hpc] at hg
      cases hg
    | addAcquire | addLoad | addStore | addDestroy | addRelease | parked | scheduled | resumed
    | returned => rfl
  | done i =>
    simp only [State.entering,decide_eq_true_eq] at hg
    rw [State.phase]
    rcases hg with hg | hg <;> rw [hg] <;> rfl

/-- A call that has decremented the counter while another guard has the lock is
over. -/
theorem Inv.past_of_stored (h : Inv s) (hg : Section (s.phase g)) (hne : .done i ≠ g)
    (hstored : (s.party i).stored = 1) : (s.party i).past = true := by
  have hout : ¬Section (s.party i).phase := fun hi => hne (h.exclusive (g := .done i) hi hg)
  cases hpc : s.party i with
  | fresh | acquire pc | load | store value =>
    rw [hpc] at hstored
    cases hstored
  | test | pop | clear waiters | destroy waiters =>
    rw [hpc] at hout
    exact absurd ⟨rfl,rfl⟩ hout
  | release waiters pc =>
    rw [hpc] at hout
    obtain ⟨hfault,hreturned⟩ := h.partyFault i waiters pc hpc
    cases pc with
    | hasNext | cas | hasNextAgain | loadNext | setOwner next => exact absurd ⟨rfl,rfl⟩ hout
    | clear => rfl
    | returned => exact absurd rfl hreturned
    | fault => exact absurd rfl hfault
  | next | schedule | finished => rfl

/-- A counter of zero accounts for the calls of Done. -/
theorem Inv.tally_of_zero (h : Inv s) (hn : n < 2 ^ 64) (hzero : s.counter = 0) :
    tally DonePc.stored s.party = if s.fiber.added then n else 0 := by
  have hcounter := h.counter
  have hle : tally DonePc.stored s.party ≤ n := by
    have hsum : tally DonePc.stored s.party ≤ ∑ _i : Fin n, 1 := by
      refine Finset.sum_le_sum fun i _ => ?_
      cases s.party i <;> simp [DonePc.stored]
    simpa using hsum
  rw [hzero,Nat.zero_add,Nat.mod_eq_of_lt (by omega)] at hcounter
  rw [hcounter]
  refine Nat.mod_eq_of_lt ?_
  split <;> omega

/-- When all calls are counted, each one is. -/
theorem stored_of_tally {party : Fin n → DonePc n}
    (htally : tally DonePc.stored party = n) (i : Fin n) : (party i).stored = 1 := by
  have hsum : tally DonePc.stored party + tally (fun pc => 1 - DonePc.stored pc) party = n := by
    have hone : ∀ i, (party i).stored + (1 - (party i).stored) = 1 := by
      intro i
      cases party i <;> simp [DonePc.stored]
    simp [tally,←Finset.sum_add_distrib,hone]
  have hrest : tally (fun pc => 1 - DonePc.stored pc) party = 0 := by omega
  have hi := tally_eq_zero.mp hrest i
  have hle : (party i).stored ≤ 1 := by cases party i <;> simp [DonePc.stored]
  omega

/-- Only the guard of Add moves. -/
theorem phase_add {l : Lock (Guard n)} {pc : FiberPc n} (hwait : pc.waitPhase = s.fiber.waitPhase) :
    State.phase { s with spinlock := l, fiber := pc } = Function.update s.phase .add pc.addPhase := by
  funext g
  cases g with
  | add => rfl
  | wait => exact hwait
  | done i => rfl

/-- Only the guard of Wait moves. -/
theorem phase_wait {l : Lock (Guard n)} {pc : FiberPc n} (hadd : pc.addPhase = s.fiber.addPhase) :
    State.phase { s with spinlock := l, fiber := pc } = Function.update s.phase .wait pc.waitPhase := by
  funext g
  cases g with
  | add => exact hadd
  | wait => rfl
  | done i => rfl

/-- Only the guard of a call of Done moves. -/
theorem phase_done {l : Lock (Guard n)} {counter : ℕ} {waiters : List Waiter} {pc : DonePc n} :
    State.phase ({ s with spinlock := l, counter := counter, wgWaiters := waiters }.goto i pc) =
      Function.update s.phase (.done i) pc.phase := by
  funext g
  cases g with
  | add | wait => rfl
  | done j =>
    simp only [State.phase,State.goto,Function.update_apply,Guard.done.injEq]
    split <;> rfl

/-- The whole Release of a guard that has the lock. -/
theorem queued_releaseAll {l l' : Lock (Guard n)} {phase : Guard n → Phase (Guard n)}
    {q : List (Guard n)}
    (h : Queued l phase q) (hg : phase g = .holding) (hl : releaseAll l g = some l') :
    (∃ q', Queued l' (Function.update phase g .out) q') ∧ l'.next = l.next := by
  have hhead := h.head_of (g := g) (by rw [hg]; rfl) (by rw [hg]; rfl)
  simp only [releaseAll] at hl
  split at hl
  next next hnext =>
    cases hl
    have hhanding : Queued l (Function.update phase g (.handing next)) q :=
      h.advance hhead hg rfl rfl hnext
    have hover := hhanding.handOver (Function.update_self ..)
    have hclear := hover.clear (g := g) (Function.update_self ..)
    rw [Function.update_idem,Function.update_idem] at hclear
    exact ⟨⟨_,hclear⟩,rfl⟩
  next =>
    split at hl <;> cases hl
    next htail =>
      have hclear := (h.leave hg htail).clear (g := g) (Function.update_self ..)
      rw [Function.update_idem] at hclear
      exact ⟨⟨_,hclear⟩,rfl⟩

end Lemmas

end ConcurrencyRuntime.WaitGroupLifetime
