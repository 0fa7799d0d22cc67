import ConcurrencyRuntime.SpinLock
import ConcurrencyRuntime.TransitionSystem

/-!
# The coroutine mutex and its awaiters

A co_await takes the spinlock in operator co_await and carries it in the guard
of its awaiter. On the ready path the awaiter releases it; on the parked path
the awaiter is moved into the list of waiters, with the guard, and the list
element releases it. Unlock moves the first element out and resumes its
coroutine inline, on top of its own stack. One step is one access to the
spinlock, one field update under it, one Resume, or one destructor that reads
a guard.
-/

namespace ConcurrencyRuntime.AsyncMutexCoro

open TransitionSystem SpinLock

/-- The fields of a MutexAwaiter that change. -/
structure Awaiter (κ : Type*) where
  /-- The handle of the coroutine, null before await_suspend and after a
  move. -/
  coro : Option κ
  /-- The guard refers to the spinlock and owns it. -/
  guard : Bool
  deriving DecidableEq

/-- Program points of a coroutine, in the order of the source. -/
inductive Pc (κ : Type*) where
  /-- Not started. -/
  | fresh
  /-- Outside of co_await and Unlock, or inside a call of another coroutine. -/
  | running
  /-- co_await: the exchange of the spinlock. -/
  | lockExchange
  /-- co_await: the load that waits for the spinlock to be free. -/
  | lockSpin
  /-- await_ready: TryLock. -/
  | trying
  /-- await_ready: the release of the guard in ReleaseLock. -/
  | readyRelease
  /-- await_ready: the unlock in ReleaseLock. -/
  | readyUnlock
  /-- await_suspend: the store of the handle. -/
  | suspending
  /-- ParkAwaiter: emplace_back with the moved awaiter. -/
  | parking
  /-- ParkAwaiter: the release of the guard of the last element. -/
  | parkRelease
  /-- ParkAwaiter: the unlock in ReleaseLock. -/
  | parkUnlock
  /-- Suspended. -/
  | parked
  /-- Resumed or ready: the destructor of the awaiter of the co_await. -/
  | destroying
  /-- Unlock: the exchange of the spinlock. -/
  | unlockExchange
  /-- Unlock: the load that waits for the spinlock to be free. -/
  | unlockSpin
  /-- Unlock: the test of the waiters, and the move of the first. -/
  | unlockCheck
  /-- Unlock: pop_front. -/
  | unlockPop (waiter : Awaiter κ)
  /-- Unlock: lock.unlock(). -/
  | unlockRelease (waiter : Awaiter κ)
  /-- Unlock: waiter.Resume(). -/
  | unlockResume (waiter : Awaiter κ)
  /-- Unlock: inside Resume, below the resumed coroutine. -/
  | unlockWaiting (waiter : Awaiter κ)
  /-- Unlock: the destructor of the waiter. -/
  | unlockDestroying (waiter : Awaiter κ)
  /-- Unlock without waiters: the store of lock_flag. -/
  | unlockClear
  /-- Unlock without waiters: the destructor of the lock. -/
  | unlockFree
  /-- Finished. -/
  | done
  deriving DecidableEq

/-- An activation on the stack of a thread. -/
inductive Frame (κ : Type*) where
  /-- The body of a coroutine. -/
  | coro (c : κ)
  /-- The end of await_suspend, which touches nothing any more. -/
  | leaving
  deriving DecidableEq

/-- The mutex, the coroutines and the threads that run them. -/
structure Mutex (τ κ : Type*) where
  /-- The spinlock, held for coroutines. -/
  spinlock : Lock κ
  /-- The flag of the mutex. -/
  lockFlag : Bool
  /-- The list of parked awaiters. -/
  waiters : List (Awaiter κ)
  /-- The stack of each thread, innermost first. -/
  stack : τ → List (Frame κ)
  /-- Where each coroutine stands. -/
  pc : κ → Pc κ
  /-- The awaiter in the frame of each coroutine. -/
  awaiter : κ → Awaiter κ
  /-- History: the coroutine took the mutex with TryLock or was moved out by
  Unlock, and has not given the mutex up. -/
  owns : κ → Bool
  /-- History: coroutines in the order of parking. -/
  parks : List κ
  /-- History: coroutines in the order of Resume. -/
  resumes : List κ

/-- Scheduler choices. -/
inductive Action (τ κ : Type*) where
  /-- A thread, or the coroutine on top of it, calls a new coroutine. -/
  | start (t : τ) (c : κ)
  /-- The coroutine on top of the thread begins co_await mutex.lock(). -/
  | lock (t : τ)
  /-- The coroutine on top of the thread calls unlock, as the owner. -/
  | unlock (t : τ)
  /-- The thread takes the next step of what is on its top. -/
  | step (t : τ)
  /-- The coroutine on top of the thread ends. -/
  | finish (t : τ)

variable {τ κ : Type*} [DecidableEq τ] [DecidableEq κ]

/-- Move a coroutine. -/
def Mutex.goto (s : Mutex τ κ) (c : κ) (pc : Pc κ) : Mutex τ κ :=
  { s with pc := Function.update s.pc c pc }

/-- A successful exchange of the spinlock. -/
def Mutex.acquire (s : Mutex τ κ) (c : κ) : Mutex τ κ :=
  { s with spinlock := s.spinlock.acquire c }

/-- SpinLock::Unlock. -/
def Mutex.release (s : Mutex τ κ) (c : κ) : Mutex τ κ :=
  { s with spinlock := s.spinlock.release c }

/-- Write the awaiter in the frame of a coroutine. -/
def Mutex.setAwaiter (s : Mutex τ κ) (c : κ) (a : Awaiter κ) : Mutex τ κ :=
  { s with awaiter := Function.update s.awaiter c a }

/-- Hand the ownership of the mutex from a coroutine to a waiter. -/
def Mutex.handOver (s : Mutex τ κ) (c : κ) (w : Option κ) : Mutex τ κ :=
  { s with
    owns :=
      match w with
      | some d => Function.update (Function.update s.owns c false) d true
      | none => Function.update s.owns c false }

/-- The activation on top of a thread returns to the one below: a Resume
inside of Unlock comes back. -/
def Mutex.returnTo (s : Mutex τ κ) (t : τ) (below : List (Frame κ)) : Mutex τ κ :=
  { s with
    stack := Function.update s.stack t below
    pc :=
      match below with
      | .coro c :: _ =>
        match s.pc c with
        | .unlockWaiting w => Function.update s.pc c (.unlockDestroying w)
        | _ => s.pc
      | _ => s.pc }

/-- The awaiter built by the move constructor from another one. -/
def Awaiter.move (a : Awaiter κ) : Awaiter κ := ⟨a.coro,a.guard⟩

/-- What the move constructor leaves behind. -/
def Awaiter.movedFrom : Awaiter κ := ⟨none,false⟩

/-- ReleaseLock on the last element: the list with its guard detached. -/
def detachLast (waiters : List (Awaiter κ)) : List (Awaiter κ) :=
  match waiters.getLast? with
  | some a => waiters.dropLast ++ [{ a with guard := false }]
  | none => []

/-- The next step of the coroutine on top of a thread. -/
def coroStep (s : Mutex τ κ) (t : τ) (c : κ) (below : List (Frame κ)) : Option (Mutex τ κ) :=
  match s.pc c with
  | .fresh | .running | .parked | .unlockWaiting _ | .done => none
  | .lockExchange =>
    if s.spinlock.word then some (s.goto c .lockSpin)
    else some (((s.acquire c).setAwaiter c ⟨none,true⟩).goto c .trying)
  | .lockSpin => if s.spinlock.word then some s else some (s.goto c .lockExchange)
  | .trying =>
    if s.lockFlag then some (s.goto c .suspending)
    else some ({ s with lockFlag := true, owns := Function.update s.owns c true }.goto c
      .readyRelease)
  | .readyRelease =>
    if (s.awaiter c).guard then
      some ((s.setAwaiter c { s.awaiter c with guard := false }).goto c .readyUnlock)
    else some (s.goto c .destroying)
  | .readyUnlock => some ((s.release c).goto c .destroying)
  | .suspending => some ((s.setAwaiter c { s.awaiter c with coro := some c }).goto c .parking)
  | .parking =>
    some (({ s with
      waiters := s.waiters ++ [(s.awaiter c).move]
      parks := s.parks ++ [c] }.setAwaiter c .movedFrom).goto c .parkRelease)
  | .parkRelease =>
    match s.waiters.getLast? with
    | some a =>
      if a.guard then some ({ s with waiters := detachLast s.waiters }.goto c .parkUnlock)
      else some { s.goto c .parked with stack := Function.update s.stack t (.leaving :: below) }
    | none => none
  | .parkUnlock =>
    some { (s.release c).goto c .parked with
      stack := Function.update s.stack t (.leaving :: below) }
  | .destroying =>
    if (s.awaiter c).guard then
      some (((s.release c).setAwaiter c .movedFrom).goto c .running)
    else some (s.goto c .running)
  | .unlockExchange =>
    if s.spinlock.word then some (s.goto c .unlockSpin)
    else some ((s.acquire c).goto c .unlockCheck)
  | .unlockSpin => if s.spinlock.word then some s else some (s.goto c .unlockExchange)
  | .unlockCheck =>
    match s.waiters with
    | a :: rest =>
      some (({ s with waiters := .movedFrom :: rest }.handOver c a.coro).goto c
        (.unlockPop a.move))
    | [] => some (s.goto c .unlockClear)
  | .unlockPop w =>
    match s.waiters with
    | a :: rest =>
      if a.guard then some (({ s with waiters := rest }.release c).goto c (.unlockRelease w))
      else some ({ s with waiters := rest }.goto c (.unlockRelease w))
    | [] => none
  | .unlockRelease w => some ((s.release c).goto c (.unlockResume w))
  | .unlockResume w =>
    match w.coro with
    | some d =>
      if s.pc d = .parked then
        some ({ s with
          stack := Function.update s.stack t (.coro d :: .coro c :: below)
          resumes := s.resumes ++ [d] }.goto c (.unlockWaiting w) |>.goto d .destroying)
      else none
    | none => none
  | .unlockDestroying w =>
    if w.guard then some ((s.release c).goto c .running) else some (s.goto c .running)
  | .unlockClear => some (({ s with lockFlag := false }.handOver c none).goto c .unlockFree)
  | .unlockFree => some ((s.release c).goto c .running)

/-- One scheduled step. -/
def step (s : Mutex τ κ) : Action τ κ → Option (Mutex τ κ)
  | .start t c =>
    match s.stack t with
    | .leaving :: _ => none
    | .coro d :: below =>
      if s.pc d = .running ∧ s.pc c = .fresh then
        some ({ s with stack := Function.update s.stack t (.coro c :: .coro d :: below) }.goto c
          .running)
      else none
    | [] =>
      if s.pc c = .fresh then
        some ({ s with stack := Function.update s.stack t [.coro c] }.goto c .running)
      else none
  | .lock t =>
    match s.stack t with
    | .coro c :: _ => if s.pc c = .running then some (s.goto c .lockExchange) else none
    | _ => none
  | .unlock t =>
    match s.stack t with
    | .coro c :: _ =>
      if s.pc c = .running ∧ s.owns c = true then some (s.goto c .unlockExchange) else none
    | _ => none
  | .step t =>
    match s.stack t with
    | .coro c :: below => coroStep s t c below
    | .leaving :: below => some (s.returnTo t below)
    | [] => none
  | .finish t =>
    match s.stack t with
    | .coro c :: below =>
      if s.pc c = .running then some ((s.goto c .done).returnTo t below) else none
    | _ => none

/-- A new mutex and coroutines that have not started. -/
def initial (τ κ : Type*) : Mutex τ κ :=
  ⟨.new κ,false,[],fun _ => [],fun _ => .fresh,fun _ => ⟨none,false⟩,fun _ => false,[],[]⟩

/-- The mutex as a transition system. -/
def mutex (τ κ : Type*) [DecidableEq τ] [DecidableEq κ] : System (Mutex τ κ) (Action τ κ) :=
  ⟨initial τ κ,step⟩

section Projections

variable {κ : Type*}

/-- The program points between a successful exchange of the spinlock and its
release. -/
@[grind =]
def Pc.holds : Pc κ → Bool
  | .trying | .readyRelease | .readyUnlock | .suspending | .parking | .parkRelease | .parkUnlock
  | .unlockCheck | .unlockPop _ | .unlockRelease _ | .unlockClear | .unlockFree => true
  | _ => false

/-- The program points at which the awaiter in the frame has the guard. -/
@[grind =]
def Pc.guarded : Pc κ → Bool
  | .trying | .readyRelease | .suspending | .parking => true
  | _ => false

/-- The program points at which the element in the list has the guard. -/
@[grind =]
def Pc.inList : Pc κ → Bool
  | .parkRelease => true
  | _ => false

/-- The coroutine is in the list, or was moved out of it and is not resumed. -/
@[grind =]
def Pc.isParked : Pc κ → Bool
  | .parkRelease | .parkUnlock | .parked => true
  | _ => false

/-- A co_await that found the flag set and has not parked. -/
@[grind =]
def Pc.failed : Pc κ → Bool
  | .suspending | .parking => true
  | _ => false

/-- An Unlock that has not given the mutex up. -/
@[grind =]
def Pc.unlocking : Pc κ → Bool
  | .unlockExchange | .unlockSpin | .unlockCheck | .unlockClear => true
  | _ => false

/-- An Unlock still has the element it moved from in the list. -/
@[grind =]
def Pc.popping : Pc κ → Bool
  | .unlockPop _ => true
  | _ => false

/-- The waiter that an Unlock has moved out and not resumed. -/
@[grind =]
def Pc.taken : Pc κ → Option (Awaiter κ)
  | .unlockPop w | .unlockRelease w | .unlockResume w => some w
  | _ => none

/-- The waiter that an Unlock keeps until its end. -/
@[grind =]
def Pc.kept : Pc κ → Option (Awaiter κ)
  | .unlockPop w | .unlockRelease w | .unlockResume w | .unlockWaiting w | .unlockDestroying w =>
    some w
  | _ => none

/-- The program points outside of the list and of Unlock. -/
def Pc.plain : Pc κ → Bool
  | .fresh | .running | .lockExchange | .lockSpin | .trying | .readyRelease | .readyUnlock
  | .destroying | .unlockFree | .done => true
  | _ => false

@[grind →]
theorem Pc.popping_holds {pc : Pc κ} (h : pc.popping = true) : pc.holds = true := by
  cases pc <;> simp_all [Pc.popping,Pc.holds]

@[grind →]
theorem Pc.failed_holds {pc : Pc κ} (h : pc.failed = true) : pc.holds = true := by
  cases pc <;> simp_all [Pc.failed,Pc.holds]

end Projections

/-- The spinlock is held for the coroutine that its program point says, and
the guards are where the program points say. -/
structure Locked {τ κ : Type*} (s : Mutex τ κ) : Prop where
  agrees : Agrees s.spinlock fun c => (s.pc c).holds
  guards : ∀ c, (s.awaiter c).guard = (s.pc c).guarded

/-- The element of a parked coroutine. -/
def parkedAwaiter {κ : Type*} (pc : κ → Pc κ) (d : κ) : Awaiter κ := ⟨some d,(pc d).inList⟩

/-- Where the ownership of the mutex and every parked coroutine are: the
parked ones in order, then the one moved out of the list, if any. -/
structure Queued {τ κ : Type*} (s : Mutex τ κ) (ws flight : List κ) (hole : Bool) : Prop where
  handle : ∀ c, s.pc c = .parking → (s.awaiter c).coro = some c
  /-- The list holds the parked coroutines, after the element moved from. -/
  list : s.waiters = (if hole then [.movedFrom] else []) ++ ws.map (parkedAwaiter s.pc)
  holeOf : ∀ c, (s.pc c).popping = true → hole = true
  ofHole : hole = true → ∃ c, (s.pc c).popping = true
  waiting : ∀ d ∈ ws, (s.pc d).isParked = true
  nodup : ws.Nodup
  last : ∀ c, (s.pc c).inList = true → ws.getLast? = some c
  owner : ∀ c d, s.owns c = true → s.owns d = true → c = d
  flag : s.lockFlag = false → ws = [] ∧ hole = false ∧ ∀ c, s.owns c = false
  flagOwner : s.lockFlag = true → ∃ c, s.owns c = true
  clear : ∀ c, s.pc c = .unlockClear → ws = []
  unlocking : ∀ c, (s.pc c).unlocking = true → s.owns c = true
  failed : ∀ c, (s.pc c).failed = true → s.lockFlag = true
  taken : ∀ c w, (s.pc c).taken = some w → ∃ d, w = ⟨some d,false⟩ ∧ flight = [d]
  /-- A coroutine that was moved out owns the mutex and is still suspended. -/
  flightOwner : ∀ d ∈ flight, s.owns d = true ∧ s.pc d = .parked ∧ d ∉ ws
  flightTaken : flight ≠ [] → ∃ c, (s.pc c).taken ≠ none
  takenUnique : ∀ c d, (s.pc c).taken ≠ none → (s.pc d).taken ≠ none → c = d
  kept : ∀ c w, (s.pc c).kept = some w → w.guard = false
  parks : s.parks = s.resumes ++ flight ++ ws
  placed : ∀ d, (s.pc d).isParked = true → d ∈ ws ∨ d ∈ flight

section Steps

variable {τ κ : Type*} [DecidableEq κ] {s s' : Mutex τ κ} {ws flight : List κ} {hole : Bool}
  {c : κ} {q : Pc κ}

/-- A projection that the new program point shares with the old one is the
same for all coroutines. -/
theorem proj_update {α : Type*} {p : κ → Pc κ} (f : Pc κ → α) (hf : f q = f (p c)) (d : κ) :
    f (Function.update p c q d) = f (p d) := by
  rw [Function.update_apply]
  split
  next hd => rw [hd,hf]
  next => rfl

/-- A guard moves with the program point of its coroutine. -/
theorem guards_move (h : Locked s) (hpc : s'.pc = Function.update s.pc c q)
    (hguard : (s'.awaiter c).guard = q.guarded)
    (hothers : ∀ d, d ≠ c → s'.awaiter d = s.awaiter d) (d : κ) :
    (s'.awaiter d).guard = (s'.pc d).guarded := by
  rw [hpc,Function.update_apply]
  split
  next hd => rw [hd,hguard]
  next hd => rw [hothers d hd,h.guards]

/-- A step that leaves the spinlock alone may move the guard of the awaiter
with the program point. -/
theorem Locked.move (h : Locked s) (hpc : s'.pc = Function.update s.pc c q)
    (hlock : s'.spinlock = s.spinlock) (hholds : q.holds = (s.pc c).holds)
    (hguard : (s'.awaiter c).guard = q.guarded)
    (hothers : ∀ d, d ≠ c → s'.awaiter d = s.awaiter d) : Locked s' := by
  refine ⟨?_,guards_move h hpc hguard hothers⟩
  rw [hlock]
  refine h.agrees.congr fun d => ?_
  rw [hpc]
  exact proj_update Pc.holds hholds d

/-- The exchange of a free spinlock. -/
theorem Locked.acquire (h : Locked s) (hpc : s'.pc = Function.update s.pc c q)
    (hlock : s'.spinlock = s.spinlock.acquire c) (hfree : s.spinlock.word = false)
    (hholds : q.holds = true) (hguard : (s'.awaiter c).guard = q.guarded)
    (hothers : ∀ d, d ≠ c → s'.awaiter d = s.awaiter d) : Locked s' := by
  refine ⟨?_,guards_move h hpc hguard hothers⟩
  rw [hlock,hpc]
  refine h.agrees.acquire hfree (by simpa using hholds) fun d hd => ?_
  rw [Function.update_of_ne hd]

/-- The release of the spinlock by its holder. -/
theorem Locked.release (h : Locked s) (hpc : s'.pc = Function.update s.pc c q)
    (hlock : s'.spinlock = s.spinlock.release c) (hholds : (s.pc c).holds = true)
    (hq : q.holds = false) (hguard : (s'.awaiter c).guard = q.guarded)
    (hothers : ∀ d, d ≠ c → s'.awaiter d = s.awaiter d) : Locked s' := by
  refine ⟨?_,guards_move h hpc hguard hothers⟩
  rw [hlock,hpc]
  refine h.agrees.release hholds (by simpa using hq) fun d hd => ?_
  rw [Function.update_of_ne hd]

/-- What a coroutine has to bring to a program point for the account to hold
there. -/
structure Arrives {τ κ : Type*} (s s' : Mutex τ κ) (ws : List κ) (c : κ) (q : Pc κ) : Prop where
  kept : ∀ w, q.kept = some w → (s.pc c).kept = some w
  handle : q = .parking → (s'.awaiter c).coro = some c
  clear : q = .unlockClear → ws = []
  unlocking : q.unlocking = true → s.owns c = true
  failed : q.failed = true → s.lockFlag = true
  stay : q.isParked = true → q = .parked

omit [DecidableEq κ] in
/-- Nothing, at a point that is outside of the list and of Unlock. -/
theorem Arrives.plain (hq : q.plain = true) : Arrives s s' ws c q := by
  cases q <;> constructor <;> simp_all [Pc.plain,Pc.kept,Pc.unlocking,Pc.failed,Pc.isParked]

omit [DecidableEq κ] in
/-- The flag that is set, after a TryLock that failed. -/
theorem Arrives.failing (hq : q.failed = true) (hflag : s.lockFlag = true)
    (hhandle : q = .parking → (s'.awaiter c).coro = some c) : Arrives s s' ws c q := by
  cases q <;> constructor <;> simp_all [Pc.kept,Pc.unlocking,Pc.failed,Pc.isParked]

omit [DecidableEq κ] in
/-- The ownership of the mutex, inside of Unlock. -/
theorem Arrives.owning (hq : q.unlocking = true) (hown : s.owns c = true)
    (hclear : q = .unlockClear → ws = []) : Arrives s s' ws c q := by
  cases q <;> constructor <;> simp_all [Pc.kept,Pc.unlocking,Pc.failed,Pc.isParked]

omit [DecidableEq κ] in
/-- The waiter that was kept all along, behind the hand-over. -/
theorem Arrives.keeping (hq : q.kept ≠ none) (hkept : q.kept = (s.pc c).kept) :
    Arrives s s' ws c q := by
  cases q <;> constructor <;> simp_all [Pc.kept,Pc.unlocking,Pc.failed,Pc.isParked]

omit [DecidableEq κ] in
/-- A coroutine may stay suspended. -/
theorem Arrives.parked : Arrives s s' ws c .parked := by
  constructor <;> simp [Pc.kept,Pc.unlocking,Pc.failed]

/-- A step that leaves the list and the ownership alone, between program
points that say the same of them. -/
theorem Queued.move (h : Queued s ws flight hole) (hpc : s'.pc = Function.update s.pc c q)
    (hsame : (s'.waiters,s'.owns,s'.lockFlag,s'.parks,s'.resumes) =
      (s.waiters,s.owns,s.lockFlag,s.parks,s.resumes))
    (hothers : ∀ d, d ≠ c → s'.awaiter d = s.awaiter d)
    (hproj : (q.inList,q.isParked,q.popping,q.taken) =
      ((s.pc c).inList,(s.pc c).isParked,(s.pc c).popping,(s.pc c).taken))
    (ha : Arrives s s' ws c q) : Queued s' ws flight hole := by
  obtain ⟨hkept,hhandle,hclear,hunlocking,hfailed,hstay⟩ := ha
  simp only [Prod.mk.injEq] at hsame hproj
  obtain ⟨h1,h2,h3,h4,h5⟩ := hsame
  obtain ⟨hlist,hparked,hpopping,htaken⟩ := hproj
  have hflight : c ∈ flight → q = .parked := by
    intro hmem
    refine hstay ?_
    rw [hparked,(h.flightOwner c hmem).2.1]
    rfl
  have hl := proj_update Pc.inList hlist
  have hp := proj_update Pc.isParked hparked
  have ho := proj_update Pc.popping hpopping
  have ht := proj_update Pc.taken htaken
  have hk := h.kept c
  refine {
    list := by
      have he : parkedAwaiter s'.pc = parkedAwaiter s.pc := by
        funext d
        rw [parkedAwaiter,hpc,hl,parkedAwaiter]
      rw [h1,he,h.list]
    holeOf := by simpa only [hpc,ho] using h.holeOf
    ofHole := by simpa only [hpc,ho] using h.ofHole
    waiting := by simpa only [hpc,hp] using h.waiting
    nodup := h.nodup
    last := by simpa only [hpc,hl] using h.last
    owner := by simpa only [h2] using h.owner
    flag := by simpa only [h2,h3] using h.flag
    flagOwner := by simpa only [h2,h3] using h.flagOwner
    taken := by simpa only [hpc,ht] using h.taken
    flightTaken := by simpa only [hpc,ht] using h.flightTaken
    takenUnique := by simpa only [hpc,ht] using h.takenUnique
    parks := by rw [h4,h5,h.parks]
    placed := by simpa only [hpc,hp] using h.placed
    handle := ?_, clear := ?_, unlocking := ?_, failed := ?_, flightOwner := ?_, kept := ?_ }
  all_goals simp only [hpc,h2,h3,Function.update_apply]
  · grind [h.handle]
  · grind [h.clear]
  · grind [h.unlocking]
  · grind [h.failed]
  · grind [h.flightOwner]
  · grind [h.kept]

/-- TryLock on a free mutex makes the only owner. -/
theorem Queued.tryLock (h : Queued s ws flight hole) (hflag : s.lockFlag = false) :
    Queued { s with lockFlag := true, owns := Function.update s.owns c true } ws flight hole := by
  obtain ⟨hws,hhole,hnobody⟩ := h.flag hflag
  have hflight : flight = [] := by
    rw [List.eq_nil_iff_forall_not_mem]
    intro d hd
    have ho := (h.flightOwner d hd).1
    rw [hnobody d] at ho
    cases ho
  refine { h with
    owner := ?_
    flag := by rintro ⟨⟩
    flagOwner := fun _ => ⟨c,by simp⟩
    unlocking := ?_
    failed := fun _ _ => rfl
    flightOwner := by simp [hflight] }
  all_goals simp only [Function.update_apply]
  · grind
  · grind [h.unlocking]

/-- Moving a coroutine that is not listed changes no listed element. -/
theorem map_parkedAwaiter {p : κ → Pc κ} (hc : c ∉ ws) :
    ws.map (parkedAwaiter (Function.update p c q)) = ws.map (parkedAwaiter p) := by
  refine List.map_congr_left fun d hd => ?_
  have hne : d ≠ c := fun he => hc (he ▸ hd)
  rw [parkedAwaiter,Function.update_of_ne hne,parkedAwaiter]

omit [DecidableEq κ] in
/-- A coroutine at a point outside of the list is neither in it nor moved
out of it. -/
theorem Queued.not_parked (h : Queued s ws flight hole) (hc : (s.pc c).isParked = false) :
    c ∉ ws ∧ c ∉ flight := by
  constructor
  · intro hmem
    rw [h.waiting c hmem] at hc
    cases hc
  · intro hmem
    rw [(h.flightOwner c hmem).2.1] at hc
    cases hc

/-- ParkAwaiter appends the awaiter to the list, with its guard. -/
theorem Queued.park (h : Queued s ws flight hole) (hpc : s.pc c = .parking)
    (hguard : (s.awaiter c).guard = true) (honly : ∀ d, (s.pc d).holds = true → d = c) :
    Queued (({ s with
      waiters := s.waiters ++ [(s.awaiter c).move]
      parks := s.parks ++ [c] }.setAwaiter c .movedFrom).goto c .parkRelease)
      (ws ++ [c]) flight hole := by
  obtain ⟨hout,hflight⟩ := h.not_parked (c := c) (by simp [hpc,Pc.isParked])
  have hmove : (s.awaiter c).move = ⟨some c,true⟩ := by
    rw [Awaiter.move,h.handle c hpc,hguard]
  have hmap := map_parkedAwaiter (p := s.pc) (q := .parkRelease) hout
  have hflag := h.failed c (by simp [hpc,Pc.failed])
  refine { h with
    handle := ?_
    list := ?list
    holeOf := ?_
    ofHole := ?_
    waiting := ?_
    nodup := List.nodup_append.mpr ⟨h.nodup,List.nodup_singleton c,by grind⟩
    last := ?_
    flag := fun hf => absurd (hflag.symm.trans hf) (by rintro ⟨⟩)
    clear := ?_
    unlocking := ?_
    failed := ?_
    taken := ?_
    flightOwner := ?_
    flightTaken := ?_
    takenUnique := ?_
    kept := ?_
    parks := by simp [Mutex.goto,Mutex.setAwaiter,h.parks]
    placed := ?_ }
  case list => simp [Mutex.goto,Mutex.setAwaiter,h.list,hmove,hmap,parkedAwaiter,Pc.inList]
  all_goals simp only [Mutex.goto,Mutex.setAwaiter,Function.update_apply]
  · grind [h.handle]
  · grind [h.holeOf]
  · intro hh
    obtain ⟨d,hd⟩ := h.ofHole hh
    exact ⟨d,by grind⟩
  · grind [h.waiting]
  · grind
  · grind
  · grind [h.unlocking]
  · grind [h.failed]
  · grind [h.taken]
  · grind [h.flightOwner]
  · intro hf
    obtain ⟨d,hd⟩ := h.flightTaken hf
    exact ⟨d,by grind⟩
  · grind [h.takenUnique]
  · grind [h.kept]
  · grind [h.placed]

omit [DecidableEq κ] in
/-- The last element is that of the coroutine that has not detached its guard. -/
theorem Queued.getLast_parkRelease (h : Queued s ws flight hole) (hpc : s.pc c = .parkRelease) :
    s.waiters.getLast? = some ⟨some c,true⟩ := by
  obtain ⟨front,rfl⟩ := List.getLast?_eq_some_iff.mp (h.last c (by simp [hpc,Pc.inList]))
  simp [h.list,parkedAwaiter,hpc,Pc.inList]

/-- ReleaseLock detaches the guard from the last element. -/
theorem Queued.detach (h : Queued s ws flight hole) (hpc : s.pc c = .parkRelease) :
    Queued ({ s with waiters := detachLast s.waiters }.goto c .parkUnlock) ws flight hole := by
  obtain ⟨front,rfl⟩ := List.getLast?_eq_some_iff.mp (h.last c (by simp [hpc,Pc.inList]))
  have hout : c ∉ front := by
    intro hmem
    exact (List.nodup_append.mp h.nodup).2.2 c hmem c (List.mem_singleton_self c) rfl
  have hmap := map_parkedAwaiter (p := s.pc) (q := .parkUnlock) hout
  have hlast := h.last
  refine { h with
    handle := ?_
    list := ?list
    holeOf := ?_
    ofHole := ?_
    waiting := ?_
    last := ?_
    clear := ?_
    unlocking := ?_
    failed := ?_
    taken := ?_
    flightOwner := ?_
    flightTaken := ?_
    takenUnique := ?_
    kept := ?_
    placed := ?_ }
  case list =>
    simp [Mutex.goto,detachLast,h.list,hmap,parkedAwaiter,Pc.inList]
  all_goals simp only [Mutex.goto,Function.update_apply]
  · grind [h.handle]
  · grind [h.holeOf]
  · intro hh
    obtain ⟨d,hd⟩ := h.ofHole hh
    exact ⟨d,by grind⟩
  · grind [h.waiting]
  · grind
  · grind [h.clear]
  · grind [h.unlocking]
  · grind [h.failed]
  · grind [h.taken]
  · grind [h.flightOwner]
  · intro hf
    obtain ⟨d,hd⟩ := h.flightTaken hf
    exact ⟨d,by grind⟩
  · grind [h.takenUnique]
  · grind [h.kept]
  · grind [h.placed]

omit [DecidableEq κ] in
/-- While the owner holds the spinlock in Unlock, no element is half moved and
no coroutine is on its way out. -/
theorem Queued.settled (h : Queued s ws flight hole) (hown : s.owns c = true)
    (hc : (s.pc c).isParked = false) (hpop : (s.pc c).popping = false)
    (honly : ∀ d, (s.pc d).holds = true → d = c) :
    hole = false ∧ flight = [] ∧ ∀ e, (s.pc e).taken = none := by
  have hflight : flight = [] := by
    rw [List.eq_nil_iff_forall_not_mem]
    intro e he
    obtain ⟨ho,hp,-⟩ := h.flightOwner e he
    rw [←h.owner e c ho hown,hp] at hc
    cases hc
  refine ⟨?_,hflight,?_⟩
  · by_contra hh
    obtain ⟨e,he⟩ := h.ofHole (by simpa using hh)
    rw [honly e (Pc.popping_holds he),hpop] at he
    cases he
  · intro e
    cases ht : (s.pc e).taken with
    | none => rfl
    | some w =>
      obtain ⟨x,-,hx⟩ := h.taken e w ht
      rw [hflight] at hx
      cases hx

/-- Unlock moves the first waiter out of its element and hands the mutex
over. -/
theorem Queued.moveFront {d : κ} (h : Queued s (d :: ws) flight hole) (hpc : s.pc c = .unlockCheck)
    (honly : ∀ d, (s.pc d).holds = true → d = c) :
    hole = false ∧ flight = [] ∧ s.waiters = ⟨some d,false⟩ :: ws.map (parkedAwaiter s.pc) ∧
    Queued (({ s with waiters := .movedFrom :: ws.map (parkedAwaiter s.pc) }.handOver c (some d)).goto c
      (.unlockPop ⟨some d,false⟩)) ws [d] true := by
  have hown := h.unlocking c (by simp [hpc,Pc.unlocking])
  have hd := h.waiting d List.mem_cons_self
  have hdc : d ≠ c := by
    rintro rfl
    simp [hpc,Pc.isParked] at hd
  have hparked : s.pc d = .parked := by
    have hno := honly d
    cases hp : s.pc d <;> simp_all [Pc.isParked,Pc.holds]
  obtain ⟨hhole,hflight,hnone⟩ := h.settled hown (by simp [hpc,Pc.isParked])
    (by simp [hpc,Pc.popping]) honly
  have hnd := List.nodup_cons.mp h.nodup
  have hout : c ∉ ws := fun hmem => by
    have hw := h.waiting c (List.mem_cons_of_mem _ hmem)
    simp [hpc,Pc.isParked] at hw
  have hmap := map_parkedAwaiter (p := s.pc) (q := .unlockPop ⟨some d,false⟩) hout
  refine ⟨hhole,hflight,by simp [h.list,hhole,parkedAwaiter,hparked,Pc.inList],?_⟩
  have howner := h.owner
  have hlast := h.last
  have hplaced := h.placed
  refine {
    handle := ?_
    list := ?list
    holeOf := fun _ _ => rfl
    ofHole := fun _ => ⟨c,by simp [Mutex.goto,Pc.popping]⟩
    waiting := ?_
    nodup := hnd.2
    last := ?_
    owner := ?_
    flag := ?_
    flagOwner := fun _ => ⟨d,by simp [Mutex.goto,Mutex.handOver]⟩
    clear := ?_
    unlocking := ?_
    failed := ?_
    taken := ?_
    flightOwner := ?_
    flightTaken := fun _ => ⟨c,by simp [Mutex.goto,Pc.taken]⟩
    takenUnique := ?_
    kept := ?_
    parks := by simp [Mutex.goto,Mutex.handOver,h.parks,hflight]
    placed := ?_ }
  case list => simp [Mutex.goto,Mutex.handOver,hmap]
  all_goals simp only [Mutex.goto,Mutex.handOver,Function.update_apply]
  · grind [h.handle]
  · grind [h.waiting]
  · grind
  · grind
  · exact fun hf => absurd (h.flag hf).1 (by rintro ⟨⟩)
  · grind [h.clear]
  · grind [h.unlocking]
  · grind [h.failed]
  · grind
  · grind
  · grind
  · grind [h.kept]
  · grind

/-- pop_front removes the element moved from, which has no guard. -/
theorem Queued.popFront {w : Awaiter κ} (h : Queued s ws flight hole) (hpc : s.pc c = .unlockPop w)
    (honly : ∀ d, (s.pc d).holds = true → d = c) :
    s.waiters = .movedFrom :: ws.map (parkedAwaiter s.pc) ∧
    Queued ({ s with waiters := ws.map (parkedAwaiter s.pc) }.goto c (.unlockRelease w)) ws flight
      false := by
  have hhole : hole = true := h.holeOf c (by simp [hpc,Pc.popping])
  subst hhole
  obtain ⟨hout,hflight⟩ := h.not_parked (c := c) (by simp [hpc,Pc.isParked])
  have hmap := map_parkedAwaiter (p := s.pc) (q := .unlockRelease w) hout
  have hkept := h.kept c w (by simp [hpc,Pc.kept])
  have htaken := proj_update (p := s.pc) (c := c) (q := .unlockRelease w) Pc.taken
    (by simp [hpc,Pc.taken])
  have hparked := proj_update (p := s.pc) (c := c) (q := .unlockRelease w) Pc.isParked
    (by simp [hpc,Pc.isParked])
  have hlist := proj_update (p := s.pc) (c := c) (q := .unlockRelease w) Pc.inList
    (by simp [hpc,Pc.inList])
  refine ⟨by simp [h.list],{ h with
    handle := ?_
    list := by simp [Mutex.goto,hmap]
    holeOf := ?_
    ofHole := by rintro ⟨⟩
    waiting := by simpa only [Mutex.goto,hparked] using h.waiting
    last := by simpa only [Mutex.goto,hlist] using h.last
    flag := fun hf => absurd (h.flag hf).2.1 (by rintro ⟨⟩)
    clear := ?_
    unlocking := ?_
    failed := ?_
    taken := by simpa only [Mutex.goto,htaken] using h.taken
    flightOwner := ?_
    flightTaken := by simpa only [Mutex.goto,htaken] using h.flightTaken
    takenUnique := by simpa only [Mutex.goto,htaken] using h.takenUnique
    kept := ?_
    placed := by simpa only [Mutex.goto,hparked] using h.placed }⟩
  all_goals simp only [Mutex.goto,Function.update_apply]
  · grind [h.handle]
  · grind
  · grind [h.clear]
  · grind [h.unlocking]
  · grind [h.failed]
  · grind [h.flightOwner]
  · grind [h.kept]

/-- Resume runs the coroutine that was moved out, which is suspended. -/
theorem Queued.resume {w : Awaiter κ} (h : Queued s ws flight hole)
    (hpc : s.pc c = .unlockResume w) :
    ∃ d, w.coro = some d ∧ s.pc d = .parked ∧ d ≠ c ∧ ∀ stack : τ → List (Frame κ),
      Queued ({ s with
        stack := stack
        resumes := s.resumes ++ [d] }.goto c (.unlockWaiting w) |>.goto d .destroying)
        ws [] hole := by
  obtain ⟨d,rfl,rfl⟩ := h.taken c w (by simp [hpc,Pc.taken])
  obtain ⟨hown,hparked,hout⟩ := h.flightOwner d List.mem_cons_self
  have hdc : d ≠ c := by
    rintro rfl
    rw [hparked] at hpc
    cases hpc
  have hunique : ∀ e, (s.pc e).taken ≠ none → e = c :=
    fun e he => h.takenUnique e c he (by simp [hpc,Pc.taken])
  have hcout := (h.not_parked (c := c) (by simp [hpc,Pc.isParked])).1
  have hmap := map_parkedAwaiter (p := s.pc) (q := .unlockWaiting ⟨some d,false⟩) hcout
  have hmap' := map_parkedAwaiter (p := Function.update s.pc c (.unlockWaiting ⟨some d,false⟩))
    (q := .destroying) hout
  have hplaced := h.placed
  have hlast := h.last
  refine ⟨d,rfl,hparked,hdc,fun stack => { h with
    handle := ?_
    list := ?list
    holeOf := ?_
    ofHole := ?_
    waiting := ?_
    last := ?_
    clear := ?_
    unlocking := ?_
    failed := ?_
    taken := ?_
    flightOwner := by rintro _ ⟨⟩
    flightTaken := by simp
    takenUnique := ?_
    kept := ?_
    parks := by simp [Mutex.goto,h.parks]
    placed := ?_ }⟩
  case list => simp [Mutex.goto,hmap',hmap,h.list]
  all_goals simp only [Mutex.goto,Function.update_apply]
  · grind [h.handle]
  · grind [h.holeOf]
  · intro hh
    obtain ⟨e,he⟩ := h.ofHole hh
    exact ⟨e,by grind⟩
  · grind [h.waiting]
  · grind
  · grind [h.clear]
  · grind [h.unlocking]
  · grind [h.failed]
  · grind
  · grind
  · grind [h.kept]
  · grind

/-- The store of lock_flag frees a mutex without waiters. -/
theorem Queued.unlockClear (h : Queued s ws flight hole) (hpc : s.pc c = .unlockClear)
    (honly : ∀ d, (s.pc d).holds = true → d = c) :
    Queued (({ s with lockFlag := false }.handOver c none).goto c .unlockFree) ws flight hole := by
  have hown := h.unlocking c (by simp [hpc,Pc.unlocking])
  obtain ⟨hhole,hflight,hnone⟩ := h.settled hown (by simp [hpc,Pc.isParked])
    (by simp [hpc,Pc.popping]) honly
  have hws := h.clear c hpc
  have hfree : ∀ e, Function.update s.owns c false e = false := by
    intro e
    have ho := h.owner e c
    simp only [Function.update_apply]
    grind
  subst hws hflight hhole
  refine { h with
    handle := ?_
    list := h.list
    holeOf := ?_
    ofHole := by rintro ⟨⟩
    waiting := by rintro _ ⟨⟩
    last := ?_
    owner := ?_
    flag := fun _ => ⟨rfl,rfl,hfree⟩
    flagOwner := by rintro ⟨⟩
    clear := fun _ _ => rfl
    unlocking := ?_
    failed := ?_
    taken := ?_
    flightOwner := by rintro _ ⟨⟩
    flightTaken := by simp
    takenUnique := ?_
    kept := ?_
    placed := ?_ }
  all_goals simp only [Mutex.goto,Mutex.handOver,Function.update_apply]
  · grind [h.handle]
  · grind [h.holeOf]
  · grind [h.last]
  · grind [h.owner]
  · grind [h.unlocking,h.owner]
  · grind
  · grind
  · grind
  · grind [h.kept]
  · grind [h.placed]

end Steps

/-- Both parts of the account. -/
def Accounted {τ κ : Type*} (s : Mutex τ κ) : Prop :=
  Locked s ∧ ∃ ws flight hole, Queued s ws flight hole

section Runs

variable {s s' : Mutex τ κ} {c : κ} {q : Pc κ} {t : τ}

omit [DecidableEq τ] [DecidableEq κ] in
theorem accounted_initial : Accounted (initial τ κ) := by
  refine ⟨?_,[],[],false,?_⟩
  · exact ⟨agrees_new,fun _ => rfl⟩
  · constructor <;> simp [initial,Pc.isParked,Pc.inList,Pc.failed,Pc.unlocking,Pc.popping,Pc.taken,
      Pc.kept]

omit [DecidableEq τ] in
/-- A step that only moves a coroutine between points that say the same of
the locks and lists, and any stack. -/
theorem Accounted.move (h : Accounted s) (stack : τ → List (Frame κ))
    (hproj : (q.holds,q.guarded,q.inList,q.isParked,q.popping,q.taken) =
      ((s.pc c).holds,(s.pc c).guarded,(s.pc c).inList,(s.pc c).isParked,(s.pc c).popping,
        (s.pc c).taken)) (ha : ∀ ws, Arrives s s ws c q) :
    Accounted { s with stack := stack, pc := Function.update s.pc c q } := by
  simp only [Prod.mk.injEq] at hproj
  obtain ⟨hholds,hguarded,hlist,hparked,hpopping,htaken⟩ := hproj
  obtain ⟨hL,ws,flight,hole,hQ⟩ := h
  refine ⟨hL.move rfl rfl hholds ((hL.guards c).trans hguarded.symm) fun _ _ => rfl,
    ws,flight,hole,hQ.move rfl rfl (fun _ _ => rfl) ?_ ?_⟩
  · rw [hlist,hparked,hpopping,htaken]
  · exact { ha ws with }

/-- Every step of the coroutine on top of a thread keeps the account. -/
theorem accounted_coroStep {below : List (Frame κ)} (h : Accounted s)
    (hs : coroStep s t c below = some s') : Accounted s' := by
  obtain ⟨hL,ws,flight,hole,hQ⟩ := id h
  have hguard := hL.guards c
  have honly : (s.pc c).holds = true → ∀ d, (s.pc d).holds = true → d = c :=
    fun hc d hd => hL.agrees.unique hd hc
  cases hpc : s.pc c with
  | fresh | running | parked | unlockWaiting | done => simp [coroStep,hpc] at hs
  | lockExchange =>
    simp only [coroStep,hpc] at hs
    split at hs <;> cases hs
    next hl => exact h.move s.stack (by rw [hpc]; rfl) fun _ => .plain rfl
    next hl =>
      refine ⟨?_,ws,flight,hole,?_⟩
      · refine hL.acquire rfl rfl (by simpa using hl) rfl ?_ fun d hd => Function.update_of_ne hd ..
        simp [Mutex.goto,Mutex.setAwaiter,Pc.guarded]
      · exact hQ.move rfl rfl (fun d hd => Function.update_of_ne hd ..)
          (by rw [hpc]; rfl) (.plain rfl)
  | lockSpin =>
    simp only [coroStep,hpc] at hs
    split at hs <;> cases hs
    next hl => exact h
    next hl => exact h.move s.stack (by rw [hpc]; rfl) fun _ => .plain rfl
  | trying =>
    simp only [coroStep,hpc] at hs
    split at hs <;> cases hs
    next hl => exact h.move s.stack (by rw [hpc]; rfl) fun _ => .failing rfl hl (by rintro ⟨⟩)
    next hl =>
      have h' : Accounted { s with lockFlag := true, owns := Function.update s.owns c true } :=
        ⟨{ hL with },ws,flight,hole,hQ.tryLock (by simpa using hl)⟩
      exact h'.move s.stack (by rw [hpc]; rfl) fun _ => .plain rfl
  | readyRelease =>
    simp only [coroStep,hpc] at hs
    rw [hpc] at hguard
    split at hs <;> cases hs
    next hg =>
      refine ⟨?_,ws,flight,hole,?_⟩
      · refine hL.move rfl rfl (by rw [hpc]; rfl) ?_ fun d hd => Function.update_of_ne hd ..
        simp [Mutex.goto,Mutex.setAwaiter,Pc.guarded]
      · exact hQ.move rfl rfl (fun d hd => Function.update_of_ne hd ..)
          (by rw [hpc]; rfl) (.plain rfl)
    next hg => exact absurd hguard hg
  | readyUnlock =>
    simp only [coroStep,hpc] at hs
    cases hs
    rw [hpc] at hguard
    exact ⟨hL.release rfl rfl (by rw [hpc]; rfl) rfl hguard fun _ _ => rfl,ws,flight,hole,
      hQ.move rfl rfl (fun _ _ => rfl) (by rw [hpc]; rfl) (.plain rfl)⟩
  | suspending =>
    simp only [coroStep,hpc] at hs
    cases hs
    rw [hpc] at hguard
    have hflag := hQ.failed c (by rw [hpc]; rfl)
    refine ⟨?_,ws,flight,hole,?_⟩
    · refine hL.move rfl rfl (by rw [hpc]; rfl) ?_ fun d hd => Function.update_of_ne hd ..
      simp [Mutex.goto,Mutex.setAwaiter,hguard,Pc.guarded]
    · refine hQ.move rfl rfl (fun d hd => Function.update_of_ne hd ..) (by rw [hpc]; rfl) ?_
      exact .failing rfl hflag fun _ => by simp [Mutex.goto,Mutex.setAwaiter]
  | parking =>
    simp only [coroStep,hpc] at hs
    cases hs
    rw [hpc] at hguard
    refine ⟨?_,ws ++ [c],flight,hole,hQ.park hpc hguard (honly (by rw [hpc]; rfl))⟩
    refine hL.move rfl rfl (by rw [hpc]; rfl) ?_ fun d hd => Function.update_of_ne hd ..
    simp [Mutex.goto,Mutex.setAwaiter,Awaiter.movedFrom,Pc.guarded]
  | parkRelease =>
    simp only [coroStep,hpc,hQ.getLast_parkRelease hpc] at hs
    cases hs
    rw [hpc] at hguard
    exact ⟨hL.move rfl rfl (by rw [hpc]; rfl) hguard fun _ _ => rfl,ws,flight,hole,hQ.detach hpc⟩
  | parkUnlock =>
    simp only [coroStep,hpc] at hs
    cases hs
    rw [hpc] at hguard
    exact ⟨hL.release rfl rfl (by rw [hpc]; rfl) rfl hguard fun _ _ => rfl,ws,flight,hole,
      hQ.move rfl rfl (fun _ _ => rfl) (by rw [hpc]; rfl) .parked⟩
  | destroying =>
    simp only [coroStep,hpc] at hs
    rw [hpc] at hguard
    split at hs <;> cases hs
    next hg => exact absurd (hguard.symm.trans hg) (by rintro ⟨⟩)
    next hg => exact h.move s.stack (by rw [hpc]; rfl) fun _ => .plain rfl
  | unlockExchange =>
    simp only [coroStep,hpc] at hs
    have hown := hQ.unlocking c (by rw [hpc]; rfl)
    split at hs <;> cases hs
    next hl => exact h.move s.stack (by rw [hpc]; rfl) fun _ => .owning rfl hown (by rintro ⟨⟩)
    next hl =>
      rw [hpc] at hguard
      exact ⟨hL.acquire rfl rfl (by simpa using hl) rfl hguard fun _ _ => rfl,ws,flight,hole,
        hQ.move rfl rfl (fun _ _ => rfl) (by rw [hpc]; rfl) (.owning rfl hown (by rintro ⟨⟩))⟩
  | unlockSpin =>
    simp only [coroStep,hpc] at hs
    have hown := hQ.unlocking c (by rw [hpc]; rfl)
    split at hs <;> cases hs
    next hl => exact h
    next hl => exact h.move s.stack (by rw [hpc]; rfl) fun _ => .owning rfl hown (by rintro ⟨⟩)
  | unlockCheck =>
    simp only [coroStep,hpc] at hs
    have hown := hQ.unlocking c (by rw [hpc]; rfl)
    have hc := honly (by rw [hpc]; rfl)
    rw [hpc] at hguard
    cases ws with
    | nil =>
      obtain ⟨rfl,-,-⟩ := hQ.settled hown (by rw [hpc]; rfl) (by rw [hpc]; rfl) hc
      rw [hQ.list] at hs
      cases hs
      exact ⟨hL.move rfl rfl (by rw [hpc]; rfl) hguard fun _ _ => rfl,[],flight,false,
        hQ.move rfl rfl (fun _ _ => rfl) (by rw [hpc]; rfl) (.owning rfl hown fun _ => rfl)⟩
    | cons d rest =>
      obtain ⟨-,-,hwaiters,hQ'⟩ := hQ.moveFront hpc hc
      rw [hwaiters] at hs
      cases hs
      exact ⟨hL.move rfl rfl (by rw [hpc]; rfl) hguard fun _ _ => rfl,rest,[d],true,hQ'⟩
  | unlockPop w =>
    obtain ⟨hwaiters,hQ'⟩ := hQ.popFront hpc (honly (by rw [hpc]; rfl))
    simp only [coroStep,hpc,hwaiters] at hs
    cases hs
    rw [hpc] at hguard
    exact ⟨hL.move rfl rfl (by rw [hpc]; rfl) hguard fun _ _ => rfl,ws,flight,false,hQ'⟩
  | unlockRelease w =>
    simp only [coroStep,hpc] at hs
    cases hs
    rw [hpc] at hguard
    refine ⟨hL.release rfl rfl (by rw [hpc]; rfl) rfl hguard fun _ _ => rfl,ws,flight,hole,?_⟩
    exact hQ.move rfl rfl (fun _ _ => rfl) (by rw [hpc]; rfl)
      (.keeping (by rintro ⟨⟩) (by rw [hpc]; rfl))
  | unlockResume w =>
    obtain ⟨d,hd,hparked,hdc,hQ'⟩ := hQ.resume hpc
    simp only [coroStep,hpc,hd,hparked,if_true,Option.some.injEq] at hs
    subst hs
    rw [hpc] at hguard
    have hguardd := hL.guards d
    rw [hparked] at hguardd
    refine ⟨?_,ws,[],hole,hQ' _⟩
    have hL' : Locked (s.goto c (.unlockWaiting w)) :=
      hL.move rfl rfl (by rw [hpc]; rfl) hguard fun _ _ => rfl
    exact hL'.move rfl rfl (by simp [Mutex.goto,hdc,hparked,Pc.holds]) hguardd fun _ _ => rfl
  | unlockDestroying w =>
    have hkept := hQ.kept c w (by rw [hpc]; rfl)
    simp only [coroStep,hpc,hkept] at hs
    cases hs
    exact h.move s.stack (by rw [hpc]; rfl) fun _ => .plain rfl
  | unlockClear =>
    simp only [coroStep,hpc] at hs
    cases hs
    have hc := honly (by rw [hpc]; rfl)
    rw [hpc] at hguard
    exact ⟨hL.move rfl rfl (by rw [hpc]; rfl) hguard fun _ _ => rfl,ws,flight,hole,
      hQ.unlockClear hpc hc⟩
  | unlockFree =>
    simp only [coroStep,hpc] at hs
    cases hs
    rw [hpc] at hguard
    exact ⟨hL.release rfl rfl (by rw [hpc]; rfl) rfl hguard fun _ _ => rfl,ws,flight,hole,
      hQ.move rfl rfl (fun _ _ => rfl) (by rw [hpc]; rfl) (.plain rfl)⟩

omit [DecidableEq τ] in
/-- A return into an Unlock below moves it to its last destructor. -/
theorem Accounted.returnTo [DecidableEq τ] (h : Accounted s) (below : List (Frame κ)) :
    Accounted (s.returnTo t below) := by
  have hstack : Accounted { s with stack := Function.update s.stack t below } := by
    obtain ⟨hL,ws,flight,hole,hQ⟩ := h
    exact ⟨{ hL with },ws,flight,hole,{ hQ with }⟩
  unfold Mutex.returnTo
  split
  next c _ =>
    split
    next w hpc =>
      exact h.move (Function.update s.stack t _) (by rw [hpc]; rfl)
        fun _ => .keeping (by rintro ⟨⟩) (by rw [hpc]; rfl)
    next => exact hstack
  next => exact hstack

/-- Every step keeps the account. -/
theorem accounted_step {a : Action τ κ} (h : Accounted s) (hs : step s a = some s') :
    Accounted s' := by
  cases a with
  | start t c =>
    simp only [step] at hs
    split at hs
    · cases hs
    next d below _ =>
      split at hs <;> cases hs
      next hc =>
        exact h.move (c := c) (Function.update s.stack t _) (by rw [hc.2]; rfl) fun _ => .plain rfl
    next =>
      split at hs <;> cases hs
      next hc =>
        exact h.move (c := c) (Function.update s.stack t _) (by rw [hc]; rfl) fun _ => .plain rfl
  | lock t =>
    simp only [step] at hs
    split at hs
    next c _ _ =>
      split at hs <;> cases hs
      next hc => exact h.move s.stack (by rw [hc]; rfl) fun _ => .plain rfl
    next => cases hs
  | unlock t =>
    simp only [step] at hs
    split at hs
    next c _ _ =>
      split at hs <;> cases hs
      next hc =>
        exact h.move s.stack (by rw [hc.1]; rfl) fun _ => .owning rfl hc.2 (by rintro ⟨⟩)
    next => cases hs
  | step t =>
    simp only [step] at hs
    split at hs
    next c below _ => exact accounted_coroStep h hs
    next below _ =>
      cases hs
      exact h.returnTo below
    next => cases hs
  | finish t =>
    simp only [step] at hs
    split at hs
    next c below _ =>
      split at hs <;> cases hs
      next hc =>
        have h' : Accounted (s.goto c .done) :=
          h.move s.stack (by rw [hc]; rfl) fun _ => .plain rfl
        exact h'.returnTo below
    next => cases hs

/-- Every reachable mutex is accounted for. -/
theorem accounted_reachable (hr : (mutex τ κ).Reachable s) : Accounted s := by
  refine System.Reachable.invariant ?_ ?_ hr
  · exact accounted_initial
  · exact fun _ _ _ h hs => accounted_step h hs

end Runs

/-- The safety of the mutex and of the spinlock that travels with the
awaiters. -/
structure Safe {τ κ : Type*} (s : Mutex τ κ) : Prop where
  /-- The spinlock was only ever released for its holder. -/
  released_by_holder : s.spinlock.stray = 0
  /-- At most one coroutine is between its acquisition and its release. -/
  holder_unique : ∀ c d, (s.pc c).holds = true → (s.pc d).holds = true → c = d
  /-- Every acquisition was released once, but that of the current holder. -/
  released_once : ∀ c, s.spinlock.acquired c = s.spinlock.released c + (s.pc c).holds.toNat
  /-- An awaiter in the list refers to the spinlock only while its own
  coroutine holds it. -/
  waiters_detached : ∀ a ∈ s.waiters, a.guard = true →
    s.spinlock.word = true ∧ s.spinlock.holder = a.coro ∧ s.spinlock.holder ≠ none
  /-- At most one coroutine owns the mutex. -/
  owner_unique : ∀ c d, s.owns c = true → s.owns d = true → c = d
  /-- A clear flag means no waiters and no owner. -/
  flag_clear : s.lockFlag = false → s.waiters = [] ∧ ∀ c, s.owns c = false
  /-- The parked coroutines are resumed once each and in order: those parked
  and not resumed are suspended, and are the one moved out by an Unlock, which
  owns the mutex, followed by those in the list. -/
  resumed_in_order : ∃ ws flight, s.parks = s.resumes ++ flight ++ ws ∧ ws.Nodup ∧
    (∀ d, (s.pc d).isParked = true ↔ d ∈ ws ∨ d ∈ flight) ∧
    s.waiters.filterMap Awaiter.coro = ws ∧
    ∀ d ∈ flight, s.owns d = true ∧ d ∉ ws ∧ ∃ c w, (s.pc c).taken = some w ∧ w.coro = some d
  /-- Resume is called on a suspended coroutine. -/
  resume_suspended : ∀ c w, s.pc c = .unlockResume w → ∃ d, w.coro = some d ∧ s.pc d = .parked

/-- An element with a guard is the last one, and its coroutine holds the
spinlock. -/
theorem Queued.guard_holder {τ κ : Type*} {s : Mutex τ κ} {ws flight : List κ} {hole : Bool}
    {a : Awaiter κ} (hL : Locked s) (hQ : Queued s ws flight hole) (ha : a ∈ s.waiters)
    (hg : a.guard = true) : s.spinlock.holder = a.coro ∧ s.spinlock.holder ≠ none := by
  rw [hQ.list] at ha
  rcases List.mem_append.mp ha with ha | ha
  · cases hole with
    | false => cases ha
    | true =>
      rw [List.mem_singleton.mp ha] at hg
      cases hg
  · obtain ⟨d,-,rfl⟩ := List.mem_map.mp ha
    have hpc : s.pc d = .parkRelease := by
      have hd : (s.pc d).inList = true := hg
      cases hp : s.pc d <;> simp_all [Pc.inList]
    have hh := hL.agrees.held d (by simp only [hpc]; rfl)
    exact ⟨hh,by rw [hh]; rintro ⟨⟩⟩

/-- For any number of coroutines and threads and every interleaving. -/
theorem mutex_safe {s : Mutex τ κ} (hr : (mutex τ κ).Reachable s) : Safe s := by
  obtain ⟨hL,ws,flight,hole,hQ⟩ := accounted_reachable hr
  refine ⟨hL.agrees.stray,fun c d hc hd => hL.agrees.unique hc hd,hL.agrees.counts,?_,hQ.owner,?_,
    ⟨ws,flight,hQ.parks,hQ.nodup,?_,?_,?_⟩,?_⟩
  · intro a ha hg
    obtain ⟨hh,hne⟩ := hQ.guard_holder hL ha hg
    refine ⟨?_,hh,hne⟩
    rw [hL.agrees.word]
    exact Option.isSome_iff_ne_none.mpr hne
  · intro hf
    obtain ⟨rfl,rfl,hnobody⟩ := hQ.flag hf
    exact ⟨hQ.list,hnobody⟩
  · intro d
    refine ⟨hQ.placed d,?_⟩
    rintro (hd | hd)
    · exact hQ.waiting d hd
    · rw [(hQ.flightOwner d hd).2.1]
      rfl
  · have hmap : (ws.map (parkedAwaiter s.pc)).filterMap Awaiter.coro = ws := by
      simp [List.filterMap_map,Function.comp_def,parkedAwaiter]
    rw [hQ.list,List.filterMap_append,hmap]
    cases hole <;> simp [Awaiter.movedFrom]
  · intro d hd
    obtain ⟨hown,-,hout⟩ := hQ.flightOwner d hd
    obtain ⟨c,hc⟩ := hQ.flightTaken (List.ne_nil_of_mem hd)
    obtain ⟨w,hw⟩ := Option.ne_none_iff_exists'.mp hc
    obtain ⟨e,rfl,rfl⟩ := hQ.taken c w hw
    exact ⟨hown,hout,c,_,hw,by rw [List.mem_singleton.mp hd]⟩
  · intro c w hc
    obtain ⟨d,hd,hp,-⟩ := hQ.resume hc
    exact ⟨d,hd,hp⟩

/-- Coroutine 1 parks on a second thread; the Unlock of coroutine 0 resumes it
on top of its own stack, where it unlocks and locks again. -/
theorem nested_ends : (mutex (Fin 2) (Fin 2)).Ends (initial (Fin 2) (Fin 2))
    [[.start 0 0,.lock 0],List.replicate 5 (.step 0),[.start 1 1,.lock 1],
      List.replicate 7 (.step 1),[.unlock 0],List.replicate 6 (.step 0),[.unlock 0],
      List.replicate 4 (.step 0),[.lock 0],List.replicate 5 (.step 0)].flatten
    fun s => s.stack 0 = [.coro 1,.coro 0] ∧ s.stack 1 = [] ∧ s.parks = [1] ∧ s.resumes = [1] ∧
      s.owns 1 = true ∧ s.pc 1 = .running ∧ s.spinlock.acquired 1 = 3 := by
  decide +kernel

theorem mutex_safe_nested :
    ∃ s, (mutex (Fin 2) (Fin 2)).Reachable s ∧
      (s.stack 0 = [.coro 1,.coro 0] ∧ s.stack 1 = [] ∧ s.parks = [1] ∧ s.resumes = [1] ∧
        s.owns 1 = true ∧ s.pc 1 = .running ∧ s.spinlock.acquired 1 = 3) ∧ Safe s := by
  obtain ⟨s,hr,hend⟩ := nested_ends.reachable
  exact ⟨s,hr,hend,mutex_safe hr⟩

end ConcurrencyRuntime.AsyncMutexCoro
