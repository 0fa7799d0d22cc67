import ConcurrencyRuntime.WaitGroupLifetime

/-!
# No access to a wait group after Wait

Every step of the fiber and of the calls of Done keeps the invariant. A call that
reads zero holds the lock, so that every other call has released it for good, and
its own release comes before the walk that schedules the fiber; a Wait that reads
zero holds the lock after all of them.
-/

namespace ConcurrencyRuntime.WaitGroupLifetime

open TransitionSystem QueueSpinLock Tally

variable {n : ℕ}

section Steps

attribute [simp] FiberPc.beforeWait FiberPc.added FiberPc.over DonePc.past DonePc.stored DonePc.zero

variable {s s' : State n} {i : Fin n} {l : Lock (Guard n)} {waiters : List Waiter}

/-- What the fiber has to know to move from one program point to another. -/
structure FiberMoves (s : State n) (old pc : FiberPc n) : Prop where
  exchange : pc ≠ .addAcquire .exchange
  before : pc.beforeWait = true → old.beforeWait = true
  added : pc.added = old.added
  load : ∀ value, pc = .addStore value → value = s.counter
  fault : pc ≠ .addRelease .fault ∧ pc ≠ .waitRelease .fault
  ended : pc.over = true → ∀ i, (s.party i).past = true

/-- What a call of Done has to know to move from one program point to another. -/
structure PartyMoves (s : State n) (i : Fin n) (old pc : DonePc n) : Prop where
  fresh : pc ≠ .fresh
  exchange : pc = .acquire .exchange → old = .fresh
  stored : pc.stored = old.stored
  load : ∀ value, pc = .store value → value = s.counter
  fault : ∀ ws pc', pc = .release ws pc' → pc' ≠ .fault ∧ pc' ≠ .returned
  past : old.past = true → pc.past = true
  zero : pc.zero = true → ∀ j, j ≠ i → (s.party j).past = true

/-- From the point where every call of Done is over, the fiber goes on to its return. -/
theorem FiberMoves.last {old pc : FiberPc n} (hold : old.added = true) (hover : pc.over = true)
    (hfault : pc ≠ .waitRelease .fault) (hall : ∀ i, (s.party i).past = true) :
    FiberMoves s old pc := by
  cases pc <;> constructor <;> simp_all

/-- From the point where every other call is over, a call of Done goes on to its
release and its walk. -/
theorem PartyMoves.last {old pc : DonePc n} (hold : old.stored = 1) (hpc : pc.stored = 1)
    (hrelease : ∀ ws pc', pc ≠ .release ws pc') (hpast : old.past = true → pc.past = true)
    (hothers : ∀ j, j ≠ i → (s.party j).past = true) : PartyMoves s i old pc := by
  cases pc <;> constructor <;> simp_all

/-- The fiber moves on. -/
theorem Inv.moveFiber {pc : FiberPc n} (h : Inv s)
    (hqueued : ∃ q, Queued l (State.phase { s with spinlock := l, fiber := pc }) q)
    (hkeep : ∀ g, s.phase g = .out → l.next g = s.spinlock.next g)
    (hm : FiberMoves s s.fiber pc) :
    Inv { s with spinlock := l, wgWaiters := waiters, fiber := pc } := by
  refine { h with
    queued := hqueued, next := ?next, counter := ?counter
    addLoaded := hm.load, fiberFault := hm.fault, ended := hm.ended }
  case next =>
    intro g hg
    have hold : s.entering g = true := by
      cases g with
      | add => exact absurd (of_decide_eq_true hg) hm.exchange
      | wait => exact hm.before hg
      | done i => exact hg
    rw [hkeep g (entering_out hold)]
    exact h.next g hold
  case counter =>
    rw [hm.added]
    exact h.counter

/-- A call of Done moves on and leaves the counter alone. -/
theorem Inv.moveParty {pc : DonePc n} (h : Inv s)
    (hqueued : ∃ q, Queued l (Function.update s.phase (.done i) pc.phase) q)
    (hkeep : ∀ g, s.phase g = .out → l.next g = s.spinlock.next g)
    (hm : PartyMoves s i (s.party i) pc) :
    Inv ({ s with spinlock := l, wgWaiters := waiters }.goto i pc) := by
  have hmono : ∀ j, (s.party j).past = true → (Function.update s.party i pc j).past = true := by
    intro j hj
    rw [Function.update_apply]
    split
    next he =>
      subst he
      exact hm.past hj
    next => exact hj
  refine { h with
    queued := ?queued, next := ?next, counter := ?counter, loaded := ?loaded
    partyFault := ?fault, ended := fun hover j => hmono j (h.ended hover j), zero := ?zero }
  case queued =>
    obtain ⟨q,hq⟩ := hqueued
    have hphase : State.phase ({ s with spinlock := l, wgWaiters := waiters }.goto i pc) =
        Function.update s.phase (.done i) pc.phase := phase_done
    exact ⟨q,by rw [hphase]; exact hq⟩
  case next =>
    intro g hg
    have hold : s.entering g = true := by
      cases g with
      | add | wait => exact hg
      | done j =>
        simp only [State.entering,State.goto,Function.update_apply,decide_eq_true_eq] at hg ⊢
        split at hg
        next he =>
          subst he
          exact hg.elim (fun hf => absurd hf hm.fresh) fun hx => Or.inl (hm.exchange hx)
        next => exact hg
    simp only [State.goto]
    rw [hkeep g (entering_out hold)]
    exact h.next g hold
  case counter =>
    have htally := tally_update DonePc.stored s.party i pc
    have hstored := hm.stored
    have hsame :
        tally DonePc.stored (Function.update s.party i pc) = tally DonePc.stored s.party := by
      omega
    simp only [State.goto,hsame]
    exact h.counter
  case loaded =>
    intro j value hj
    simp only [State.goto,Function.update_apply] at hj
    split at hj
    · exact hm.load value hj
    · exact h.loaded j value hj
  case fault =>
    intro j ws pc' hj
    simp only [State.goto,Function.update_apply] at hj
    split at hj
    · exact hm.fault ws pc' hj
    · exact h.partyFault j ws pc' hj
  case zero =>
    intro j hj k hk
    simp only [State.goto] at hj ⊢
    refine hmono k ?_
    by_cases hji : j = i
    · subst hji
      rw [Function.update_self] at hj
      exact hm.zero hj k hk
    · rw [Function.update_of_ne hji] at hj
      exact h.zero j hj k hk

/-- A step of Acquire keeps the queue, and the guards outside of it alone. -/
theorem Inv.acquire {g : Guard n} {pc : AcquirePc (Guard n)} (h : Inv s) (hg : s.phase g = pc.phase)
    (hexchange : pc = .exchange → s.entering g = true) :
    (∃ q, Queued (s.spinlock.acquire g pc).1
      (Function.update s.phase g (s.spinlock.acquire g pc).2.phase) q) ∧
      ∀ a, s.phase a = .out → (s.spinlock.acquire g pc).1.next a = s.spinlock.next a := by
  obtain ⟨q,hq⟩ := h.queued
  exact ⟨⟨_,hq.acquire hg fun he => h.next g (hexchange he)⟩,fun a ha => hq.acquire_next hg ha⟩

/-- A step of Release keeps the queue. -/
theorem Inv.release {g : Guard n} {pc : ReleasePc (Guard n)} (h : Inv s) (spurious : Bool)
    (hg : s.phase g = pc.phase) (hfault : pc ≠ .fault) :
    (s.spinlock.release g spurious pc).2 ≠ .fault ∧
      ∃ q, Queued (s.spinlock.release g spurious pc).1
        (Function.update s.phase g (s.spinlock.release g spurious pc).2.phase) q := by
  obtain ⟨q,hq⟩ := h.queued
  obtain ⟨hne,hq'⟩ := hq.release spurious hg hfault
  exact ⟨hne,_,hq'⟩

/-- The fiber moves on without an access to the lock. -/
theorem Inv.stayFiber {old pc : FiberPc n} (h : Inv s) (hpc : s.fiber = old)
    (hadd : pc.addPhase = old.addPhase) (hwait : pc.waitPhase = old.waitPhase)
    (hm : FiberMoves s old pc) : Inv { s with fiber := pc } := by
  subst hpc
  refine h.moveFiber ?_ (fun _ _ => rfl) hm
  obtain ⟨q,hq⟩ := h.queued
  have hphase : State.phase { s with fiber := pc } = s.phase := by
    funext g
    cases g with
    | add => exact hadd
    | wait => exact hwait
    | done i => rfl
  exact ⟨q,by rw [hphase]; exact hq⟩

/-- A step of Acquire by the fiber. -/
theorem Inv.acquireFiber {g : Guard n} {pc : AcquirePc (Guard n)}
    {stay : AcquirePc (Guard n) → FiberPc n} {after : FiberPc n} (h : Inv s)
    (hg : s.phase g = pc.phase) (hexchange : pc = .exchange → s.entering g = true)
    (hphase : ∀ l pc', State.phase { s with spinlock := l, fiber := afterAcquire stay after pc' } =
      Function.update s.phase g pc'.phase)
    (hm : ∀ pc', pc' ≠ .exchange → FiberMoves s s.fiber (afterAcquire stay after pc')) :
    Inv { s with
      spinlock := (s.spinlock.acquire g pc).1
      fiber := afterAcquire stay after (s.spinlock.acquire g pc).2 } := by
  obtain ⟨⟨q,hq⟩,hkeep⟩ := h.acquire hg hexchange
  have hne := acquire_ne_exchange s.spinlock g pc
  exact h.moveFiber ⟨q,by rw [hphase]; exact hq⟩ hkeep (hm _ hne)

/-- A step of Release by the fiber. -/
theorem Inv.releaseFiber {g : Guard n} {pc : ReleasePc (Guard n)}
    {stay : ReleasePc (Guard n) → FiberPc n} {after : FiberPc n} (h : Inv s) (spurious : Bool)
    (hg : s.phase g = pc.phase) (hpc : pc ≠ .fault)
    (hphase : ∀ l pc', State.phase { s with spinlock := l, fiber := afterRelease stay after pc' } =
      Function.update s.phase g pc'.phase)
    (hm : ∀ pc', pc' ≠ .fault → FiberMoves s s.fiber (afterRelease stay after pc')) :
    Inv { s with
      spinlock := (s.spinlock.release g spurious pc).1
      fiber := afterRelease stay after (s.spinlock.release g spurious pc).2 } := by
  obtain ⟨hne,q,hq⟩ := h.release spurious hg hpc
  refine h.moveFiber ⟨q,by rw [hphase]; exact hq⟩ ?_ (hm _ hne)
  intro a _
  rw [release_next]

/-- While the fiber has the lock, no call of Done is between its load and its
store. -/
theorem Inv.not_store {g : Guard n} (h : Inv s) (hg : Section (s.phase g))
    (hne : .done i ≠ g) (value : ℕ) : s.party i ≠ .store value := by
  intro hi
  refine hne (h.exclusive (g := .done i) ?_ hg)
  simp only [State.phase,hi]
  exact ⟨rfl,rfl⟩

/-- Add stores the sum. -/
theorem Inv.addStore {value : ℕ} (h : Inv s) (hpc : s.fiber = .addStore value) :
    Inv { s with counter := (value + n) % 2 ^ 64, fiber := .addDestroy } := by
  have hsection : Section (s.phase .add) := by
    simp only [State.phase,hpc]
    exact ⟨rfl,rfl⟩
  have hmoved : Inv { s with counter := s.counter, fiber := .addLoad } :=
    h.stayFiber hpc rfl rfl (by constructor <;> simp)
  have hvalue := h.addLoaded value hpc
  have hcounter := h.counter
  constructor
  case queued => exact hmoved.queued
  case next =>
    intro g hg
    cases g with
    | add =>
      simp only [State.entering,decide_eq_true_eq] at hg
      cases hg
    | wait => exact hmoved.next .wait rfl
    | done i => exact h.next (.done i) hg
  case counter =>
    rw [hpc] at hcounter
    simp only [FiberPc.added] at hcounter ⊢
    simp only [Bool.false_eq_true,if_false,if_true] at hcounter ⊢
    omega
  case word => exact Nat.mod_lt _ (by omega)
  case loaded =>
    intro i loaded hi
    exact absurd hi (h.not_store hsection (by rintro ⟨⟩) loaded)
  case partyFault => exact h.partyFault
  case zero => exact h.zero
  all_goals simp

/-- Wait reads zero: every call of Done is over. -/
theorem Inv.past_of_zero {g : Guard n} (h : Inv s) (hn : n < 2 ^ 64) (hadded : s.fiber.added = true)
    (hzero : s.counter = 0) (hg : Section (s.phase g)) (hne : .done i ≠ g) :
    (s.party i).past = true := by
  have htally := h.tally_of_zero hn hzero
  rw [if_pos hadded] at htally
  exact h.past_of_stored hg hne (stored_of_tally htally i)

/-- A step of the fiber. -/
theorem Inv.fiberStep {spurious : Bool} (h : Inv s) (hn : n < 2 ^ 64)
    (hs : s.fiberStep spurious = some s') : Inv s' := by
  cases hpc : s.fiber with
  | addAcquire pc =>
    simp only [State.fiberStep,hpc,Option.some.injEq] at hs
    subst hs
    refine h.acquireFiber ?_ ?_ ?_ ?_
    · simp only [State.phase,hpc,FiberPc.addPhase]
    · rintro rfl
      simp only [State.entering,hpc,decide_true]
    · intro l pc'
      rw [phase_add (by cases pc' <;> simp only [hpc] <;> rfl)]
      cases pc' <;> rfl
    · intro pc' hne
      cases pc' <;> constructor <;> simp_all [afterAcquire]
  | addLoad =>
    simp only [State.fiberStep,hpc,Option.some.injEq] at hs
    subst hs
    refine h.stayFiber hpc rfl rfl ?_
    constructor
    case load =>
      rintro value ⟨⟩
      rfl
    all_goals simp
  | addStore value =>
    simp only [State.fiberStep,hpc,Option.some.injEq] at hs
    subst hs
    exact h.addStore hpc
  | addDestroy =>
    have howner := h.owner (g := .add) (by simp only [State.phase,hpc]; rfl)
    simp only [State.fiberStep,hpc,howner,if_true,Option.some.injEq] at hs
    subst hs
    exact h.stayFiber hpc rfl rfl (by constructor <;> simp)
  | addRelease pc =>
    simp only [State.fiberStep,hpc,Option.some.injEq] at hs
    subst hs
    have hne : pc ≠ .fault := by
      rintro rfl
      exact h.fiberFault.1 hpc
    refine h.releaseFiber spurious ?_ hne ?_ ?_
    · simp only [State.phase,hpc,FiberPc.addPhase]
    · intro l pc'
      rw [phase_add (by cases pc' <;> simp only [hpc] <;> rfl)]
      cases pc' <;> rfl
    · intro pc' hne'
      cases pc' <;> constructor <;> simp_all [afterRelease]
  | waitAcquire pc =>
    simp only [State.fiberStep,hpc,Option.some.injEq] at hs
    subst hs
    refine h.acquireFiber ?_ ?_ ?_ ?_
    · simp only [State.phase,hpc,FiberPc.waitPhase]
    · rintro rfl
      simp only [State.entering,hpc]
      rfl
    · intro l pc'
      rw [phase_wait (by cases pc' <;> simp only [hpc] <;> rfl)]
      cases pc' <;> rfl
    · intro pc' hne
      cases pc' <;> constructor <;> simp_all [afterAcquire]
  | waitTest =>
    simp only [State.fiberStep,hpc,Option.some.injEq] at hs
    have hsection : Section (s.phase .wait) := by
      simp only [State.phase,hpc]
      exact ⟨rfl,rfl⟩
    subst hs
    split
    next =>
      exact h.stayFiber hpc rfl rfl (by constructor <;> simp)
    next hzero =>
      refine h.stayFiber hpc rfl rfl (.last rfl rfl (by simp) fun i => ?_)
      exact h.past_of_zero hn (by rw [hpc]; rfl) (by omega) hsection (by rintro ⟨⟩)
  | waitPark =>
    simp only [State.fiberStep,hpc] at hs
    split at hs
    next l hl =>
      cases hs
      obtain ⟨q,hq⟩ := h.queued
      obtain ⟨hq',hnext⟩ := queued_releaseAll hq (by simp only [State.phase,hpc]; rfl) hl
      refine h.moveFiber ?_ (fun g _ => by rw [hnext]) ?_
      · rw [phase_wait (by rw [hpc]; rfl)]
        exact hq'
      · constructor <;> simp [hpc]
    next => cases hs
  | parked =>
    simp only [State.fiberStep,hpc] at hs
    cases hs
  | scheduled =>
    simp only [State.fiberStep,hpc,Option.some.injEq] at hs
    subst hs
    exact h.stayFiber hpc rfl rfl (.last rfl rfl (by simp) (h.ended (by rw [hpc]; rfl)))
  | resumed =>
    have howner := h.not_owner (g := .wait) (by simp only [State.phase,hpc]; rfl)
    simp only [State.fiberStep,hpc,howner,Bool.false_eq_true,if_false,Option.some.injEq] at hs
    subst hs
    exact h.stayFiber hpc rfl rfl (.last rfl rfl (by simp) (h.ended (by rw [hpc]; rfl)))
  | waitDestroy =>
    have howner := h.owner (g := .wait) (by simp only [State.phase,hpc]; rfl)
    simp only [State.fiberStep,hpc,howner,if_true,Option.some.injEq] at hs
    subst hs
    exact h.stayFiber hpc rfl rfl (.last rfl rfl (by simp) (h.ended (by rw [hpc]; rfl)))
  | waitRelease pc =>
    simp only [State.fiberStep,hpc,Option.some.injEq] at hs
    subst hs
    have hne : pc ≠ .fault := by
      rintro rfl
      exact h.fiberFault.2 hpc
    have hended := h.ended (by rw [hpc]; rfl)
    refine h.releaseFiber spurious ?_ hne ?_ ?_
    · simp only [State.phase,hpc,FiberPc.waitPhase]
    · intro l pc'
      rw [phase_wait (by cases pc' <;> simp only [hpc] <;> rfl)]
      cases pc' <;> rfl
    · intro pc' hne'
      cases pc' <;> constructor <;> simp_all [afterRelease]
  | returned =>
    simp only [State.fiberStep,hpc] at hs
    cases hs

/-- A call of Done moves on without an access to the lock. -/
theorem Inv.stayParty {old pc : DonePc n} (h : Inv s) (hpc : s.party i = old)
    (hphase : pc.phase = old.phase) (hm : PartyMoves s i old pc) :
    Inv ({ s with wgWaiters := waiters }.goto i pc) := by
  subst hpc
  refine h.moveParty ?_ (fun _ _ => rfl) hm
  obtain ⟨q,hq⟩ := h.queued
  have hsame : s.phase (.done i) = pc.phase := hphase.symm
  exact ⟨q,by rw [←hsame,Function.update_eq_self]; exact hq⟩

/-- A call of Done stores the difference. -/
theorem Inv.partyStore {value c : ℕ} (h : Inv s) (hpc : s.party i = .store value)
    (hc : (value + 2 ^ 64 - 1) % 2 ^ 64 = c) : Inv ({ s with counter := c }.goto i .test) := by
  have hsection : Section (s.phase (.done i)) := by
    simp only [State.phase,hpc]
    exact ⟨rfl,rfl⟩
  -- the lock keeps every other call, and Add, from between a load and a store
  have hmoved : Inv (s.goto i .load) := h.stayParty hpc rfl (by constructor <;> simp)
  have hvalue := h.loaded i value hpc
  have hcounter := h.counter
  have htally := tally_update DonePc.stored s.party i .test
  have hpast : (s.party i).past = false := by
    rw [hpc]
    rfl
  constructor
  case fiberFault => exact h.fiberFault
  case queued =>
    obtain ⟨q,hq⟩ := hmoved.queued
    have hsame : State.phase ({ s with counter := c }.goto i .test) =
        Function.update s.phase (.done i) .holding := phase_done
    have hload : State.phase (s.goto i .load) = Function.update s.phase (.done i) .holding :=
      phase_done
    rw [hload] at hq
    exact ⟨q,by rw [hsame]; exact hq⟩
  case next =>
    intro g hg
    refine hmoved.next g ?_
    cases g with
    | add | wait => exact hg
    | done j =>
      simp only [State.entering,State.goto,Function.update_apply,decide_eq_true_eq] at hg ⊢
      split at hg
      · exact hg.elim (by rintro ⟨⟩) (by rintro ⟨⟩)
      · rename_i hji
        rwa [if_neg hji]
  case counter =>
    rw [hpc] at htally
    simp only [DonePc.stored] at htally
    refine Eq.trans ?_ hcounter
    simp only [State.goto]
    omega
  case word =>
    simp only [State.goto]
    omega
  case addLoaded =>
    intro loaded hfiber
    have hadd : Section (s.phase .add) := by
      simp only [State.goto] at hfiber
      simp only [State.phase,hfiber]
      exact ⟨rfl,rfl⟩
    exact absurd (h.exclusive hadd hsection) (by rintro ⟨⟩)
  case loaded =>
    intro j loaded hj
    simp only [State.goto,Function.update_apply] at hj
    split at hj
    next => cases hj
    next hji => exact absurd hj (h.not_store hsection (fun he => hji (Guard.done.inj he)) loaded)
  case partyFault =>
    intro j ws pc' hj
    simp only [State.goto,Function.update_apply] at hj
    split at hj
    next => cases hj
    next => exact h.partyFault j ws pc' hj
  case ended =>
    intro hover
    have hi := h.ended hover i
    rw [hpast] at hi
    cases hi
  case zero =>
    intro j hj
    simp only [State.goto,Function.update_apply] at hj
    split at hj
    next => cases hj
    next hji =>
      have hi := h.zero j hj i (Ne.symm hji)
      rw [hpast] at hi
      cases hi

/-- The guard of a call of Done in Release and after it. -/
theorem phase_afterRelease (waiters : List Waiter) (pc : ReleasePc (Guard n)) :
    (afterRelease (DonePc.release waiters) (walk waiters) pc).phase = pc.phase := by
  cases pc with
  | returned => cases waiters <;> rfl
  | hasNext | cas | hasNextAgain | loadNext | setOwner next | clear | fault => rfl

/-- Schedule, when every call of Done is over. -/
theorem Inv.wake (h : Inv s) (hall : ∀ i, (s.party i).past = true) :
    Inv { s with fiber := s.fiber.wake } := by
  cases hpc : s.fiber with
  | parked => exact h.stayFiber hpc rfl rfl (.last rfl rfl (by rintro ⟨⟩) hall)
  | addAcquire | addLoad | addStore | addDestroy | addRelease | waitAcquire | waitTest | waitPark
  | scheduled | resumed | waitDestroy | waitRelease | returned =>
    rw [FiberPc.wake,←hpc]
    · exact h
    · rintro ⟨⟩

/-- A step of a call of Done. -/
theorem Inv.partyStep {spurious : Bool} (h : Inv s) (hn : n < 2 ^ 64)
    (hs : s.partyStep i spurious = some s') : Inv s' := by
  cases hpc : s.party i with
  | fresh | finished =>
    simp only [State.partyStep,hpc] at hs
    cases hs
  | acquire pc =>
    simp only [State.partyStep,hpc,Option.some.injEq] at hs
    subst hs
    have hphase : s.phase (.done i) = pc.phase := by
      simp only [State.phase,hpc,DonePc.phase]
    obtain ⟨⟨q,hq⟩,hkeep⟩ := h.acquire hphase (by
      rintro rfl
      simp only [State.entering,hpc,or_true,decide_true])
    have hne := acquire_ne_exchange s.spinlock (.done i) pc
    refine h.moveParty ⟨q,?_⟩ hkeep ?_
    all_goals revert hne
    all_goals generalize (s.spinlock.acquire (.done i) pc).2 = pc' at hq ⊢
    · cases pc' <;> simp_all [afterAcquire,DonePc.phase,AcquirePc.phase]
    · cases pc' <;> intro hne <;> constructor <;> simp_all [afterAcquire]
  | load =>
    simp only [State.partyStep,hpc,Option.some.injEq] at hs
    subst hs
    refine h.stayParty hpc rfl ?_
    constructor
    case load =>
      rintro value ⟨⟩
      rfl
    all_goals simp
  | store value =>
    simp only [State.partyStep,hpc,Option.some.injEq] at hs
    subst hs
    exact h.partyStore hpc rfl
  | test =>
    simp only [State.partyStep,hpc,Option.some.injEq] at hs
    subst hs
    have hsection : Section (s.phase (.done i)) := by
      simp only [State.phase,hpc]
      exact ⟨rfl,rfl⟩
    split
    next hzero =>
      refine h.stayParty hpc rfl (.last rfl rfl (by simp) (by simp) fun j hj => ?_)
      have hadded : s.fiber.added = true := by
        have htally := h.tally_of_zero hn hzero
        have hle := le_tally DonePc.stored s.party i
        rw [hpc] at hle
        simp only [DonePc.stored] at hle
        by_contra hnot
        rw [if_neg hnot] at htally
        omega
      exact h.past_of_zero hn hadded hzero hsection fun he => hj (Guard.done.inj he)
    next => exact h.stayParty hpc rfl (by constructor <;> simp)
  | pop =>
    simp only [State.partyStep,hpc,Option.some.injEq] at hs
    subst hs
    exact h.stayParty hpc rfl (.last rfl rfl (by simp) (by simp) (h.zero i (by rw [hpc]; rfl)))
  | clear waiters =>
    simp only [State.partyStep,hpc,Option.some.injEq] at hs
    subst hs
    exact h.stayParty hpc rfl (.last rfl rfl (by simp) (by simp) (h.zero i (by rw [hpc]; rfl)))
  | destroy waiters =>
    have howner := h.owner (g := .done i) (by simp only [State.phase,hpc]; rfl)
    simp only [State.partyStep,hpc,howner,if_true,Option.some.injEq] at hs
    subst hs
    refine h.stayParty hpc rfl ?_
    constructor
    case fault =>
      rintro ws pc' ⟨⟩
      exact ⟨by rintro ⟨⟩,by rintro ⟨⟩⟩
    case zero =>
      intro hzero
      refine h.zero i ?_
      rw [hpc]
      cases waiters with
      | nil => cases hzero
      | cons w rest => rfl
    all_goals simp
  | release waiters pc =>
    simp only [State.partyStep,hpc,Option.some.injEq] at hs
    subst hs
    have hphase : s.phase (.done i) = pc.phase := by
      simp only [State.phase,hpc,DonePc.phase]
    obtain ⟨hfault,q,hq⟩ := h.release spurious hphase (h.partyFault i waiters pc hpc).1
    have hkeep : ∀ g, s.phase g = .out →
        (s.spinlock.release (.done i) spurious pc).1.next g = s.spinlock.next g := by
      intro g _
      rw [release_next]
    have hclear : pc = .clear → (s.spinlock.release (.done i) spurious pc).2 = .returned := by
      rintro rfl
      rfl
    refine h.moveParty ⟨q,?_⟩ hkeep ?_
    · rw [phase_afterRelease]
      exact hq
    generalize (s.spinlock.release (.done i) spurious pc).2 = pc' at hfault hclear ⊢
    constructor
    case fresh => cases pc' <;> cases waiters <;> rintro ⟨⟩
    case exchange => cases pc' <;> cases waiters <;> rintro ⟨⟩
    case stored =>
      rw [hpc]
      cases pc' <;> cases waiters <;> rfl
    case load => cases pc' <;> cases waiters <;> rintro _ ⟨⟩
    case fault => cases pc' <;> cases waiters <;> simp_all [afterRelease,walk]
    case past =>
      intro hpast
      rw [hpc] at hpast
      have hc : pc = .clear := by
        cases pc <;> first | rfl | cases hpast
      rw [hclear hc]
      cases waiters <;> rfl
    case zero =>
      intro hzero
      refine h.zero i ?_
      rw [hpc]
      cases waiters with
      | nil => cases pc' <;> cases hzero
      | cons w rest => rfl
  | next w rest =>
    simp only [State.partyStep,hpc,Option.some.injEq] at hs
    subst hs
    exact h.stayParty hpc rfl (.last rfl rfl (by simp) (by simp) (h.zero i (by rw [hpc]; rfl)))
  | schedule w rest =>
    simp only [State.partyStep,hpc,Option.some.injEq] at hs
    subst hs
    have hothers : ∀ j, j ≠ i → (s.party j).past = true := h.zero i (by rw [hpc]; rfl)
    have hall : ∀ j, (s.party j).past = true := by
      intro j
      by_cases hj : j = i
      · subst hj
        rw [hpc]
        rfl
      · exact hothers j hj
    refine (h.wake hall).stayParty hpc ?_ ?_
    · cases rest <;> rfl
    · cases rest <;> constructor <;> simp_all [walk]

/-- Every step keeps the invariant. -/
theorem Inv.step {a : Action n} (h : Inv s) (hn : n < 2 ^ 64)
    (hs : (waitGroup n).step s a = some s') : Inv s' := by
  cases a with
  | fiber spurious => exact h.fiberStep hn hs
  | call i =>
    simp only [waitGroup,WaitGroupLifetime.step] at hs
    split at hs
    next hpc =>
      cases hs
      exact h.stayParty hpc rfl (by constructor <;> simp)
    next => cases hs
  | party i spurious => exact h.partyStep hn hs

/-- The invariant of a new wait group. -/
theorem inv_initial : Inv (initial n) := by
  have hphase : (initial n).phase = fun _ => .out := by
    funext g
    cases g <;> rfl
  constructor
  case queued => exact ⟨[],by rw [hphase]; exact queued_new⟩
  case next => exact fun _ _ => rfl
  all_goals simp [initial,tally]

theorem inv_reachable (hn : n < 2 ^ 64) (hr : (waitGroup n).Reachable s) : Inv s :=
  System.Reachable.invariant inv_initial (fun _ _ _ hi hs => hi.step hn hs) hr

/-- Wait has returned for good. -/
theorem returned_step {a : Action n} (hret : s.fiber = .returned)
    (hs : (waitGroup n).step s a = some s') : s'.fiber = .returned := by
  cases a with
  | fiber spurious =>
    simp only [waitGroup,WaitGroupLifetime.step,State.fiberStep,hret] at hs
    cases hs
  | call i =>
    simp only [waitGroup,WaitGroupLifetime.step] at hs
    split at hs <;> cases hs
    exact hret
  | party i spurious =>
    simp only [waitGroup,WaitGroupLifetime.step,State.partyStep] at hs
    split at hs
    all_goals simp only [reduceCtorEq,Option.some.injEq] at hs
    all_goals rw [←hs]
    all_goals simp only [State.goto,hret,FiberPc.wake]

/-- The counter, the waiters and the tail of the spinlock hold something else. -/
def State.overwrite (counter : ℕ) (wgWaiters : List Waiter) (tail : Option (Guard n))
    (s : State n) : State n :=
  { s with
    counter := counter
    wgWaiters := wgWaiters
    spinlock := { s.spinlock with tail := tail } }

/-- A step of a call of Done that is over does not depend on the wait group, and
leaves it alone. -/
theorem partyStep_overwrite (hpast : (s.party i).past = true) (spurious : Bool) (counter : ℕ)
    (wgWaiters : List Waiter) (tail : Option (Guard n)) :
    (s.overwrite counter wgWaiters tail).partyStep i spurious =
      (s.partyStep i spurious).map (State.overwrite counter wgWaiters tail) := by
  cases hpc : s.party i with
  | fresh | acquire | load | store | test | pop | clear | destroy =>
    rw [hpc] at hpast
    cases hpast
  | release ws pc =>
    rw [hpc] at hpast
    cases pc with
    | clear => simp [State.partyStep,State.overwrite,State.goto,hpc,Lock.release]
    | hasNext | cas | hasNextAgain | loadNext | setOwner | returned | fault => cases hpast
  | next | schedule | finished => simp [State.partyStep,State.overwrite,State.goto,hpc]

/-- A call of Done that is over has no access to the wait group left. -/
theorem DonePc.not_touches {pc : DonePc n} (hpast : pc.past = true) : pc.touches = false := by
  cases pc with
  | fresh | next | schedule | finished | destroy => rfl
  | acquire | load | store | test | pop | clear => cases hpast
  | release ws pc =>
    cases pc with
    | clear => rfl
    | hasNext | cas | hasNextAgain | loadNext | setOwner | returned | fault => cases hpast

/-- After Wait has returned, no step of a call of Done reads or writes the counter,
the waiters or the tail of the spinlock: each one does the same whatever these hold,
and leaves them as they are. -/
theorem done_over_when_wait_returns {acts : List (Action n)} (hn : n < 2 ^ 64)
    (hr : (waitGroup n).Reachable s) (hret : s.fiber = .returned)
    (hrun : (waitGroup n).run s acts = some s') (i : Fin n) :
    (s'.party i).touches = false ∧ ∀ spurious counter wgWaiters tail,
      (s'.overwrite counter wgWaiters tail).partyStep i spurious =
        (s'.partyStep i spurious).map (State.overwrite counter wgWaiters tail) := by
  have hmeets : (waitGroup n).Meets (fun _ _ => True) s acts :=
    System.meets_of_forall (fun _ _ => trivial) s acts
  have hreturned : s'.fiber = .returned :=
    System.Meets.invariant (fun _ _ _ hi _ hs => returned_step hi hs) hmeets hret hrun
  have hinv := inv_reachable hn (hr.run hrun)
  have hpast := hinv.ended (by rw [hreturned]; rfl) i
  exact ⟨DonePc.not_touches hpast,partyStep_overwrite hpast⟩

/-- Two calls of Done: the second one waits behind the first in the spinlock, is
handed the lock, reads zero and schedules the fiber, whose Wait returns before the
first call has cleared its flag. -/
def overtaken : List (Action 2) :=
  [List.replicate 12 (.fiber false),[.call 0],List.replicate 5 (.party 0 false),[.call 1],
    List.replicate 2 (.party 1 false),List.replicate 4 (.party 0 false),
    List.replicate 12 (.party 1 false),List.replicate 2 (.fiber false)].flatten

theorem overtaken_ends : (waitGroup 2).Ends (initial 2) overtaken
    fun s => s.fiber = .returned ∧ s.party 0 = .release [] .clear ∧ s.party 1 = .finished ∧
      (waitGroup 2).Ends s [.party 0 false] fun s' => s'.party 0 = .finished := by
  decide +kernel

/-- The theorem at that run, and at the last step of the first call after it. -/
theorem done_over_overtaken :
    ∃ s s', (waitGroup 2).Reachable s ∧ s.fiber = .returned ∧ s.party 0 = .release [] .clear ∧
      (waitGroup 2).run s [.party 0 false] = some s' ∧ s'.party 0 = .finished ∧
      (s.party 0).touches = false ∧ ∀ spurious counter wgWaiters tail,
        (s.overwrite counter wgWaiters tail).partyStep 0 spurious =
          (s.partyStep 0 spurious).map (State.overwrite counter wgWaiters tail) := by
  obtain ⟨s,hr,hret,hclear,-,hlast⟩ := overtaken_ends.reachable
  obtain ⟨s',hrun,hfinished⟩ := hlast.exists_run
  have hnil : (waitGroup 2).run s [] = some s := rfl
  obtain ⟨htouches,hsame⟩ := done_over_when_wait_returns (by decide) hr hret hnil 0
  exact ⟨s,s',hr,hret,hclear,hrun,hfinished,htouches,hsame⟩

end Steps

end ConcurrencyRuntime.WaitGroupLifetime
