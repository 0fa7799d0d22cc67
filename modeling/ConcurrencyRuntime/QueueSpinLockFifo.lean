import ConcurrencyRuntime.QueueSpinLock
import ConcurrencyRuntime.TransitionSystem

/-!
# Guards of a queue spinlock

Guards are constructed, may be released by hand, and are destroyed, each by
its own thread and any number of them at once. An address may be used for one
guard after another. The state keeps the order of the exchanges on the tail,
the order in which guards got the lock and who holds it, next to what the code
stores; a run of the queue invariant compares them.
-/

namespace ConcurrencyRuntime.QueueSpinLockFifo

open TransitionSystem QueueSpinLock

/-- Where the thread of a guard is. -/
inductive GuardPc (G : Type*) where
  /-- There is no guard at the address. -/
  | absent
  /-- In the constructor, or past it once Acquire has returned. -/
  | acquire (pc : AcquirePc G)
  /-- The load of is_owner in the destructor, after Release or without it. -/
  | destroy (released : Bool)
  /-- In Release, called by hand or from the destructor. -/
  | release (destructor : Bool) (pc : ReleasePc G)
  deriving DecidableEq

/-- A lock, its guards and the history of the lock. -/
structure State (G : Type*) where
  /-- The tail and the fields of the guards. -/
  lock : Lock G
  /-- The program point of each guard. -/
  pc : G → GuardPc G
  /-- Guards in the order of their exchanges on the tail. -/
  entered : List G
  /-- Guards in the order in which they got the lock. -/
  granted : List G
  /-- The guards that hold the lock. -/
  holds : G → Bool

/-- The steps of the thread of a guard. -/
inductive Action (G : Type*) where
  /-- The constructor is called. -/
  | construct (g : G)
  /-- Release is called by hand. -/
  | release (g : G)
  /-- The destructor is called. -/
  | destroy (g : G)
  /-- The next atomic access; a weak compare-exchange may fail spuriously. -/
  | run (g : G) (spurious : Bool)

variable {G : Type*} [DecidableEq G]

/-- Move a guard to a program point. -/
def State.goto (s : State G) (g : G) (pc : GuardPc G) : State G :=
  { s with pc := Function.update s.pc g pc }

/-- A guard gets the lock. -/
def State.grant (s : State G) (g : G) : State G :=
  { s with
    granted := s.granted ++ [g]
    holds := Function.update s.holds g true }

/-- A guard gives the lock up. -/
def State.yield (s : State G) (g : G) : State G :=
  { s with holds := Function.update s.holds g false }

/-- What the history records of a step of Acquire: an exchange that returns
null is the moment from which the guard holds the lock. -/
def State.noteAcquire (s : State G) (g : G) : AcquirePc G → State G
  | .exchange =>
    if s.lock.tail = none then { s with entered := s.entered ++ [g] }.grant g
    else { s with entered := s.entered ++ [g] }
  | _ => s

/-- What the history records of a step of Release: the guard holds the lock
until it hands it on, or until its compare-exchange succeeds. -/
def State.noteRelease (s : State G) (g : G) (spurious : Bool) : ReleasePc G → State G
  | .cas => if s.lock.tail = some g ∧ spurious = false then s.yield g else s
  | .setOwner n => (s.yield g).grant n
  | _ => s

/-- The program point after a step of Release; the destructor is over with it. -/
def afterRelease {G : Type*} (destructor : Bool) : ReleasePc G → GuardPc G
  | .returned => if destructor then .absent else .release false .returned
  | pc => .release destructor pc

/-- One step of the thread of a guard. -/
def step (s : State G) : Action G → Option (State G)
  | .construct g =>
    match s.pc g with
    | .absent => some ({ s with lock := s.lock.construct g }.goto g (.acquire .exchange))
    | _ => none
  | .release g =>
    match s.pc g with
    | .acquire .returned => some (s.goto g (.release false .hasNext))
    | _ => none
  | .destroy g =>
    match s.pc g with
    | .acquire .returned => some (s.goto g (.destroy false))
    | .release false .returned => some (s.goto g (.destroy true))
    | _ => none
  | .run g spurious =>
    match s.pc g with
    | .acquire .returned => none
    | .acquire pc =>
      some ({ s.noteAcquire g pc with lock := (s.lock.acquire g pc).1 }.goto g
        (.acquire (s.lock.acquire g pc).2))
    | .destroy _ =>
      some (s.goto g (if s.lock.isOwner g then .release true .hasNext else .absent))
    | .release false .returned => none
    | .release destructor pc =>
      some ({ s.noteRelease g spurious pc with lock := (s.lock.release g spurious pc).1 }.goto g
        (afterRelease destructor (s.lock.release g spurious pc).2))
    | .absent => none

/-- No guard has been constructed. -/
def initial (G : Type*) : State G := ⟨Lock.new G,fun _ => .absent,[],[],fun _ => false⟩

/-- The guards of one lock under all interleavings. -/
def system (G : Type*) [DecidableEq G] : System (State G) (Action G) := ⟨initial G,step⟩

/-- A guard waits from its exchange until it gets the lock. -/
def State.Waits {G : Type*} (s : State G) (g : G) : Prop :=
  ((∃ ancestor, s.pc g = .acquire (.setNext ancestor)) ∨ s.pc g = .acquire .spin) ∧
    s.holds g = false

/-- The phase of a guard in its thread. -/
def GuardPc.phase {G : Type*} : GuardPc G → Phase G
  | .absent | .destroy true => .out
  | .acquire pc => pc.phase
  | .destroy false => .holding
  | .release _ pc => pc.phase

/-- The queue explains the fields of the lock and the history. -/
structure Ordered {G : Type*} (s : State G) (q : List G) : Prop where
  queued : Queued s.lock (fun g => (s.pc g).phase) q
  holds : ∀ g, s.holds g = true ↔ q[0]? = some g
  /-- Whoever entered and has not got the lock is behind the head. -/
  entered : s.entered = s.granted ++ q.tail
  constructed : ∀ g, s.pc g = .acquire .exchange → s.lock.next g = none
  noFault : ∀ g destructor, s.pc g ≠ .release destructor .fault

section Steps

variable {s s' : State G} {q : List G} {g : G}

omit [DecidableEq G] in
theorem ordered_initial : Ordered (initial G) [] := by
  refine ⟨queued_new,?_,rfl,by rintro _ ⟨⟩,by rintro _ _ ⟨⟩⟩
  intro g
  simp [initial]

/-- Only the phases of a state matter to the queue. -/
theorem phase_goto (s : State G) (g : G) (pc : GuardPc G) :
    (fun k => ((s.goto g pc).pc k).phase) =
      Function.update (fun k => (s.pc k).phase) g pc.phase := by
  funext k
  simp only [State.goto,Function.update_apply]
  split <;> rfl

/-- A guard moves on within its phase. -/
theorem Ordered.stay {pc : GuardPc G} (h : Ordered s q) (hphase : pc.phase = (s.pc g).phase)
    (hexchange : pc ≠ .acquire .exchange) (hfault : ∀ destructor, pc ≠ .release destructor .fault) :
    Ordered (s.goto g pc) q := by
  refine { queued := ?_, holds := h.holds, entered := h.entered, constructed := ?_, noFault := ?_ }
  · rw [phase_goto,hphase,Function.update_eq_self]
    exact h.queued
  · intro k hk
    have hne : k ≠ g := by
      rintro rfl
      exact hexchange (by simpa [State.goto] using hk)
    exact h.constructed k (by simpa [State.goto,hne] using hk)
  · intro k destructor hk
    rcases eq_or_ne k g with rfl | hne
    · exact hfault destructor (by simpa [State.goto] using hk)
    · exact h.noFault k destructor (by simpa [State.goto,hne] using hk)

/-- The constructor of a guard. -/
theorem Ordered.construct (h : Ordered s q) (hg : s.pc g = .absent) :
    Ordered ({ s with lock := s.lock.construct g }.goto g (.acquire .exchange)) q := by
  have hout : (s.pc g).phase = .out := by
    rw [hg]
    rfl
  have hqueued := h.queued.construct hout
  refine { queued := ?_, holds := h.holds, entered := h.entered, constructed := ?_, noFault := ?_ }
  · rw [phase_goto]
    have hsame : (GuardPc.acquire AcquirePc.exchange : GuardPc G).phase =
        (s.pc g).phase := hout.symm
    rw [hsame,Function.update_eq_self]
    exact hqueued
  · intro k hk
    simp only [State.goto,Lock.construct,Function.update_apply] at hk ⊢
    split
    next => rfl
    next hne =>
      rw [if_neg hne] at hk
      exact h.constructed k hk
  · intro k destructor hk
    simp only [State.goto,Function.update_apply] at hk
    split at hk
    next => cases hk
    next => exact h.noFault k destructor hk

/-- The history follows the queue in a step of Acquire. -/
theorem Ordered.noteAcquire {pc : AcquirePc G} (h : Ordered s q) (hg : s.pc g = .acquire pc) :
    (∀ k, (s.noteAcquire g pc).holds k = true ↔ (pc.queue g q)[0]? = some k) ∧
      (s.noteAcquire g pc).entered = (s.noteAcquire g pc).granted ++ (pc.queue g q).tail := by
  cases pc with
  | exchange =>
    have hout : g ∉ q := by
      rw [h.queued.mem]
      simp only [hg]
      rintro ⟨⟩
    have htail := h.queued.tail
    have hholds := h.holds
    have hentered := h.entered
    cases q with
    | nil =>
      simp only [State.noteAcquire,htail,List.getLast?_nil,if_true,State.grant,AcquirePc.queue,
        List.nil_append,List.tail_cons,List.append_nil,Function.update_apply]
      refine ⟨?_,?_⟩
      · grind
      · rw [hentered]
        simp
    | cons m rest =>
      have hsome : s.lock.tail ≠ none := by
        rw [htail]
        simp
      simp only [State.noteAcquire,if_neg hsome,AcquirePc.queue,List.cons_append,List.tail_cons]
      refine ⟨?_,?_⟩
      · simpa using hholds
      · rw [hentered]
        simp
  | setOwner | setNext ancestor | spin | returned => exact ⟨h.holds,h.entered⟩

/-- One step of Acquire. -/
theorem Ordered.acquire {pc : AcquirePc G} (h : Ordered s q) (hg : s.pc g = .acquire pc) :
    Ordered ({ s.noteAcquire g pc with lock := (s.lock.acquire g pc).1 }.goto g
      (.acquire (s.lock.acquire g pc).2)) (pc.queue g q) := by
  have hphase : (s.pc g).phase = pc.phase := by
    rw [hg]
    rfl
  have hpc : (s.noteAcquire g pc).pc = s.pc := by
    cases pc with
    | exchange =>
      simp only [State.noteAcquire]
      split <;> rfl
    | setOwner | setNext ancestor | spin | returned => rfl
  obtain ⟨hholds,hentered⟩ := h.noteAcquire hg
  have hqueued := h.queued.acquire hphase fun he => h.constructed g (he ▸ hg)
  refine { queued := ?_, holds := hholds, entered := hentered, constructed := ?_, noFault := ?_ }
  · rw [phase_goto]
    simp only [hpc]
    exact hqueued
  · intro k hk
    simp only [State.goto,Function.update_apply,hpc] at hk ⊢
    split at hk
    next => exact absurd (GuardPc.acquire.inj hk) (acquire_ne_exchange s.lock g pc)
    next hne =>
      rw [h.queued.acquire_next hphase (by simp only [hk]; rfl)]
      exact h.constructed k hk
  · intro k destructor hk
    simp only [State.goto,Function.update_apply,hpc] at hk
    split at hk
    next => cases hk
    next => exact h.noFault k destructor hk

/-- The history follows the queue in a step of Release. -/
theorem Ordered.noteRelease {pc : ReleasePc G} {destructor : Bool} (spurious : Bool)
    (h : Ordered s q) (hg : s.pc g = .release destructor pc) :
    (∀ k, (s.noteRelease g spurious pc).holds k = true ↔
        (pc.queue s.lock g spurious q)[0]? = some k) ∧
      (s.noteRelease g spurious pc).entered =
        (s.noteRelease g spurious pc).granted ++ (pc.queue s.lock g spurious q).tail := by
  have hholds := h.holds
  have hentered := h.entered
  cases pc with
  | cas =>
    simp only [State.noteRelease,ReleasePc.queue]
    split
    next hcas =>
      -- the guard is the only one in the queue, so nobody is left to hold the lock
      have hhead := h.queued.head_of (g := g) (by rw [hg]; rfl) (by rw [hg]; rfl)
      have hlast : q.getLast? = some g := h.queued.tail.symm.trans hcas.1
      have hone : q.tail = [] := by
        have hindex := h.queued.index (i := 0) (j := q.length - 1) hhead (by grind)
        exact List.eq_nil_of_length_eq_zero (by rw [List.length_tail]; omega)
      simp only [State.yield,Function.update_apply]
      refine ⟨?_,?_⟩
      · grind
      · rw [hentered,hone]
        rfl
    next => exact ⟨hholds,hentered⟩
  | setOwner n =>
    have hphase : (s.pc g).phase = .handing n := by
      rw [hg]
      rfl
    have hhead := h.queued.head_of (g := g) (by rw [hphase]; rfl) (by rw [hphase]; rfl)
    obtain ⟨hsucc,-⟩ := h.queued.successor hhead (h.queued.handing g n hphase)
    obtain ⟨rest,rfl⟩ : ∃ rest, q = g :: n :: rest := by
      rcases q with _ | ⟨m,_ | ⟨k,rest⟩⟩
      · cases hhead
      · cases hsucc
      · cases hhead
        cases hsucc
        exact ⟨rest,rfl⟩
    have hnodup := List.nodup_cons.mp h.queued.nodup
    simp only [State.noteRelease,State.yield,State.grant,ReleasePc.queue,List.tail_cons,
      Function.update_apply]
    refine ⟨?_,?_⟩
    · grind
    · rw [hentered]
      simp
  | hasNext | hasNextAgain | loadNext | clear | returned | fault => exact ⟨hholds,hentered⟩

/-- One step of Release. -/
theorem Ordered.release {pc : ReleasePc G} {destructor : Bool} (spurious : Bool)
    (h : Ordered s q) (hg : s.pc g = .release destructor pc) :
    Ordered ({ s.noteRelease g spurious pc with lock := (s.lock.release g spurious pc).1 }.goto g
      (afterRelease destructor (s.lock.release g spurious pc).2))
      (pc.queue s.lock g spurious q) := by
  have hphase : (s.pc g).phase = pc.phase := by
    rw [hg]
    rfl
  have hpc : (s.noteRelease g spurious pc).pc = s.pc := by
    cases pc with
    | cas =>
      simp only [State.noteRelease]
      split <;> rfl
    | hasNext | hasNextAgain | loadNext | setOwner n | clear | returned | fault => rfl
  have hne : pc ≠ .fault := fun he => h.noFault g destructor (he ▸ hg)
  obtain ⟨hholds,hentered⟩ := h.noteRelease spurious hg
  obtain ⟨hfault,hqueued⟩ := h.queued.release spurious hphase hne
  generalize hpc' : (s.lock.release g spurious pc).2 = pc' at *
  have hafter : (afterRelease destructor pc').phase = pc'.phase := by
    cases pc' <;> cases destructor <;> rfl
  refine { queued := ?_, holds := hholds, entered := hentered, constructed := ?_, noFault := ?_ }
  · rw [phase_goto,hafter]
    simp only [hpc]
    exact hqueued
  · intro k hk
    simp only [State.goto,Function.update_apply,hpc] at hk ⊢
    rw [release_next]
    split at hk
    next => cases pc' <;> cases destructor <;> cases hk
    next => exact h.constructed k hk
  · intro k d hk
    simp only [State.goto,Function.update_apply,hpc] at hk
    split at hk
    next => cases pc' <;> cases destructor <;> first | exact absurd rfl hfault | cases hk
    next => exact h.noFault k d hk

/-- The load of is_owner in the destructor. -/
theorem Ordered.destroy {released : Bool} (h : Ordered s q) (hg : s.pc g = .destroy released) :
    Ordered (s.goto g (if s.lock.isOwner g then .release true .hasNext else .absent)) q := by
  have howner := h.queued.owner g
  cases released with
  | true =>
    -- a guard that was released by hand is not an owner any more
    have hout : (s.pc g).phase = .out := by
      rw [hg]
      rfl
    have hnot : g ∉ q := by
      rw [h.queued.mem,hout]
      rintro ⟨⟩
    have hclear : s.lock.isOwner g = false := by
      rw [←Bool.not_eq_true,howner,hout]
      rintro (hc | hc)
      · cases hc
      · exact hnot (List.mem_of_getElem? hc.1)
    rw [hclear,if_neg (by simp)]
    exact h.stay (by rw [hg]; rfl) (by rintro ⟨⟩) (by rintro _ ⟨⟩)
  | false =>
    have hholding : (s.pc g).phase = .holding := by
      rw [hg]
      rfl
    have hhead := h.queued.head_of (g := g) (by rw [hholding]; rfl) (by rw [hholding]; rfl)
    have hown : s.lock.isOwner g = true := by
      rw [howner,hholding]
      exact Or.inr ⟨hhead,by rintro ⟨⟩⟩
    rw [hown,if_pos rfl]
    exact h.stay (by rw [hg]; rfl) (by rintro ⟨⟩) (by rintro _ ⟨⟩)

/-- Each step keeps the queue. -/
theorem Ordered.step {a : Action G} (h : Ordered s q) (hs : step s a = some s') :
    ∃ q', Ordered s' q' := by
  cases a with
  | construct g =>
    simp only [QueueSpinLockFifo.step] at hs
    split at hs <;> cases hs
    next hg => exact ⟨q,h.construct hg⟩
  | release g =>
    simp only [QueueSpinLockFifo.step] at hs
    split at hs <;> cases hs
    next hg => exact ⟨q,h.stay (by rw [hg]; rfl) (by rintro ⟨⟩) (by rintro _ ⟨⟩)⟩
  | destroy g =>
    simp only [QueueSpinLockFifo.step] at hs
    split at hs <;> cases hs
    next hg => exact ⟨q,h.stay (by rw [hg]; rfl) (by rintro ⟨⟩) (by rintro _ ⟨⟩)⟩
    next hg => exact ⟨q,h.stay (by rw [hg]; rfl) (by rintro ⟨⟩) (by rintro _ ⟨⟩)⟩
  | run g spurious =>
    simp only [QueueSpinLockFifo.step] at hs
    split at hs <;> cases hs
    next pc _ hg => exact ⟨_,h.acquire hg⟩
    next hg => exact ⟨q,h.destroy hg⟩
    next hg => exact ⟨_,h.release spurious hg⟩

/-- In every run the queue explains the lock. -/
theorem ordered_reachable (hr : (system G).Reachable s) : ∃ q, Ordered s q := by
  refine System.Reachable.invariant ?_ ?_ hr
  · exact ⟨[],ordered_initial⟩
  · rintro s a s' ⟨q,h⟩ hs
    exact h.step hs

omit [DecidableEq G] in
/-- A waiting guard is behind the head of the queue, and everybody behind the
head waits. -/
theorem Ordered.waits_iff (h : Ordered s q) (g : G) : s.Waits g ↔ g ∈ q ∧ q[0]? ≠ some g := by
  have hmem := h.queued.mem g
  have hholds := h.holds g
  have hhead := h.queued.head_of (g := g)
  constructor
  · rintro ⟨hpc,hnot⟩
    refine ⟨hmem.mpr ?_,?_⟩
    · rcases hpc with ⟨ancestor,hpc⟩ | hpc <;> (simp only [hpc]; rfl)
    · rw [Ne,←hholds,hnot]
      rintro ⟨⟩
  · rintro ⟨hq,hne⟩
    have hnot : s.holds g = false := by
      rw [←Bool.not_eq_true,hholds]
      exact hne
    refine ⟨?_,hnot⟩
    have hqueued := hmem.mp hq
    have hbehind : ((s.pc g).phase).behind = true := by
      by_contra hb
      exact hne (hhead hqueued (by simpa using hb))
    cases hpc : s.pc g with
    | acquire pc =>
      rw [hpc] at hbehind
      cases pc with
      | setNext ancestor => exact Or.inl ⟨ancestor,rfl⟩
      | spin => exact Or.inr rfl
      | exchange | setOwner | returned => cases hbehind
    | absent =>
      rw [hpc] at hbehind
      cases hbehind
    | destroy released =>
      rw [hpc] at hbehind
      cases released <;> cases hbehind
    | release destructor pc =>
      rw [hpc] at hbehind
      cases pc <;> cases hbehind

end Steps

/-- In every run of any number of guards: at most one guard holds the lock;
Acquire has returned only to the holder; guards get the lock in the order of
their exchanges; the tail is null exactly when nobody waits or holds;
SetNextOwner finds a next guard, and that guard is still in the loop of
Acquire; and nobody waits while nobody holds. -/
theorem guards_fifo {s : State G} (hr : (system G).Reachable s) :
    (∀ g k, s.holds g = true → s.holds k = true → g = k) ∧
    (∀ g, s.pc g = .acquire .returned → s.holds g = true) ∧
    s.granted <+: s.entered ∧
    (s.lock.tail = none ↔ ∀ g, ¬ s.Waits g ∧ s.holds g = false) ∧
    (∀ g destructor, s.pc g = .release destructor .loadNext → s.lock.next g ≠ none) ∧
    (∀ g destructor n, s.pc g = .release destructor (.setOwner n) → s.pc n = .acquire .spin) ∧
    (∀ g destructor, s.pc g ≠ .release destructor .fault) ∧
    (∀ g, s.Waits g → ∃ k, s.holds k = true) := by
  obtain ⟨q,h⟩ := ordered_reachable hr
  refine ⟨?_,?_,?_,?_,?_,?_,h.noFault,?_⟩
  · intro g k hg hk
    exact Option.some.inj (((h.holds g).mp hg).symm.trans ((h.holds k).mp hk))
  · intro g hg
    exact (h.holds g).mpr (h.queued.head_of (by rw [hg]; rfl) (by rw [hg]; rfl))
  · rw [h.entered]
    exact List.prefix_append ..
  · rw [h.queued.tail,List.getLast?_eq_none_iff]
    constructor
    · rintro rfl g
      refine ⟨?_,?_⟩
      · rw [h.waits_iff]
        simp
      · rw [←Bool.not_eq_true,h.holds]
        rintro ⟨⟩
    · intro hnone
      cases q with
      | nil => rfl
      | cons m rest =>
        have hm := (hnone m).2
        rw [(h.holds m).mpr rfl] at hm
        cases hm
  · intro g destructor hg
    exact h.queued.linked g (by rw [hg]; rfl)
  · intro g destructor n hg
    have hn := h.queued.next_waiting (g := g) (n := n) (by rw [hg]; rfl)
    generalize hpc : s.pc n = pc at *
    match pc with
    | .acquire .spin => rfl
    | .acquire .exchange | .acquire .setOwner | .acquire (.setNext _)
    | .acquire .returned => cases hn
    | .absent | .destroy true | .destroy false => cases hn
    | .release _ pc => cases pc <;> cases hn
  · intro g hg
    have hq := (h.waits_iff g).mp hg
    cases q with
    | nil => cases hq.1
    | cons m rest => exact ⟨m,(h.holds m).mpr rfl⟩

/-- The second guard enters while the first one holds the lock, and gets it
from the destructor of the first. -/
def handOverSchedule : List (Action Bool) :=
  [.construct false,.run false false,.run false false,
    .construct true,.run true false,.run true false,.run true false,
    .destroy false,.run false false,.run false false,.run false false,.run false false,
    .run false false,.run true false]

theorem guards_fifo_handOver : ∃ s, (system Bool).Reachable s ∧ s.granted = [false,true] ∧
    s.pc true = .acquire .returned ∧ s.pc false = .absent ∧ s.holds true = true ∧
    s.granted <+: s.entered := by
  have hends : (system Bool).Ends (initial Bool) handOverSchedule fun s =>
      s.granted = [false,true] ∧ s.pc true = .acquire .returned ∧ s.pc false = .absent := by
    decide
  obtain ⟨s,hr,hgranted,htrue,hfalse⟩ := System.Ends.reachable hends
  have hfifo := guards_fifo hr
  exact ⟨s,hr,hgranted,htrue,hfalse,hfifo.2.1 true htrue,hfifo.2.2.1⟩

end ConcurrencyRuntime.QueueSpinLockFifo
