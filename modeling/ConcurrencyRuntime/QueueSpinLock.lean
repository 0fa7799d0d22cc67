import Mathlib

/-!
# The queue spinlock

A guard enters the queue by exchanging the tail, links itself behind its
ancestor and spins on its own flag; a release sets the flag of the next guard,
or swings the tail back to null when there is none. One step is one atomic
access of Acquire or Release. The phases of the guards say how far each one
got, and the queue is spelled out as a list: it is linked but for the guards
that are about to link themselves.
-/

namespace ConcurrencyRuntime.QueueSpinLock

/-- The tail of a lock and the fields of its guards. -/
structure Lock (G : Type*) where
  /-- The atomic pointer to the guard that entered last. -/
  tail : Option G
  /-- The next field of each guard. -/
  next : G → Option G
  /-- The is_owner flag of each guard. -/
  isOwner : G → Bool

/-- Program points of Acquire. -/
inductive AcquirePc (G : Type*) where
  /-- The exchange of the tail. -/
  | exchange
  /-- The queue was empty: SetOwner. -/
  | setOwner
  /-- SetNext on the ancestor. -/
  | setNext (ancestor : G)
  /-- The load of is_owner in the loop. -/
  | spin
  /-- Acquire has returned. -/
  | returned
  deriving DecidableEq

/-- Program points of the Release of a guard. -/
inductive ReleasePc (G : Type*) where
  /-- The load of next in the first HasNext. -/
  | hasNext
  /-- The weak compare-exchange of the tail. -/
  | cas
  /-- The load of next in HasNext after a failure. -/
  | hasNextAgain
  /-- The load of next in SetNextOwner. -/
  | loadNext
  /-- SetOwner on the next guard. -/
  | setOwner (next : G)
  /-- The lock is released: the store that clears is_owner. -/
  | clear
  /-- Release has returned. -/
  | returned
  /-- A null next was dereferenced. -/
  | fault
  deriving DecidableEq

/-- A new lock. -/
def Lock.new (G : Type*) : Lock G := ⟨none,fun _ => none,fun _ => false⟩

variable {G : Type*} [DecidableEq G]

/-- The constructor of a guard initialises its fields. -/
def Lock.construct (l : Lock G) (g : G) : Lock G :=
  { l with
    next := Function.update l.next g none
    isOwner := Function.update l.isOwner g false }

/-- SetOwner on a guard. -/
def Lock.setOwner (l : Lock G) (g : G) : Lock G :=
  { l with isOwner := Function.update l.isOwner g true }

/-- SetNext on a guard. -/
def Lock.setNext (l : Lock G) (g n : G) : Lock G :=
  { l with next := Function.update l.next g (some n) }

/-- One step of Acquire for a guard. -/
def Lock.acquire (l : Lock G) (g : G) : AcquirePc G → Lock G × AcquirePc G
  | .exchange =>
    ({ l with tail := some g },
      match l.tail with
      | none => .setOwner
      | some ancestor => .setNext ancestor)
  | .setOwner => (l.setOwner g,.returned)
  | .setNext ancestor => (l.setNext ancestor g,.spin)
  | .spin => (l,if l.isOwner g then .returned else .spin)
  | .returned => (l,.returned)

/-- One step of Release for a guard; the weak compare-exchange reads the flag. -/
def Lock.release (l : Lock G) (g : G) (spurious : Bool) : ReleasePc G → Lock G × ReleasePc G
  | .hasNext => (l,if (l.next g).isSome then .loadNext else .cas)
  | .cas =>
    if l.tail = some g ∧ spurious = false then ({ l with tail := none },.clear)
    else (l,.hasNextAgain)
  | .hasNextAgain => (l,if (l.next g).isSome then .loadNext else .cas)
  | .loadNext =>
    (l,match l.next g with
      | some n => .setOwner n
      | none => .fault)
  | .setOwner n => (l.setOwner n,.clear)
  | .clear => ({ l with isOwner := Function.update l.isOwner g false },.returned)
  | .returned => (l,.returned)
  | .fault => (l,.fault)

/-- The guard that a step of Acquire writes. -/
def AcquirePc.writes {G : Type*} (g : G) : AcquirePc G → Option G
  | .setOwner => some g
  | .setNext ancestor => some ancestor
  | _ => none

/-- The guard that a step of Release writes. -/
def ReleasePc.writes {G : Type*} (g : G) : ReleasePc G → Option G
  | .setOwner n => some n
  | .clear => some g
  | _ => none

/-- The queue after a step of Acquire. -/
def AcquirePc.queue {G : Type*} (g : G) (q : List G) : AcquirePc G → List G
  | .exchange => q ++ [g]
  | _ => q

/-- The queue after a step of Release. -/
def ReleasePc.queue (l : Lock G) (g : G) (spurious : Bool) (q : List G) : ReleasePc G → List G
  | .cas => if l.tail = some g ∧ spurious = false then [] else q
  | .setOwner _ => q.tail
  | _ => q

/-- How far a guard is. -/
inductive Phase (G : Type*) where
  /-- Not in the queue and not an owner. -/
  | out
  /-- At the head of the queue, before its own SetOwner. -/
  | first
  /-- In the queue, before SetNext on its ancestor. -/
  | linking (ancestor : G)
  /-- In the queue, spinning. -/
  | waiting
  /-- Acquire has returned, and Release has not found a next guard. -/
  | holding
  /-- Release has found a next guard. -/
  | linked
  /-- Release is about to hand over to the next guard. -/
  | handing (next : G)
  /-- The lock is released and is_owner not cleared. -/
  | clearing
  deriving DecidableEq

/-- The phase of a guard in Acquire. -/
@[grind =]
def AcquirePc.phase {G : Type*} : AcquirePc G → Phase G
  | .exchange => .out
  | .setOwner => .first
  | .setNext ancestor => .linking ancestor
  | .spin => .waiting
  | .returned => .holding

/-- The phase of a guard in Release. -/
@[grind =]
def ReleasePc.phase {G : Type*} : ReleasePc G → Phase G
  | .hasNext | .cas | .hasNextAgain => .holding
  | .loadNext => .linked
  | .setOwner n => .handing n
  | .clear => .clearing
  | .returned | .fault => .out

/-- The phases of the guards in the queue. -/
@[grind =]
def Phase.queued {G : Type*} : Phase G → Bool
  | .out | .clearing => false
  | _ => true

/-- The phases of the guards behind the head of the queue. -/
@[grind =]
def Phase.behind {G : Type*} : Phase G → Bool
  | .linking _ | .waiting => true
  | _ => false

/-- The phases of the guards at the head of the queue. -/
@[grind =]
def Phase.ahead {G : Type*} : Phase G → Bool
  | .first | .waiting | .holding | .linked | .handing _ => true
  | _ => false

/-- The phases of the guards that may be the owner at the head of the queue. -/
@[grind =]
def Phase.owning {G : Type*} : Phase G → Bool
  | .waiting | .holding | .linked | .handing _ => true
  | _ => false

/-- What the phase of a guard says of the link to the next guard. -/
@[grind =]
def Phase.Knows {G : Type*} (next : Option G) : Phase G → Prop
  | .linked => next ≠ none
  | .handing n => next = some n
  | _ => True

/-- The queue of a lock, oldest guard first, is what the tail, the fields and
the phases describe. -/
structure Queued {G : Type*} (l : Lock G) (phase : G → Phase G) (q : List G) : Prop where
  tail : l.tail = q.getLast?
  nodup : q.Nodup
  mem : ∀ g, g ∈ q ↔ (phase g).queued = true
  head : ∀ g, q[0]? = some g → (phase g).ahead = true
  /-- A guard is linked behind its ancestor, or is about to be. -/
  links : ∀ i a b, q[i]? = some a → q[i + 1]? = some b →
    (l.next a = some b ∧ phase b = .waiting) ∨ (l.next a = none ∧ phase b = .linking a)
  last : ∀ g, q.getLast? = some g → l.next g = none
  owner : ∀ g, l.isOwner g = true ↔ phase g = .clearing ∨ (q[0]? = some g ∧ phase g ≠ .first)
  linked : ∀ g, phase g = .linked → l.next g ≠ none
  handing : ∀ g n, phase g = .handing n → l.next g = some n

section Steps

variable {l : Lock G} {phase : G → Phase G} {q : List G} {g a n : G}

omit [DecidableEq G] in
theorem queued_new : Queued (Lock.new G) (fun _ => .out) [] := by
  constructor <;> simp [Lock.new,Phase.queued]

omit [DecidableEq G] in
/-- Only the head of the queue is past waiting. -/
theorem Queued.head_of (h : Queued l phase q) (hq : (phase g).queued = true)
    (hb : (phase g).behind = false) : q[0]? = some g := by
  obtain ⟨i,hi⟩ := List.mem_iff_getElem?.mp ((h.mem g).mpr hq)
  cases i with
  | zero => exact hi
  | succ i =>
    have hlt : i < q.length := by
      have := List.getElem?_eq_some_iff.mp hi
      grind
    rcases h.links i q[i] g (List.getElem?_eq_getElem hlt) hi with hlink | hlink
    · rw [hlink.2] at hb
      cases hb
    · rw [hlink.2] at hb
      cases hb

omit [DecidableEq G] in
/-- A guard occurs once. -/
theorem Queued.index (h : Queued l phase q) {i j : ℕ} (hi : q[i]? = some g) (hj : q[j]? = some g) :
    i = j := by
  obtain ⟨hlt,_⟩ := List.getElem?_eq_some_iff.mp hi
  exact (List.getElem?_inj hlt h.nodup).mp (hi.trans hj.symm)

omit [DecidableEq G] in
/-- A guard that is about to link itself stands right behind its ancestor. -/
theorem Queued.ancestor (h : Queued l phase q) (hg : phase g = .linking a) :
    ∃ i, q[i]? = some a ∧ q[i + 1]? = some g ∧ l.next a = none := by
  obtain ⟨i,hi⟩ := List.mem_iff_getElem?.mp ((h.mem g).mpr (by rw [hg]; rfl))
  cases i with
  | zero =>
    have hhead := h.head g hi
    rw [hg] at hhead
    cases hhead
  | succ i =>
    have hlt : i < q.length := by
      have := List.getElem?_eq_some_iff.mp hi
      grind
    have hprev := List.getElem?_eq_getElem hlt
    rcases h.links i q[i] g hprev hi with hlink | hlink
    · rw [hg] at hlink
      cases hlink.2
    · have he : q[i] = a := by
        have he := hlink.2.symm.trans hg
        cases he
        rfl
      exact ⟨i,he ▸ hprev,hi,he ▸ hlink.1⟩

omit [DecidableEq G] in
/-- A guard that is linked has its successor waiting right behind it. -/
theorem Queued.successor (h : Queued l phase q) (hg : q[0]? = some g) (hn : l.next g = some n) :
    q[1]? = some n ∧ phase n = .waiting := by
  cases hsucc : q[1]? with
  | none =>
    have hlast : q.getLast? = some g := by grind
    rw [h.last g hlast] at hn
    cases hn
  | some m =>
    rcases h.links 0 g m hg hsucc with hlink | hlink
    · cases hn.symm.trans hlink.1
      exact ⟨rfl,hlink.2⟩
    · cases hn.symm.trans hlink.1

/-- The constructor of a guard that is not in the queue. -/
theorem Queued.construct (h : Queued l phase q) (hg : phase g = .out) :
    Queued (l.construct g) phase q := by
  have hout : g ∉ q := by
    rw [h.mem,hg]
    rintro ⟨⟩
  have hlinks := h.links
  have howner := h.owner
  have hlast := h.last
  refine ⟨h.tail,h.nodup,h.mem,h.head,?_,?_,?_,?_,?_⟩
  all_goals simp only [Lock.construct,Function.update_apply]
  · grind
  · grind
  · grind
  · grind [h.linked]
  · grind [h.handing]

/-- The exchange puts a guard at the end of the queue. -/
theorem Queued.exchange (h : Queued l phase q) (hg : phase g = .out) (hn : l.next g = none) :
    Queued { l with tail := some g }
      (Function.update phase g (l.acquire g .exchange).2.phase) (q ++ [g]) := by
  have hout : g ∉ q := by
    rw [h.mem,hg]
    rintro ⟨⟩
  have htail := h.tail
  have hlast := h.last
  have hlinks := h.links
  have howner := h.owner
  have hhead := h.head
  have hpc : (l.acquire g .exchange).2.phase =
      match q.getLast? with
      | none => .first
      | some a => .linking a := by
    rw [Lock.acquire,htail]
    cases q.getLast? <;> rfl
  rw [hpc]
  refine ⟨by simp,?_,?_,?_,?_,?_,?_,?_,?_⟩
  · grind [h.nodup]
  · simp only [Function.update_apply]
    grind [h.mem]
  · simp only [Function.update_apply]
    grind
  · simp only [Function.update_apply]
    grind
  · grind
  · simp only [Function.update_apply]
    grind
  · simp only [Function.update_apply]
    grind [h.linked]
  · simp only [Function.update_apply]
    grind [h.handing]

/-- The head of the queue moves on and keeps the lock. -/
theorem Queued.advance {r p : Phase G} (h : Queued l phase q) (hg : q[0]? = some g)
    (hr : phase g = r) (hown : r.owning = true) (hp : p.owning = true)
    (hnext : p.Knows (l.next g)) : Queued l (Function.update phase g p) q := by
  have hne : ∀ i b, q[i + 1]? = some b → b ≠ g := by
    rintro i b hi rfl
    cases h.index hg hi
  have hqueued : ∀ p : Phase G, p.owning = true →
      p.queued = true ∧ p.ahead = true ∧ p ≠ .first := by
    intro p hp
    cases p with
    | waiting | holding | linked | handing n => exact ⟨rfl,rfl,by rintro ⟨⟩⟩
    | out | first | linking a | clearing => cases hp
  obtain ⟨hrqueued,-,hrfirst⟩ := hqueued r hown
  obtain ⟨hpqueued,hpahead,hpfirst⟩ := hqueued p hp
  have howner := h.owner
  have hmem := h.mem
  refine ⟨h.tail,h.nodup,?_,?_,?_,h.last,?_,?_,?_⟩
  all_goals simp only [Function.update_apply]
  · grind
  · grind [h.head]
  · intro i a b ha hb
    rw [if_neg (hne i b hb)]
    exact h.links i a b ha hb
  · grind
  · grind [h.linked]
  · grind [h.handing]

/-- The first guard of an empty queue makes itself the owner. -/
theorem Queued.own (h : Queued l phase q) (hg : phase g = .first) :
    Queued (l.setOwner g) (Function.update phase g .holding) q := by
  have hhead := h.head_of (g := g) (by rw [hg]; rfl) (by rw [hg]; rfl)
  have hne : ∀ i b, q[i + 1]? = some b → b ≠ g := by
    rintro i b hi rfl
    cases h.index hhead hi
  have howner := h.owner
  have hmem := h.mem
  refine ⟨h.tail,h.nodup,?_,?_,?_,h.last,?_,?_,?_⟩
  all_goals simp only [Lock.setOwner,Function.update_apply]
  · grind
  · grind [h.head]
  · intro i a b ha hb
    rw [if_neg (hne i b hb)]
    exact h.links i a b ha hb
  · grind
  · grind [h.linked]
  · grind [h.handing]

/-- A guard links itself behind its ancestor. -/
theorem Queued.link (h : Queued l phase q) (hg : phase g = .linking a) :
    Queued (l.setNext a g) (Function.update phase g .waiting) q := by
  obtain ⟨k,ha,hk,hnext⟩ := h.ancestor hg
  have hindex : ∀ i, q[i]? = some a → i = k := fun i hi => h.index hi ha
  have hlast := h.last
  have hindexg : ∀ i, q[i]? = some g → i = k + 1 := fun i hi => h.index hi hk
  have howner := h.owner
  have hmem := h.mem
  have hlinks := h.links
  refine ⟨h.tail,h.nodup,?_,?_,?_,?_,?_,?_,?_⟩
  all_goals simp only [Lock.setNext,Function.update_apply]
  · grind
  · grind [h.head]
  · grind
  · grind
  · grind
  · grind [h.linked]
  · grind [h.handing]

/-- The compare-exchange of the tail takes the only guard off the queue. -/
theorem Queued.leave (h : Queued l phase q) (hg : phase g = .holding) (ht : l.tail = some g) :
    Queued { l with tail := none } (Function.update phase g .clearing) [] := by
  have hhead := h.head_of (g := g) (by rw [hg]; rfl) (by rw [hg]; rfl)
  have hlast : q.getLast? = some g := h.tail.symm.trans ht
  have hq : q = [g] := by
    have hlen : q[q.length - 1]? = some g := by grind
    have hzero := h.index hhead hlen
    rcases q with _ | ⟨m,_ | ⟨k,rest⟩⟩
    · cases hhead
    · cases hhead
      rfl
    · simp at hzero
  subst hq
  have howner := h.owner
  have hmem := h.mem
  refine ⟨rfl,List.nodup_nil,?_,by simp,by simp,by simp,?_,?_,?_⟩
  all_goals simp only [Function.update_apply]
  · grind
  · grind
  · grind [h.linked]
  · grind [h.handing]

/-- The head of the queue hands the lock to the next guard. -/
theorem Queued.handOver (h : Queued l phase q) (hg : phase g = .handing n) :
    Queued (l.setOwner n) (Function.update phase g .clearing) q.tail := by
  have hhead := h.head_of (g := g) (by rw [hg]; rfl) (by rw [hg]; rfl)
  obtain ⟨hsucc,hwait⟩ := h.successor hhead (h.handing g n hg)
  obtain ⟨rest,rfl⟩ : ∃ rest, q = g :: rest := by
    cases q with
    | nil => cases hhead
    | cons m rest =>
      cases hhead
      exact ⟨rest,rfl⟩
  have hnodup := List.nodup_cons.mp h.nodup
  have howner := h.owner
  have hmem := h.mem
  have hlast := h.last
  have htail := h.tail
  have hlinks := h.links
  refine ⟨?_,hnodup.2,?_,?_,?_,?_,?_,?_,?_⟩
  all_goals simp only [Lock.setOwner,Function.update_apply,List.tail_cons]
  · grind
  · grind
  · grind
  · intro i a b ha hb
    have hlink := hlinks (i + 1) a b ha hb
    grind
  · grind
  · grind
  · grind [h.linked]
  · grind [h.handing]

/-- A guard that left the queue clears its flag. -/
theorem Queued.clear (h : Queued l phase q) (hg : phase g = .clearing) :
    Queued { l with isOwner := Function.update l.isOwner g false }
      (Function.update phase g .out) q := by
  have hout : g ∉ q := by
    rw [h.mem,hg]
    rintro ⟨⟩
  have howner := h.owner
  have hmem := h.mem
  have hlinks := h.links
  refine ⟨h.tail,h.nodup,?_,?_,?_,h.last,?_,?_,?_⟩
  all_goals simp only [Function.update_apply]
  · grind
  · grind [h.head]
  · grind
  · grind
  · grind [h.linked]
  · grind [h.handing]

/-- One step of Acquire. -/
theorem Queued.acquire {pc : AcquirePc G} (h : Queued l phase q) (hg : phase g = pc.phase)
    (hn : pc = .exchange → l.next g = none) :
    Queued (l.acquire g pc).1 (Function.update phase g (l.acquire g pc).2.phase)
      (pc.queue g q) := by
  cases pc with
  | exchange => exact h.exchange hg (hn rfl)
  | setOwner => exact h.own hg
  | setNext ancestor => exact h.link hg
  | spin =>
    simp only [Lock.acquire]
    cases hown : l.isOwner g with
    | false =>
      rw [if_neg (by simp),←hg,Function.update_eq_self]
      exact h
    | true =>
      have hhead : q[0]? = some g := by
        rcases (h.owner g).mp hown with hc | hc
        · rw [hg] at hc
          cases hc
        · exact hc.1
      rw [if_pos rfl]
      exact h.advance hhead hg rfl rfl trivial
  | returned =>
    simp only [Lock.acquire,←hg,Function.update_eq_self]
    exact h

/-- HasNext in Release. -/
theorem Queued.look (h : Queued l phase q) (hg : phase g = .holding) :
    Queued l (Function.update phase g
      (if (l.next g).isSome then ReleasePc.loadNext else ReleasePc.cas : ReleasePc G).phase) q := by
  split
  next hn =>
    have hhead := h.head_of (g := g) (by rw [hg]; rfl) (by rw [hg]; rfl)
    exact h.advance hhead hg rfl rfl (Option.isSome_iff_ne_none.mp hn)
  next =>
    have hsame : ReleasePc.cas.phase = phase g := hg.symm
    rw [hsame,Function.update_eq_self]
    exact h

/-- One step of Release, which never dereferences null. -/
theorem Queued.release {pc : ReleasePc G} (h : Queued l phase q) (spurious : Bool)
    (hg : phase g = pc.phase) (hpc : pc ≠ .fault) :
    (l.release g spurious pc).2 ≠ .fault ∧ Queued (l.release g spurious pc).1
      (Function.update phase g (l.release g spurious pc).2.phase) (pc.queue l g spurious q) := by
  cases pc with
  | hasNext | hasNextAgain =>
    simp only [Lock.release]
    refine ⟨?_,h.look hg⟩
    split <;> rintro ⟨⟩
  | cas =>
    simp only [Lock.release,ReleasePc.queue]
    split
    next hcas => exact ⟨by rintro ⟨⟩,h.leave hg hcas.1⟩
    next =>
      refine ⟨by rintro ⟨⟩,?_⟩
      have hsame : ReleasePc.hasNextAgain.phase = phase g := hg.symm
      rw [hsame,Function.update_eq_self]
      exact h
  | loadNext =>
    have hhead := h.head_of (g := g) (by rw [hg]; rfl) (by rw [hg]; rfl)
    simp only [Lock.release]
    cases hn : l.next g with
    | none => exact absurd hn (h.linked g hg)
    | some n =>
      exact ⟨by rintro ⟨⟩,h.advance hhead hg rfl rfl hn⟩
  | setOwner n => exact ⟨by rintro ⟨⟩,h.handOver hg⟩
  | clear => exact ⟨by rintro ⟨⟩,h.clear hg⟩
  | returned =>
    simp only [Lock.release,←hg,Function.update_eq_self]
    exact ⟨by rintro ⟨⟩,h⟩
  | fault => exact absurd rfl hpc

omit [DecidableEq G] in
/-- The ancestor of a guard that is about to link itself is in the queue. -/
theorem Queued.ancestor_queued (h : Queued l phase q) (hg : phase g = .linking a) :
    (phase a).queued = true := by
  obtain ⟨i,ha,-⟩ := h.ancestor hg
  exact (h.mem a).mp (List.mem_of_getElem? ha)

omit [DecidableEq G] in
/-- The guard that gets the lock is waiting in the queue. -/
theorem Queued.next_waiting (h : Queued l phase q) (hg : phase g = .handing n) :
    phase n = .waiting := by
  have hhead := h.head_of (g := g) (by rw [hg]; rfl) (by rw [hg]; rfl)
  exact (h.successor hhead (h.handing g n hg)).2

/-- Acquire writes no next field of a guard outside of the queue. -/
theorem Queued.acquire_next {pc : AcquirePc G} (h : Queued l phase q) (hg : phase g = pc.phase)
    (ha : phase a = .out) : (l.acquire g pc).1.next a = l.next a := by
  cases pc with
  | setNext ancestor =>
    have hne : a ≠ ancestor := by
      rintro rfl
      have hq := h.ancestor_queued hg
      rw [ha] at hq
      cases hq
    exact Function.update_of_ne hne ..
  | exchange | setOwner | spin | returned => rfl

/-- Acquire exchanges the tail once. -/
theorem acquire_ne_exchange (l : Lock G) (g : G) (pc : AcquirePc G) :
    (l.acquire g pc).2 ≠ .exchange := by
  cases pc with
  | exchange =>
    simp only [Lock.acquire]
    split <;> rintro ⟨⟩
  | spin =>
    simp only [Lock.acquire]
    split <;> rintro ⟨⟩
  | setOwner | setNext ancestor | returned => rintro ⟨⟩

/-- Release writes no next field. -/
theorem release_next (l : Lock G) (g : G) (spurious : Bool) (pc : ReleasePc G) :
    (l.release g spurious pc).1.next = l.next := by
  cases pc with
  | cas =>
    simp only [Lock.release]
    split <;> rfl
  | hasNext | hasNextAgain | loadNext | setOwner n | clear | returned | fault => rfl

end Steps

end ConcurrencyRuntime.QueueSpinLock
