import Mathlib

/-!
# The test-and-set spinlock with its history

The lock is one word. A party acquires it by an exchange that finds it free
and releases it by a store; nothing in the lock checks who releases. The
history records for whom it is held and counts the acquisitions and releases,
so that a release for another than the holder shows. A program agrees with
the history when its program points say exactly who holds the lock.
-/

namespace ConcurrencyRuntime.SpinLock

/-- The word of the lock and its history. -/
structure Lock (ι : Type*) where
  /-- The atomic flag. -/
  word : Bool
  /-- History: the party for which the lock is held. -/
  holder : Option ι
  /-- History: the times each party acquired the lock. -/
  acquired : ι → ℕ
  /-- History: the times each party released the lock. -/
  released : ι → ℕ
  /-- History: the times the lock was released for another than its holder. -/
  stray : ℕ

/-- A new lock is free. -/
def Lock.new (ι : Type*) : Lock ι := ⟨false,none,fun _ => 0,fun _ => 0,0⟩

variable {ι : Type*} [DecidableEq ι]

/-- The exchange of a free lock by a party. -/
def Lock.acquire (l : Lock ι) (i : ι) : Lock ι :=
  { l with
    word := true
    holder := some i
    acquired := Function.update l.acquired i (l.acquired i + 1) }

/-- The store of Unlock by a party. -/
def Lock.release (l : Lock ι) (i : ι) : Lock ι :=
  { l with
    word := false
    holder := none
    released := Function.update l.released i (l.released i + 1)
    stray := if l.holder = some i then l.stray else l.stray + 1 }

/-- The lock agrees with what the program points say: it is held for the one
party that claims it, and every other acquisition was released once. -/
structure Agrees {ι : Type*} (l : Lock ι) (holds : ι → Bool) : Prop where
  held : ∀ i, holds i = true → l.holder = some i
  holder : ∀ i, l.holder = some i → holds i = true
  word : l.word = l.holder.isSome
  counts : ∀ i, l.acquired i = l.released i + (holds i).toNat
  stray : l.stray = 0

variable {l : Lock ι} {holds holds' : ι → Bool} {i j : ι}

omit [DecidableEq ι] in
theorem agrees_new : Agrees (Lock.new ι) fun _ => false := by
  constructor <;> simp [Lock.new]

omit [DecidableEq ι] in
/-- At most one party claims the lock. -/
theorem Agrees.unique (h : Agrees l holds) (hi : holds i = true) (hj : holds j = true) : i = j :=
  Option.some.inj ((h.held i hi).symm.trans (h.held j hj))

omit [DecidableEq ι] in
/-- Nobody claims a free lock. -/
theorem Agrees.free (h : Agrees l holds) (hfree : l.word = false) (i : ι) : holds i = false := by
  cases hi : holds i with
  | false => rfl
  | true =>
    have hw := h.word
    rw [hfree,h.held i hi] at hw
    cases hw

omit [DecidableEq ι] in
/-- A claimed lock is taken. -/
theorem Agrees.taken (h : Agrees l holds) (hi : holds i = true) : l.word = true := by
  rw [h.word,h.held i hi]
  rfl

omit [DecidableEq ι] in
/-- Only the claims matter. -/
theorem Agrees.congr (h : Agrees l holds) (hsame : ∀ i, holds' i = holds i) : Agrees l holds' := by
  rwa [funext hsame]

/-- Acquiring a free lock adds a claim. -/
theorem Agrees.acquire (h : Agrees l holds) (hfree : l.word = false) (hi : holds' i = true)
    (hothers : ∀ j, j ≠ i → holds' j = holds j) : Agrees (l.acquire i) holds' := by
  have hnone := h.free hfree
  have hcounts := h.counts
  refine ⟨?_,?_,rfl,?_,h.stray⟩
  all_goals simp only [Lock.acquire,Function.update_apply]
  · grind
  · grind
  · grind

/-- Releasing the lock removes the claim of its holder. -/
theorem Agrees.release (h : Agrees l holds) (hi : holds i = true) (hi' : holds' i = false)
    (hothers : ∀ j, j ≠ i → holds' j = holds j) : Agrees (l.release i) holds' := by
  have honly : ∀ j, holds j = true → j = i := fun j hj => h.unique hj hi
  have hnone : ∀ j, holds' j = false := by
    intro j
    by_cases hj : j = i
    · rw [hj,hi']
    · cases hc : holds j with
      | false => rw [hothers j hj,hc]
      | true => exact absurd (honly j hc) hj
  have hcounts := h.counts
  refine ⟨?_,by rintro _ ⟨⟩,rfl,?_,?_⟩
  all_goals simp only [Lock.release,Function.update_apply]
  · grind
  · grind
  · simp [h.held i hi,h.stray]

end ConcurrencyRuntime.SpinLock
