import ConcurrencyRuntime.SimpleMSQueueInvariant

/-!
# Deleted nodes and the simple Michael-Scott queue

TryPop protects old_head. Push protects nothing, and TryPop moves the value
out of the successor of old_head, which it does not protect either. Reclamation
that respects the protected pointers may therefore delete a node under a Push
or a TryPop. Reclamation that also waits for these two pointers is enough.
-/

namespace ConcurrencyRuntime.SimpleMSQueue

open TransitionSystem LinkedPath

variable {ι N T : Type*}

/-- No step is about to touch a deleted node, and tail points into the chain
from head. -/
structure TouchesLive (s : Queue ι N T) : Prop where
  /-- The node a thread is about to touch is allocated. -/
  touched : ∀ t n, (s.pc t).touched = some n → s.life n ≠ .free
  /-- Following next from head leads to null and passes through tail. -/
  tail : ∃ h rest tl, s.head = some h ∧ Path s.next h rest ∧ s.tail = some tl ∧ tl ∈ h :: rest

/-- A thread holds the node: as old_tail, as old_head, or as the successor
whose value it has to move. -/
def Pc.Holds (next : N → Option N) (pc : Pc N T) (n : N) : Prop :=
  pc.oldTail = some n ∨ pc.oldHead = some n ∨ pc.successor next = some n

/-- Under the representation invariant every held node is allocated. -/
theorem Sound.holds_allocated {s : Queue ι N T} {h n : N} {rest : List N} {t : ι}
    (hS : Sound s h rest) (hn : (s.pc t).Holds s.next n) : s.life n ≠ .free := by
  have hL := hS.locals t
  rcases hn with hn | hn | hn
  · exact (hL.oldTail n hn).1
  · exact (hL.oldHead n hn).2.1
  · exact (hL.successor n hn).1

/-- Under the representation invariant only live nodes are touched. -/
theorem Sound.touchesLive {s : Queue ι N T} {h : N} {rest : List N} (hS : Sound s h rest) :
    TouchesLive s where
  touched _ _ hn := hS.holds_allocated (Pc.touched_held s.next hn)
  tail := by
    obtain ⟨tl,hmem,htl,-⟩ := hS.tail
    exact ⟨h,rest,tl,hS.head,hS.path,htl,hmem⟩

/-- A sheltered deletion takes no node that a thread still holds. -/
theorem Sound.sheltered_not_held {s : Queue ι N T} {h n : N} {rest : List N}
    (hS : Sound s h rest) (hd : Sheltered s (.delete n)) (t : ι) :
    ¬(s.pc t).Holds s.next n := by
  rintro (hn | hn | hn)
  · exact (hd.2 t).1 hn
  · exact hd.1 t ((hS.locals t).oldHead n hn).1
  · exact (hd.2 t).2 hn

variable [DecidableEq ι] [DecidableEq N]

/-- In every run whose deletions are sheltered, only live nodes are touched
and tail is reachable from head; no deletion takes a node that a thread holds,
so a reused address is never mistaken for the node it replaced. -/
theorem touches_live {dummy : N} {s : Queue ι N T}
    (hr : (queue ι T dummy).ReachableUnder Sheltered s) :
    TouchesLive s ∧ ∀ n, Sheltered s (.delete n) → ∀ t, ¬(s.pc t).Holds s.next n := by
  obtain ⟨h,rest,hS⟩ := sound_reachable hr
  exact ⟨hS.touchesLive,fun n => hS.sheltered_not_held⟩

instance [Fintype ι] (s : Queue ι N T) : ∀ a, Decidable (Ideal s a)
  | .delete node => inferInstanceAs (Decidable (∀ t, s.protectedPtr t ≠ some node))
  | .push .. | .pop .. | .alloc .. | .step .. => isTrue trivial

instance [Fintype ι] (s : Queue ι N T) (node : N) : Decidable (Unheld s node) :=
  inferInstanceAs (Decidable (∀ t,
    (s.pc t).oldTail ≠ some node ∧ (s.pc t).successor s.next ≠ some node))

instance [Fintype ι] (s : Queue ι N T) : ∀ a, Decidable (Sheltered s a)
  | .delete node =>
    inferInstanceAs (Decidable ((∀ t, s.protectedPtr t ≠ some node) ∧ Unheld s node))
  | .push .. | .pop .. | .alloc .. | .step .. => isTrue trivial

/-- Thread t runs the given number of steps without spurious failures. -/
def steps {ι N T : Type*} (t : ι) (n : ℕ) : List (Action ι N T) :=
  List.replicate n (.step t false)

/-- A whole Push of an item into an address, when nobody interferes. -/
def pushRun {ι N T : Type*} (t : ι) (item : T) (node : N) : List (Action ι N T) :=
  .push t item :: .alloc t node :: steps t 5

/-- A whole TryPop of an item, when nobody interferes. -/
def popRun {ι N T : Type*} (t : ι) : List (Action ι N T) :=
  .pop t :: steps t 12

/-- A node is pushed, the old dummy popped, retired and deleted, and its
address reused for the next push, all sheltered. -/
theorem touches_live_reuse :
    ∃ s, (queue (Fin 2) ℕ (0 : ℕ)).ReachableUnder Sheltered s ∧
      (s.head = some 1 ∧ s.tail = some 0 ∧ s.value 0 = some 8) ∧ TouchesLive s := by
  have hrun : (queue (Fin 2) ℕ 0).Ends (initial (Fin 2) ℕ 0)
      (pushRun 0 7 1 ++ popRun 1 ++ .delete 0 :: pushRun 0 8 0)
      fun s => s.head = some 1 ∧ s.tail = some 0 ∧ s.value 0 = some 8 := by decide
  have hmeets : (queue (Fin 2) ℕ 0).Meets Sheltered (initial (Fin 2) ℕ 0)
      (pushRun 0 7 1 ++ popRun 1 ++ .delete 0 :: pushRun 0 8 0) := by decide
  obtain ⟨s,hr,hend⟩ := hrun.reachableUnder hmeets
  exact ⟨s,hr,hend,(touches_live hr).1⟩

/-- A Push stalls after its load of tail; meanwhile the node it holds becomes
the head, is popped, retired and deleted. Its next step loads the next field
of the deleted node. -/
theorem deleted_node_touched :
    ¬∀ s, (queue (Fin 2) ℕ (0 : ℕ)).ReachableUnder Ideal s → TouchesLive s := by
  intro hall
  have hrun : (queue (Fin 2) ℕ 0).Ends (initial (Fin 2) ℕ 0)
      (.push 0 7 :: .alloc 0 1 :: .step 0 false :: (pushRun 1 8 2 ++ popRun 1 ++ [.delete 0]))
      fun s => (s.pc 0).touched = some 0 ∧ s.life 0 = .free := by decide
  have hmeets : (queue (Fin 2) ℕ 0).Meets Ideal (initial (Fin 2) ℕ 0)
      (.push 0 7 :: .alloc 0 1 :: .step 0 false :: (pushRun 1 8 2 ++ popRun 1 ++ [.delete 0])) := by
    decide
  obtain ⟨s,hr,htouched,hfree⟩ := hrun.reachableUnder hmeets
  exact (hall s hr).touched 0 0 htouched hfree

end ConcurrencyRuntime.SimpleMSQueue
