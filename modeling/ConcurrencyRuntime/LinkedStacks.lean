import ConcurrencyRuntime.LinkedPath

/-!
# Linked stacks shared with one collector

Owners allocate nodes and push them onto stacks, which are linked through next
fields. A collector takes a whole stack, walks the taken chain node
by node, and either frees a node or puts it back. Every allocated node is in
exactly one place: pending at the owner that allocated it, on a stack, on the
taken chain, or in the hand of the collector.
-/

namespace ConcurrencyRuntime.LinkedStacks

open LinkedPath

/-- The pointers of the stacks, of their owners and of the collector. -/
structure Heap (ι N : Type*) where
  /-- The first node of each stack. -/
  stack : ι → Option N
  /-- The next field of each node. -/
  next : N → Option N
  /-- Whether the node is allocated. -/
  allocated : N → Bool
  /-- The node that an owner allocated and did not push yet. -/
  pending : ι → Option N
  /-- The node that the collector is about to put back. -/
  hand : Option N
  /-- The first node of the taken chain. -/
  taken : Option N

/-- Where a node is. -/
inductive Place (ι : Type*) where
  /-- Pending at an owner. -/
  | pending (i : ι)
  /-- On the stack of an owner. -/
  | stack (i : ι)
  /-- In the hand of the collector. -/
  | hand
  /-- On the taken chain. -/
  | taken
  deriving DecidableEq

/-- The stacks and the taken chain hold the listed nodes, and the places are
those of the nodes. -/
structure Places {ι N : Type*} (H : Heap ι N) (nodes : ι → List N) (chain : List N)
    (place : N → Option (Place ι)) : Prop where
  stacked : ∀ i, Chain H.next (H.stack i) (nodes i)
  walked : Chain H.next H.taken chain
  stack : ∀ i n, n ∈ nodes i ↔ place n = some (.stack i)
  taken : ∀ n, n ∈ chain ↔ place n = some .taken
  pending : ∀ i n, H.pending i = some n ↔ place n = some (.pending i)
  hand : ∀ n, H.hand = some n ↔ place n = some .hand
  allocated : ∀ n, H.allocated n = true ↔ place n ≠ none

/-- The places are those of the nodes on some stacks and taken chain. -/
def Custody {ι N : Type*} (H : Heap ι N) (place : N → Option (Place ι)) : Prop :=
  ∃ nodes chain, Places H nodes chain place

variable {ι N : Type*} {H : Heap ι N} {place : N → Option (Place ι)} {i : ι} {n : N}

/-- Without nodes, nothing is anywhere. -/
theorem custody_empty :
    Custody (⟨fun _ => none,fun _ => none,fun _ => false,fun _ => none,none,none⟩ : Heap ι N)
      fun _ => none := by
  refine ⟨fun _ => [],[],?_⟩
  constructor <;> simp [Chain]

theorem Custody.pending_place (h : Custody H place) (hn : H.pending i = some n) :
    place n = some (.pending i) := by
  obtain ⟨nodes,chain,h⟩ := h
  exact (h.pending i n).mp hn

theorem Custody.hand_place (h : Custody H place) (hn : H.hand = some n) :
    place n = some .hand := by
  obtain ⟨nodes,chain,h⟩ := h
  exact (h.hand n).mp hn

/-- The first node of the taken chain is on it. -/
theorem Custody.taken_place (h : Custody H place) (hn : H.taken = some n) :
    place n = some .taken := by
  obtain ⟨nodes,chain,h⟩ := h
  have hw := h.walked
  rw [hn] at hw
  cases chain with
  | nil => cases hw
  | cons m rest =>
    cases hw.1
    exact (h.taken n).mp List.mem_cons_self

theorem Custody.allocated_iff (h : Custody H place) : H.allocated n = true ↔ place n ≠ none := by
  obtain ⟨nodes,chain,h⟩ := h
  exact h.allocated n

/-- The nodes of a stack are those whose place it is. -/
theorem Custody.mem_stack {ns : List N} (h : Custody H place) (hc : Chain H.next (H.stack i) ns) :
    n ∈ ns ↔ place n = some (.stack i) := by
  obtain ⟨nodes,chain,h⟩ := h
  rw [chain_unique hc (h.stacked i)]
  exact h.stack i n

/-- The nodes of the taken chain are those whose place it is. -/
theorem Custody.mem_taken {ns : List N} (h : Custody H place) (hc : Chain H.next H.taken ns) :
    n ∈ ns ↔ place n = some .taken := by
  obtain ⟨nodes,chain,h⟩ := h
  rw [chain_unique hc h.walked]
  exact h.taken n

/-- Every stack is a chain. -/
theorem Custody.exists_stack (h : Custody H place) (i : ι) : ∃ ns, Chain H.next (H.stack i) ns := by
  obtain ⟨nodes,chain,h⟩ := h
  exact ⟨nodes i,h.stacked i⟩

theorem Custody.exists_taken (h : Custody H place) : ∃ ns, Chain H.next H.taken ns := by
  obtain ⟨nodes,chain,h⟩ := h
  exact ⟨chain,h.walked⟩

theorem Custody.pending_of_place (h : Custody H place) (hn : place n = some (.pending i)) :
    H.pending i = some n := by
  obtain ⟨nodes,chain,h⟩ := h
  exact (h.pending i n).mpr hn

theorem Custody.hand_of_place (h : Custody H place) (hn : place n = some .hand) :
    H.hand = some n := by
  obtain ⟨nodes,chain,h⟩ := h
  exact (h.hand n).mpr hn

variable [DecidableEq N]

/-- Writing the next field of a node that is neither on a stack nor on the
taken chain changes no place. -/
theorem Custody.relink (h : Custody H place) (hstack : ∀ i, place n ≠ some (.stack i))
    (htaken : place n ≠ some .taken) (p : Option N) :
    Custody { H with next := Function.update H.next n p } place := by
  obtain ⟨nodes,chain,h⟩ := h
  refine ⟨nodes,chain,{ h with stacked := ?_,walked := ?_ }⟩
  · intro i
    exact chain_frame (h.stacked i) (fun hmem => hstack i ((h.stack i n).mp hmem)) p
  · exact chain_frame h.walked (fun hmem => htaken ((h.taken n).mp hmem)) p

/-- The collector frees the first node of the taken chain. -/
theorem Custody.free (h : Custody H place) (hn : H.taken = some n) :
    Custody { H with
      allocated := Function.update H.allocated n false
      taken := H.next n } (Function.update place n none) := by
  have hplace := h.taken_place hn
  obtain ⟨nodes,chain,h⟩ := h
  have hw := h.walked
  rw [hn] at hw
  cases chain with
  | nil => cases hw
  | cons m rest =>
    cases hw.1
    have hnodup := List.nodup_cons.mp (chain_nodup hw)
    have htaken := h.taken
    refine ⟨nodes,rest,⟨h.stacked,hw.2,?_,?_,?_,?_,?_⟩⟩
    all_goals simp only [Function.update_apply]
    · grind [h.stack]
    · grind
    · grind [h.pending]
    · grind [h.hand]
    · grind [h.allocated]

/-- The collector takes the first node of the taken chain into its hand. -/
theorem Custody.grasp (h : Custody H place) (hn : H.taken = some n) (hhand : H.hand = none) :
    Custody { H with hand := some n,taken := H.next n }
      (Function.update place n (some .hand)) := by
  have hplace := h.taken_place hn
  obtain ⟨nodes,chain,h⟩ := h
  have hw := h.walked
  rw [hn] at hw
  cases chain with
  | nil => cases hw
  | cons m rest =>
    cases hw.1
    have hnodup := List.nodup_cons.mp (chain_nodup hw)
    have htaken := h.taken
    refine ⟨nodes,rest,⟨h.stacked,hw.2,?_,?_,?_,?_,?_⟩⟩
    all_goals simp only [Function.update_apply]
    · grind [h.stack]
    · grind
    · grind [h.pending]
    · grind [h.hand]
    · grind [h.allocated]

variable [DecidableEq ι]

/-- An owner allocates a node. -/
theorem Custody.allocate (h : Custody H place) (hn : H.allocated n = false)
    (hnone : H.pending i = none) (p : Option N) :
    Custody { H with
      allocated := Function.update H.allocated n true
      next := Function.update H.next n p
      pending := Function.update H.pending i (some n) }
      (Function.update place n (some (.pending i))) := by
  have hplace : place n = none := by
    by_contra hne
    have htrue := h.allocated_iff.mpr hne
    rw [hn] at htrue
    cases htrue
  have hstack : ∀ i, place n ≠ some (.stack i) := by simp [hplace]
  obtain ⟨nodes,chain,h⟩ := h.relink hstack (by simp [hplace]) p
  have hpending := h.pending
  refine ⟨nodes,chain,⟨h.stacked,h.walked,?_,?_,?_,?_,?_⟩⟩
  all_goals simp only [Function.update_apply]
  · grind [h.stack]
  · grind [h.taken]
  · grind
  · grind [h.hand]
  · grind [h.allocated]

omit [DecidableEq N] in
/-- A node whose next field is the top of a stack becomes the new top. -/
theorem Places.cons {nodes : ι → List N} {chain : List N} (h : Places H nodes chain place)
    (hnext : H.stack i = H.next n) (j : ι) :
    Chain H.next (Function.update H.stack i (some n) j)
      (Function.update nodes i (n :: nodes i) j) := by
  by_cases hj : j = i
  · subst hj
    simp only [Function.update_self]
    exact ⟨rfl,hnext ▸ h.stacked j⟩
  · simp only [Function.update_of_ne hj]
    exact h.stacked j

/-- An owner pushes its node onto a stack. -/
theorem Custody.push {j : ι} (h : Custody H place) (hn : H.pending j = some n)
    (hnext : H.stack i = H.next n) :
    Custody { H with
      stack := Function.update H.stack i (some n)
      pending := Function.update H.pending j none }
      (Function.update place n (some (.stack i))) := by
  have hplace := h.pending_place hn
  obtain ⟨nodes,chain,h⟩ := h
  have hpending := h.pending
  refine ⟨Function.update nodes i (n :: nodes i),chain,⟨h.cons hnext,h.walked,?_,?_,?_,?_,?_⟩⟩
  all_goals simp only [Function.update_apply]
  · grind [h.stack]
  · grind [h.taken]
  · grind
  · grind [h.hand]
  · grind [h.allocated]

/-- The collector puts the node in its hand back. -/
theorem Custody.putBack (h : Custody H place) (hn : H.hand = some n)
    (hnext : H.stack i = H.next n) :
    Custody { H with stack := Function.update H.stack i (some n),hand := none }
      (Function.update place n (some (.stack i))) := by
  have hplace := h.hand_place hn
  obtain ⟨nodes,chain,h⟩ := h
  have hhand := h.hand
  refine ⟨Function.update nodes i (n :: nodes i),chain,⟨h.cons hnext,h.walked,?_,?_,?_,?_,?_⟩⟩
  all_goals simp only [Function.update_apply]
  · grind [h.stack]
  · grind [h.taken]
  · grind [h.pending]
  · grind
  · grind [h.allocated]

omit [DecidableEq N] in
/-- The collector takes a whole stack. -/
theorem Custody.take (h : Custody H place) (hnone : H.taken = none) (i : ι) :
    Custody { H with stack := Function.update H.stack i none,taken := H.stack i }
      fun n => if place n = some (.stack i) then some .taken else place n := by
  obtain ⟨nodes,chain,h⟩ := h
  have hchain : chain = [] := by
    have hw := h.walked
    rw [hnone] at hw
    cases chain with
    | nil => rfl
    | cons m rest => cases hw.1
  subst hchain
  have htaken := h.taken
  have hstack := h.stack
  refine ⟨Function.update nodes i [],nodes i,⟨?_,h.stacked i,?_,?_,?_,?_,?_⟩⟩
  · intro j
    by_cases hj : j = i
    · simp [hj,Chain]
    · simpa [hj] using h.stacked j
  · simp only [Function.update_apply]
    grind
  · grind
  · grind [h.pending]
  · grind [h.hand]
  · grind [h.allocated]

end ConcurrencyRuntime.LinkedStacks
