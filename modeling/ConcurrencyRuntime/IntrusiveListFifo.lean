import ConcurrencyRuntime.IntrusiveList
import ConcurrencyRuntime.TransitionSystem

/-!
# Intrusive lists as independent queues

Any number of intrusive lists share one heap of nodes, whose next fields hold
anything before the first push and are never reset by Pop, Clear or a swap. As long
as a node is pushed only when it is in no list, each list is a queue of its own: the
links between its nodes are live, and all others are garbage that nothing follows.
-/

namespace ConcurrencyRuntime.IntrusiveListFifo

open TransitionSystem LinkedPath IntrusiveList

/-- The next fields of all nodes and the headers of all lists. -/
structure Heap (κ N : Type*) where
  /-- The next field of each node. -/
  next : N → Option N
  /-- The header of each list. -/
  list : κ → Header N

/-- What is done with nodes and lists. -/
inductive Op (κ N : Type*) where
  /-- A node is constructed. -/
  | construct (node : N)
  /-- Push. -/
  | push (k : κ) (node : N)
  /-- Pop. -/
  | pop (k : κ)
  /-- Clear. -/
  | clear (k : κ)
  /-- The swap of two lists by std::swap. -/
  | swap (a b : κ)
  /-- A list is destroyed, and constructed again. -/
  | destroy (k : κ)

/-- The lists that an operation is about. -/
def Op.lists {κ N : Type*} : Op κ N → List κ
  | .construct _ => []
  | .push k _ | .pop k | .clear k | .destroy k => [k]
  | .swap a b => [a,b]

variable {κ N : Type*} [DecidableEq κ] [DecidableEq N]

/-- One operation. The destructor of a list asserts that it is empty; a swap copies
the first list, assigns both and destroys the copy. -/
def step (s : Heap κ N) : Op κ N → Option (Heap κ N)
  | .construct node => some { s with next := Function.update s.next node none }
  | .push k node =>
    some ⟨(s.list k).pushLinks s.next node,Function.update s.list k ((s.list k).push node)⟩
  | .pop k => some { s with list := Function.update s.list k ((s.list k).pop s.next) }
  | .clear k => some { s with list := Function.update s.list k .clear }
  | .swap a b =>
    if (s.list a).isEmpty then
      some { s with list := Function.update (Function.update s.list a (s.list b)) b (s.list a) }
    else none
  | .destroy k =>
    if (s.list k).isEmpty then some { s with list := Function.update s.list k .clear } else none

/-- All lists are new; the next fields hold anything. -/
def lists (κ : Type*) [DecidableEq κ] (next : N → Option N) : System (Heap κ N) (Op κ N) :=
  ⟨⟨next,fun _ => .clear⟩,step⟩

/-- Independent queues, with what is known of the nodes. -/
structure Queues (κ N : Type*) where
  /-- The content of each list, oldest first. -/
  seq : κ → List N
  /-- The nodes that were constructed and not pushed since. -/
  fresh : N → Bool
  /-- Every node that was put in the list since its construction, by Push or by a
  swap, was freshly constructed when it was pushed. -/
  tidy : κ → Bool

/-- What an operation is meant to do. -/
def Queues.serve (x : Queues κ N) : Op κ N → Queues κ N
  | .construct node => { x with fresh := Function.update x.fresh node true }
  | .push k node =>
    ⟨Function.update x.seq k (x.seq k ++ [node]),Function.update x.fresh node false,
      Function.update x.tidy k (x.tidy k && x.fresh node)⟩
  | .pop k => { x with seq := Function.update x.seq k (x.seq k).tail }
  | .clear k => { x with seq := Function.update x.seq k [] }
  | .swap a b =>
    { x with
      seq := Function.update (Function.update x.seq a (x.seq b)) b (x.seq a)
      tidy := Function.update x.tidy a (x.tidy a && x.tidy b) }
  | .destroy k => { x with tidy := Function.update x.tidy k true }

/-- The queues, all empty at first. -/
def fifo (κ N : Type*) [DecidableEq κ] [DecidableEq N] : System (Queues κ N) (Op κ N) :=
  ⟨⟨fun _ => [],fun _ => false,fun _ => true⟩,fun x op => some (x.serve op)⟩

/-- A node is constructed or pushed only when it is in no list; a list is swapped into
an empty one, and destroyed when it is empty. -/
def Contract {κ N : Type*} (x : Queues κ N) : Op κ N → Prop
  | .construct node | .push _ node => ∀ k, node ∉ x.seq k
  | .swap a _ | .destroy a => x.seq a = []
  | .pop _ | .clear _ => True

/-- The heap and the queues agree. -/
structure Represents {κ N : Type*} (s : Heap κ N) (x : Queues κ N) : Prop where
  holds : ∀ k, Holds s.next (s.list k) (x.seq k)
  disjoint : ∀ k k' n, n ∈ x.seq k → n ∈ x.seq k' → k = k'
  fresh : ∀ n, x.fresh n = true → s.next n = none ∧ ∀ k, n ∉ x.seq k
  /-- The last node of a list has not been linked to another one since its push. -/
  ended : ∀ k n, x.tidy k = true → (x.seq k).getLast? = some n → s.next n = none

section Steps

variable {s s' : Heap κ N} {x : Queues κ N} {k : κ} {node : N}

/-- Push. -/
theorem Represents.push (h : Represents s x) (hn : ∀ k, node ∉ x.seq k) :
    Represents ⟨(s.list k).pushLinks s.next node,Function.update s.list k ((s.list k).push node)⟩
      (x.serve (.push k node)) := by
  have hkeep : ∀ n, n ∉ x.seq k → (s.list k).pushLinks s.next node n = s.next n :=
    fun n hn => (h.holds k).pushLinks_of_not_mem hn
  have hother : ∀ j n, j ≠ k → n ∈ x.seq j → n ∉ x.seq k :=
    fun j n hj hn hk => hj (h.disjoint j k n hn hk)
  refine ⟨?_,?_,?_,?_⟩
  all_goals simp only [Queues.serve]
  · intro j
    by_cases hj : j = k
    · subst hj
      simp only [Function.update_self]
      exact (h.holds j).push (hn j)
    · simp only [Function.update_of_ne hj]
      exact (h.holds j).frame fun n hmem => hkeep n (hother j n hj hmem)
  · have hold := h.disjoint
    simp only [Function.update_apply]
    grind
  · intro n hfresh
    have hne : n ≠ node := by
      rintro rfl
      simp at hfresh
    rw [Function.update_of_ne hne] at hfresh
    obtain ⟨hnone,hout⟩ := h.fresh n hfresh
    refine ⟨(hkeep n (hout k)).trans hnone,?_⟩
    intro j
    by_cases hj : j = k
    · subst hj
      simp [hout j,hne]
    · rw [Function.update_of_ne hj]
      exact hout j
  · intro j n htidy hlast
    by_cases hj : j = k
    · subst hj
      simp only [Function.update_self,List.getLast?_append,List.getLast?_singleton,Option.some_or,
        Option.some.injEq,Bool.and_eq_true] at htidy hlast
      subst hlast
      exact (hkeep node (hn j)).trans (h.fresh node htidy.2).1
    · rw [Function.update_of_ne hj] at htidy hlast
      exact (hkeep n (hother j n hj (List.mem_of_getLast? hlast))).trans (h.ended j n htidy hlast)

/-- Constructing a node outside of the lists. -/
theorem Represents.construct (h : Represents s x) (hn : ∀ k, node ∉ x.seq k) :
    Represents { s with next := Function.update s.next node none } (x.serve (.construct node)) := by
  refine ⟨fun k => (h.holds k).write (hn k) none,h.disjoint,?_,?_⟩
  · intro n hfresh
    by_cases he : n = node
    · subst he
      exact ⟨Function.update_self ..,hn⟩
    · simp only [Queues.serve,Function.update_of_ne he] at hfresh
      obtain ⟨hnone,hout⟩ := h.fresh n hfresh
      exact ⟨(Function.update_of_ne he ..).trans hnone,hout⟩
  · intro k n htidy hlast
    have hne : n ≠ node := by
      rintro rfl
      exact hn k (List.mem_of_getLast? hlast)
    exact (Function.update_of_ne hne ..).trans (h.ended k n htidy hlast)

omit [DecidableEq N] in
/-- An operation that only drops nodes from the front of one list. -/
theorem Represents.shrink {l : Header N} {ns : List N} (h : Represents s x)
    (hns : ns <:+ x.seq k) (hl : Holds s.next l ns) :
    Represents { s with list := Function.update s.list k l }
      { x with seq := Function.update x.seq k ns } := by
  have hsub : ∀ j n, n ∈ Function.update x.seq k ns j → n ∈ x.seq j := by
    intro j n hn
    by_cases hj : j = k
    · subst hj
      rw [Function.update_self] at hn
      exact hns.subset hn
    · rwa [Function.update_of_ne hj] at hn
  refine ⟨?_,?_,?_,?_⟩
  · intro j
    by_cases hj : j = k
    · subst hj
      simpa only [Function.update_self] using hl
    · simpa only [Function.update_of_ne hj] using h.holds j
  · intro j j' n hn hn'
    exact h.disjoint j j' n (hsub j n hn) (hsub j' n hn')
  · intro n hfresh
    obtain ⟨hnone,hout⟩ := h.fresh n hfresh
    exact ⟨hnone,fun j hn => hout j (hsub j n hn)⟩
  · intro j n htidy hlast
    refine h.ended j n htidy ?_
    by_cases hj : j = k
    · subst hj
      simp only [Function.update_self] at hlast
      -- a nonempty suffix has the same last node
      obtain ⟨front,hfront⟩ := hns
      rw [← hfront,List.getLast?_append,hlast,Option.some_or]
    · simpa only [Function.update_of_ne hj] using hlast

/-- The swap with an empty list. -/
theorem Represents.swap {a b : κ} (h : Represents s x) (ha : x.seq a = []) :
    Represents
      { s with list := Function.update (Function.update s.list a (s.list b)) b (s.list a) }
      (x.serve (.swap a b)) := by
  by_cases hab : a = b
  · subst hab
    simpa [Queues.serve] using h
  -- the lists are those of before, under exchanged names
  have hseq : ∀ k, (x.serve (.swap a b)).seq k = x.seq (Equiv.swap a b k) := by
    intro k
    simp only [Queues.serve,Function.update_apply,Equiv.swap_apply_def]
    grind
  have hlist : ∀ k, Function.update (Function.update s.list a (s.list b)) b (s.list a) k
      = s.list (Equiv.swap a b k) := by
    intro k
    simp only [Function.update_apply,Equiv.swap_apply_def]
    grind
  refine ⟨?_,?_,?_,?_⟩
  · intro k
    simp only [hseq,hlist]
    exact h.holds (Equiv.swap a b k)
  · intro k k' n hn hn'
    rw [hseq] at hn hn'
    exact (Equiv.swap a b).injective (h.disjoint _ _ n hn hn')
  · intro n hfresh
    obtain ⟨hnone,hout⟩ := h.fresh n hfresh
    refine ⟨hnone,fun k hn => ?_⟩
    rw [hseq] at hn
    exact hout _ hn
  · intro k n htidy hlast
    rw [hseq] at hlast
    refine h.ended _ n ?_ hlast
    by_cases hka : k = a
    · subst hka
      simp only [Queues.serve,Function.update_self,Bool.and_eq_true] at htidy
      rw [Equiv.swap_apply_left]
      exact htidy.2
    · by_cases hkb : k = b
      · -- the second list gets the empty one
        subst hkb
        rw [Equiv.swap_apply_right,ha] at hlast
        cases hlast
      · rw [Equiv.swap_apply_of_ne_of_ne hka hkb]
        simpa only [Queues.serve,Function.update_of_ne hka] using htidy

/-- The destruction of an empty list, and its construction. -/
theorem Represents.destroy (h : Represents s x) (hk : x.seq k = []) :
    Represents { s with list := Function.update s.list k .clear } (x.serve (.destroy k)) := by
  have hnil : Represents { s with list := Function.update s.list k .clear }
      { x with seq := Function.update x.seq k [] } := h.shrink List.nil_suffix holds_clear
  have hsame : Function.update x.seq k [] = x.seq := by rw [← hk,Function.update_eq_self]
  rw [hsame] at hnil
  refine ⟨hnil.holds,hnil.disjoint,hnil.fresh,?_⟩
  intro j n htidy hlast
  by_cases hj : j = k
  · subst hj
    have hne : x.seq j ≠ [] := List.ne_nil_of_mem (List.mem_of_getLast? hlast)
    exact absurd hk hne
  · simp only [Queues.serve,Function.update_of_ne hj] at htidy
    exact hnil.ended j n htidy hlast

/-- Each operation runs, and serves the queues. -/
theorem Represents.step {op : Op κ N} (h : Represents s x) (hop : Contract x op) :
    ∃ s', IntrusiveListFifo.step s op = some s' ∧ Represents s' (x.serve op) := by
  cases op with
  | construct node => exact ⟨_,rfl,h.construct hop⟩
  | push k node => exact ⟨_,rfl,h.push hop⟩
  | pop k => exact ⟨_,rfl,h.shrink (List.tail_suffix _) (h.holds k).pop.2⟩
  | clear k => exact ⟨_,rfl,h.shrink List.nil_suffix holds_clear⟩
  | swap a b =>
    have hempty : (s.list a).isEmpty = true := by
      rw [(h.holds a).isEmpty,hop]
      rfl
    exact ⟨_,if_pos hempty,h.swap hop⟩
  | destroy k =>
    have hempty : (s.list k).isEmpty = true := by
      rw [(h.holds k).isEmpty,hop]
      rfl
    exact ⟨_,if_pos hempty,h.destroy hop⟩

/-- Only the lists that an operation is about change. -/
theorem Queues.serve_seq_of_not_mem (x : Queues κ N) {op : Op κ N} (hk : k ∉ op.lists) :
    (x.serve op).seq k = x.seq k := by
  cases op with
  | construct node => rfl
  | destroy j => rfl
  | swap a b =>
    simp only [Op.lists,List.mem_cons,List.not_mem_nil,or_false,not_or] at hk
    simp only [Queues.serve,Function.update_of_ne hk.1,Function.update_of_ne hk.2]
  | push j node | pop j | clear j =>
    have hj : k ≠ j := by simpa [Op.lists] using hk
    simp only [Queues.serve,Function.update_of_ne hj]

end Steps

/-- New lists are empty queues, whatever the next fields hold. -/
theorem represents_start (next : N → Option N) :
    Represents (lists κ next).start (fifo κ N).start := by
  refine ⟨fun _ => holds_clear,?_,?_,?_⟩
  all_goals simp [fifo]

/-- A whole sequence of operations runs, and serves the queues. -/
theorem Represents.run {next : N → Option N} {ops : List (Op κ N)} {s : Heap κ N} {x : Queues κ N}
    (h : Represents s x) (hm : (fifo κ N).Meets Contract x ops) :
    ∃ s' x', (lists κ next).run s ops = some s' ∧ (fifo κ N).run x ops = some x' ∧
      Represents s' x' := by
  induction ops generalizing s x with
  | nil => exact ⟨s,x,rfl,rfl,h⟩
  | cons op rest ih =>
    obtain ⟨t,ht,hrep⟩ := h.step hm.1
    obtain ⟨s',x',hs,hx,hend⟩ := ih hrep hm.2
    refine ⟨s',x',?_,hx,hend⟩
    have hstep : (lists κ next).step s op = some t := ht
    rw [System.run,hstep]
    exact hs

/-- What the functions of one list return is what the queue says. -/
structure Observed {κ N : Type*} (s : Heap κ N) (x : Queues κ N) (k : κ) : Prop where
  /-- The links of the list pass through the queue. -/
  contents : (s.list k).contents s.next = x.seq k
  /-- Pop returns the oldest node, or null. -/
  popped : (s.list k).popped = (x.seq k).head?
  size : (s.list k).size = (x.seq k).length
  isEmpty : (s.list k).isEmpty = true ↔ x.seq k = []
  head : (s.list k).isEmpty = true ↔ (s.list k).head = none
  /-- Next leads from the first node through the queue to null. -/
  terminated : x.tidy k = true → Chain s.next (s.list k).head (x.seq k)

theorem Represents.observed {κ N : Type*} {s : Heap κ N} {x : Queues κ N} (h : Represents s x)
    (k : κ) : Observed s x k := by
  have hk := h.holds k
  refine ⟨hk.contents,hk.pop.1,hk.size,?_,?_,?_⟩
  · rw [hk.isEmpty,List.isEmpty_iff]
  · rw [hk.isEmpty,List.isEmpty_iff,hk.head,List.head?_eq_none_iff]
  · intro htidy
    have hlast : ∀ m ∈ (x.seq k).getLast?, s.next m = none := fun m hm => h.ended k m htidy hm
    cases hseq : x.seq k with
    | nil =>
      rw [hseq] at hk
      exact hk.head
    | cons n rest =>
      rw [hseq] at hk hlast
      exact ⟨hk.head,chain_next_iff.mpr (hk.path hlast)⟩

/-- Over every sequence of operations that pushes a node only when it is in no list,
swaps only into empty lists and destroys only empty ones, from any next fields: all
operations run, every list shows its own queue, and the next operation changes the
content of no list that it is not about. -/
theorem lists_refine_fifo (next : N → Option N) {ops : List (Op κ N)}
    (hm : (fifo κ N).Meets Contract (fifo κ N).start ops) :
    ∃ s x, (lists κ next).run (lists κ next).start ops = some s ∧
      (fifo κ N).run (fifo κ N).start ops = some x ∧ (∀ k, Observed s x k) ∧
      ∀ op, Contract x op → ∃ s', (lists κ next).step s op = some s' ∧
        (∀ k, Observed s' (x.serve op) k) ∧
        ∀ k, k ∉ op.lists → (s'.list k).contents s'.next = (s.list k).contents s.next := by
  obtain ⟨s,x,hs,hx,hrep⟩ := (represents_start next).run hm
  refine ⟨s,x,hs,hx,hrep.observed,?_⟩
  intro op hop
  obtain ⟨s',hstep,hrep'⟩ := hrep.step hop
  refine ⟨s',hstep,hrep'.observed,?_⟩
  intro k hk
  rw [(hrep'.observed k).contents,(hrep.observed k).contents,x.serve_seq_of_not_mem hk]

instance decidableContract [Fintype κ] (x : Queues κ N) : ∀ op, Decidable (Contract x op)
  | .construct node | .push _ node => inferInstanceAs (Decidable (∀ k, node ∉ x.seq k))
  | .swap a _ | .destroy a => inferInstanceAs (Decidable (x.seq a = []))
  | .pop _ | .clear _ => isTrue trivial

/-- Two nodes go through one list, and the stale one into another list, which takes
over the first list and is drained. -/
def reuse : List (Op Bool (Fin 3)) :=
  [.push false 0,.push false 1,.pop false,.push true 0,.pop true,.push false 0,.swap true false,
    .pop true,.pop true,.destroy false,.construct 2,.push false 2]

theorem reuse_meets : (fifo Bool (Fin 3)).Meets Contract (fifo Bool (Fin 3)).start reuse := by
  decide +kernel

/-- The next fields of all nodes form a cycle at first. -/
theorem reuse_refines :
    ∃ s x, (lists Bool fun n : Fin 3 => some (n + 1)).run
        (lists Bool fun n : Fin 3 => some (n + 1)).start reuse = some s ∧
      (fifo Bool (Fin 3)).run (fifo Bool (Fin 3)).start reuse = some x ∧ Observed s x false := by
  obtain ⟨s,x,hs,hx,hobs,-⟩ := lists_refine_fifo (fun n : Fin 3 => some (n + 1)) reuse_meets
  exact ⟨s,x,hs,hx,hobs false⟩

end ConcurrencyRuntime.IntrusiveListFifo
