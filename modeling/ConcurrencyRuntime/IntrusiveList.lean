import ConcurrencyRuntime.LinkedPath

/-!
# The intrusive list over a shared heap of links

A list header stores a size and the addresses of its first and last nodes.
The links live in the nodes, one next field for each, so all lists share one
heap. Push links the node behind the last one; Pop follows one link; neither
resets the field of a node. What a list holds is therefore a relation between
its header, the heap and a sequence of addresses.
-/

namespace ConcurrencyRuntime.IntrusiveList

open LinkedPath

/-- The fields of an IntrusiveList itself. -/
structure Header (N : Type*) where
  /-- The number of nodes. -/
  size : ℕ
  /-- The first node, null when empty. -/
  head : Option N
  /-- The last node, null when empty. -/
  tail : Option N
  deriving DecidableEq

variable {N : Type*}

/-- The default constructor, and the header after Clear. -/
def Header.clear : Header N := ⟨0,none,none⟩

/-- The test of the size. -/
def Header.isEmpty (l : Header N) : Bool := l.size == 0

/-- The header after Push. -/
def Header.push (l : Header N) (node : N) : Header N :=
  ⟨l.size + 1,if l.head.isSome then l.head else some node,some node⟩

/-- The heap after Push: LinkAfter writes the next field of the last node. -/
def Header.pushLinks [DecidableEq N] (l : Header N) (next : N → Option N) (node : N) :
    N → Option N :=
  match l.head,l.tail with
  | some _,some last => Function.update next last (some node)
  | _,_ => next

/-- What Pop returns. -/
def Header.popped (l : Header N) : Option N :=
  if l.size = 0 then none else l.head

/-- The header after Pop. -/
def Header.pop (l : Header N) (next : N → Option N) : Header N :=
  if l.size = 0 then l
  else if l.size = 1 then ⟨l.size - 1,none,none⟩
  else ⟨l.size - 1,l.head.bind next,l.tail⟩

/-- The nodes met by following at most so many next fields from a pointer. -/
def collect (next : N → Option N) : ℕ → Option N → List N
  | 0,_ => []
  | _ + 1,none => []
  | k + 1,some n => n :: collect next k (next n)

/-- What following the next fields of a list finds. -/
def Header.contents (l : Header N) (next : N → Option N) : List N := collect next l.size l.head

/-- The list holds these nodes: the header describes the sequence, and each
node but the last links to its successor. The field of the last is arbitrary. -/
structure Holds (next : N → Option N) (l : Header N) (ns : List N) : Prop where
  size : l.size = ns.length
  head : l.head = ns.head?
  tail : l.tail = ns.getLast?
  links : ns.IsChain fun a b => next a = some b
  nodup : ns.Nodup

variable {next next' : N → Option N} {l : Header N} {ns : List N} {node : N}

theorem holds_clear : Holds next Header.clear [] :=
  ⟨rfl,rfl,rfl,.nil,List.nodup_nil⟩

theorem Holds.isEmpty (h : Holds next l ns) : l.isEmpty = ns.isEmpty := by
  cases ns <;> simp [Header.isEmpty,h.size]

/-- Writes outside the nodes of a list leave it alone. -/
theorem Holds.frame (h : Holds next l ns) (hsame : ∀ n ∈ ns, next' n = next n) :
    Holds next' l ns := by
  refine ⟨h.size,h.head,h.tail,?_,h.nodup⟩
  refine h.links.imp_of_mem_imp ?_
  intro a b ha _ hab
  rw [hsame a ha,hab]

/-- Pop returns the first node and keeps the others. -/
theorem Holds.pop (h : Holds next l ns) :
    l.popped = ns.head? ∧ Holds next (l.pop next) ns.tail := by
  rcases ns with _ | ⟨n,_ | ⟨m,rest⟩⟩
  · exact ⟨by simp [Header.popped,h.size],by simpa [Header.pop,h.size] using h⟩
  · refine ⟨by simp [Header.popped,h.size,h.head],?_⟩
    have hl : l.pop next = .clear := by simp [Header.pop,h.size,Header.clear]
    rw [hl]
    exact holds_clear
  · refine ⟨by simp [Header.popped,h.size,h.head],?_⟩
    have hlink : next n = some m := h.links.rel
    have hl : l.pop next = ⟨rest.length + 1,some m,l.tail⟩ := by
      simp [Header.pop,h.size,h.head,hlink]
    rw [hl]
    refine ⟨rfl,rfl,?_,h.links.tail,h.nodup.tail⟩
    simp [h.tail]

/-- The header and the links determine what the list holds. -/
theorem Holds.unique {ms : List N} (h : Holds next l ns) (h' : Holds next l ms) : ns = ms := by
  induction ns generalizing l ms with
  | nil =>
    have hlen := h.size.symm.trans h'.size
    exact (List.length_eq_zero_iff.mp hlen.symm).symm
  | cons n rest ih =>
    have hhead := h.head.symm.trans h'.head
    cases ms with
    | nil => cases hhead
    | cons m rest' =>
      cases hhead
      rw [ih h.pop.2 h'.pop.2]
      rfl

/-- Following the next fields finds what the list holds. -/
theorem Holds.contents (h : Holds next l ns) : l.contents next = ns := by
  have hwalk : ∀ (ms : List N) (p : Option N), p = ms.head? →
      ms.IsChain (fun a b => next a = some b) → collect next ms.length p = ms := by
    intro ms
    induction ms with
    | nil => exact fun _ _ _ => rfl
    | cons m rest ih =>
      rintro _ rfl hlinks
      rw [List.length_cons,List.head?_cons,collect]
      cases rest with
      | nil => rfl
      | cons k rest =>
        rw [List.isChain_cons_cons] at hlinks
        rw [ih (next m) hlinks.1 hlinks.2]
  rw [Header.contents,h.size]
  exact hwalk ns l.head h.head h.links

/-- When the field of the last node is null, following the links from the
first node visits the list and ends. -/
theorem Holds.path {n : N} {rest : List N} (h : Holds next l (n :: rest))
    (hlast : ∀ m ∈ (n :: rest).getLast?, next m = none) : Path next n rest := by
  have hlinks := h.links
  clear h
  induction rest generalizing n with
  | nil => exact hlast n rfl
  | cons m rest ih =>
    rw [List.isChain_cons_cons] at hlinks
    exact ⟨hlinks.1,ih (by simpa using hlast) hlinks.2⟩

variable [DecidableEq N]

/-- The only field that Push writes is that of the last node. -/
theorem Holds.pushLinks_of_not_mem (h : Holds next l ns) {n : N} (hn : n ∉ ns) :
    l.pushLinks next node n = next n := by
  unfold Header.pushLinks
  cases hhead : l.head with
  | none => rfl
  | some first =>
    cases htail : l.tail with
    | none => rfl
    | some last =>
      rw [h.tail] at htail
      have hne : n ≠ last := fun he => hn (he ▸ List.mem_of_getLast? htail)
      exact Function.update_of_ne hne ..

/-- Constructing a node, or writing its field, outside of a list leaves the
list alone. -/
theorem Holds.write (h : Holds next l ns) (hn : node ∉ ns) (x : Option N) :
    Holds (Function.update next node x) l ns := by
  refine h.frame fun n hmem => Function.update_of_ne ?_ ..
  rintro rfl
  exact hn hmem

/-- Push appends a node that the list does not hold yet. -/
theorem Holds.push (h : Holds next l ns) (hn : node ∉ ns) :
    Holds (l.pushLinks next node) (l.push node) (ns ++ [node]) := by
  refine ⟨by simp [Header.push,h.size],?_,by simp [Header.push],?_,?_⟩
  · cases ns <;> simp [Header.push,h.head]
  · cases hlast : ns.getLast? with
    | none =>
      rw [List.getLast?_eq_none_iff] at hlast
      subst hlast
      exact .singleton _
    | some last =>
      obtain ⟨front,rfl⟩ := List.getLast?_eq_some_iff.mp hlast
      have hp : l.pushLinks next node = Function.update next last (some node) := by
        unfold Header.pushLinks
        rw [h.head,h.tail,hlast]
        cases front <;> rfl
      have hout : ∀ a ∈ front, a ≠ last := by
        rintro a ha rfl
        exact (List.nodup_append.mp h.nodup).2.2 a ha a (List.mem_singleton_self a) rfl
      rw [hp,List.append_assoc,List.cons_append,List.nil_append,List.isChain_append_cons_cons]
      obtain ⟨hfront,-,hjoin⟩ := List.isChain_append.mp h.links
      refine ⟨List.isChain_append.mpr ⟨?_,.singleton _,?_⟩,Function.update_self ..,.singleton _⟩
      · refine hfront.imp_of_mem_imp fun a b ha _ hab => ?_
        rw [Function.update_of_ne (hout a ha),hab]
      · intro a ha b hb
        rw [Function.update_of_ne (hout a (List.mem_of_getLast? ha)),hjoin a ha b hb]
  · rw [List.nodup_append]
    refine ⟨h.nodup,List.nodup_singleton node,?_⟩
    rintro a ha b hb rfl
    exact hn (List.mem_singleton.mp hb ▸ ha)

end ConcurrencyRuntime.IntrusiveList
