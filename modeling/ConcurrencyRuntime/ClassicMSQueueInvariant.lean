import ConcurrencyRuntime.ClassicMSQueue
import ConcurrencyRuntime.LinkedPath

/-!
# The representation invariant of the classic Michael-Scott queue

The chain from head is a null-terminated path of allocated nodes that contains
tail as its last or second-to-last node. A pointer that a call is going to
dereference is known to be allocated. What else a call remembers of head or tail
is known only as long as head or tail has not changed since: the comparison that
comes before its use says that, provided that no counter has gone around. All of
it is kept by every step, provided that a delete takes no node that another call
is going to dereference.
-/

namespace ConcurrencyRuntime.ClassicMSQueue

open TransitionSystem LinkedPath

section Projections

variable {N T : Type*}

/-- The node a Push has allocated and not linked. -/
@[simp]
def Pc.newNode : Pc N T → Option N
  | .pushTail new | .pushNext new _ | .pushCheck new _ _ | .pushLink new _ _ | .pushSwing new _ _ =>
    some new
  | _ => none

/-- The value that was loaded from tail. -/
@[simp]
def Pc.tailSnap : Pc N T → Option (NodePointer N)
  | .pushNext _ oldTail | .pushCheck _ oldTail _ | .pushLink _ oldTail _ | .pushSwing _ oldTail _
  | .pushFinish _ oldTail | .popNext _ oldTail | .popCheck _ oldTail _ | .popSwing oldTail _ =>
    some oldTail
  | _ => none

/-- The value that was loaded from head. -/
@[simp]
def Pc.headSnap : Pc N T → Option (NodePointer N)
  | .popTail oldHead | .popNext oldHead _ | .popCheck oldHead _ _ | .popValue oldHead _
  | .popCas oldHead _ _ => some oldHead
  | _ => none

/-- The old_tail that a Push is going to dereference. -/
@[simp]
def Pc.oldTail : Pc N T → Option N
  | .pushNext _ oldTail | .pushLink _ oldTail _ => oldTail.nodePtr
  | _ => none

/-- The old_head that a TryPop is going to dereference. -/
@[simp]
def Pc.oldHead : Pc N T → Option N
  | .popTail oldHead | .popNext oldHead _ => oldHead.nodePtr
  | _ => none

/-- The node whose value a TryPop is going to copy. -/
@[simp]
def Pc.reading : Pc N T → Option N
  | .popValue _ after => after.nodePtr
  | _ => none

/-- The node that a TryPop has taken off head and not deleted. -/
@[simp]
def Pc.popped : Pc N T → Option N
  | .popDelete oldHead _ => oldHead.nodePtr
  | _ => none

/-- An old tail with the node that was found or put behind it. -/
@[simp]
def Pc.tailLink : Pc N T → Option (NodePointer N × N)
  | .pushCheck _ oldTail after | .pushSwing _ oldTail after | .popSwing oldTail after =>
    after.nodePtr.map fun x => (oldTail,x)
  | .pushFinish new oldTail => some (oldTail,new)
  | _ => none

/-- An old head with the node that was found behind it. -/
@[simp]
def Pc.headLink : Pc N T → Option (NodePointer N × N)
  | .popCheck oldHead _ after | .popValue oldHead after | .popCas oldHead after _ =>
    after.nodePtr.map fun x => (oldHead,x)
  | _ => none

/-- An old head, the node behind it and the value that was copied from there. -/
@[simp]
def Pc.copied : Pc N T → Option (NodePointer N × N × T)
  | .popCas oldHead after result => after.nodePtr.map fun x => (oldHead,x,result)
  | _ => none

/-- The pointers that a program point has tested for null. -/
@[simp]
def Pc.Shaped : Pc N T → Prop
  | .pushNext _ oldTail => oldTail.nodePtr ≠ none
  | .pushLink _ oldTail after => oldTail.nodePtr ≠ none ∧ after.nodePtr = none
  | .pushSwing _ _ after | .popSwing _ after | .popValue _ after | .popCas _ after _ =>
    after.nodePtr ≠ none
  | .popTail oldHead | .popNext oldHead _ | .popDelete oldHead _ => oldHead.nodePtr ≠ none
  | .popCheck oldHead oldTail after => oldHead.nodePtr ≠ oldTail.nodePtr → after.nodePtr ≠ none
  | .fault => False
  | _ => True

/-- A node that is going to be dereferenced is an old tail, an old head or a node
whose value is copied. -/
theorem Pc.awaits_cases {pc : Pc N T} {n : N} (h : pc.awaits = some n) :
    pc.oldTail = some n ∨ pc.oldHead = some n ∨ pc.reading = some n := by
  cases pc <;> simp_all [Pc.awaits,Pc.touched]

theorem Pc.oldTail_awaits {pc : Pc N T} {n : N} (h : pc.oldTail = some n) : pc.awaits = some n := by
  cases pc <;> simp_all [Pc.awaits,Pc.touched]

theorem Pc.oldHead_awaits {pc : Pc N T} {n : N} (h : pc.oldHead = some n) : pc.awaits = some n := by
  cases pc <;> simp_all [Pc.awaits,Pc.touched]

theorem Pc.reading_awaits {pc : Pc N T} {n : N} (h : pc.reading = some n) : pc.awaits = some n := by
  cases pc <;> simp_all [Pc.awaits,Pc.touched]

theorem Pc.touched_awaits {pc : Pc N T} {n : N} (h : pc.touched = some n) : pc.awaits = some n := by
  cases pc <;> simp_all [Pc.awaits,Pc.touched]

theorem Pc.tailLink_tailSnap {pc : Pc N T} {p : NodePointer N} {x : N}
    (h : pc.tailLink = some (p,x)) : pc.tailSnap = some p := by
  cases pc <;> simp_all

theorem Pc.headLink_headSnap {pc : Pc N T} {p : NodePointer N} {x : N}
    (h : pc.headLink = some (p,x)) : pc.headSnap = some p := by
  cases pc <;> simp_all

theorem Pc.copied_headLink {pc : Pc N T} {p : NodePointer N} {x : N} {v : T}
    (h : pc.copied = some (p,x,v)) : pc.headLink = some (p,x) := by
  cases pc <;> simp_all

variable [DecidableEq N]

/-- An old head that was found different from tail. -/
@[simp]
def Pc.passed : Pc N T → Option (NodePointer N)
  | .popNext oldHead oldTail | .popCheck oldHead oldTail _ =>
    if oldHead.nodePtr = oldTail.nodePtr then none else some oldHead
  | .popValue oldHead _ | .popCas oldHead _ _ => some oldHead
  | _ => none

/-- The old head that was found different from tail and is going to be
dereferenced. -/
@[simp]
def Pc.ahead : Pc N T → Option N
  | .popNext oldHead oldTail =>
    if oldHead.nodePtr = oldTail.nodePtr then none else oldHead.nodePtr
  | _ => none

theorem Pc.passed_headSnap {pc : Pc N T} {p : NodePointer N} (h : pc.passed = some p) :
    pc.headSnap = some p := by
  cases pc <;> simp_all

theorem Pc.ahead_oldHead {pc : Pc N T} {n : N} (h : pc.ahead = some n) : pc.oldHead = some n := by
  cases pc <;> simp_all

end Projections

variable {ι N T : Type*} [DecidableEq N]

/-- The node behind a node. -/
def Queue.succ {ι N T : Type*} (s : Queue ι N T) (n : N) : Option N := (s.next n).nodePtr

/-- The node has been the head: it still is, or it has left the chain with its
next field set. -/
def BeenHead {ι N T : Type*} (s : Queue ι N T) (h : N) (rest : List N) (n : N) : Prop :=
  n = h ∨ (n ∉ h :: rest ∧ s.succ n ≠ none)

/-- What a thread knows at a program point. -/
structure Local (s : Queue ι N T) (h : N) (rest : List N) (pc : Pc N T) : Prop where
  newNode : ∀ n, pc.newNode = some n → s.allocated n = true ∧ s.succ n = none ∧ n ∉ h :: rest
  tailSnap : ∀ p, pc.tailSnap = some p → p.counter ≤ s.tail.counter
  headSnap : ∀ p, pc.headSnap = some p → p.counter ≤ s.head.counter
  oldTail : ∀ n, pc.oldTail = some n → s.allocated n = true ∧
    (n ∈ h :: rest ∨ s.succ n ≠ none) ∧ ∀ tl, s.tail.nodePtr = some tl → s.succ tl ≠ some n
  oldHead : ∀ n, pc.oldHead = some n → s.allocated n = true ∧ BeenHead s h rest n
  reading : ∀ n, pc.reading = some n → s.allocated n = true
  popped : ∀ n, pc.popped = some n → s.allocated n = true ∧ n ∉ h :: rest ∧ s.succ n ≠ none
  ahead : ∀ n, pc.ahead = some n → s.succ n ≠ none
  passed : ∀ p, pc.passed = some p → s.head = p → s.tail.nodePtr ≠ some h
  tailLink : ∀ p x, pc.tailLink = some (p,x) → s.tail = p →
    ∃ n, p.nodePtr = some n ∧ s.succ n = some x
  headLink : ∀ p x, pc.headLink = some (p,x) → s.head = p → s.succ h = some x
  copied : ∀ p x v, pc.copied = some (p,x,v) → s.head = p → s.value x = v
  shaped : pc.Shaped

/-- A thread that remembers no pointer knows nothing. -/
theorem Local.outside {s : Queue ι N T} {h : N} {rest : List N} {pc : Pc N T}
    (hnew : pc.newNode = none) (htail : pc.tailSnap = none) (hhead : pc.headSnap = none)
    (hpopped : pc.popped = none) (hshaped : pc.Shaped) : Local s h rest pc := by
  cases pc with
  | idle | pushNew | pushDone | popHead | popDone =>
    constructor
    all_goals simp
  | pushTail | pushNext | pushCheck | pushLink | pushSwing => cases hnew
  | pushFinish | popSwing => cases htail
  | popTail | popNext | popCheck | popValue | popCas => cases hhead
  | popDelete => exact absurd hpopped hshaped
  | fault => exact hshaped.elim

/-- A Push at the head of its loop knows of its new node only. -/
theorem Local.restart {s : Queue ι N T} {h new : N} {rest : List N} {pc : Pc N T}
    (hL : Local s h rest pc) (hnew : pc.newNode = some new) : Local s h rest (.pushTail new) := by
  constructor
  case newNode =>
    rintro n ⟨⟩
    exact hL.newNode new hnew
  all_goals simp

/-- The shared part of the representation: the chain from head written out. -/
structure Shared {ι N T : Type*} (s : Queue ι N T) (h : N) (rest : List N) : Prop where
  head : s.head.nodePtr = some h
  path : Path s.succ h rest
  tail : ∃ tl ∈ h :: rest, s.tail.nodePtr = some tl ∧ ∀ x, s.succ tl = some x → s.succ x = none
  live : ∀ n ∈ h :: rest, s.allocated n = true

/-- The representation invariant: the chain, the knowledge of each thread, and no
node owned by two threads. -/
structure Sound (s : Queue ι N T) (h : N) (rest : List N) : Prop extends Shared s h rest where
  locals : ∀ t, Local s h rest (s.pc t)
  newUnique : ∀ t u n, (s.pc t).newNode = some n → (s.pc u).newNode = some n → t = u
  poppedUnique : ∀ t u n, (s.pc t).popped = some n → (s.pc u).popped = some n → t = u

section Assemble

variable [DecidableEq ι] {s s' : Queue ι N T} {h h' : N} {rest rest' : List N} {t : ι} {q : Pc N T}

/-- Moving a thread changes no field that local knowledge reads. -/
theorem Local.goto {pc : Pc N T} (hl : Local s h rest pc) : Local (s.goto t q) h rest pc :=
  ⟨hl.newNode,hl.tailSnap,hl.headSnap,hl.oldTail,hl.oldHead,hl.reading,hl.popped,hl.ahead,hl.passed,
    hl.tailLink,hl.headLink,hl.copied,hl.shaped⟩

/-- The invariant after one step of a thread: the new chain, the knowledge of the
thread at its new program point, the knowledge of the others in the new memory,
and the nodes the thread has come to own. -/
theorem Sound.assemble (hS : Sound s h rest) (hpc : s'.pc = s.pc) (hsh : Shared s' h' rest')
    (hl : Local s' h' rest' q) (hothers : ∀ u, u ≠ t → Local s' h' rest' (s.pc u))
    (hnew : ∀ u, u ≠ t → ∀ n, q.newNode = some n → (s.pc u).newNode ≠ some n)
    (hpop : ∀ u, u ≠ t → ∀ n, q.popped = some n → (s.pc u).popped ≠ some n) :
    Sound (s'.goto t q) h' rest' := by
  have hgoto : ∀ u, (s'.goto t q).pc u = if u = t then q else s.pc u := by
    intro u
    rw [←hpc]
    exact Function.update_apply ..
  refine ⟨⟨hsh.head,hsh.path,hsh.tail,hsh.live⟩,fun u => ?_,?_,?_⟩
  · rw [hgoto]
    split
    · exact hl.goto
    next hu => exact (hothers u hu).goto
  · intro u w n
    rw [hgoto,hgoto]
    have hold := hS.newUnique u w n
    grind
  · intro u w n
    rw [hgoto,hgoto]
    have hold := hS.poppedUnique u w n
    grind

/-- A step that only moves its thread needs the knowledge of the new program
point, which must claim no node the old one did not own. -/
theorem Sound.move (hS : Sound s h rest) (hl : Local s h rest q)
    (hnew : ∀ n, q.newNode = some n → (s.pc t).newNode = some n)
    (hpop : ∀ n, q.popped = some n → (s.pc t).popped = some n) : Sound (s.goto t q) h rest := by
  refine hS.assemble rfl hS.toShared hl (fun u _ => hS.locals u) ?_ ?_
  · exact fun u hu n hq hw => hu (hS.newUnique u t n hw (hnew n hq))
  · exact fun u hu n hq hw => hu (hS.poppedUnique u t n hw (hpop n hq))

/-- A thread goes to a program point at which it remembers no pointer. -/
theorem Sound.outside (hS : Sound s h rest) (hnew : q.newNode = none) (htail : q.tailSnap = none)
    (hhead : q.headSnap = none) (hpopped : q.popped = none) (hshaped : q.Shaped) :
    Sound (s.goto t q) h rest := by
  refine hS.move (.outside hnew htail hhead hpopped hshaped) ?_ ?_
  · intro n hn
    rw [hnew] at hn
    cases hn
  · intro n hn
    rw [hpopped] at hn
    cases hn

end Assemble

section Memory

variable {s : Queue ι N T} {h : N} {rest : List N} {t : ι}

omit [DecidableEq N] in
/-- The successor of tail is the last node. -/
theorem Shared.succ_tail {tl x : N} (hS : Shared s h rest) (htl : s.tail.nodePtr = some tl)
    (hx : s.succ tl = some x) : x ∈ rest ∧ s.succ x = none := by
  obtain ⟨tl',hmem,htl',hlast⟩ := hS.tail
  rw [htl] at htl'
  cases htl'
  exact ⟨path_succ_mem hS.path hmem hx,hlast x hx⟩

omit [DecidableEq N] in
/-- The head is not among the later nodes. -/
theorem Shared.head_not_mem (hS : Shared s h rest) : h ∉ rest :=
  (List.nodup_cons.mp (path_nodup hS.path)).1

omit [DecidableEq N] in
/-- A chain whose tail is not its head has a second node. -/
theorem Shared.succ_head (hS : Shared s h rest) (htail : s.tail.nodePtr ≠ some h) :
    s.succ h ≠ none := by
  intro hnull
  obtain ⟨tl,hmem,htl,-⟩ := hS.tail
  have hrest : rest = [] := path_unique hS.path hnull
  rw [hrest,List.mem_singleton] at hmem
  exact htail (htl.trans (congrArg some hmem))

omit [DecidableEq N] in
/-- The last node of the chain is tail unless it is behind tail. -/
theorem Shared.tail_of_last {n : N} (hS : Shared s h rest) (hmem : n ∈ h :: rest)
    (hnull : s.succ n = none) (hbehind : ∀ tl, s.tail.nodePtr = some tl → s.succ tl ≠ some n) :
    s.tail.nodePtr = some n := by
  obtain ⟨tl,htm,ht,hlast⟩ := hS.tail
  obtain ⟨front,hfront⟩ := path_last hS.path hmem hnull
  cases hx : s.succ tl with
  | none =>
    obtain ⟨front',hfront'⟩ := path_last hS.path htm hx
    have he := (List.append_inj' (hfront.symm.trans hfront') rfl).2
    rw [ht]
    simp_all
  | some x =>
    have hxm := List.mem_cons_of_mem h (path_succ_mem hS.path htm hx)
    obtain ⟨front',hfront'⟩ := path_last hS.path hxm (hlast x hx)
    have he := (List.append_inj' (hfront.symm.trans hfront') rfl).2
    have hbad := hbehind tl ht
    simp_all

/-- Swinging tail to the successor of the node it points to keeps the invariant:
the successor is the last node, and what was known of the old tail is not known of
the new one. -/
theorem Sound.swing {n x : N} {count : ℕ} (hS : Sound s h rest) (htail : s.tail = ⟨some n,count⟩)
    (hx : s.succ n = some x) : Sound { s with tail := ⟨some x,count + 1⟩ } h rest := by
  obtain ⟨hmem,hnull⟩ := hS.succ_tail (by rw [htail]) hx
  have hnn : ∀ y, s.succ x ≠ some y := by simp [hnull]
  refine ⟨⟨hS.head,hS.path,?_,hS.live⟩,fun u => ?_,hS.newUnique,hS.poppedUnique⟩
  · exact ⟨x,List.mem_cons_of_mem _ hmem,rfl,fun y hy => absurd hy (hnn y)⟩
  · have hL := hS.locals u
    have hcount : ∀ p, (s.pc u).tailSnap = some p → p.counter < count + 1 := by
      intro p hp
      have hle := hL.tailSnap p hp
      rw [htail] at hle
      exact Nat.lt_succ_of_le hle
    refine { hL with
      tailSnap := fun p hp => Nat.le_of_lt (hcount p hp), oldTail := ?oldTail, passed := ?passed,
      tailLink := ?tailLink }
    case oldTail =>
      intro m hm
      obtain ⟨halloc,hin,-⟩ := hL.oldTail m hm
      refine ⟨halloc,hin,?_⟩
      rintro tl ⟨⟩
      exact hnn m
    case passed =>
      rintro p - - ⟨⟩
      exact hS.head_not_mem hmem
    case tailLink =>
      intro p y hp htail'
      have hlt := hcount p (Pc.tailLink_tailSnap hp)
      rw [←htail'] at hlt
      exact absurd hlt (Nat.lt_irrefl _)

/-- The compare-exchange of tail by a thread that knows what is behind its old
tail. -/
theorem Sound.swingTail {old : NodePointer N} {x : N} (hS : Sound s h rest)
    (hlink : s.tail = old → ∃ n, old.nodePtr = some n ∧ s.succ n = some x)
    (hwrap : s.tail.Same old → s.tail = old) : Sound (s.swingTail old (some x)) h rest := by
  unfold Queue.swingTail
  split
  next hsame =>
    have htail := hwrap hsame
    obtain ⟨n,hn,hx⟩ := hlink htail
    refine hS.swing (n := n) ?_ hx
    rw [htail,←hn]
  next => exact hS

variable [DecidableEq ι]

/-- The link of a Push: a null next is the last of the chain, where tail points,
so the new node becomes the last and tail the second-to-last. -/
theorem Sound.link {new n : N} {oldTail after : NodePointer N} {count : ℕ} (hS : Sound s h rest)
    (hpc : s.pc t = .pushLink new oldTail after) (hn : oldTail.nodePtr = some n)
    (hnull : s.succ n = none) :
    Sound ({ s with next := Function.update s.next n ⟨some new,count⟩ }.goto t
      (.pushFinish new oldTail)) h (rest ++ [new]) := by
  have hL := hS.locals t
  rw [hpc] at hL
  obtain ⟨hnlive,hnnull,hnout⟩ := hL.newNode new rfl
  obtain ⟨holive,hin,hbehind⟩ := hL.oldTail n hn
  have hmem : n ∈ h :: rest := hin.resolve_right (by simp [hnull])
  have htail := hS.tail_of_last hmem hnull hbehind
  have hset : ∀ m, s.succ m ≠ none → m ≠ n := fun m hm he => hm (he ▸ hnull)
  have hnne : new ≠ n := fun he => hnout (he ▸ hmem)
  have hsucc : Queue.succ { s with next := Function.update s.next n ⟨some new,count⟩ } =
      Function.update s.succ n (some new) := by
    funext m
    simp only [Queue.succ,Function.update_apply]
    split <;> rfl
  have hkeep : ∀ m, m ≠ n → Function.update s.succ n (some new) m = s.succ m :=
    fun m hm => Function.update_of_ne hm ..
  have hout : ∀ m, m ∉ h :: rest → m ≠ new → m ∉ h :: (rest ++ [new]) := by grind
  refine hS.assemble rfl ⟨hS.head,?_,?_,?_⟩ ?_ (fun u hu => ?_) (by rintro _ _ _ ⟨⟩)
    (by rintro _ _ _ ⟨⟩)
  · rw [hsucc]
    exact path_snoc hS.path hmem hnull hnout hnnull
  · refine ⟨n,by grind,htail,?_⟩
    intro x hx
    rw [hsucc,Function.update_self] at hx
    cases hx
    rw [hsucc,hkeep new hnne]
    exact hnnull
  · intro m hm
    have hcase : m ∈ h :: rest ∨ m = new := by grind
    rcases hcase with hc | rfl
    · exact hS.live m hc
    · exact hnlive
  · constructor
    case tailSnap => exact hL.tailSnap
    case tailLink =>
      rintro p x ⟨⟩ -
      exact ⟨n,hn,by rw [hsucc,Function.update_self]⟩
    all_goals simp
  · have hU := hS.locals u
    refine { hU with
      newNode := ?_, oldTail := ?_, oldHead := ?_, popped := ?_,
      ahead := ?_, tailLink := ?_, headLink := ?_ }
    · intro m hm
      obtain ⟨hl,hm0,hmo⟩ := hU.newNode m hm
      have hne : m ≠ new := fun he => hu (hS.newUnique u t new (he ▸ hm) (by simp [hpc]))
      refine ⟨hl,?_,hout m hmo hne⟩
      rw [hsucc,hkeep m fun he => hmo (he ▸ hmem)]
      exact hm0
    · intro m hm
      obtain ⟨hl,hi,-⟩ := hU.oldTail m hm
      have hne : m ≠ new := by
        rintro rfl
        rcases hi with hi | hi
        · exact hnout hi
        · exact hi hnnull
      refine ⟨hl,?_,?_⟩
      · rcases hi with hi | hi
        · exact Or.inl (by grind)
        · refine Or.inr ?_
          rw [hsucc,hkeep m (hset m hi)]
          exact hi
      · intro tl htl
        rw [htail] at htl
        cases htl
        rw [hsucc,Function.update_self]
        exact fun he => hne (Option.some.inj he).symm
    · intro m hm
      obtain ⟨hl,hb⟩ := hU.oldHead m hm
      refine ⟨hl,hb.imp_right ?_⟩
      rintro ⟨hmo,hs⟩
      refine ⟨hout m hmo fun he => hs (he ▸ hnnull),?_⟩
      rw [hsucc,hkeep m (hset m hs)]
      exact hs
    · intro m hm
      obtain ⟨hl,hmo,hs⟩ := hU.popped m hm
      refine ⟨hl,hout m hmo fun he => hs (he ▸ hnnull),?_⟩
      rw [hsucc,hkeep m (hset m hs)]
      exact hs
    · intro m hm
      have hs := hU.ahead m hm
      rw [hsucc,hkeep m (hset m hs)]
      exact hs
    · intro p x hp htail'
      obtain ⟨m,hm,hx⟩ := hU.tailLink p x hp htail'
      refine ⟨m,hm,?_⟩
      rw [hsucc,hkeep m (hset m (by simp [hx]))]
      exact hx
    · intro p x hp hhead
      have hx := hU.headLink p x hp hhead
      rw [hsucc,hkeep h (hset h (by simp [hx]))]
      exact hx

/-- The compare-exchange of head: the old head leaves the chain, which still
contains tail because tail was seen elsewhere. -/
theorem Sound.popCas {oldHead after : NodePointer N} {result : T} (hS : Sound s h rest)
    (hpc : s.pc t = .popCas oldHead after result) (hhead : s.head = oldHead) :
    ∃ m rest', rest = m :: rest' ∧ after.nodePtr = some m ∧ s.value m = result ∧
      Sound ({ s with head := ⟨after.nodePtr,oldHead.counter + 1⟩ }.goto t
        (.popDelete oldHead result)) m rest' := by
  have hL := hS.locals t
  rw [hpc] at hL
  obtain ⟨m,hm⟩ := Option.ne_none_iff_exists'.mp hL.shaped
  have hx := hL.headLink oldHead m (by simp [hm]) hhead
  have hvalue := hL.copied oldHead m result (by simp [hm]) hhead
  have hpass := hL.passed oldHead rfl hhead
  have hpath := hS.path
  have hhout := hS.head_not_mem
  have hold : oldHead.nodePtr = some h := by rw [←hhead,hS.head]
  cases rest with
  | nil =>
    have he := hpath.symm.trans hx
    cases he
  | cons k rest =>
    have he := Option.some.inj (hpath.1.symm.trans hx)
    subst he
    refine ⟨k,rest,rfl,hm,hvalue,?_⟩
    have hsub : ∀ n, n ∉ h :: k :: rest → n ∉ k :: rest :=
      fun n hn hmem => hn (List.mem_cons_of_mem _ hmem)
    have hcount : ∀ u p, (s.pc u).headSnap = some p → p.counter < oldHead.counter + 1 := by
      intro u p hp
      have hle := (hS.locals u).headSnap p hp
      rw [hhead] at hle
      exact Nat.lt_succ_of_le hle
    have hmoved : ∀ u p, (s.pc u).headSnap = some p →
        (⟨after.nodePtr,oldHead.counter + 1⟩ : NodePointer N) ≠ p := by
      rintro u p hp rfl
      exact absurd (hcount u _ hp) (Nat.lt_irrefl _)
    refine hS.assemble rfl ⟨hm,hpath.2,?_,fun n hn => hS.live n (List.mem_cons_of_mem _ hn)⟩ ?_
      (fun u _ => ?_) (by rintro _ _ _ ⟨⟩) ?_
    · obtain ⟨tl,hmem,ht,hlast⟩ := hS.tail
      refine ⟨tl,?_,ht,hlast⟩
      rcases List.mem_cons.mp hmem with rfl | hmem'
      · exact absurd ht hpass
      · exact hmem'
    · constructor
      case popped =>
        intro n hn
        have he := Option.some.inj (hold.symm.trans hn)
        subst he
        exact ⟨hS.live h List.mem_cons_self,hhout,by rw [Queue.succ] at hx ⊢; simp [hx]⟩
      case shaped => simp [hold]
      all_goals simp
    · have hU := hS.locals u
      refine { hU with
        newNode := ?_, headSnap := fun p hp => Nat.le_of_lt (hcount u p hp),
        oldTail := ?_, oldHead := ?_, popped := ?_, passed := ?_,
        headLink := ?_, copied := ?_ }
      · intro n hn
        obtain ⟨hl,hn0,hno⟩ := hU.newNode n hn
        exact ⟨hl,hn0,hsub n hno⟩
      · intro n hn
        obtain ⟨hl,hi,htl⟩ := hU.oldTail n hn
        refine ⟨hl,?_,htl⟩
        rcases hi with hi | hi
        · rcases List.mem_cons.mp hi with rfl | hi'
          · exact Or.inr (by rw [Queue.succ] at hx ⊢; simp [hx])
          · exact Or.inl hi'
        · exact Or.inr hi
      · intro n hn
        obtain ⟨hl,hb⟩ := hU.oldHead n hn
        refine ⟨hl,Or.inr ?_⟩
        rcases hb with rfl | ⟨hno,hs⟩
        · exact ⟨hhout,by rw [Queue.succ] at hx ⊢; simp [hx]⟩
        · exact ⟨hsub n hno,hs⟩
      · intro n hn
        obtain ⟨hl,hno,hs⟩ := hU.popped n hn
        exact ⟨hl,hsub n hno,hs⟩
      · intro p hp hhead'
        exact absurd hhead' (hmoved u p (Pc.passed_headSnap hp))
      · intro p x hp hhead'
        exact absurd hhead' (hmoved u p (Pc.headLink_headSnap hp))
      · intro p x v hp hhead'
        exact absurd hhead' (hmoved u p (Pc.headLink_headSnap (Pc.copied_headLink hp)))
    · intro u _ n hq hu
      have he := Option.some.inj (hold.symm.trans hq)
      subst he
      exact ((hS.locals u).popped _ hu).2.1 List.mem_cons_self

/-- Allocation: the new node belongs to its Push alone, and no pointer that
anybody is going to use leads to it. -/
theorem Sound.alloc {node : N} {item : T} (hS : Sound s h rest) (hfree : s.allocated node = false) :
    Sound ({ s with
      allocated := Function.update s.allocated node true,
      next := Function.update s.next node ⟨none,0⟩,
      value := Function.update s.value node item }.goto t (.pushTail node)) h rest := by
  have hne : ∀ n, s.allocated n = true → n ≠ node := by
    rintro n hn rfl
    rw [hfree] at hn
    cases hn
  have hout : node ∉ h :: rest := fun hmem => hne node (hS.live node hmem) rfl
  have hsucc : Queue.succ { s with
      allocated := Function.update s.allocated node true,
      next := Function.update s.next node ⟨none,0⟩,
      value := Function.update s.value node item } = Function.update s.succ node none := by
    funext m
    simp only [Queue.succ,Function.update_apply]
    split <;> rfl
  have hkeep : ∀ n, s.allocated n = true → Function.update s.succ node none n = s.succ n :=
    fun n hn => Function.update_of_ne (hne n hn) ..
  have halloc : ∀ n, s.allocated n = true → Function.update s.allocated node true n = true := by
    intro n hn
    rw [Function.update_of_ne (hne n hn),hn]
  obtain ⟨tl,htm,ht,hlast⟩ := hS.tail
  refine hS.assemble rfl ⟨hS.head,?_,?_,fun n hn => halloc n (hS.live n hn)⟩ ?_ (fun u _ => ?_) ?_
    (by rintro _ _ _ ⟨⟩)
  · rw [hsucc]
    exact path_frame hS.path hout none
  · refine ⟨tl,htm,ht,?_⟩
    intro x hx
    rw [hsucc,hkeep tl (hS.live tl htm)] at hx
    have hxm := List.mem_cons_of_mem h (path_succ_mem hS.path htm hx)
    rw [hsucc,hkeep x (hS.live x hxm)]
    exact hlast x hx
  · constructor
    case newNode =>
      rintro n ⟨⟩
      refine ⟨Function.update_self ..,?_,hout⟩
      rw [hsucc,Function.update_self]
    all_goals simp
  · have hU := hS.locals u
    refine { hU with
      newNode := ?_, oldTail := ?_, oldHead := ?_,
      reading := fun n hn => halloc n (hU.reading n hn), popped := ?_, ahead := ?_,
      tailLink := ?_, headLink := ?_, copied := ?_ }
    · intro n hn
      obtain ⟨hl,hn0,hno⟩ := hU.newNode n hn
      exact ⟨halloc n hl,by rw [hsucc,hkeep n hl,hn0],hno⟩
    · intro n hn
      obtain ⟨hl,hi,htl⟩ := hU.oldTail n hn
      refine ⟨halloc n hl,by rw [hsucc,hkeep n hl]; exact hi,?_⟩
      intro tl' ht'
      have he : tl = tl' := Option.some.inj (ht.symm.trans ht')
      rw [hsucc,hkeep tl' (he ▸ hS.live tl htm)]
      exact htl tl' ht'
    · intro n hn
      obtain ⟨hl,hb⟩ := hU.oldHead n hn
      exact ⟨halloc n hl,by rw [BeenHead,hsucc,hkeep n hl]; exact hb⟩
    · intro n hn
      obtain ⟨hl,hno,hs⟩ := hU.popped n hn
      exact ⟨halloc n hl,hno,by rw [hsucc,hkeep n hl]; exact hs⟩
    · intro n hn
      rw [hsucc,hkeep n (hU.oldHead n (Pc.ahead_oldHead hn)).1]
      exact hU.ahead n hn
    · intro p x hp htail
      obtain ⟨n,hn,hx⟩ := hU.tailLink p x hp htail
      have htail' : s.tail = p := htail
      have he : tl = n := Option.some.inj (ht.symm.trans (by rw [htail',hn]))
      exact ⟨n,hn,by rw [hsucc,hkeep n (he ▸ hS.live tl htm),hx]⟩
    · intro p x hp hhead
      rw [hsucc,hkeep h (hS.live h List.mem_cons_self)]
      exact hU.headLink p x hp hhead
    · intro p x v hp hhead
      have hx := hU.headLink p x (Pc.copied_headLink hp) hhead
      have hxm := List.mem_cons_of_mem h (path_succ_mem hS.path List.mem_cons_self hx)
      simp only [Function.update_of_ne (hne x (hS.live x hxm))]
      exact hU.copied p x v hp hhead
  · intro u _ n hq hu
    cases hq
    exact hne _ ((hS.locals u).newNode _ hu).1 rfl

/-- The delete of a node that nobody is going to dereference. -/
theorem Sound.free {oldHead : NodePointer N} {n : N} {result : T} (hS : Sound s h rest)
    (hpc : s.pc t = .popDelete oldHead result) (hn : oldHead.nodePtr = some n)
    (hsheltered : ∀ u, (s.pc u).awaits ≠ some n) :
    Sound ({ s with allocated := Function.update s.allocated n false }.goto t
      (.popDone (some result))) h rest := by
  have hL := hS.locals t
  rw [hpc] at hL
  obtain ⟨-,hout,hset⟩ := hL.popped n hn
  have hkeep : ∀ m, m ≠ n → s.allocated m = true →
      Function.update s.allocated n false m = true := by
    intro m hm hl
    rw [Function.update_of_ne hm,hl]
  refine hS.assemble rfl ⟨hS.head,hS.path,hS.tail,?_⟩ ?_ (fun u hu => ?_) (by rintro _ _ _ ⟨⟩)
    (by rintro _ _ _ ⟨⟩)
  · intro m hm
    exact hkeep m (fun he => hout (he ▸ hm)) (hS.live m hm)
  · exact .outside rfl rfl rfl rfl trivial
  · have hU := hS.locals u
    refine { hU with
      newNode := ?newNode, oldTail := ?oldTail, oldHead := ?oldHead, reading := ?reading,
      popped := ?popped }
    case newNode =>
      intro m hm
      obtain ⟨hl,hm0,hmo⟩ := hU.newNode m hm
      exact ⟨hkeep m (fun he => hset (he ▸ hm0)) hl,hm0,hmo⟩
    case oldTail =>
      intro m hm
      obtain ⟨hl,hrest⟩ := hU.oldTail m hm
      exact ⟨hkeep m (fun he => hsheltered u (he ▸ Pc.oldTail_awaits hm)) hl,hrest⟩
    case oldHead =>
      intro m hm
      obtain ⟨hl,hb⟩ := hU.oldHead m hm
      exact ⟨hkeep m (fun he => hsheltered u (he ▸ Pc.oldHead_awaits hm)) hl,hb⟩
    case reading =>
      intro m hm
      exact hkeep m (fun he => hsheltered u (he ▸ Pc.reading_awaits hm)) (hU.reading m hm)
    case popped =>
      intro m hm
      obtain ⟨hl,hrest⟩ := hU.popped m hm
      have hne : m ≠ n := by
        rintro rfl
        exact hu (hS.poppedUnique u t m hm (by rw [hpc]; exact hn))
      exact ⟨hkeep m hne hl,hrest⟩

omit [DecidableEq ι] in
/-- A compare-exchange of tail moves no thread. -/
@[simp]
theorem swingTail_pc (s : Queue ι N T) (old : NodePointer N) (node : Option N) :
    (s.swingTail old node).pc = s.pc := by
  unfold Queue.swingTail
  split <;> rfl

/-- How a step of a thread changes the chain: a link appends the new node, a pop
drops the old head, every other step leaves the chain. -/
inductive ChainStep {ι N T : Type*} (s : Queue ι N T) (t : ι) (h : N) (rest : List N) :
    N → List N → Prop
  | link (new n : N) (oldTail after : NodePointer N) (hpc : s.pc t = .pushLink new oldTail after)
      (hn : oldTail.nodePtr = some n) (hsame : (s.next n).Same after) (hnull : s.succ n = none) :
      ChainStep s t h rest h (rest ++ [new])
  | pop (oldHead after : NodePointer N) (result : T) (m : N) (rest' : List N)
      (hpc : s.pc t = .popCas oldHead after result) (hsame : s.head.Same oldHead)
      (hm : after.nodePtr = some m) (hvalue : s.value m = result) (hrest : rest = m :: rest') :
      ChainStep s t h rest m rest'
  | keep (hlink : ∀ new oldTail after, s.pc t = .pushLink new oldTail after →
        ∀ n, oldTail.nodePtr = some n → ¬(s.next n).Same after)
      (hpop : ∀ oldHead after result, s.pc t = .popCas oldHead after result →
        ¬s.head.Same oldHead) : ChainStep s t h rest h rest

/-- The invariant after a step of a thread, with what the step does to the chain. -/
def Kept (s : Queue ι N T) (t : ι) (h : N) (rest : List N) (s' : Queue ι N T) : Prop :=
  ∃ h' rest', Sound s' h' rest' ∧ ChainStep s t h rest h' rest'

/-- A step that only moves its thread and is neither a link nor a pop keeps the
chain. -/
theorem Sound.keep {q : Pc N T} (hS : Sound s h rest) (hl : Local s h rest q)
    (hnew : ∀ n, q.newNode = some n → (s.pc t).newNode = some n)
    (hpop : ∀ n, q.popped = some n → (s.pc t).popped = some n)
    (hk : ChainStep s t h rest h rest) : Kept s t h rest (s.goto t q) :=
  ⟨h,rest,hS.move hl hnew hpop,hk⟩

/-- So does a step to a program point that remembers no pointer. -/
theorem Sound.leave {q : Pc N T} (hS : Sound s h rest) (hk : ChainStep s t h rest h rest)
    (hl : Local s h rest q) (hnew : q.newNode = none) (hpop : q.popped = none) :
    Kept s t h rest (s.goto t q) :=
  hS.keep hl (by rw [hnew]; simp) (by rw [hpop]; simp) hk

section Points

variable {frees : Bool} {s' : Queue ι N T} {new : N} {oldTail oldHead after : NodePointer N}
  {result : T}

/-- Push loads tail. -/
theorem Sound.pushTailStep (hS : Sound s h rest) (hpc : s.pc t = .pushTail new)
    (hs : threadStep frees s t = some s') : Kept s t h rest s' := by
  have hL := hS.locals t
  obtain ⟨tl,htm,htl,hlast⟩ := hS.tail
  simp only [threadStep,hpc] at hs
  rw [hpc] at hL
  cases hs
  have hself : s.succ tl ≠ some tl := fun he => by simp [hlast tl he] at he
  refine hS.keep ?_ ?_ ?_ (.keep ?_ ?_)
  · constructor
    case newNode => exact hL.newNode
    case tailSnap =>
      rintro p ⟨⟩
      exact Nat.le_refl _
    case oldTail =>
      intro n hn
      have he : tl = n := Option.some.inj (htl.symm.trans hn)
      subst he
      refine ⟨hS.live tl htm,Or.inl htm,fun tl' ht' => ?_⟩
      have he : tl = tl' := Option.some.inj (htl.symm.trans ht')
      exact he ▸ hself
    all_goals simp [htl]
  all_goals simp [hpc]

/-- Push loads the node behind its old tail. -/
theorem Sound.pushNextStep (hS : Sound s h rest) (hpc : s.pc t = .pushNext new oldTail)
    (hs : threadStep frees s t = some s') : Kept s t h rest s' := by
  have hL := hS.locals t
  simp only [threadStep,hpc] at hs
  rw [hpc] at hL
  split at hs <;> cases hs
  next n hn =>
    refine hS.keep ?_ ?_ ?_ (.keep ?_ ?_)
    · constructor
      case newNode => exact hL.newNode
      case tailSnap => exact hL.tailSnap
      case tailLink =>
        intro p x hp _
        obtain ⟨y,hy,he⟩ := Option.map_eq_some_iff.mp hp
        cases he
        exact ⟨n,hn,hy⟩
      all_goals simp
    all_goals simp [hpc]
  next hn => exact absurd hn hL.shaped

/-- Push compares tail with its old tail: the node is behind it when tail has not
changed. -/
theorem Sound.pushCheckStep (hS : Sound s h rest) (hpc : s.pc t = .pushCheck new oldTail after)
    (hunwrapped : Unwrapped s (.step t)) (hs : threadStep frees s t = some s') :
    Kept s t h rest s' := by
  have hL := hS.locals t
  obtain ⟨tl,htm,htl,hlast⟩ := hS.tail
  simp only [threadStep,hpc] at hs
  simp only [Unwrapped,hpc] at hunwrapped
  rw [hpc] at hL
  have hk : ChainStep s t h rest h rest := .keep (by simp [hpc]) (by simp [hpc])
  split at hs
  next hsame =>
    have htail := hunwrapped hsame
    have hold : oldTail.nodePtr = some tl := by rw [←htail,htl]
    split at hs <;> cases hs
    next hafter =>
      refine hS.keep ?_ ?_ ?_ hk
      · constructor
        case newNode => exact hL.newNode
        case tailSnap => exact hL.tailSnap
        case oldTail =>
          intro n hn
          have he : tl = n := Option.some.inj (hold.symm.trans hn)
          subst he
          refine ⟨hS.live tl htm,Or.inl htm,fun tl' ht' he => ?_⟩
          have heq : tl = tl' := Option.some.inj (htl.symm.trans ht')
          subst heq
          simp [hlast tl he] at he
        case shaped => exact ⟨by simp [hold],hafter⟩
        all_goals simp
      all_goals simp [hpc]
    next x hx =>
      refine hS.keep ?_ ?_ ?_ hk
      · constructor
        case newNode => exact hL.newNode
        case tailSnap => exact hL.tailSnap
        case tailLink => exact hL.tailLink
        all_goals simp [hx]
      all_goals simp [hpc]
  next =>
    cases hs
    exact hS.keep (hL.restart rfl) (by simp [hpc]) (by simp) hk

/-- The compare-exchange of the next field of the old tail. -/
theorem Sound.pushLinkStep (hS : Sound s h rest) (hpc : s.pc t = .pushLink new oldTail after)
    (hs : threadStep frees s t = some s') : Kept s t h rest s' := by
  have hL := hS.locals t
  simp only [threadStep,hpc] at hs
  rw [hpc] at hL
  split at hs
  next n hn =>
    split at hs <;> cases hs
    next hsame =>
      have hnull : s.succ n = none := hsame.1.trans hL.shaped.2
      exact ⟨h,rest ++ [new],hS.link hpc hn hnull,.link new n oldTail after hpc hn hsame hnull⟩
    next hsame =>
      refine hS.keep (hL.restart rfl) (by simp [hpc]) (by simp) (.keep ?_ (by simp [hpc]))
      intro new' oldTail' after' hpc' m hm
      rw [hpc] at hpc'
      cases hpc'
      rw [hn] at hm
      cases hm
      exact hsame
  next hn => exact absurd hn hL.shaped.1

/-- A Push that found another one helps it. -/
theorem Sound.pushSwingStep (hS : Sound s h rest) (hpc : s.pc t = .pushSwing new oldTail after)
    (hunwrapped : Unwrapped s (.step t)) (hs : threadStep frees s t = some s') :
    Kept s t h rest s' := by
  have hL := hS.locals t
  simp only [threadStep,hpc] at hs
  simp only [Unwrapped,hpc] at hunwrapped
  rw [hpc] at hL
  cases hs
  obtain ⟨x,hx⟩ := Option.ne_none_iff_exists'.mp hL.shaped
  have hS' := hS.swingTail (hL.tailLink oldTail x (by simp [hx])) hunwrapped
  rw [hx]
  have hL' := hS'.locals t
  rw [swingTail_pc,hpc] at hL'
  refine ⟨h,rest,hS'.move (hL'.restart rfl) ?_ ?_,.keep ?_ ?_⟩ <;> simp [hpc]

/-- A Push swings tail to its own node. -/
theorem Sound.pushFinishStep (hS : Sound s h rest) (hpc : s.pc t = .pushFinish new oldTail)
    (hunwrapped : Unwrapped s (.step t)) (hs : threadStep frees s t = some s') :
    Kept s t h rest s' := by
  have hL := hS.locals t
  simp only [threadStep,hpc] at hs
  simp only [Unwrapped,hpc] at hunwrapped
  rw [hpc] at hL
  cases hs
  have hS' := hS.swingTail (hL.tailLink oldTail new rfl) hunwrapped
  refine ⟨h,rest,hS'.outside rfl rfl rfl rfl trivial,.keep ?_ ?_⟩ <;> simp [hpc]

/-- TryPop loads head. -/
theorem Sound.popHeadStep (hS : Sound s h rest) (hpc : s.pc t = .popHead)
    (hs : threadStep frees s t = some s') : Kept s t h rest s' := by
  simp only [threadStep,hpc] at hs
  cases hs
  refine hS.keep ?_ ?_ ?_ (.keep ?_ ?_)
  · constructor
    case headSnap =>
      rintro p ⟨⟩
      exact Nat.le_refl _
    case oldHead =>
      intro n hn
      have he : h = n := Option.some.inj (hS.head.symm.trans hn)
      subst he
      exact ⟨hS.live h List.mem_cons_self,Or.inl rfl⟩
    all_goals simp [hS.head]
  all_goals simp [hpc]

/-- TryPop loads tail. -/
theorem Sound.popTailStep (hS : Sound s h rest) (hpc : s.pc t = .popTail oldHead)
    (hs : threadStep frees s t = some s') : Kept s t h rest s' := by
  have hL := hS.locals t
  simp only [threadStep,hpc] at hs
  rw [hpc] at hL
  cases hs
  refine hS.keep ?_ ?_ ?_ (.keep ?_ ?_)
  · constructor
    case tailSnap =>
      rintro p ⟨⟩
      exact Nat.le_refl _
    case headSnap => exact hL.headSnap
    case oldHead => exact hL.oldHead
    case ahead =>
      intro n hn
      simp only [Pc.ahead] at hn
      split at hn
      · cases hn
      next hne =>
        rcases (hL.oldHead n hn).2 with rfl | ⟨-,hset⟩
        · exact hS.succ_head fun he => hne (hn.trans he.symm)
        · exact hset
    case passed =>
      intro p hp hhead he
      simp only [Pc.passed] at hp
      split at hp
      · cases hp
      next hne =>
        cases hp
        exact hne (by rw [←hhead,hS.head,he])
    case shaped => exact hL.shaped
    all_goals simp
  all_goals simp [hpc]

/-- TryPop loads the node behind its old head. -/
theorem Sound.popNextStep (hS : Sound s h rest) (hpc : s.pc t = .popNext oldHead oldTail)
    (hs : threadStep frees s t = some s') : Kept s t h rest s' := by
  have hL := hS.locals t
  simp only [threadStep,hpc] at hs
  rw [hpc] at hL
  split at hs <;> cases hs
  next n hn =>
    refine hS.keep ?_ ?_ ?_ (.keep ?_ ?_)
    · constructor
      case tailSnap => exact hL.tailSnap
      case headSnap => exact hL.headSnap
      case passed => exact hL.passed
      case headLink =>
        intro p x hp hhead
        obtain ⟨y,hy,he⟩ := Option.map_eq_some_iff.mp hp
        cases he
        have he : h = n := Option.some.inj (hS.head.symm.trans (by rw [hhead,hn]))
        exact he ▸ hy
      case shaped =>
        intro hne
        exact hL.ahead n ((if_neg hne).trans hn)
      all_goals simp
    all_goals simp [hpc]
  next hn => exact absurd hn hL.shaped

/-- TryPop compares head with its old head: the node is behind it when head has not
changed. -/
theorem Sound.popCheckStep (hS : Sound s h rest) (hpc : s.pc t = .popCheck oldHead oldTail after)
    (hunwrapped : Unwrapped s (.step t)) (hs : threadStep frees s t = some s') :
    Kept s t h rest s' := by
  have hL := hS.locals t
  simp only [threadStep,hpc] at hs
  simp only [Unwrapped,hpc] at hunwrapped
  rw [hpc] at hL
  have hk : ChainStep s t h rest h rest := .keep (by simp [hpc]) (by simp [hpc])
  split at hs
  next hsame =>
    have hhead := hunwrapped hsame
    split at hs
    next heq =>
      split at hs <;> cases hs
      next => exact hS.leave hk (.outside rfl rfl rfl rfl trivial) rfl rfl
      next x hx =>
        refine hS.keep ?_ ?_ ?_ hk
        · constructor
          case tailSnap => exact hL.tailSnap
          case tailLink =>
            intro p y hp htail
            obtain ⟨z,hz,he⟩ := Option.map_eq_some_iff.mp hp
            cases he
            have hlink := hL.headLink oldHead y (by simp [hz]) hhead
            exact ⟨h,by rw [←heq,←hhead,hS.head],hlink⟩
          all_goals simp [hx]
        all_goals simp
    next hne =>
      cases hs
      obtain ⟨x,hx⟩ := Option.ne_none_iff_exists'.mp (hL.shaped hne)
      have hlink := hL.headLink oldHead x (by simp [hx]) hhead
      have hxm := List.mem_cons_of_mem h (path_succ_mem hS.path List.mem_cons_self hlink)
      refine hS.keep ?_ ?_ ?_ hk
      · constructor
        case headSnap => exact hL.headSnap
        case reading =>
          intro n hn
          have he : x = n := Option.some.inj (hx.symm.trans hn)
          exact he ▸ hS.live x hxm
        case passed =>
          rintro p ⟨⟩
          exact hL.passed oldHead (by simp [hne])
        case headLink => exact hL.headLink
        all_goals simp [hx]
      all_goals simp
  next =>
    cases hs
    exact hS.leave hk (.outside rfl rfl rfl rfl trivial) rfl rfl

/-- A TryPop that found a tail behind helps its Push. -/
theorem Sound.popSwingStep (hS : Sound s h rest) (hpc : s.pc t = .popSwing oldTail after)
    (hunwrapped : Unwrapped s (.step t)) (hs : threadStep frees s t = some s') :
    Kept s t h rest s' := by
  have hL := hS.locals t
  simp only [threadStep,hpc] at hs
  simp only [Unwrapped,hpc] at hunwrapped
  rw [hpc] at hL
  cases hs
  obtain ⟨x,hx⟩ := Option.ne_none_iff_exists'.mp hL.shaped
  have hS' := hS.swingTail (hL.tailLink oldTail x (by simp [hx])) hunwrapped
  rw [hx]
  refine ⟨h,rest,hS'.outside rfl rfl rfl rfl trivial,.keep ?_ ?_⟩ <;> simp [hpc]

/-- TryPop copies the value. -/
theorem Sound.popValueStep (hS : Sound s h rest) (hpc : s.pc t = .popValue oldHead after)
    (hs : threadStep frees s t = some s') : Kept s t h rest s' := by
  have hL := hS.locals t
  simp only [threadStep,hpc] at hs
  rw [hpc] at hL
  split at hs <;> cases hs
  next m hm =>
    refine hS.keep ?_ ?_ ?_ (.keep ?_ ?_)
    · constructor
      case headSnap => exact hL.headSnap
      case passed => exact hL.passed
      case headLink => exact hL.headLink
      case copied =>
        intro p x v hp _
        obtain ⟨y,hy,he⟩ := Option.map_eq_some_iff.mp hp
        cases he
        have he : m = x := Option.some.inj (hm.symm.trans hy)
        rw [he]
      case shaped => exact hL.shaped
      all_goals simp
    all_goals simp [hpc]
  next hm => exact absurd hm hL.shaped

/-- The compare-exchange of head. -/
theorem Sound.popCasStep (hS : Sound s h rest) (hpc : s.pc t = .popCas oldHead after result)
    (hunwrapped : Unwrapped s (.step t)) (hs : threadStep frees s t = some s') :
    Kept s t h rest s' := by
  simp only [threadStep,hpc] at hs
  simp only [Unwrapped,hpc] at hunwrapped
  split at hs <;> cases hs
  next hsame =>
    obtain ⟨m,rest',hrest,hm,hvalue,hS'⟩ := hS.popCas hpc (hunwrapped hsame)
    exact ⟨m,rest',hS',.pop oldHead after result m rest' hpc hsame hm hvalue hrest⟩
  next hsame =>
    refine hS.leave (.keep (by simp [hpc]) ?_) (.outside rfl rfl rfl rfl trivial) rfl rfl
    intro oldHead' after' result' hpc'
    rw [hpc] at hpc'
    cases hpc'
    exact hsame

/-- TryPop deletes the old head, or does not when its delete does nothing. -/
theorem Sound.popDeleteStep (hS : Sound s h rest) (hpc : s.pc t = .popDelete oldHead result)
    (hsheltered : frees = true → Sheltered s (.step t)) (hs : threadStep frees s t = some s') :
    Kept s t h rest s' := by
  simp only [threadStep,hpc] at hs
  simp only [Sheltered,hpc] at hsheltered
  have hk : ChainStep s t h rest h rest := .keep (by simp [hpc]) (by simp [hpc])
  split at hs <;> cases hs
  next n hn => exact ⟨h,rest,hS.free hpc hn (hsheltered rfl n hn),hk⟩
  next => exact hS.leave hk (.outside rfl rfl rfl rfl trivial) rfl rfl

/-- A call returns. -/
theorem Sound.returnStep (hS : Sound s h rest)
    (hpc : s.pc t = .pushDone ∨ ∃ result, s.pc t = .popDone result)
    (hs : threadStep frees s t = some s') : Kept s t h rest s' := by
  have hk : ChainStep s t h rest h rest := by
    rcases hpc with hpc | ⟨result,hpc⟩ <;> exact .keep (by simp [hpc]) (by simp [hpc])
  have hidle : s' = s.goto t .idle := by
    rcases hpc with hpc | ⟨result,hpc⟩ <;>
    · simp only [threadStep,hpc] at hs
      exact (Option.some.inj hs).symm
  rw [hidle]
  exact hS.leave hk (.outside rfl rfl rfl rfl trivial) rfl rfl

end Points

/-- Every step of a thread keeps the representation invariant. -/
theorem sound_threadStep {frees : Bool} {s' : Queue ι N T} (hS : Sound s h rest)
    (hsheltered : frees = true → Sheltered s (.step t)) (hunwrapped : Unwrapped s (.step t))
    (hs : threadStep frees s t = some s') :
    ∃ h' rest', Sound s' h' rest' ∧ ChainStep s t h rest h' rest' := by
  cases hpc : s.pc t with
  | idle | pushNew | fault => simp [threadStep,hpc] at hs
  | pushTail new => exact hS.pushTailStep hpc hs
  | pushNext new oldTail => exact hS.pushNextStep hpc hs
  | pushCheck new oldTail after => exact hS.pushCheckStep hpc hunwrapped hs
  | pushLink new oldTail after => exact hS.pushLinkStep hpc hs
  | pushSwing new oldTail after => exact hS.pushSwingStep hpc hunwrapped hs
  | pushFinish new oldTail => exact hS.pushFinishStep hpc hunwrapped hs
  | pushDone => exact hS.returnStep (Or.inl hpc) hs
  | popHead => exact hS.popHeadStep hpc hs
  | popTail oldHead => exact hS.popTailStep hpc hs
  | popNext oldHead oldTail => exact hS.popNextStep hpc hs
  | popCheck oldHead oldTail after => exact hS.popCheckStep hpc hunwrapped hs
  | popSwing oldTail after => exact hS.popSwingStep hpc hunwrapped hs
  | popValue oldHead after => exact hS.popValueStep hpc hs
  | popCas oldHead after result => exact hS.popCasStep hpc hunwrapped hs
  | popDelete oldHead result => exact hS.popDeleteStep hpc hsheltered hs
  | popDone result => exact hS.returnStep (Or.inr ⟨result,hpc⟩) hs

/-- The conditions under which the invariant is kept: a delete that frees nodes
is sheltered, and no counter has gone around where it is compared. -/
def Guarded {ι N T : Type*} (frees : Bool) (s : Queue ι N T) (a : Action ι N T) : Prop :=
  (frees = true → Sheltered s a) ∧ Unwrapped s a

/-- Every guarded step keeps the representation invariant. -/
theorem sound_step {frees : Bool} {s' : Queue ι N T} {a : Action ι N T} (hS : Sound s h rest)
    (ha : Guarded frees s a) (hs : step frees s a = some s') : ∃ h' rest', Sound s' h' rest' := by
  cases a with
  | push t item =>
    simp only [step] at hs
    split at hs <;> cases hs
    exact ⟨h,rest,hS.outside rfl rfl rfl rfl trivial⟩
  | pop t =>
    simp only [step] at hs
    split at hs <;> cases hs
    exact ⟨h,rest,hS.outside rfl rfl rfl rfl trivial⟩
  | alloc t node =>
    simp only [step] at hs
    split at hs
    next item hpc =>
      split at hs <;> cases hs
      next hfree => exact ⟨h,rest,hS.alloc hfree⟩
    next => cases hs
  | step t =>
    obtain ⟨h',rest',hS',-⟩ := sound_threadStep hS ha.1 ha.2 hs
    exact ⟨h',rest',hS'⟩

end Memory

section Runs

variable [Inhabited T]

/-- A new queue is the chain of its dummy node. -/
theorem sound_initial (dummy : N) : Sound (initial ι T dummy) dummy [] where
  head := rfl
  path := rfl
  tail := ⟨dummy,List.mem_cons_self,rfl,by rintro _ ⟨⟩⟩
  live n hn := by
    rw [List.mem_singleton.mp hn]
    simp [initial]
  locals _ := .outside rfl rfl rfl rfl trivial
  newUnique := by rintro _ _ _ ⟨⟩
  poppedUnique := by rintro _ _ _ ⟨⟩

/-- Every state of a guarded run satisfies the representation invariant. -/
theorem sound_reachable [DecidableEq ι] {frees : Bool} {dummy : N} {s : Queue ι N T}
    (hr : (queue frees ι T dummy).ReachableUnder (Guarded frees) s) :
    ∃ h rest, Sound s h rest := by
  refine hr.invariant ⟨dummy,[],sound_initial dummy⟩ ?_
  rintro s a s' - ⟨h,rest,hS⟩ ha hs
  exact sound_step hS ha hs

end Runs

end ConcurrencyRuntime.ClassicMSQueue
