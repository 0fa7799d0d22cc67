import ConcurrencyRuntime.LinkedPath
import ConcurrencyRuntime.SimpleMSQueue

/-!
# The representation invariant of the simple Michael-Scott queue

The chain from head is a null-terminated path of live nodes that contains
tail as its last or second-to-last node. Each program point adds what its
thread knows of the pointers it holds. All of it is kept by every step,
provided that a deleted node is held by no Push as old_tail and awaited by no
TryPop as the node to move a value out of.
-/

namespace ConcurrencyRuntime.SimpleMSQueue

open TransitionSystem LinkedPath

section Projections

variable {N T : Type*}

/-- The node a Push has allocated and not linked. -/
@[simp]
def Pc.newNode : Pc N T → Option N
  | .pushTail new | .pushNext new _ | .pushHelp new _ | .pushSwing new _ _ | .pushLink new _ =>
    some new
  | _ => none

/-- The validated old_head of a TryPop, while it stays protected. -/
@[simp]
def Pc.oldHead : Pc N T → Option N
  | .popNext oldHead | .popTail oldHead | .popHelp oldHead | .popSwing oldHead _
  | .popHeadNext oldHead | .popHead oldHead _ | .popSuccessor oldHead | .popValue oldHead _ =>
    some oldHead
  | _ => none

/-- The old_head that a TryPop has compared with tail and found different. -/
@[simp]
def Pc.passed : Pc N T → Option N
  | .popHeadNext oldHead | .popHead oldHead _ => some oldHead
  | _ => none

/-- The node a TryPop has taken off head and not retired. -/
@[simp]
def Pc.popped : Pc N T → Option N
  | .popSuccessor oldHead | .popValue oldHead _ | .popRelease oldHead _ | .popRetire oldHead _ =>
    some oldHead
  | _ => none

/-- A node whose next field was read as not null. -/
@[simp]
def Pc.hasNext : Pc N T → Option N
  | .pushHelp _ oldTail => some oldTail
  | .popTail oldHead | .popHelp oldHead | .popHeadNext oldHead | .popSuccessor oldHead =>
    some oldHead
  | _ => none

/-- A node together with the value last read from its next field. -/
@[simp]
def Pc.link : Pc N T → Option (N × Option N)
  | .pushSwing _ oldTail after => some (oldTail,after)
  | .pushFinish new oldTail => some (oldTail,some new)
  | .popSwing oldHead after | .popHead oldHead after => some (oldHead,after)
  | .popValue oldHead succ => some (oldHead,some succ)
  | _ => none

/-- The pointer that Acquire has stored and not validated. -/
@[simp]
def Pc.validating : Pc N T → Option (Option N)
  | .popValidate before => some before
  | _ => none

attribute [simp] Pc.oldTail Pc.successor Pc.touched

/-- A link is remembered only of a held old_tail or a protected old_head. -/
theorem Pc.link_held {pc : Pc N T} {n : N} {x : Option N} (h : pc.link = some (n,x)) :
    pc.oldTail = some n ∨ pc.oldHead = some n := by
  cases pc <;> simp_all

/-- A non-null next is remembered only of a held or protected node. -/
theorem Pc.hasNext_held {pc : Pc N T} {n : N} (h : pc.hasNext = some n) :
    pc.oldTail = some n ∨ pc.oldHead = some n := by
  cases pc <;> simp_all

/-- Every node a step touches is held, protected or awaited. -/
theorem Pc.touched_held {pc : Pc N T} {n : N} (next : N → Option N) (h : pc.touched = some n) :
    pc.oldTail = some n ∨ pc.oldHead = some n ∨ pc.successor next = some n := by
  cases pc <;> simp_all

/-- A node compared with tail is a protected old_head. -/
theorem Pc.passed_oldHead {pc : Pc N T} {n : N} (h : pc.passed = some n) :
    pc.oldHead = some n := by
  cases pc <;> simp_all

end Projections

variable {ι N T : Type*}

/-- The node has been the head: it still is, or it has left the chain with
its next field set. -/
def BeenHead (next : N → Option N) (h : N) (rest : List N) (n : N) : Prop :=
  n = h ∨ (n ∉ h :: rest ∧ next n ≠ none)

/-- What a thread knows at a program point. -/
structure Local (s : Queue ι N T) (h : N) (rest : List N) (t : ι) (pc : Pc N T) : Prop where
  newNode : ∀ n, pc.newNode = some n →
    s.life n = .live ∧ s.next n = none ∧ n ∉ h :: rest ∧ s.value n ≠ none
  oldTail : ∀ n, pc.oldTail = some n → s.life n ≠ .free ∧ (n ∈ h :: rest ∨ s.next n ≠ none) ∧
    ∀ tl, s.tail = some tl → s.next tl ≠ some n
  oldHead : ∀ n, pc.oldHead = some n →
    s.protectedPtr t = some n ∧ s.life n ≠ .free ∧ BeenHead s.next h rest n
  passed : ∀ n, pc.passed = some n → s.tail ≠ some n
  popped : ∀ n, pc.popped = some n → s.life n = .live ∧ n ∉ h :: rest ∧ s.next n ≠ none
  hasNext : ∀ n, pc.hasNext = some n → s.next n ≠ none
  link : ∀ n x, pc.link = some (n,x) → s.next n = x ∧ x ≠ none
  successor : ∀ n, pc.successor s.next = some n →
    s.life n ≠ .free ∧ BeenHead s.next h rest n ∧ s.value n ≠ none
  validating : ∀ p, pc.validating = some p → s.protectedPtr t = p
  noFault : pc ≠ .fault

/-- The shared part of the representation: the chain from head written out. -/
structure Shared (s : Queue ι N T) (h : N) (rest : List N) : Prop where
  head : s.head = some h
  path : Path s.next h rest
  tail : ∃ tl ∈ h :: rest, s.tail = some tl ∧ ∀ x, s.next tl = some x → s.next x = none
  live : ∀ n ∈ h :: rest, s.life n = .live
  values : ∀ n ∈ rest, s.value n ≠ none
  retired : ∀ n, s.life n = .retired → s.next n ≠ none

/-- The representation invariant: the chain, the knowledge of each thread, and
no node owned by two threads. -/
structure Sound (s : Queue ι N T) (h : N) (rest : List N) : Prop extends Shared s h rest where
  locals : ∀ t, Local s h rest t (s.pc t)
  newUnique : ∀ t u n, (s.pc t).newNode = some n → (s.pc u).newNode = some n → t = u
  poppedUnique : ∀ t u n, (s.pc t).popped = some n → (s.pc u).popped = some n → t = u
  successorUnique : ∀ t u n, (s.pc t).successor s.next = some n →
    (s.pc u).successor s.next = some n → t = u

section Steps

variable [DecidableEq ι] {s s' : Queue ι N T} {h h' : N} {rest rest' : List N} {t : ι} {q : Pc N T}

/-- Moving a thread changes no field that local knowledge reads. -/
theorem Local.goto {u : ι} {pc : Pc N T} (hl : Local s h rest u pc) :
    Local (s.goto t q) h rest u pc :=
  ⟨hl.newNode,hl.oldTail,hl.oldHead,hl.passed,hl.popped,hl.hasNext,hl.link,hl.successor,
    hl.validating,hl.noFault⟩

/-- The invariant after one step of a thread: the new chain, the knowledge of
the thread at its new program point, the knowledge of the others in the new
memory, and the nodes the thread has come to own. -/
theorem Sound.assemble (hS : Sound s h rest) (hpc : s'.pc = s.pc) (hsh : Shared s' h' rest')
    (hl : Local s' h' rest' t q) (hothers : ∀ u, u ≠ t → Local s' h' rest' u (s.pc u))
    (hnew : ∀ u, u ≠ t → ∀ n, q.newNode = some n → (s.pc u).newNode ≠ some n)
    (hpop : ∀ u, u ≠ t → ∀ n, q.popped = some n → (s.pc u).popped ≠ some n)
    (hsucc : ∀ u, u ≠ t → ∀ n, q.successor s'.next = some n →
      (s.pc u).successor s'.next ≠ some n)
    (hsame : ∀ u, u ≠ t → (s.pc u).successor s'.next = (s.pc u).successor s.next) :
    Sound (s'.goto t q) h' rest' := by
  have hgoto : ∀ u, (s'.goto t q).pc u = if u = t then q else s.pc u := by
    intro u
    rw [←hpc]
    exact Function.update_apply ..
  refine ⟨⟨hsh.head,hsh.path,hsh.tail,hsh.live,hsh.values,hsh.retired⟩,fun u => ?_,?_,?_,?_⟩
  · rw [hgoto]
    split
    next hu =>
      subst hu
      exact hl.goto
    next hu => exact (hothers u hu).goto
  · intro u w n
    rw [hgoto,hgoto]
    have hold := hS.newUnique u w n
    grind
  · intro u w n
    rw [hgoto,hgoto]
    have hold := hS.poppedUnique u w n
    grind
  · intro u w n
    change (Pc.successor s'.next _ = _) → (Pc.successor s'.next _ = _) → _
    rw [hgoto,hgoto]
    have hold := hS.successorUnique u w n
    grind

/-- A step that only moves its thread needs the knowledge of the new program
point, which must claim no node the old one did not own. -/
theorem Sound.move (hS : Sound s h rest) (hl : Local s h rest t q)
    (hnew : ∀ n, q.newNode = some n → (s.pc t).newNode = some n)
    (hpop : ∀ n, q.popped = some n → (s.pc t).popped = some n)
    (hsucc : ∀ n, q.successor s.next = some n → (s.pc t).successor s.next = some n) :
    Sound (s.goto t q) h rest := by
  refine hS.assemble rfl hS.toShared hl (fun u _ => hS.locals u) ?_ ?_ ?_ fun _ _ => rfl
  · exact fun u hu n hq hw => hu (hS.newUnique u t n hw (hnew n hq))
  · exact fun u hu n hq hw => hu (hS.poppedUnique u t n hw (hpop n hq))
  · exact fun u hu n hq hw => hu (hS.successorUnique u t n hw (hsucc n hq))

/-- A thread goes to a program point at which it owns no node. -/
theorem Sound.outside (hS : Sound s h rest) (hl : Local s h rest t q) (hnew : q.newNode = none)
    (hpop : q.popped = none) (hsucc : q.successor s.next = none) : Sound (s.goto t q) h rest := by
  refine hS.move hl ?_ ?_ ?_
  · intro n hn
    rw [hnew] at hn
    cases hn
  · intro n hn
    rw [hpop] at hn
    cases hn
  · intro n hn
    rw [hsucc] at hn
    cases hn

end Steps

section Memory

variable {s : Queue ι N T} {h : N} {rest : List N} {t : ι}

/-- The tail is one of the nodes of the chain and is live. -/
theorem Shared.succ_tail {tl x : N} (hS : Shared s h rest) (htl : s.tail = some tl)
    (hx : s.next tl = some x) : x ∈ rest ∧ s.next x = none := by
  obtain ⟨tl',hmem,htl',hlast⟩ := hS.tail
  rw [htl] at htl'
  cases htl'
  exact ⟨path_succ_mem hS.path hmem hx,hlast x hx⟩

/-- A node that has been the head is not among the later nodes. -/
theorem BeenHead.not_mem {n : N} (hS : Shared s h rest)
    (hb : BeenHead s.next h rest n) : n ∉ rest := by
  rcases hb with rfl | ⟨hn,-⟩
  · exact (List.nodup_cons.mp (path_nodup hS.path)).1
  · exact fun hmem => hn (List.mem_cons_of_mem _ hmem)

variable [DecidableEq N]

/-- Swinging tail to the successor of the node it points to keeps the
invariant: the successor is the last node, and nobody has passed it. -/
theorem Sound.swingTail {old : N} {after : Option N} (hS : Sound s h rest)
    (hlink : s.next old = after) (hne : after ≠ none) (spurious : Bool) :
    Sound (s.swingTail old after spurious) h rest := by
  unfold Queue.swingTail
  split
  next hc =>
    obtain ⟨x,rfl⟩ := Option.ne_none_iff_exists'.mp hne
    obtain ⟨hx,hnull⟩ := hS.succ_tail hc.1 hlink
    have hnn : ∀ y, s.next x ≠ some y := by simp [hnull]
    refine ⟨⟨hS.head,hS.path,⟨x,List.mem_cons_of_mem _ hx,rfl,fun y hy => absurd hy (hnn y)⟩,
      hS.live,hS.values,hS.retired⟩,fun u => ?_,hS.newUnique,hS.poppedUnique,hS.successorUnique⟩
    have hU := hS.locals u
    refine { hU with oldTail := ?oldTail, passed := ?passed }
    case oldTail =>
      intro n hn
      obtain ⟨hlf,hin,-⟩ := hU.oldTail n hn
      refine ⟨hlf,hin,?_⟩
      rintro tl ⟨⟩
      exact hnn n
    case passed =>
      intro n hn he
      cases he
      exact (hU.oldHead x (Pc.passed_oldHead hn)).2.2.not_mem hS.toShared hx
  next => exact hS

omit [DecidableEq N] in
/-- Writing the protected pointer of a thread that relies on none keeps the
invariant. -/
theorem Sound.protect [DecidableEq ι] (hS : Sound s h rest) (hno : (s.pc t).oldHead = none)
    (hnv : (s.pc t).validating = none) (p : Option N) : Sound (s.protect t p) h rest := by
  refine ⟨⟨hS.head,hS.path,hS.tail,hS.live,hS.values,hS.retired⟩,fun u => ?_,hS.newUnique,
    hS.poppedUnique,hS.successorUnique⟩
  have hU := hS.locals u
  refine { hU with oldHead := ?oldHead, validating := ?validating }
  case oldHead =>
    intro n hn
    have hu : u ≠ t := by
      rintro rfl
      have he := hno.symm.trans hn
      cases he
    obtain ⟨hp,hrest⟩ := hU.oldHead n hn
    exact ⟨by simpa [Queue.protect,hu] using hp,hrest⟩
  case validating =>
    intro x hx
    have hu : u ≠ t := by
      rintro rfl
      have he := hnv.symm.trans hx
      cases he
    simpa [Queue.protect,hu] using hU.validating x hx

/-- Deleting a retired node that is neither protected nor held keeps the
invariant. -/
theorem Sound.delete {node : N} (hS : Sound s h rest) (hlife : s.life node = .retired)
    (hprot : ∀ u, s.protectedPtr u ≠ some node) (hun : Unheld s node) :
    Sound { s with life := Function.update s.life node .free } h rest := by
  have hother : ∀ n, s.life n = .live → Function.update s.life node .free n = .live := by
    intro n hn
    rw [Function.update_of_ne,hn]
    rintro rfl
    rw [hlife] at hn
    cases hn
  refine ⟨⟨hS.head,hS.path,hS.tail,fun n hn => hother n (hS.live n hn),hS.values,?_⟩,fun u => ?_,
    hS.newUnique,hS.poppedUnique,hS.successorUnique⟩
  · intro n hn
    simp only [Function.update_apply] at hn
    split at hn
    · cases hn
    · exact hS.retired n hn
  · have hU := hS.locals u
    refine { hU with
      newNode := ?newNode, oldTail := ?oldTail, oldHead := ?oldHead, popped := ?popped,
      successor := ?successor }
    case newNode =>
      intro n hn
      obtain ⟨hl,hrest⟩ := hU.newNode n hn
      exact ⟨hother n hl,hrest⟩
    case oldTail =>
      intro n hn
      have hne : n ≠ node := fun he => (hun u).1 (he ▸ hn)
      simpa [hne] using hU.oldTail n hn
    case oldHead =>
      intro n hn
      obtain ⟨hp,hlf,hb⟩ := hU.oldHead n hn
      have hne : n ≠ node := fun he => hprot u (he ▸ hp)
      exact ⟨hp,by simpa [hne] using hlf,hb⟩
    case popped =>
      intro n hn
      obtain ⟨hl,hrest⟩ := hU.popped n hn
      exact ⟨hother n hl,hrest⟩
    case successor =>
      intro n hn
      have hne : n ≠ node := fun he => (hun u).2 (he ▸ hn)
      simpa [hne] using hU.successor n hn

variable [DecidableEq ι]

/-- Allocation: the new node belongs to its Push alone, and no pointer held
by anybody leads to it. -/
theorem Sound.alloc {node : N} {item : T} (hS : Sound s h rest) (hfree : s.life node = .free) :
    Sound ({ s with
      life := Function.update s.life node .live, next := Function.update s.next node none,
      value := Function.update s.value node (some item) }.goto t (.pushTail node)) h rest := by
  have hout : node ∉ h :: rest := by
    intro hmem
    have he := (hS.live node hmem).symm.trans hfree
    cases he
  have hne : ∀ n, s.life n ≠ .free → n ≠ node := fun n hn he => hn (he ▸ hfree)
  have hlive : ∀ n, s.life n = .live → n ≠ node := fun n hn => hne n (by simp [hn])
  have hchain : ∀ n ∈ h :: rest, n ≠ node := fun n hn he => hout (he ▸ hn)
  have hsucc : ∀ u, (s.pc u).successor (Function.update s.next node none) =
      (s.pc u).successor s.next := by
    intro u
    cases hu : s.pc u with
    | popSuccessor oldHead =>
      have ho := ((hS.locals u).oldHead oldHead (by simp [hu])).2.1
      simp [hne _ ho]
    | _ => simp
  refine hS.assemble rfl ⟨hS.head,path_frame hS.path hout none,?_,?_,?_,?_⟩ ?_ (fun u _ => ?_)
    ?_ (by simp) (by simp) fun u _ => hsucc u
  · obtain ⟨tl,hmem,htl,hlast⟩ := hS.tail
    refine ⟨tl,hmem,htl,fun x hx => ?_⟩
    simp only [Function.update_of_ne (hchain tl hmem)] at hx
    have hxm := path_succ_mem hS.path hmem hx
    simpa [hchain x (List.mem_cons_of_mem _ hxm)] using hlast x hx
  · intro n hn
    simpa [hchain n hn] using hS.live n hn
  · intro n hn
    simpa [hchain n (List.mem_cons_of_mem _ hn)] using hS.values n hn
  · intro n hn
    simp only [Function.update_apply] at hn ⊢
    split at hn
    · cases hn
    · simpa [*] using hS.retired n hn
  · constructor <;> simp_all
  · have hU := hS.locals u
    have hbeen : ∀ n, s.life n ≠ .free → BeenHead s.next h rest n →
        BeenHead (Function.update s.next node none) h rest n := by
      intro n hn hb
      simpa [BeenHead,hne n hn] using hb
    have hheld : ∀ n, (s.pc u).oldTail = some n ∨ (s.pc u).oldHead = some n → n ≠ node := by
      rintro n (hn | hn)
      · exact hne n (hU.oldTail n hn).1
      · exact hne n (hU.oldHead n hn).2.1
    refine { hU with
      newNode := ?newNode, oldTail := ?oldTail, oldHead := ?oldHead, popped := ?popped,
      hasNext := ?hasNext, link := ?link, successor := ?successor }
    case newNode =>
      intro n hn
      simpa [hlive n (hU.newNode n hn).1] using hU.newNode n hn
    case oldTail =>
      intro n hn
      obtain ⟨hl,hin,htl⟩ := hU.oldTail n hn
      refine ⟨by simpa [hne n hl] using hl,by simpa [hne n hl] using hin,fun tl ht => ?_⟩
      obtain ⟨tl',hmem,ht',-⟩ := hS.tail
      have he : tl' = tl := by
        rw [ht'] at ht
        exact Option.some.inj ht
      simpa [hchain tl (he ▸ hmem)] using htl tl ht
    case oldHead =>
      intro n hn
      obtain ⟨hp,hl,hb⟩ := hU.oldHead n hn
      exact ⟨hp,by simpa [hne n hl] using hl,hbeen n hl hb⟩
    case popped =>
      intro n hn
      simpa [hlive n (hU.popped n hn).1] using hU.popped n hn
    case hasNext =>
      intro n hn
      simpa [hheld n (Pc.hasNext_held hn)] using hU.hasNext n hn
    case link =>
      intro n x hn
      simpa [hheld n (Pc.link_held hn)] using hU.link n x hn
    case successor =>
      intro n hn
      obtain ⟨hl,hb,hv⟩ := hU.successor n ((hsucc u).symm.trans hn)
      exact ⟨by simpa [hne n hl] using hl,hbeen n hl hb,by simpa [hne n hl] using hv⟩
  · intro u _ n hq hu
    cases hq
    exact hlive _ ((hS.locals u).newNode _ hu).1 rfl

/-- The link of a Push: a null next is the last of the chain, where tail
points, so the new node becomes the last and tail the second-to-last. -/
theorem Sound.link {new oldTail : N} (hS : Sound s h rest)
    (hpc : s.pc t = .pushLink new oldTail) (hnull : s.next oldTail = none) :
    Sound ({ s with next := Function.update s.next oldTail (some new) }.goto t
      (.pushFinish new oldTail)) h (rest ++ [new]) := by
  have hL := hS.locals t
  rw [hpc] at hL
  obtain ⟨hnlive,hnnull,hnout,hnval⟩ := hL.newNode new rfl
  obtain ⟨holife,hin,hbehind⟩ := hL.oldTail oldTail rfl
  have hmem : oldTail ∈ h :: rest := hin.resolve_right (by simp [hnull])
  have hset : ∀ n, s.next n ≠ none → n ≠ oldTail := fun n hn he => hn (he ▸ hnull)
  have hnne : new ≠ oldTail := fun he => hnout (he ▸ hmem)
  have htail : s.tail = some oldTail := by
    obtain ⟨tl,htm,ht,hlast⟩ := hS.tail
    obtain ⟨front,hfront⟩ := path_last hS.path hmem hnull
    cases hx : s.next tl with
    | none =>
      obtain ⟨front',hfront'⟩ := path_last hS.path htm hx
      have he := (List.append_inj' (hfront.symm.trans hfront') rfl).2
      rw [ht]
      simp_all
    | some x =>
      have hxm := List.mem_cons_of_mem h (path_succ_mem hS.path htm hx)
      obtain ⟨front',hfront'⟩ := path_last hS.path hxm (hlast x hx)
      have he := (List.append_inj' (hfront.symm.trans hfront') rfl).2
      have hbad := hbehind tl ht
      simp_all
  have hsucc : ∀ u, (s.pc u).successor (Function.update s.next oldTail (some new)) =
      (s.pc u).successor s.next := by
    intro u
    cases hu : s.pc u with
    | popSuccessor oldHead =>
      have ho := (hS.locals u).hasNext oldHead (by simp [hu])
      simp [hset _ ho]
    | _ => simp
  refine hS.assemble rfl ⟨hS.head,path_snoc hS.path hmem hnull hnout hnnull,?_,?_,?_,?_⟩ ?_
    (fun u hu => ?_) (by simp) (by simp) (by simp) fun u _ => hsucc u
  · refine ⟨oldTail,by grind,htail,fun x hx => ?_⟩
    simp only [Function.update_self,Option.some.injEq] at hx
    subst hx
    simpa [hnne] using hnnull
  · intro n hn
    have hcase : n ∈ h :: rest ∨ n = new := by grind
    rcases hcase with hc | rfl
    · exact hS.live n hc
    · exact hnlive
  · intro n hn
    rcases List.mem_append.mp hn with hc | hc
    · exact hS.values n hc
    · rw [List.mem_singleton.mp hc]
      exact hnval
  · intro n hn
    simpa [hset n (hS.retired n hn)] using hS.retired n hn
  · constructor <;> simp_all
  · have hU := hS.locals u
    have hout : ∀ n, n ∉ h :: rest → n ≠ new → n ∉ h :: (rest ++ [new]) := by grind
    have hbeen : ∀ n, BeenHead s.next h rest n →
        BeenHead (Function.update s.next oldTail (some new)) h (rest ++ [new]) n := by
      rintro n (rfl | ⟨hn,hset'⟩)
      · exact Or.inl rfl
      · refine Or.inr ⟨hout n hn fun he => hset' (he ▸ hnnull),?_⟩
        simpa [hset n hset'] using hset'
    refine { hU with
      newNode := ?newNode, oldTail := ?oldTail, oldHead := ?oldHead, popped := ?popped,
      hasNext := ?hasNext, link := ?link, successor := ?successor }
    case newNode =>
      intro n hn
      obtain ⟨hl,hn0,hno,hv⟩ := hU.newNode n hn
      have hne : n ≠ new := fun he => hu (hS.newUnique u t new (he ▸ hn) (by simp [hpc]))
      exact ⟨hl,by simpa [show n ≠ oldTail from fun he => hno (he ▸ hmem)] using hn0,
        hout n hno hne,hv⟩
    case oldTail =>
      intro n hn
      obtain ⟨hl,hi,-⟩ := hU.oldTail n hn
      have hne : n ≠ new := by
        rintro rfl
        rcases hi with hi | hi
        · exact hnout hi
        · exact hi hnnull
      refine ⟨hl,?_,fun tl ht => ?_⟩
      · rcases hi with hi | hi
        · exact Or.inl (by grind)
        · exact Or.inr (by simpa [hset n hi] using hi)
      · rw [htail] at ht
        cases ht
        simpa using hne.symm
    case oldHead =>
      intro n hn
      obtain ⟨hp,hl,hb⟩ := hU.oldHead n hn
      exact ⟨hp,hl,hbeen n hb⟩
    case popped =>
      intro n hn
      obtain ⟨hl,hno,hs⟩ := hU.popped n hn
      exact ⟨hl,hout n hno fun he => hs (he ▸ hnnull),by simpa [hset n hs] using hs⟩
    case hasNext =>
      intro n hn
      simpa [hset n (hU.hasNext n hn)] using hU.hasNext n hn
    case link =>
      intro n x hn
      obtain ⟨hx,hxn⟩ := hU.link n x hn
      exact ⟨by simpa [hset n (by simp_all)] using hx,hxn⟩
    case successor =>
      intro n hn
      obtain ⟨hl,hb,hv⟩ := hU.successor n ((hsucc u).symm.trans hn)
      exact ⟨hl,hbeen n hb,hv⟩

omit [DecidableEq N] in
/-- The compare-exchange of head: the old head leaves the chain, which still
contains tail because tail was seen elsewhere. -/
theorem Sound.popHead {oldHead : N} {after : Option N} (hS : Sound s h rest)
    (hpc : s.pc t = .popHead oldHead after) (hhead : s.head = some oldHead) :
    ∃ m rest', rest = m :: rest' ∧ after = some m ∧
      Sound ({ s with head := after }.goto t (.popSuccessor oldHead)) m rest' := by
  have hL := hS.locals t
  rw [hpc] at hL
  have hoh : oldHead = h := Option.some.inj (hhead.symm.trans hS.head)
  subst hoh
  obtain ⟨hlink,hne⟩ := hL.link oldHead after rfl
  obtain ⟨m,rfl⟩ := Option.ne_none_iff_exists'.mp hne
  have hpath := hS.path
  have hnd := path_nodup hpath
  cases rest with
  | nil =>
    have he := hpath.symm.trans hlink
    cases he
  | cons k rest =>
    have he := Option.some.inj (hpath.1.symm.trans hlink)
    subst he
    refine ⟨k,rest,rfl,rfl,?_⟩
    have hout : oldHead ∉ k :: rest := (List.nodup_cons.mp hnd).1
    have hsub : ∀ n, n ∉ oldHead :: k :: rest → n ∉ k :: rest :=
      fun n hn hmem => hn (List.mem_cons_of_mem _ hmem)
    have hbeen : ∀ n, BeenHead s.next oldHead (k :: rest) n → BeenHead s.next k rest n := by
      rintro n (rfl | ⟨hn,hs⟩)
      · exact Or.inr ⟨hout,by simp [hlink]⟩
      · exact Or.inr ⟨hsub n hn,hs⟩
    refine hS.assemble rfl ⟨rfl,hpath.2,?_,fun n hn => hS.live n (List.mem_cons_of_mem _ hn),
      fun n hn => hS.values n (List.mem_cons_of_mem _ hn),hS.retired⟩ ?_ (fun u _ => ?_) (by simp)
      ?_ ?_ fun _ _ => rfl
    · obtain ⟨tl,hmem,ht,hlast⟩ := hS.tail
      refine ⟨tl,?_,ht,hlast⟩
      have hpass := hL.passed oldHead rfl
      rcases List.mem_cons.mp hmem with rfl | hmem'
      · exact absurd ht hpass
      · exact hmem'
    · have hold := hL.oldHead oldHead rfl
      have hlive := hS.live oldHead (by simp)
      have hklive := hS.live k (by simp)
      have hval := hS.values k (by simp)
      constructor <;> simp_all [BeenHead]
    · have hU := hS.locals u
      refine { hU with
        newNode := ?newNode, oldTail := ?oldTail, oldHead := ?oldHead, popped := ?popped,
        successor := ?successor }
      case newNode =>
        intro n hn
        obtain ⟨hl,hn0,hno,hv⟩ := hU.newNode n hn
        exact ⟨hl,hn0,hsub n hno,hv⟩
      case oldTail =>
        intro n hn
        obtain ⟨hl,hi,htl⟩ := hU.oldTail n hn
        refine ⟨hl,?_,htl⟩
        rcases hi with hi | hi
        · rcases List.mem_cons.mp hi with rfl | hi'
          · exact Or.inr (by simp [hlink])
          · exact Or.inl hi'
        · exact Or.inr hi
      case oldHead =>
        intro n hn
        obtain ⟨hp,hl,hb⟩ := hU.oldHead n hn
        exact ⟨hp,hl,hbeen n hb⟩
      case popped =>
        intro n hn
        obtain ⟨hl,hno,hs⟩ := hU.popped n hn
        exact ⟨hl,hsub n hno,hs⟩
      case successor =>
        intro n hn
        obtain ⟨hl,hb,hv⟩ := hU.successor n hn
        exact ⟨hl,hbeen n hb,hv⟩
    · intro u _ n hq hu
      cases hq
      exact ((hS.locals u).popped _ hu).2.1 List.mem_cons_self
    · intro u _ n hq hu
      have hk : n = k := by simpa [hlink] using hq.symm
      subst hk
      exact ((hS.locals u).successor _ hu).2.1.not_mem hS.toShared (by simp)

/-- The move of the value: the node has been the head, so no queued item is
touched, and no other TryPop waits for it. -/
theorem Sound.popValue {oldHead succ : N} {result : T} (hS : Sound s h rest)
    (hpc : s.pc t = .popValue oldHead succ) :
    Sound ({ s with value := Function.update s.value succ none }.goto t
      (.popRelease oldHead result)) h rest := by
  have hL := hS.locals t
  rw [hpc] at hL
  obtain ⟨-,hb,-⟩ := hL.successor succ rfl
  have hpop := hL.popped oldHead rfl
  refine hS.assemble rfl ⟨hS.head,hS.path,hS.tail,hS.live,?_,hS.retired⟩ ?_ (fun u hu => ?_)
    (by simp) ?_ (by simp) fun _ _ => rfl
  · intro n hn
    have hne : n ≠ succ := fun he => hb.not_mem hS.toShared (he ▸ hn)
    simpa [hne] using hS.values n hn
  · constructor <;> simp_all
  · have hU := hS.locals u
    refine { hU with newNode := ?newNode, successor := ?successor }
    case newNode =>
      intro n hn
      obtain ⟨hl,hn0,hno,hv⟩ := hU.newNode n hn
      have hne : n ≠ succ := by
        rintro rfl
        rcases hb with rfl | ⟨-,hs⟩
        · exact hno List.mem_cons_self
        · exact hs hn0
      exact ⟨hl,hn0,hno,by simpa [hne] using hv⟩
    case successor =>
      intro n hn
      have hne : n ≠ succ := by
        rintro rfl
        exact hu (hS.successorUnique u t n hn (by simp [hpc]))
      simpa [hne] using hU.successor n hn
  · intro u hu n hq hw
    exact hu (hS.poppedUnique u t n hw (by simpa [hpc] using hq))

/-- Retire: the node has left the chain for good and nobody else owns it. -/
theorem Sound.popRetire {oldHead : N} {result : T} (hS : Sound s h rest)
    (hpc : s.pc t = .popRetire oldHead result) :
    Sound ({ s with life := Function.update s.life oldHead .retired }.goto t
      (.popDone (some result))) h rest := by
  have hL := hS.locals t
  rw [hpc] at hL
  obtain ⟨-,hout,hset⟩ := hL.popped oldHead rfl
  have hnf : ∀ n, s.life n ≠ .free → Function.update s.life oldHead .retired n ≠ .free := by
    intro n hn
    rw [Function.update_apply]
    split
    · simp
    · exact hn
  refine hS.assemble rfl ⟨hS.head,hS.path,hS.tail,?_,hS.values,?_⟩ ?_ (fun u hu => ?_)
    (by simp) (by simp) (by simp) fun _ _ => rfl
  · intro n hn
    have hne : n ≠ oldHead := fun he => hout (he ▸ hn)
    simpa [hne] using hS.live n hn
  · intro n hn
    by_cases hne : n = oldHead
    · exact hne ▸ hset
    · exact hS.retired n (by simpa [hne] using hn)
  · constructor <;> simp_all
  · have hU := hS.locals u
    refine { hU with
      newNode := ?newNode, oldTail := ?oldTail, oldHead := ?oldHead, popped := ?popped,
      successor := ?successor }
    case newNode =>
      intro n hn
      obtain ⟨hl,hn0,hrest⟩ := hU.newNode n hn
      have hne : n ≠ oldHead := fun he => hset (he ▸ hn0)
      exact ⟨by simpa [hne] using hl,hn0,hrest⟩
    case oldTail =>
      intro n hn
      obtain ⟨hl,hrest⟩ := hU.oldTail n hn
      exact ⟨hnf n hl,hrest⟩
    case oldHead =>
      intro n hn
      obtain ⟨hp,hl,hb⟩ := hU.oldHead n hn
      exact ⟨hp,hnf n hl,hb⟩
    case popped =>
      intro n hn
      obtain ⟨hl,hrest⟩ := hU.popped n hn
      have hne : n ≠ oldHead := by
        rintro rfl
        exact hu (hS.poppedUnique u t n hn (by simp [hpc]))
      exact ⟨by simpa [hne] using hl,hrest⟩
    case successor =>
      intro n hn
      obtain ⟨hl,hrest⟩ := hU.successor n hn
      exact ⟨hnf n hl,hrest⟩

omit [DecidableEq ι] in
/-- A compare-exchange of tail moves no thread. -/
theorem swingTail_pc (s : Queue ι N T) (old : N) (new : Option N) (spurious : Bool) (t : ι) :
    (s.swingTail old new spurious).pc t = s.pc t := by
  unfold Queue.swingTail
  split <;> rfl

/-- How a step of a thread changes the chain: a link appends the new node, a
pop drops the old head, every other step leaves the chain. -/
inductive ChainStep (s : Queue ι N T) (t : ι) (spurious : Bool) (h : N) (rest : List N) :
    N → List N → Prop
  | link (new oldTail : N) (hpc : s.pc t = .pushLink new oldTail) (hnull : s.next oldTail = none)
      (hsp : spurious = false) : ChainStep s t spurious h rest h (rest ++ [new])
  | pop (oldHead m : N) (rest' : List N) (hpc : s.pc t = .popHead oldHead (some m))
      (hhead : s.head = some oldHead) (hsp : spurious = false) (hrest : rest = m :: rest') :
      ChainStep s t spurious h rest m rest'
  | keep (hlink : ∀ new oldTail, s.pc t = .pushLink new oldTail →
        ¬(s.next oldTail = none ∧ spurious = false))
      (hpop : ∀ oldHead after, s.pc t = .popHead oldHead after →
        ¬(s.head = some oldHead ∧ spurious = false)) : ChainStep s t spurious h rest h rest

/-- The invariant after a step of a thread, with what the step does to the chain. -/
def Kept (s : Queue ι N T) (t : ι) (spurious : Bool) (h : N) (rest : List N)
    (s' : Queue ι N T) : Prop :=
  ∃ h' rest', Sound s' h' rest' ∧ ChainStep s t spurious h rest h' rest'

section Points

variable {s' : Queue ι N T} {spurious : Bool} {new oldTail oldHead succ : N}
  {after before : Option N}
  {result : T}

omit [DecidableEq N] in
/-- A step that only moves its thread and is neither a link nor a pop keeps
the chain. -/
theorem Sound.keep {q : Pc N T} (hS : Sound s h rest) (hl : Local s h rest t q)
    (hnew : ∀ n, q.newNode = some n → (s.pc t).newNode = some n)
    (hpop : ∀ n, q.popped = some n → (s.pc t).popped = some n)
    (hsucc : ∀ n, q.successor s.next = some n → (s.pc t).successor s.next = some n)
    (hk : ChainStep s t spurious h rest h rest) : Kept s t spurious h rest (s.goto t q) :=
  ⟨h,rest,hS.move hl hnew hpop hsucc,hk⟩

omit [DecidableEq N] in
/-- So does a step to a program point that owns no node. -/
theorem Sound.leave {q : Pc N T} (hS : Sound s h rest) (hk : ChainStep s t spurious h rest h rest)
    (hl : Local s h rest t q) (hnew : q.newNode = none) (hpop : q.popped = none)
    (hsucc : q.successor s.next = none) : Kept s t spurious h rest (s.goto t q) :=
  hS.keep hl (by rw [hnew]; simp) (by rw [hpop]; simp) (by rw [hsucc]; simp) hk

/-- Push loads tail. -/
theorem Sound.pushTailStep (hS : Sound s h rest) (hpc : s.pc t = .pushTail new)
    (hs : threadStep s t spurious = some s') : Kept s t spurious h rest s' := by
  have hL := hS.locals t
  obtain ⟨tl,htm,ht,hlast⟩ := hS.tail
  simp only [threadStep,hpc,ht] at hs
  rw [hpc] at hL
  cases hs
  have hself : s.next tl ≠ some tl := fun he => by simp [hlast tl he] at he
  refine hS.keep ?_ ?_ ?_ ?_ (.keep ?_ ?_)
  · constructor
    case newNode => exact hL.newNode
    case oldTail =>
      rintro n ⟨⟩
      refine ⟨by simp [hS.live tl htm],Or.inl htm,fun tl' ht' => ?_⟩
      have he : tl = tl' := Option.some.inj (ht.symm.trans ht')
      exact he ▸ hself
    all_goals simp
  all_goals simp [hpc]

/-- Push loads the node behind its old tail: it helps when there is one, and tries
to link when there is none. -/
theorem Sound.pushNextStep (hS : Sound s h rest) (hpc : s.pc t = .pushNext new oldTail)
    (hs : threadStep s t spurious = some s') : Kept s t spurious h rest s' := by
  have hL := hS.locals t
  simp only [threadStep,hpc] at hs
  rw [hpc] at hL
  split at hs <;> cases hs
  next x hx =>
    refine hS.keep ?_ ?_ ?_ ?_ (.keep ?_ ?_)
    · constructor
      case newNode => exact hL.newNode
      case oldTail => exact hL.oldTail
      case hasNext =>
        rintro n ⟨⟩
        simp [hx]
      all_goals simp
    all_goals simp [hpc]
  next =>
    refine hS.keep ?_ ?_ ?_ ?_ (.keep ?_ ?_)
    · constructor
      case newNode => exact hL.newNode
      case oldTail => exact hL.oldTail
      all_goals simp
    all_goals simp [hpc]

/-- A Push that helps loads the node behind its old tail again. -/
theorem Sound.pushHelpStep (hS : Sound s h rest) (hpc : s.pc t = .pushHelp new oldTail)
    (hs : threadStep s t spurious = some s') : Kept s t spurious h rest s' := by
  have hL := hS.locals t
  simp only [threadStep,hpc] at hs
  rw [hpc] at hL
  cases hs
  refine hS.keep ?_ ?_ ?_ ?_ (.keep ?_ ?_)
  · constructor
    case newNode => exact hL.newNode
    case oldTail => exact hL.oldTail
    case link =>
      rintro n x ⟨⟩
      exact ⟨rfl,hL.hasNext oldTail rfl⟩
    all_goals simp
  all_goals simp [hpc]

/-- A Push that helps swings tail. -/
theorem Sound.pushSwingStep (hS : Sound s h rest) (hpc : s.pc t = .pushSwing new oldTail after)
    (hs : threadStep s t spurious = some s') : Kept s t spurious h rest s' := by
  have hL := hS.locals t
  simp only [threadStep,hpc] at hs
  rw [hpc] at hL
  cases hs
  obtain ⟨hlink,hne⟩ := hL.link oldTail after rfl
  have hS' := hS.swingTail hlink hne spurious
  have hpc' := (swingTail_pc s oldTail after spurious t).trans hpc
  have hL' := hS'.locals t
  rw [hpc'] at hL'
  refine ⟨h,rest,hS'.move ?_ ?_ ?_ ?_,.keep ?_ ?_⟩
  · constructor
    case newNode => exact hL'.newNode
    all_goals simp
  all_goals simp [hpc,hpc']

/-- The compare-exchange of the next field of the old tail. -/
theorem Sound.pushLinkStep (hS : Sound s h rest) (hpc : s.pc t = .pushLink new oldTail)
    (hs : threadStep s t spurious = some s') : Kept s t spurious h rest s' := by
  have hL := hS.locals t
  simp only [threadStep,hpc] at hs
  rw [hpc] at hL
  split at hs <;> cases hs
  next hc => exact ⟨h,rest ++ [new],hS.link hpc hc.1,.link new oldTail hpc hc.1 hc.2⟩
  next hc =>
    refine hS.keep ?_ (by simp [hpc]) (by simp) (by simp) (.keep ?_ (by simp [hpc]))
    · constructor
      case newNode => exact hL.newNode
      all_goals simp
    · intro new' oldTail' hpc'
      rw [hpc] at hpc'
      cases hpc'
      exact hc

/-- A Push swings tail to its own node. -/
theorem Sound.pushFinishStep (hS : Sound s h rest) (hpc : s.pc t = .pushFinish new oldTail)
    (hs : threadStep s t spurious = some s') : Kept s t spurious h rest s' := by
  have hL := hS.locals t
  simp only [threadStep,hpc] at hs
  rw [hpc] at hL
  cases hs
  obtain ⟨hlink,hne⟩ := hL.link oldTail _ rfl
  have hS' := hS.swingTail hlink hne false
  refine ⟨h,rest,hS'.outside (by constructor <;> simp) rfl rfl rfl,.keep ?_ ?_⟩
  all_goals simp [hpc]

/-- TryPop loads head to protect it. -/
theorem Sound.popLoadStep (hS : Sound s h rest) (hpc : s.pc t = .popLoad)
    (hs : threadStep s t spurious = some s') : Kept s t spurious h rest s' := by
  simp only [threadStep,hpc] at hs
  cases hs
  exact hS.leave (.keep (by simp [hpc]) (by simp [hpc])) (by constructor <;> simp) rfl rfl rfl

/-- Acquire stores the pointer that it has loaded. -/
theorem Sound.popProtectStep (hS : Sound s h rest) (hpc : s.pc t = .popProtect before)
    (hs : threadStep s t spurious = some s') : Kept s t spurious h rest s' := by
  simp only [threadStep,hpc] at hs
  cases hs
  have hS' := hS.protect (t := t) (by simp [hpc]) (by simp [hpc]) before
  refine ⟨h,rest,hS'.move ?_ ?_ ?_ ?_,.keep ?_ ?_⟩
  · constructor
    case validating =>
      rintro p ⟨⟩
      exact Function.update_self ..
    all_goals simp
  all_goals simp [hpc]

/-- Acquire loads head again: what it has stored protects the head when head has
not changed. -/
theorem Sound.popValidateStep (hS : Sound s h rest) (hpc : s.pc t = .popValidate before)
    (hs : threadStep s t spurious = some s') : Kept s t spurious h rest s' := by
  have hL := hS.locals t
  simp only [threadStep,hpc,hS.head] at hs
  rw [hpc] at hL
  have hk : ChainStep s t spurious h rest h rest := .keep (by simp [hpc]) (by simp [hpc])
  split at hs
  next hb =>
    subst hb
    cases hs
    refine hS.leave hk ?_ rfl rfl rfl
    constructor
    case oldHead =>
      rintro n ⟨⟩
      exact ⟨hL.validating _ rfl,by simp [hS.live h List.mem_cons_self],Or.inl rfl⟩
    all_goals simp
  next =>
    cases hs
    exact hS.leave hk (by constructor <;> simp) rfl rfl rfl

/-- TryPop loads the node behind its old head: the queue is empty when there is
none. -/
theorem Sound.popNextStep (hS : Sound s h rest) (hpc : s.pc t = .popNext oldHead)
    (hs : threadStep s t spurious = some s') : Kept s t spurious h rest s' := by
  have hL := hS.locals t
  simp only [threadStep,hpc] at hs
  rw [hpc] at hL
  have hk : ChainStep s t spurious h rest h rest := .keep (by simp [hpc]) (by simp [hpc])
  split at hs <;> cases hs
  next => exact hS.leave hk (by constructor <;> simp) rfl rfl rfl
  next x hx =>
    refine hS.leave hk ?_ rfl rfl rfl
    constructor
    case oldHead => exact hL.oldHead
    case hasNext =>
      rintro n ⟨⟩
      simp [hx]
    all_goals simp

/-- A TryPop of an empty queue gives up its protection. -/
theorem Sound.popReleaseEmptyStep (hS : Sound s h rest) (hpc : s.pc t = .popReleaseEmpty)
    (hs : threadStep s t spurious = some s') : Kept s t spurious h rest s' := by
  simp only [threadStep,hpc] at hs
  cases hs
  have hS' := hS.protect (t := t) (by simp [hpc]) (by simp [hpc]) none
  refine ⟨h,rest,hS'.outside (by constructor <;> simp) rfl rfl rfl,.keep ?_ ?_⟩
  all_goals simp [hpc]

/-- TryPop compares tail with its old head. -/
theorem Sound.popTailStep (hS : Sound s h rest) (hpc : s.pc t = .popTail oldHead)
    (hs : threadStep s t spurious = some s') : Kept s t spurious h rest s' := by
  have hL := hS.locals t
  simp only [threadStep,hpc] at hs
  rw [hpc] at hL
  have hk : ChainStep s t spurious h rest h rest := .keep (by simp [hpc]) (by simp [hpc])
  split at hs <;> cases hs
  next =>
    refine hS.leave hk ?_ rfl rfl rfl
    constructor
    case oldHead => exact hL.oldHead
    case hasNext => exact hL.hasNext
    all_goals simp
  next htail =>
    refine hS.leave hk ?_ rfl rfl rfl
    constructor
    case oldHead => exact hL.oldHead
    case passed =>
      rintro n ⟨⟩
      exact htail
    case hasNext => exact hL.hasNext
    all_goals simp

/-- A TryPop that found tail behind loads the node behind its old head again. -/
theorem Sound.popHelpStep (hS : Sound s h rest) (hpc : s.pc t = .popHelp oldHead)
    (hs : threadStep s t spurious = some s') : Kept s t spurious h rest s' := by
  have hL := hS.locals t
  simp only [threadStep,hpc] at hs
  rw [hpc] at hL
  cases hs
  refine hS.leave (.keep (by simp [hpc]) (by simp [hpc])) ?_ rfl rfl rfl
  constructor
  case oldHead => exact hL.oldHead
  case link =>
    rintro n x ⟨⟩
    exact ⟨rfl,hL.hasNext oldHead rfl⟩
  all_goals simp

/-- A TryPop that found tail behind swings it. -/
theorem Sound.popSwingStep (hS : Sound s h rest) (hpc : s.pc t = .popSwing oldHead after)
    (hs : threadStep s t spurious = some s') : Kept s t spurious h rest s' := by
  have hL := hS.locals t
  simp only [threadStep,hpc] at hs
  rw [hpc] at hL
  cases hs
  obtain ⟨hlink,hne⟩ := hL.link oldHead after rfl
  have hS' := hS.swingTail hlink hne spurious
  refine ⟨h,rest,hS'.outside (by constructor <;> simp) rfl rfl rfl,.keep ?_ ?_⟩
  all_goals simp [hpc]

/-- TryPop loads the new head. -/
theorem Sound.popHeadNextStep (hS : Sound s h rest) (hpc : s.pc t = .popHeadNext oldHead)
    (hs : threadStep s t spurious = some s') : Kept s t spurious h rest s' := by
  have hL := hS.locals t
  simp only [threadStep,hpc] at hs
  rw [hpc] at hL
  cases hs
  refine hS.leave (.keep (by simp [hpc]) (by simp [hpc])) ?_ rfl rfl rfl
  constructor
  case oldHead => exact hL.oldHead
  case passed => exact hL.passed
  case link =>
    rintro n x ⟨⟩
    exact ⟨rfl,hL.hasNext oldHead rfl⟩
  all_goals simp

/-- The compare-exchange of head. -/
theorem Sound.popHeadStep (hS : Sound s h rest) (hpc : s.pc t = .popHead oldHead after)
    (hs : threadStep s t spurious = some s') : Kept s t spurious h rest s' := by
  simp only [threadStep,hpc] at hs
  split at hs <;> cases hs
  next hc =>
    obtain ⟨m,rest',hrest,rfl,hS'⟩ := hS.popHead hpc hc.1
    exact ⟨m,rest',hS',.pop oldHead m rest' hpc hc.1 hc.2 hrest⟩
  next hc =>
    refine hS.leave (.keep (by simp [hpc]) ?_) (by constructor <;> simp) rfl rfl rfl
    intro oldHead' after' hpc'
    rw [hpc] at hpc'
    cases hpc'
    exact hc

/-- TryPop finds the node whose value it takes. -/
theorem Sound.popSuccessorStep (hS : Sound s h rest) (hpc : s.pc t = .popSuccessor oldHead)
    (hs : threadStep s t spurious = some s') : Kept s t spurious h rest s' := by
  have hL := hS.locals t
  rw [hpc] at hL
  obtain ⟨x,hx⟩ := Option.ne_none_iff_exists'.mp (hL.hasNext oldHead rfl)
  simp only [threadStep,hpc,hx] at hs
  cases hs
  refine hS.keep ?_ ?_ ?_ ?_ (.keep ?_ ?_)
  · constructor
    case oldHead => exact hL.oldHead
    case popped => exact hL.popped
    case link =>
      rintro n y ⟨⟩
      exact ⟨hx,by simp⟩
    case successor =>
      rintro n ⟨⟩
      exact hL.successor _ hx
    all_goals simp
  all_goals simp [hpc,hx]

/-- TryPop moves the value out. -/
theorem Sound.popValueStep (hS : Sound s h rest) (hpc : s.pc t = .popValue oldHead succ)
    (hs : threadStep s t spurious = some s') : Kept s t spurious h rest s' := by
  have hL := hS.locals t
  rw [hpc] at hL
  obtain ⟨v,hv⟩ := Option.ne_none_iff_exists'.mp (hL.successor succ rfl).2.2
  simp only [threadStep,hpc,hv] at hs
  cases hs
  exact ⟨h,rest,hS.popValue hpc,.keep (by simp [hpc]) (by simp [hpc])⟩

/-- TryPop gives up its protection. -/
theorem Sound.popReleaseStep (hS : Sound s h rest) (hpc : s.pc t = .popRelease oldHead result)
    (hs : threadStep s t spurious = some s') : Kept s t spurious h rest s' := by
  have hL := hS.locals t
  simp only [threadStep,hpc] at hs
  rw [hpc] at hL
  cases hs
  have hS' := hS.protect (t := t) (by simp [hpc]) (by simp [hpc]) none
  refine ⟨h,rest,hS'.move ?_ (by simp) ?_ (by simp),.keep (by simp [hpc]) (by simp [hpc])⟩
  · constructor
    case popped => exact hL.popped
    all_goals simp
  · intro n hn
    change (s.pc t).popped = some n
    rw [hpc]
    exact hn

/-- TryPop retires the old head. -/
theorem Sound.popRetireStep (hS : Sound s h rest) (hpc : s.pc t = .popRetire oldHead result)
    (hs : threadStep s t spurious = some s') : Kept s t spurious h rest s' := by
  simp only [threadStep,hpc] at hs
  cases hs
  exact ⟨h,rest,hS.popRetire hpc,.keep (by simp [hpc]) (by simp [hpc])⟩

/-- A call returns. -/
theorem Sound.returnStep (hS : Sound s h rest)
    (hpc : s.pc t = .pushDone ∨ ∃ result, s.pc t = .popDone result)
    (hs : threadStep s t spurious = some s') : Kept s t spurious h rest s' := by
  have hk : ChainStep s t spurious h rest h rest := by
    rcases hpc with hpc | ⟨result,hpc⟩ <;> exact .keep (by simp [hpc]) (by simp [hpc])
  have hidle : s' = s.goto t .idle := by
    rcases hpc with hpc | ⟨result,hpc⟩ <;>
    · simp only [threadStep,hpc] at hs
      exact (Option.some.inj hs).symm
  rw [hidle]
  exact hS.leave hk (by constructor <;> simp) rfl rfl rfl

end Points

/-- Every step of a thread keeps the representation invariant. -/
theorem sound_threadStep {s' : Queue ι N T} {spurious : Bool} (hS : Sound s h rest)
    (hs : threadStep s t spurious = some s') :
    ∃ h' rest', Sound s' h' rest' ∧ ChainStep s t spurious h rest h' rest' := by
  cases hpc : s.pc t with
  | idle | pushNew | fault => simp [threadStep,hpc] at hs
  | pushTail new => exact hS.pushTailStep hpc hs
  | pushNext new oldTail => exact hS.pushNextStep hpc hs
  | pushHelp new oldTail => exact hS.pushHelpStep hpc hs
  | pushSwing new oldTail after => exact hS.pushSwingStep hpc hs
  | pushLink new oldTail => exact hS.pushLinkStep hpc hs
  | pushFinish new oldTail => exact hS.pushFinishStep hpc hs
  | pushDone => exact hS.returnStep (Or.inl hpc) hs
  | popLoad => exact hS.popLoadStep hpc hs
  | popProtect before => exact hS.popProtectStep hpc hs
  | popValidate before => exact hS.popValidateStep hpc hs
  | popNext oldHead => exact hS.popNextStep hpc hs
  | popReleaseEmpty => exact hS.popReleaseEmptyStep hpc hs
  | popTail oldHead => exact hS.popTailStep hpc hs
  | popHelp oldHead => exact hS.popHelpStep hpc hs
  | popSwing oldHead after => exact hS.popSwingStep hpc hs
  | popHeadNext oldHead => exact hS.popHeadNextStep hpc hs
  | popHead oldHead after => exact hS.popHeadStep hpc hs
  | popSuccessor oldHead => exact hS.popSuccessorStep hpc hs
  | popValue oldHead succ => exact hS.popValueStep hpc hs
  | popRelease oldHead result => exact hS.popReleaseStep hpc hs
  | popRetire oldHead result => exact hS.popRetireStep hpc hs
  | popDone result => exact hS.returnStep (Or.inr ⟨result,hpc⟩) hs

omit [DecidableEq ι] in
/-- A new queue is the chain of its dummy node. -/
theorem sound_initial (dummy : N) : Sound (initial ι T dummy) dummy [] where
  head := rfl
  path := rfl
  tail := ⟨dummy,List.mem_cons_self,rfl,by rintro _ ⟨⟩⟩
  live n hn := by
    rw [List.mem_singleton.mp hn]
    simp [initial]
  values := by rintro _ ⟨⟩
  retired n hn := by
    simp only [initial,Function.update_apply] at hn
    split at hn <;> cases hn
  locals _ := by
    constructor
    case link => rintro _ _ ⟨⟩
    case noFault => rintro ⟨⟩
    all_goals rintro _ ⟨⟩
  newUnique := by rintro _ _ _ ⟨⟩
  poppedUnique := by rintro _ _ _ ⟨⟩
  successorUnique := by rintro _ _ _ ⟨⟩

/-- Calls, allocations and sheltered deletions keep the chain. -/
theorem sound_step {s' : Queue ι N T} {a : Action ι N T} (hS : Sound s h rest)
    (ha : Sheltered s a) (hs : step s a = some s') : ∃ h' rest', Sound s' h' rest' := by
  cases a with
  | push t item =>
    simp only [step] at hs
    split at hs <;> cases hs
    exact ⟨h,rest,hS.outside (by constructor <;> simp) rfl rfl rfl⟩
  | pop t =>
    simp only [step] at hs
    split at hs <;> cases hs
    exact ⟨h,rest,hS.outside (by constructor <;> simp) rfl rfl rfl⟩
  | alloc t node =>
    simp only [step] at hs
    split at hs
    next item hpc =>
      split at hs <;> cases hs
      next hfree => exact ⟨h,rest,hS.alloc hfree⟩
    next => cases hs
  | step t spurious =>
    obtain ⟨h',rest',hS',-⟩ := sound_threadStep hS hs
    exact ⟨h',rest',hS'⟩
  | delete node =>
    simp only [step] at hs
    split at hs <;> cases hs
    next hlife => exact ⟨h,rest,hS.delete hlife ha.1 ha.2⟩

end Memory

/-- Every queue reached under sheltered reclamation satisfies the
representation invariant. -/
theorem sound_reachable [DecidableEq ι] [DecidableEq N] {dummy : N} {s : Queue ι N T}
    (hr : (queue ι T dummy).ReachableUnder Sheltered s) : ∃ h rest, Sound s h rest := by
  refine hr.invariant ⟨dummy,[],sound_initial dummy⟩ ?_
  rintro s a s' - ⟨h,rest,hS⟩ ha hs
  exact sound_step hS ha hs

end ConcurrencyRuntime.SimpleMSQueue
