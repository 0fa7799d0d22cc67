import ConcurrencyRuntime.HazardManager
import ConcurrencyRuntime.LinkedStacks

/-!
# Where the retired pointers of the hazard manager are

The retired lists are linked stacks: Retire pushes, CheckToDelete takes a
whole list, frees the candidates that it deletes and puts the others back.
Along every run each allocated RetirePtr is in exactly one place, and the
steps move it from place to place as recorded here.
-/

namespace ConcurrencyRuntime.HazardManager

open TransitionSystem LinkedStacks

/-- The RetirePtr that a Retire allocated and did not push yet. -/
@[grind =]
def Pc.pending {L V N : Type*} : Pc L V N → Option N
  | .retireCas retire => some retire
  | _ => none

/-- The candidate that CheckToDelete is putting back. -/
@[grind =]
def CollectorPc.kept {τ V N : Type*} : CollectorPc τ V N → Option N
  | .putLoad _ _ candidate _ | .putCas _ _ candidate _ => some candidate
  | _ => none

/-- The next candidate of CheckToDelete. -/
@[grind =]
def CollectorPc.candidates {τ V N : Type*} : CollectorPc τ V N → Option N
  | .walk _ _ candidate => candidate
  | .putLoad _ _ _ next | .putCas _ _ _ next | .putCount _ _ next => next
  | _ => none

/-- The retired lists with what the threads and the collector hold. -/
def Manager.heap {τ L V N : Type*} (s : Manager τ L V N) : Heap τ N where
  stack := s.retiredPtrs
  next := s.next
  allocated := Option.isSome ∘ s.value
  pending := Pc.pending ∘ s.pc
  hand := s.collector.kept
  taken := s.collector.candidates

variable {τ L V N : Type*} [DecidableEq τ] [DecidableEq L] [DecidableEq V] [DecidableEq N]

/-- How a step of the collector moves the nodes. -/
def trackCollector (s : Manager τ L V N) (place : N → Option (Place τ)) (spurious : Bool) :
    N → Option (Place τ) :=
  match s.collector with
  | .exchange ⟨_,i :: _,_⟩ => fun n => if place n = some (.stack i) then some .taken else place n
  | .walk pass _ (some candidate) =>
    match s.value candidate with
    | some v => Function.update place candidate (if v ∈ pass.found then some .hand else none)
    | none => place
  | .putCas _ i candidate _ =>
    if s.retiredPtrs i = s.next candidate ∧ spurious = false then
      Function.update place candidate (some (.stack i))
    else place
  | _ => place

/-- How a step moves the nodes. -/
def track (s : Manager τ L V N) (place : N → Option (Place τ)) :
    Action τ L V N → N → Option (Place τ)
  | .alloc t node => Function.update place node (some (.pending t))
  | .step t spurious =>
    match s.pc t with
    | .retireCas retire =>
      if s.retiredPtrs t = s.next retire ∧ spurious = false then
        Function.update place retire (some (.stack t))
      else place
    | _ => place
  | .collect spurious => trackCollector s place spurious
  | _ => place

section Steps

variable {s s' : Manager τ L V N} {t : τ} {q : Pc L V N} {place : N → Option (Place τ)}

omit [DecidableEq L] [DecidableEq V] [DecidableEq N] in
/-- A thread that keeps what it has pending moves no node. -/
theorem custody_thread (h : Custody s.heap place) (hlists : s'.retiredPtrs = s.retiredPtrs)
    (hnext : s'.next = s.next) (hvalue : s'.value = s.value)
    (hcollector : s'.collector = s.collector)
    (hpc : s'.pc = Function.update s.pc t q) (hq : q.pending = (s.pc t).pending) :
    Custody s'.heap place := by
  have hheap : s'.heap = s.heap := by
    simp only [Manager.heap,hlists,hnext,hvalue,hcollector,hpc,Function.comp_update,hq]
    congr
    exact Function.update_eq_self t (Pc.pending ∘ s.pc)
  rwa [hheap]

omit [DecidableEq τ] [DecidableEq L] [DecidableEq V] [DecidableEq N] in
/-- Steps of the collector outside of CheckToDelete move no node. -/
theorem custody_collector (h : Custody s.heap place) (hlists : s'.retiredPtrs = s.retiredPtrs)
    (hnext : s'.next = s.next) (hvalue : s'.value = s.value) (hpc : s'.pc = s.pc)
    (hkept : s'.collector.kept = s.collector.kept)
    (hcandidates : s'.collector.candidates = s.collector.candidates) : Custody s'.heap place := by
  have hheap : s'.heap = s.heap := by
    simp only [Manager.heap,hlists,hnext,hvalue,hpc,hkept,hcandidates]
  rwa [hheap]

omit [DecidableEq L] in
/-- The steps of a thread. -/
theorem custody_threadStep {spurious : Bool} (h : Custody s.heap place)
    (hs : threadStep s t spurious = some s') :
    Custody s'.heap (track s place (.step t spurious)) := by
  simp only [track]
  cases hpc : s.pc t with
  | absent | idle | retireNew v => simp [threadStep,hpc] at hs
  | makeAssert | makeInsert | register =>
    simp only [threadStep,hpc] at hs
    split at hs <;> cases hs
    exact custody_thread h rfl rfl rfl rfl rfl (by rw [hpc]; rfl)
  | makeCount | acquireLoad ptr | acquireStore ptr before | releaseStore | retireCount
  | destroyStore =>
    simp only [threadStep,hpc,Option.some.injEq] at hs
    subst hs
    exact custody_thread h rfl rfl rfl rfl rfl (by rw [hpc]; rfl)
  | acquireCheck ptr before =>
    simp only [threadStep,hpc] at hs
    split at hs <;> cases hs
    · exact custody_thread h rfl rfl rfl rfl rfl (by rw [hpc]; rfl)
    · exact custody_thread h rfl rfl rfl rfl rfl (by rw [hpc]; rfl)
  | destroyCount =>
    simp only [threadStep,hpc] at hs
    split at hs <;> cases hs
    exact custody_thread h rfl rfl rfl rfl rfl (by rw [hpc]; rfl)
  | retireCas retire =>
    have hpending : s.heap.pending t = some retire := by simp [Manager.heap,hpc,Pc.pending]
    have hplace := h.pending_place hpending
    simp only [threadStep,hpc] at hs
    split at hs <;> cases hs
    next hcas =>
      simp only [hcas,and_self,if_true]
      have h' := h.push hpending hcas.1
      simp only [Manager.heap,Manager.goto,Function.comp_update]
      exact h'
    next hcas =>
      simp only [hcas,if_false]
      exact h.relink (by simp [hplace]) (by simp [hplace]) (s.retiredPtrs t)

omit [DecidableEq L] in
/-- The steps of CheckToDelete. -/
theorem custody_checkToDelete {spurious : Bool} (h : Custody s.heap place)
    (hs : checkToDelete s spurious = some s') :
    Custody s'.heap (trackCollector s place spurious) := by
  cases hc : s.collector with
  | exchange pass =>
    obtain ⟨caller,todo,found⟩ := pass
    have htaken : s.heap.taken = none := by simp [Manager.heap,hc,CollectorPc.candidates]
    simp only [trackCollector,hc]
    simp only [checkToDelete,hc] at hs
    cases todo with
    | cons i rest =>
      cases hs
      have h' := h.take htaken i
      simp only [Manager.heap,hc] at h'
      exact h'
    | nil =>
      cases caller <;> cases hs
      · exact custody_collector h rfl rfl rfl rfl (by rw [hc]; rfl) (by rw [hc]; rfl)
      · exact custody_collector h rfl rfl rfl rfl (by rw [hc]; rfl) (by rw [hc]; rfl)
  | walk pass i candidate =>
    simp only [trackCollector,hc]
    simp only [checkToDelete,hc] at hs
    cases candidate with
    | none =>
      simp only at hs
      split at hs <;> cases hs
      · exact custody_collector h rfl rfl rfl rfl (by rw [hc]; rfl) (by rw [hc]; rfl)
      · exact custody_collector h rfl rfl rfl rfl (by rw [hc]; rfl) (by rw [hc]; rfl)
    | some candidate =>
      have htaken : s.heap.taken = some candidate := by
        simp [Manager.heap,hc,CollectorPc.candidates]
      have hhand : s.heap.hand = none := by simp [Manager.heap,hc,CollectorPc.kept]
      have halloc : s.heap.allocated candidate = true :=
        h.allocated_iff.mpr (by simp [h.taken_place htaken])
      cases hv : s.value candidate with
      | none => simp [Manager.heap,hv] at halloc
      | some v =>
        simp only [hv] at hs ⊢
        split at hs <;> cases hs
        next hfound =>
          have h' := h.grasp htaken hhand
          simp only [hfound,if_true]
          exact h'
        next hfound =>
          have h' := h.free htaken
          simp only [Manager.heap,hc] at h'
          simp only [hfound,if_false,Manager.heap,Manager.moveCollector,Function.comp_update]
          exact h'
  | putLoad pass i candidate next =>
    have hhand : s.heap.hand = some candidate := by simp [Manager.heap,hc,CollectorPc.kept]
    have hplace := h.hand_place hhand
    simp only [trackCollector,hc]
    simp only [checkToDelete,hc] at hs
    cases hs
    have hstack : ∀ j, place candidate ≠ some (.stack j) := by simp [hplace]
    have h' := h.relink hstack (by simp [hplace]) (s.retiredPtrs i)
    simp only [Manager.heap,hc] at h'
    exact h'
  | putCas pass i candidate next =>
    have hhand : s.heap.hand = some candidate := by simp [Manager.heap,hc,CollectorPc.kept]
    have hplace := h.hand_place hhand
    simp only [trackCollector,hc]
    simp only [checkToDelete,hc] at hs
    split at hs <;> cases hs
    next hcas =>
      simp only [hcas,and_self,if_true]
      have h' := h.putBack hhand hcas.1
      simp only [Manager.heap,hc] at h'
      exact h'
    next hcas =>
      simp only [hcas,if_false]
      exact h.relink (by simp [hplace]) (by simp [hplace]) (s.retiredPtrs i)
  | putCount pass i next =>
    simp only [trackCollector,hc]
    simp only [checkToDelete,hc] at hs
    cases hs
    exact custody_collector h rfl rfl rfl rfl (by rw [hc]; rfl) (by rw [hc]; rfl)
  | _ => simp [checkToDelete,hc] at hs

omit [DecidableEq L] in
/-- The steps of the collector. -/
theorem custody_collectorStep {spurious : Bool} (h : Custody s.heap place)
    (hs : collectorStep s spurious = some s') :
    Custody s'.heap (trackCollector s place spurious) := by
  cases hc : s.collector with
  | exchange pass | walk pass i candidate | putLoad pass i candidate next
  | putCas pass i candidate next | putCount pass i next =>
    simp only [collectorStep,hc] at hs
    exact custody_checkToDelete h hs
  | lock | returned | destroyed | fault => simp [collectorStep,hc] at hs
  | guardCancel | guardCount | sleepCount | sleepCancel =>
    simp only [trackCollector,hc]
    simp only [collectorStep,hc,Option.some.injEq] at hs
    subst hs
    refine custody_collector h rfl rfl rfl rfl ?_ ?_ <;>
      simp only [Manager.moveCollector,hc] <;> split <;> rfl
  | reset | sleep =>
    simp only [trackCollector,hc]
    simp only [collectorStep,hc,Option.some.injEq] at hs
    subst hs
    exact custody_collector h rfl rfl rfl rfl (by rw [hc]; rfl) (by rw [hc]; rfl)
  | scan order todo found =>
    simp only [trackCollector,hc]
    cases todo <;> simp only [collectorStep,hc,Option.some.injEq] at hs <;> subst hs
    · exact custody_collector h rfl rfl rfl rfl (by rw [hc]; rfl) (by rw [hc]; rfl)
    · exact custody_collector h rfl rfl rfl rfl (by rw [hc]; rfl) (by rw [hc]; rfl)
  | assertProtected pass =>
    simp only [trackCollector,hc]
    simp only [collectorStep,hc] at hs
    split at hs
    · split at hs <;> cases hs
      exact custody_collector h rfl rfl rfl rfl (by rw [hc]; rfl) (by rw [hc]; rfl)
    · cases hs
      exact custody_collector h rfl rfl rfl rfl (by rw [hc]; rfl) (by rw [hc]; rfl)
  | assertRetired pass i | clear =>
    simp only [trackCollector,hc]
    simp only [collectorStep,hc] at hs
    split at hs <;> cases hs
    exact custody_collector h rfl rfl rfl rfl (by rw [hc]; rfl) (by rw [hc]; rfl)

/-- The call of a function of the mutator moves no node. -/
theorem custody_call (h : Custody s.heap place) (hq : q.pending = none)
    (hs : call s t q = some s') : Custody s'.heap place := by
  unfold call at hs
  split at hs <;> cases hs
  next hpc => exact custody_thread h rfl rfl rfl rfl rfl (by rw [hpc,hq]; rfl)

/-- Every step keeps each allocated node in exactly one place. -/
theorem custody_step {a : Action τ L V N} (h : Custody s.heap place) (hs : step s a = some s') :
    Custody s'.heap (track s place a) := by
  cases a with
  | write ptr x =>
    cases hs
    exact h
  | makeMutator t =>
    simp only [step] at hs
    split at hs <;> cases hs
    next hpc => exact custody_thread h rfl rfl rfl rfl rfl (by rw [hpc]; rfl)
  | acquire t ptr | release t | destroyMutator t =>
    have h' : Custody (s.hold t none).heap place := h
    simp only [step] at hs
    exact custody_call h' rfl hs
  | retire t v =>
    cases v with
    | none =>
      simp only [step] at hs
      exact custody_call h rfl hs
    | some v =>
      have h' : Custody ({ s with retired := Function.update s.retired v true }).heap place := h
      simp only [step] at hs
      exact custody_call h' rfl hs
  | alloc t node =>
    simp only [step] at hs
    split at hs <;> cases hs
    next v hpc hfree =>
      have hpending : s.heap.pending t = none := by simp [Manager.heap,hpc,Pc.pending]
      have h' := h.allocate (n := node) (by simp [Manager.heap,hfree]) hpending (s.retiredPtrs t)
      simp only [track,Manager.heap,Manager.goto,Manager.setNext,Function.comp_update]
      exact h'
  | step t spurious => exact custody_threadStep h hs
  | lock order =>
    simp only [step] at hs
    split at hs
    · split at hs <;> cases hs
      next hc => exact custody_collector h rfl rfl rfl rfl (by rw [hc]; rfl) (by rw [hc]; rfl)
      next hc _ => exact custody_collector h rfl rfl rfl rfl (by rw [hc]; rfl) (by rw [hc]; rfl)
    · cases hs
  | collect spurious => exact custody_collectorStep h hs
  | destroy =>
    simp only [step] at hs
    split at hs <;> cases hs
    exact h

end Steps

omit [DecidableEq τ] [DecidableEq L] [DecidableEq V] [DecidableEq N] in
/-- Before the first Retire there is no node. -/
theorem custody_initial : Custody (initial τ L V N).heap fun _ => none :=
  custody_empty

end ConcurrencyRuntime.HazardManager
