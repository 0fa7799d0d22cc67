import ConcurrencyRuntime.Census
import ConcurrencyRuntime.HazardCustody
import ConcurrencyRuntime.HazardMutators

/-!
# Where the retired pointers of all mutators are

The retired lists are linked stacks as before, onto which the mutators of a thread
push. Each allocated RetirePtr is in one place, and the books balance: the times a
value was handed to Retire are the calls that have not allocated a RetirePtr yet, the
RetirePtr nodes with the value and the runs of its deleter.
-/

namespace ConcurrencyRuntime.HazardManager

/-- The value of a Retire that has not allocated its RetirePtr. -/
def Pc.announced {L V N : Type*} : Pc L V N → Option V
  | .retireNew v => some v
  | _ => none

end ConcurrencyRuntime.HazardManager

namespace ConcurrencyRuntime.HazardMutators

open TransitionSystem HazardManager LinkedStacks Census

variable {μ τ L V N : Type*} [DecidableEq μ] [DecidableEq τ] [DecidableEq L]
  [DecidableEq V] [DecidableEq N]

/-- How a step moves the nodes. -/
def track (s : State μ τ L V N) (place : N → Option (Place (Key μ τ))) :
    Action μ τ L V N → N → Option (Place (Key μ τ))
  | .alloc m node => Function.update place node (some (.pending (.mutator m)))
  | .step m spurious =>
    match s.pc (.mutator m) with
    | .retireCas retire =>
      if s.retiredPtrs (.thread (s.home m)) = s.next retire ∧ spurious = false then
        Function.update place retire (some (.stack (.thread (s.home m))))
      else place
    | _ => place
  | .collect spurious => trackCollector s.toManager place spurious
  | _ => place

section Steps

variable {s s' : State μ τ L V N} {M M' : Manager (Key μ τ) L V N} {t : τ} {m : μ}
  {place : N → Option (Place (Key μ τ))}

omit [DecidableEq L] in
/-- The steps of a mutator that do not push keep each node where it is. -/
theorem custody_mutatorStep {spurious : Bool} (h : Custody M.heap place)
    (hs : mutatorStep M t m spurious = some M') :
    Custody M'.heap (match M.pc (.mutator m) with
      | .retireCas retire =>
        if M.retiredPtrs (.thread t) = M.next retire ∧ spurious = false then
          Function.update place retire (some (.stack (.thread t)))
        else place
      | _ => place) := by
  cases hpc : M.pc (.mutator m) with
  | makeInsert =>
    simp only [mutatorStep,hpc] at hs
    split at hs <;> cases hs
    exact custody_thread h rfl rfl rfl rfl rfl (by rw [hpc]; rfl)
  | acquireStore ptr before | releaseStore | destroyStore =>
    simp only [mutatorStep,hpc,Option.some.injEq] at hs
    subst hs
    exact custody_thread h rfl rfl rfl rfl rfl (by rw [hpc]; rfl)
  | retireCas retire =>
    have hpending : M.heap.pending (.mutator m) = some retire := by
      simp [Manager.heap,hpc,Pc.pending]
    have hplace := h.pending_place hpending
    simp only [mutatorStep,hpc] at hs
    split at hs <;> cases hs
    next hcas =>
      simp only [hcas,and_self,if_true]
      have h' := h.push hpending hcas.1
      simp only [Manager.heap,Manager.goto,Function.comp_update]
      exact h'
    next hcas =>
      simp only [hcas,if_false]
      exact h.relink (by simp [hplace]) (by simp [hplace]) (M.retiredPtrs (.thread t))
  | absent | makeAssert | makeCount | register | idle | acquireLoad ptr | acquireCheck ptr before
  | retireNew v | retireCount | destroyCount =>
    simp only [mutatorStep,hpc] at hs
    have h' := custody_threadStep h hs
    simp only [HazardManager.track,hpc] at h'
    exact h'

/-- Every step keeps each allocated node in exactly one place. -/
theorem custody_step {a : Action μ τ L V N} (h : Custody s.heap place) (hs : step s a = some s') :
    Custody s'.heap (track s place a) := by
  cases a with
  | write | acquire | release | destroyMutator | lock | collect | destroy | makeMutator =>
    simp only [step,Option.map_eq_some_iff] at hs
    obtain ⟨M,hM,rfl⟩ := hs
    exact HazardManager.custody_step h hM
  | retire m v =>
    cases v with
    | none | some v =>
      simp only [step,Option.map_eq_some_iff] at hs
      obtain ⟨M,hM,rfl⟩ := hs
      exact HazardManager.custody_step h hM
  | alloc m node =>
    simp only [step] at hs
    split at hs <;> cases hs
    next v hpc hfree =>
      have hpending : s.heap.pending (.mutator m) = none := by simp [Manager.heap,hpc,Pc.pending]
      have h' := h.allocate (n := node) (by simp [Manager.heap,hfree]) hpending
        (s.retiredPtrs (.thread (s.home m)))
      simp only [track,State.put,Manager.heap,Manager.goto,Manager.setNext,Function.comp_update]
      exact h'
  | step m spurious =>
    simp only [step,Option.map_eq_some_iff] at hs
    obtain ⟨M,hM,rfl⟩ := hs
    exact custody_mutatorStep h hM

/-- The values of the calls of Retire without a RetirePtr. -/
def announced {μ τ L V N : Type*} (M : Manager (Key μ τ) L V N) (m : μ) : Option V :=
  (M.pc (.mutator m)).announced

omit [DecidableEq L] [DecidableEq V] [DecidableEq N] in
/-- One mutator moves. -/
theorem announced_update {q : Pc L V N} (hpc : M'.pc = Function.update M.pc (.mutator m) q) :
    announced M' = Function.update (announced M) m q.announced := by
  funext j
  simp only [announced,hpc,Function.update_apply,Key.mutator.injEq]
  split <;> rfl

/-- The books on the retired values. -/
def Ledger {μ τ L V N : Type*} (M : Manager (Key μ τ) L V N) (retirements : V → ℕ) : Prop :=
  ∀ v, (retirements v : ℕ∞) =
    census (fun x => x = some v) (announced M) + census (fun x => x = some v) M.value + M.deleted v

omit [DecidableEq L] [DecidableEq V] [DecidableEq N] in
/-- A mutator moves outside of the beginning of Retire. -/
theorem Ledger.move {q : Pc L V N} {retirements : V → ℕ} (h : Ledger M retirements)
    (hpc : M'.pc = Function.update M.pc (.mutator m) q) (hvalue : M'.value = M.value)
    (hdeleted : M'.deleted = M.deleted) (hq : q.announced = announced M m) :
    Ledger M' retirements := by
  intro v
  rw [announced_update hpc,hq,Function.update_eq_self,hvalue,hdeleted]
  exact h v

omit [DecidableEq L] in
/-- What every step of a mutator leaves alone. -/
theorem mutatorStep_moves {spurious : Bool} (hs : mutatorStep M t m spurious = some M') :
    (∃ q, M'.pc = Function.update M.pc (.mutator m) q ∧ q.announced = announced M m) ∧
      M'.value = M.value ∧ M'.deleted = M.deleted ∧ M'.collector = M.collector ∧
      M'.cancelCollect = M.cancelCollect := by
  simp only [announced]
  cases hpc : M.pc (.mutator m) with
  | absent | idle | retireNew v => simp [mutatorStep,threadStep,hpc] at hs
  | makeAssert | makeInsert | register | destroyCount =>
    simp only [mutatorStep,threadStep,hpc] at hs
    split at hs <;> cases hs
    exact ⟨⟨_,rfl,rfl⟩,rfl,rfl,rfl,rfl⟩
  | makeCount | acquireLoad ptr | acquireStore ptr before | releaseStore | retireCount
  | destroyStore =>
    simp only [mutatorStep,threadStep,hpc,Option.some.injEq] at hs
    subst hs
    exact ⟨⟨_,rfl,rfl⟩,rfl,rfl,rfl,rfl⟩
  | acquireCheck ptr before =>
    simp only [mutatorStep,threadStep,hpc] at hs
    split at hs <;> cases hs
    · exact ⟨⟨_,rfl,rfl⟩,rfl,rfl,rfl,rfl⟩
    · exact ⟨⟨_,rfl,rfl⟩,rfl,rfl,rfl,rfl⟩
  | retireCas retire =>
    simp only [mutatorStep,hpc] at hs
    split at hs <;> cases hs
    · exact ⟨⟨_,rfl,rfl⟩,rfl,rfl,rfl,rfl⟩
    · refine ⟨⟨.retireCas retire,?_,rfl⟩,rfl,rfl,rfl,rfl⟩
      rw [←hpc,Function.update_eq_self]
      rfl

omit [DecidableEq L] in
/-- What every step of the collector leaves alone, but for the deleter that it runs. -/
theorem collectorStep_moves {spurious : Bool} (hs : collectorStep M spurious = some M') :
    M'.pc = M.pc ∧ M'.cancelCollect = M.cancelCollect ∧ M'.held = M.held ∧
      M'.protectedPtr = M.protectedPtr ∧ ((M'.value = M.value ∧ M'.deleted = M.deleted) ∨
      ∃ pass i candidate v, M.collector = .walk pass i (some candidate) ∧
        M.value candidate = some v ∧ M'.value = Function.update M.value candidate none ∧
        M'.deleted = Function.update M.deleted v (M.deleted v + 1)) := by
  cases hc : M.collector with
  | walk pass i candidate =>
    simp only [collectorStep,checkToDelete,hc] at hs
    cases candidate with
    | none =>
      simp only at hs
      split at hs <;> cases hs
      · exact ⟨rfl,rfl,rfl,rfl,.inl ⟨rfl,rfl⟩⟩
      · exact ⟨rfl,rfl,rfl,rfl,.inl ⟨rfl,rfl⟩⟩
    | some candidate =>
      cases hv : M.value candidate with
      | none =>
        simp only [hv] at hs
        cases hs
        exact ⟨rfl,rfl,rfl,rfl,.inl ⟨rfl,rfl⟩⟩
      | some v =>
        simp only [hv] at hs
        split at hs <;> cases hs
        · exact ⟨rfl,rfl,rfl,rfl,.inl ⟨rfl,rfl⟩⟩
        · exact ⟨rfl,rfl,rfl,rfl,.inr ⟨pass,i,candidate,v,rfl,hv,rfl,rfl⟩⟩
  | lock | returned | destroyed | fault => simp [collectorStep,hc] at hs
  | scan order todo found =>
    cases todo <;> simp only [collectorStep,hc,Option.some.injEq] at hs <;> subst hs <;>
      exact ⟨rfl,rfl,rfl,rfl,.inl ⟨rfl,rfl⟩⟩
  | guardCancel | guardCount | reset | sleepCount | sleepCancel | sleep | putLoad | putCount =>
    simp only [collectorStep,checkToDelete,hc,Option.some.injEq] at hs
    subst hs
    exact ⟨rfl,rfl,rfl,rfl,.inl ⟨rfl,rfl⟩⟩
  | putCas | assertRetired | clear =>
    simp only [collectorStep,checkToDelete,hc] at hs
    split at hs <;> cases hs <;> exact ⟨rfl,rfl,rfl,rfl,.inl ⟨rfl,rfl⟩⟩
  | exchange pass =>
    simp only [collectorStep,checkToDelete,hc] at hs
    split at hs <;> cases hs <;> exact ⟨rfl,rfl,rfl,rfl,.inl ⟨rfl,rfl⟩⟩
  | assertProtected pass =>
    simp only [collectorStep,hc] at hs
    split at hs
    · split at hs <;> cases hs
      exact ⟨rfl,rfl,rfl,rfl,.inl ⟨rfl,rfl⟩⟩
    · cases hs
      exact ⟨rfl,rfl,rfl,rfl,.inl ⟨rfl,rfl⟩⟩

/-- The call of a function of a mutator. -/
theorem call_moves {k : Key μ τ} {q : Pc L V N} (hs : call M k q = some M') :
    M.pc k = .idle ∧ M' = M.goto k q := by
  unfold call at hs
  split at hs <;> cases hs
  next hpc => exact ⟨hpc,rfl⟩

/-- A call that is no Retire keeps the books. -/
theorem Ledger.call {q : Pc L V N} {retirements : V → ℕ} (h : Ledger M retirements)
    (hq : q.announced = none) (hs : call M (.mutator m) q = some M') : Ledger M' retirements := by
  obtain ⟨hidle,rfl⟩ := call_moves hs
  exact h.move rfl rfl rfl (by rw [hq,announced,hidle]; rfl)

omit [DecidableEq μ] [DecidableEq τ] [DecidableEq L] [DecidableEq N] in
/-- One more of a value. -/
theorem update_succ (f : V → ℕ) (v w : V) :
    ((Function.update f v (f v + 1) w : ℕ) : ℕ∞) = (f w : ℕ∞) + if v = w then 1 else 0 := by
  by_cases he : w = v
  · subst he
    simp
  · simp [Function.update_of_ne he,Ne.symm he]

/-- A Retire is called: one retirement, and one more call without a RetirePtr. -/
theorem Ledger.retire {v : V} {retirements : V → ℕ} (h : Ledger M retirements)
    (hs : HazardManager.call { M with retired := Function.update M.retired v true } (.mutator m)
      (.retireNew v) = some M') :
    Ledger M' (Function.update retirements v (retirements v + 1)) := by
  obtain ⟨hidle,rfl⟩ := call_moves hs
  intro w
  have hannounced : announced ({ M with retired := Function.update M.retired v true }.goto
      (.mutator m) (.retireNew v)) = Function.update (announced M) m (some v) :=
    announced_update (q := .retireNew v) rfl
  have hnone : announced M m = none := congrArg Pc.announced hidle
  rw [update_succ,hannounced,census_put hnone,h w]
  simp only [Manager.goto]
  ring

omit [DecidableEq L] in
/-- A RetirePtr is allocated: the value moves from the call to the node. -/
theorem Ledger.alloc {v : V} {node : N} {p : Option N} {retirements : V → ℕ}
    (h : Ledger M retirements)
    (hpc : M.pc (.mutator m) = .retireNew v) (hfree : M.value node = none) :
    Ledger (({ M with value := Function.update M.value node (some v) }.setNext node p).goto (.mutator m)
      (.retireCas node)) retirements := by
  intro w
  have hannounced : announced (({ M with value := Function.update M.value node (some v) }.setNext node
      p).goto (.mutator m) (.retireCas node)) = Function.update (announced M) m none :=
    announced_update (q := .retireCas node) rfl
  have hsome : announced M m = some v := congrArg Pc.announced hpc
  rw [h w,hannounced,census_drop hsome]
  simp only [Manager.goto,Manager.setNext]
  rw [census_put hfree]
  ring

omit [DecidableEq L] in
/-- A step of the collector: a deleter runs for a node that goes. -/
theorem Ledger.collect {spurious : Bool} {retirements : V → ℕ} (h : Ledger M retirements)
    (hs : collectorStep M spurious = some M') : Ledger M' retirements := by
  intro w
  obtain ⟨hpc,-,-,-,hmoves⟩ := collectorStep_moves hs
  have hannounced : announced M' = announced M := by
    funext m
    rw [announced,hpc]
    rfl
  obtain ⟨hvalue,hdeleted⟩ | ⟨pass,i,candidate,v,-,hv,hvalue,hdeleted⟩ := hmoves
  · rw [hannounced,hvalue,hdeleted]
    exact h w
  · rw [hannounced,hvalue,hdeleted,update_succ,h w,census_drop hv]
    ring

/-- Every step keeps the books. -/
theorem ledger_step {a : Action μ τ L V N} (h : Ledger s.toManager s.retirements)
    (hs : step s a = some s') : Ledger s'.toManager s'.retirements := by
  cases a with
  | write ptr x =>
    simp only [step,Option.map_eq_some_iff,HazardManager.step] at hs
    obtain ⟨M,⟨⟩,rfl⟩ := hs
    exact h
  | makeMutator m t =>
    simp only [step,Option.map_eq_some_iff,HazardManager.step] at hs
    obtain ⟨M,hM,rfl⟩ := hs
    split at hM <;> cases hM
    next hpc => exact h.move rfl rfl rfl (congrArg Pc.announced hpc).symm
  | acquire m ptr | release m | destroyMutator m =>
    simp only [step,Option.map_eq_some_iff,HazardManager.step] at hs
    obtain ⟨M,hM,rfl⟩ := hs
    exact Ledger.call (M := s.hold (.mutator m) none) h rfl hM
  | retire m v =>
    cases v with
    | none =>
      simp only [step,Option.map_eq_some_iff,HazardManager.step] at hs
      obtain ⟨M,hM,rfl⟩ := hs
      exact h.call rfl hM
    | some v =>
      simp only [step,Option.map_eq_some_iff,HazardManager.step] at hs
      obtain ⟨M,hM,rfl⟩ := hs
      exact h.retire hM
  | alloc m node =>
    simp only [step] at hs
    split at hs <;> cases hs
    next v hpc hfree => exact h.alloc hpc hfree
  | step m spurious =>
    simp only [step,Option.map_eq_some_iff] at hs
    obtain ⟨M,hM,rfl⟩ := hs
    obtain ⟨⟨q,hpc,hq⟩,hvalue,hdeleted,-⟩ := mutatorStep_moves hM
    exact h.move hpc hvalue hdeleted hq
  | lock order =>
    simp only [step,Option.map_eq_some_iff,HazardManager.step] at hs
    obtain ⟨M,hM,rfl⟩ := hs
    split at hM
    · split at hM <;> cases hM
      · exact h
      · exact h
    · cases hM
  | collect spurious =>
    simp only [step,Option.map_eq_some_iff,HazardManager.step] at hs
    obtain ⟨M,hM,rfl⟩ := hs
    exact h.collect hM
  | destroy =>
    simp only [step,Option.map_eq_some_iff,HazardManager.step] at hs
    obtain ⟨M,hM,rfl⟩ := hs
    split at hM <;> cases hM
    exact h

theorem custody_reachable [Inhabited τ] (hr : (mutators μ τ L V N).Reachable s) :
    ∃ place, Custody s.heap place := by
  refine System.Reachable.invariant ?_ ?_ hr
  · exact ⟨_,custody_initial⟩
  · rintro s a s' ⟨place,h⟩ hs
    exact ⟨_,custody_step h hs⟩

theorem ledger_reachable [Inhabited τ] (hr : (mutators μ τ L V N).Reachable s) :
    Ledger s.toManager s.retirements := by
  refine System.Reachable.invariant ?_ ?_ hr
  · intro v
    have hnone : census (fun x => x = some v) (announced (initial μ τ L V N).toManager) = 0 :=
      census_eq_zero.mpr (by rintro _ ⟨⟩)
    have hfree : census (fun x => x = some v) (initial μ τ L V N).value = 0 :=
      census_eq_zero.mpr (by rintro _ ⟨⟩)
    simp only [mutators]
    rw [hnone,hfree]
    rfl
  · exact fun _ _ _ hi hs => ledger_step hi hs

end Steps

end ConcurrencyRuntime.HazardMutators
