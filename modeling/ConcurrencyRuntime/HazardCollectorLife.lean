import ConcurrencyRuntime.HazardRegistry

/-!
# How long the collector lives

The collector thread starts before any mutator is counted, and Collect returns when
its loop condition reads a count of zero. A mutator that is counted after that is
alive without a collector; as long as no mutator is counted so late, the collector is
in Collect in every state with a live mutator until the manager is destroyed.
-/

namespace ConcurrencyRuntime.HazardManager

/-- The program points of a mutator whose constructor has returned and whose
destructor has not begun. -/
def Pc.alive {L V N : Type*} : Pc L V N → Bool
  | .absent | .makeAssert | .makeInsert | .makeCount | .register | .destroyStore
  | .destroyCount => false
  | _ => true

theorem Pc.counted_of_alive {L V N : Type*} {q : Pc L V N} (h : q.alive = true) :
    q.counted = true := by
  cases q <;> first | rfl | cases h

/-- The program points of Collect. -/
def CollectorPc.inCollect {κ V N : Type*} : CollectorPc κ V N → Bool
  | .guardCancel | .guardCount | .reset | .lock | .scan .. | .sleepCount
  | .sleepCancel | .sleep => true
  | .exchange pass | .walk pass .. | .putLoad pass .. | .putCas pass .. | .putCount pass .. =>
    pass.caller = .collect
  | _ => false

end ConcurrencyRuntime.HazardManager

namespace ConcurrencyRuntime.HazardMutators

open TransitionSystem HazardManager LinkedStacks

/-- MakeMutator increments mutators_count only before Collect has returned on a count
of zero, unless the manager is being destroyed. -/
def CountsInTime {μ τ L V N : Type*} (s : State μ τ L V N) : Action μ τ L V N → Prop
  | .step m _ => s.pc (.mutator m) = .makeCount → s.collector = .returned → s.cancelCollect = true
  | _ => True

/-- Until the manager is destroyed, the collector is in Collect, or has returned and
no mutator is counted. -/
def Attended {μ τ L V N : Type*} (s : State μ τ L V N) : Prop :=
  s.cancelCollect = false →
    s.collector.inCollect = true ∨ s.collector = .returned ∧ s.mutatorsCount = 0

variable {μ τ L V N : Type*} [DecidableEq μ] [DecidableEq τ] [DecidableEq L]
  [DecidableEq V] [DecidableEq N]
  {s s' : State μ τ L V N} {M M' : Manager (Key μ τ) L V N} {m : μ}

instance decidableCountsInTime (s : State μ τ L V N) : ∀ a, Decidable (CountsInTime s a)
  | .step _ _ => inferInstanceAs (Decidable (_ → _ → _))
  | .write .. | .makeMutator .. | .acquire .. | .release .. | .retire ..
  | .destroyMutator .. | .alloc ..
  | .lock .. | .collect .. | .destroy => isTrue trivial

omit [DecidableEq L] in
/-- A step of the collector stays in Collect, or reads a count of zero. -/
theorem collectorStep_inCollect {spurious : Bool} {place : N → Option (Place (Key μ τ))}
    (hcustody : Custody M.heap place) (hin : M.collector.inCollect = true)
    (hcancel : M.cancelCollect = false) (hs : collectorStep M spurious = some M') :
    M'.collector.inCollect = true ∨ M'.collector = .returned ∧ M'.mutatorsCount = 0 := by
  cases hc : M.collector with
  | lock | returned | destroyed | fault => simp [collectorStep,hc] at hs
  | assertProtected | assertRetired | clear =>
    rw [hc] at hin
    cases hin
  | guardCancel =>
    simp only [collectorStep,hc,hcancel,Option.some.injEq] at hs
    subst hs
    exact .inl rfl
  | guardCount =>
    simp only [collectorStep,hc] at hs
    split at hs <;> cases hs
    next hzero => exact .inr ⟨rfl,hzero⟩
    next => exact .inl rfl
  | sleepCount | sleepCancel =>
    simp only [collectorStep,hc,Option.some.injEq] at hs
    subst hs
    simp only [Manager.moveCollector]
    split <;> exact .inl rfl
  | reset | sleep =>
    simp only [collectorStep,hc,Option.some.injEq] at hs
    subst hs
    exact .inl rfl
  | scan order todo found =>
    cases todo <;> simp only [collectorStep,hc,Option.some.injEq] at hs <;>
      subst hs <;> exact .inl rfl
  | exchange pass =>
    obtain ⟨caller,todo,found⟩ := pass
    rw [hc] at hin
    have hcaller : caller = .collect := of_decide_eq_true hin
    subst hcaller
    cases todo <;> simp only [collectorStep,checkToDelete,hc,Option.some.injEq] at hs <;>
      subst hs <;>
      exact .inl rfl
  | walk pass i candidate =>
    rw [hc] at hin
    have hcaller : pass.caller = .collect := of_decide_eq_true hin
    cases candidate with
    | none =>
      simp only [collectorStep,checkToDelete,hc,hcaller,Option.some.injEq] at hs
      subst hs
      exact .inl hin
    | some candidate =>
      -- a candidate is allocated, so that no deleted RetirePtr is read
      have halloc : M.heap.allocated candidate = true := by
        refine hcustody.allocated_iff.mpr ?_
        rw [hcustody.taken_place (by simp [Manager.heap,hc,CollectorPc.candidates])]
        rintro ⟨⟩
      cases hv : M.value candidate with
      | none => simp [Manager.heap,hv] at halloc
      | some v =>
        simp only [collectorStep,checkToDelete,hc,hv] at hs
        split at hs <;> cases hs <;> exact .inl hin
  | putLoad pass i candidate next | putCount pass i next =>
    simp only [collectorStep,checkToDelete,hc,Option.some.injEq] at hs
    subst hs
    rw [hc] at hin
    exact .inl hin
  | putCas pass i candidate next =>
    simp only [collectorStep,checkToDelete,hc] at hs
    split at hs <;> cases hs
    · rw [hc] at hin
      exact .inl hin
    · exact .inl hin

omit [DecidableEq L] in
/-- A count of zero stays zero unless a mutator is counted. -/
theorem mutatorStep_zero {t : τ} {spurious : Bool} (hs : mutatorStep M t m spurious = some M')
    (hzero : M.mutatorsCount = 0) (hpc : M.pc (.mutator m) ≠ .makeCount) :
    M'.mutatorsCount = 0 := by
  cases hp : M.pc (.mutator m) with
  | absent | idle | retireNew v => simp [mutatorStep,threadStep,hp] at hs
  | makeCount => exact absurd hp hpc
  | makeAssert | makeInsert | register | acquireCheck | retireCas =>
    simp only [mutatorStep,threadStep,hp] at hs
    split at hs <;> cases hs <;> exact hzero
  | acquireLoad | acquireStore | releaseStore | retireCount | destroyStore =>
    simp only [mutatorStep,threadStep,hp,Option.some.injEq] at hs
    subst hs
    exact hzero
  | destroyCount => simp [mutatorStep,threadStep,hp,hzero] at hs

/-- A step that counts no mutator too late keeps the collector attending. -/
theorem Attended.step {a : Action μ τ L V N} {place : N → Option (Place (Key μ τ))} (h : Attended s)
    (hcustody : Custody s.heap place) (hallowed : CountsInTime s a) (hs : step s a = some s') :
    Attended s' := by
  intro hcancel
  cases a with
  | write ptr x =>
    simp only [HazardMutators.step,Option.map_eq_some_iff,HazardManager.step] at hs
    obtain ⟨M,⟨⟩,rfl⟩ := hs
    exact h hcancel
  | makeMutator m t =>
    simp only [HazardMutators.step,Option.map_eq_some_iff,HazardManager.step] at hs
    obtain ⟨M,hM,rfl⟩ := hs
    split at hM <;> cases hM
    exact h hcancel
  | acquire m ptr | release m | destroyMutator m =>
    simp only [HazardMutators.step,Option.map_eq_some_iff,HazardManager.step] at hs
    obtain ⟨M,hM,rfl⟩ := hs
    obtain ⟨-,rfl⟩ := call_moves hM
    exact h hcancel
  | retire m v =>
    cases v with
    | none | some v =>
      simp only [HazardMutators.step,Option.map_eq_some_iff,HazardManager.step] at hs
      obtain ⟨M,hM,rfl⟩ := hs
      obtain ⟨-,rfl⟩ := call_moves hM
      exact h hcancel
  | alloc m node =>
    simp only [HazardMutators.step] at hs
    split at hs <;> cases hs
    exact h hcancel
  | step m spurious =>
    simp only [HazardMutators.step,Option.map_eq_some_iff] at hs
    obtain ⟨M,hM,rfl⟩ := hs
    obtain ⟨-,-,-,hcollector,hsame⟩ := mutatorStep_moves hM
    simp only [State.put,hsame,hcollector] at hcancel ⊢
    rcases h hcancel with hin | ⟨hreturned,hzero⟩
    · exact .inl hin
    · refine .inr ⟨hreturned,mutatorStep_zero hM hzero ?_⟩
      intro hpc
      have htrue := hallowed hpc hreturned
      rw [hcancel] at htrue
      cases htrue
  | lock order =>
    simp only [HazardMutators.step,Option.map_eq_some_iff,HazardManager.step] at hs
    obtain ⟨M,hM,rfl⟩ := hs
    split at hM
    · split at hM <;> cases hM
      next => exact .inl rfl
      next hc =>
        simp only [State.put,Manager.moveCollector] at hcancel
        rw [hc] at hcancel
        cases hcancel
    · cases hM
  | collect spurious =>
    simp only [HazardMutators.step,Option.map_eq_some_iff,HazardManager.step] at hs
    obtain ⟨M,hM,rfl⟩ := hs
    obtain ⟨-,hsame,-⟩ := collectorStep_moves hM
    simp only [State.put,hsame] at hcancel
    rcases h hcancel with hin | ⟨hreturned,-⟩
    · exact collectorStep_inCollect hcustody hin hcancel hM
    · simp [collectorStep,hreturned] at hM
  | destroy =>
    simp only [HazardMutators.step,Option.map_eq_some_iff,HazardManager.step] at hs
    obtain ⟨M,hM,rfl⟩ := hs
    split at hM <;> cases hM
    cases hcancel

variable [Inhabited τ]

/-- In a run in which no mutator is counted after Collect has returned on a count of
zero, the collector is in Collect while a mutator is alive and the manager is not
being destroyed. -/
theorem collector_attends (hr : (mutators μ τ L V N).ReachableUnder CountsInTime s)
    (hcancel : s.cancelCollect = false) (halive : (s.pc (.mutator m)).alive = true) :
    s.collector.inCollect = true := by
  have hattended : Attended s := by
    refine System.ReachableUnder.invariant ?_ ?_ hr
    · exact fun _ => .inl rfl
    · intro s a s' hr h hallowed hs
      obtain ⟨place,hcustody⟩ := custody_reachable hr.reachable
      exact h.step hcustody hallowed hs
  rcases hattended hcancel with hin | ⟨-,hzero⟩
  · exact hin
  · exact absurd hzero ((registry_reachable hr.reachable).count_pos (Pc.counted_of_alive halive))

/-- A mutator is made, and the collector makes a pass over its thread. -/
def attended : List (Action (Fin 1) (Fin 1) (Fin 1) (Fin 1) (Fin 1)) :=
  [.makeMutator 0 0,.step 0 false,.step 0 false,.step 0 false,.step 0 false,.collect false,
    .collect false,.collect false,.lock [.thread 0],.collect false]

theorem attended_ends : (mutators (Fin 1) (Fin 1) (Fin 1) (Fin 1) (Fin 1)).Ends
    (initial ..) attended
    fun s => s.cancelCollect = false ∧ (s.pc (.mutator 0)).alive = true ∧
      s.collector = .scan [.thread 0] [] [] := by
  decide +kernel

theorem attended_meets :
    (mutators (Fin 1) (Fin 1) (Fin 1) (Fin 1) (Fin 1)).Meets CountsInTime
      (initial ..) attended := by
  decide +kernel

/-- The theorem at that run. -/
theorem collector_attends_scan :
    ∃ s : State (Fin 1) (Fin 1) (Fin 1) (Fin 1) (Fin 1),
      (mutators (Fin 1) (Fin 1) (Fin 1) (Fin 1) (Fin 1)).ReachableUnder CountsInTime s ∧
      s.cancelCollect = false ∧ (s.pc (.mutator 0)).alive = true ∧
      s.collector.inCollect = true := by
  obtain ⟨s,hr,hcancel,halive,-⟩ := attended_ends.reachableUnder attended_meets
  exact ⟨s,hr,hcancel,halive,collector_attends hr hcancel halive⟩

omit [Inhabited τ] in
/-- A mutator that is counted too late is alive one step later, without a collector:
the condition leaves out nothing that is harmless. -/
theorem unattended_of_late (hpc : s.pc (.mutator m) = .makeCount)
    (hreturned : s.collector = .returned) (hcancel : s.cancelCollect = false) :
    ∃ s' s'', step s (.step m false) = some s' ∧ step s' (.step m false) = some s'' ∧
      s''.cancelCollect = false ∧ (s''.pc (.mutator m)).alive = true ∧
      s''.collector = .returned := by
  let counted := { s.toManager with mutatorsCount := s.mutatorsCount + 1 }.goto (.mutator m) .register
  refine ⟨s.put counted,s.put (counted.goto (.mutator m) .idle),?_,?_,?_,?_,?_⟩
  · simp [HazardMutators.step,mutatorStep,threadStep,hpc,counted]
  · simp [HazardMutators.step,mutatorStep,threadStep,State.put,counted,Manager.goto,hreturned,
      CollectorPc.locked]
  · exact hcancel
  · simp [State.put,Manager.goto,Pc.alive]
  · exact hreturned

/-- The collector evaluates its loop condition before the first mutator is made. -/
def unattended : List (Action (Fin 1) (Fin 1) (Fin 1) (Fin 1) (Fin 1)) :=
  [.collect false,.collect false,.makeMutator 0 0,.step 0 false,.step 0 false,
    .step 0 false,.step 0 false]

theorem unattended_ends : (mutators (Fin 1) (Fin 1) (Fin 1) (Fin 1) (Fin 1)).Ends
    (initial ..) unattended
    fun s => s.cancelCollect = false ∧ (s.pc (.mutator 0)).alive = true ∧
      s.collector = .returned := by
  decide +kernel

/-- A mutator is alive, the manager is not being destroyed, and Collect has returned. -/
theorem collector_gone_under_mutator :
    ∃ s : State (Fin 1) (Fin 1) (Fin 1) (Fin 1) (Fin 1),
      (mutators (Fin 1) (Fin 1) (Fin 1) (Fin 1) (Fin 1)).Reachable s ∧ s.cancelCollect = false ∧
      (s.pc (.mutator 0)).alive = true ∧ s.collector = .returned ∧
      s.collector.inCollect = false := by
  obtain ⟨s,hr,hcancel,halive,hreturned⟩ := unattended_ends.reachable
  exact ⟨s,hr,hcancel,halive,hreturned,by rw [hreturned]; rfl⟩

end ConcurrencyRuntime.HazardMutators
