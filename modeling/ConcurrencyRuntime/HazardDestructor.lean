import ConcurrencyRuntime.HazardRetirement
import ConcurrencyRuntime.HazardSafety

/-!
# The retired pointers at the end of the manager

When the manager is destroyed after all mutators, its destructor passes over every
list that has nodes, finds nothing protected and puts nothing back, so that no
retired value is left that is not deleted.
-/

namespace ConcurrencyRuntime.HazardManager

/-- The lists that the destructor is yet to empty. -/
def CollectorPc.ahead {κ V N : Type*} : CollectorPc κ V N → List κ
  | .assertProtected pass | .exchange pass | .walk pass .. | .assertRetired pass _ => pass.todo
  | _ => []

/-- The destructor finds nothing protected and puts nothing back. -/
def CollectorPc.emptying {κ V N : Type*} : CollectorPc κ V N → Bool
  | .assertProtected pass | .exchange pass | .walk pass .. | .assertRetired pass _ =>
    pass.caller = .destroy ∧ pass.found.isEmpty
  | .clear | .destroyed => true
  | _ => false

end ConcurrencyRuntime.HazardManager

namespace ConcurrencyRuntime.HazardMutators

open TransitionSystem HazardManager LinkedPath LinkedStacks Census

variable {μ τ L V N : Type*} [DecidableEq μ] [DecidableEq τ] [DecidableEq L]
  [DecidableEq V] [DecidableEq N]

section Destructor

/-- The manager is destroyed after all mutators, and makes none from then on. -/
def LastOfAll {μ τ L V N : Type*} (s : State μ τ L V N) : Action μ τ L V N → Prop
  | .makeMutator _ _ => s.cancelCollect = false
  | .destroy => ∀ m, s.pc (.mutator m) = .absent
  | _ => True

/-- The lists on the way to the end of the manager. -/
structure Ending {μ τ L V N : Type*} (s : State μ τ L V N) (place : N → Option (Place (Key μ τ))) :
    Prop where
  absent : s.cancelCollect = true → ∀ m, s.pc (.mutator m) = .absent
  /-- Only the lists of known threads have nodes. -/
  listed : ∀ n k, place n = some (.stack k) → k ∈ s.threads
  passing : ∀ k ∈ s.collector.keys, k ∈ s.threads
  destroying : s.collector.destroying = true →
    s.cancelCollect = true ∧ s.collector.emptying = true ∧
      ∀ n k, place n = some (.stack k) → k ∈ s.collector.ahead

variable {s s' : State μ τ L V N} {M M' : Manager (Key μ τ) L V N} {m : μ} {q : Pc L V N}
  {place place' : N → Option (Place (Key μ τ))}

omit [DecidableEq μ] [DecidableEq τ] [DecidableEq L] [DecidableEq V] [DecidableEq N] in
/-- While a mutator is there, the destructor does not run. -/
theorem Ending.running (h : Ending s place) (hm : s.pc (.mutator m) ≠ .absent) :
    s.cancelCollect = false := by
  cases hc : s.cancelCollect with
  | false => rfl
  | true => exact absurd (h.absent hc m) hm

omit [DecidableEq μ] [DecidableEq τ] [DecidableEq L] [DecidableEq V] [DecidableEq N] in
/-- A mutator moves before the destructor. -/
theorem Ending.move (h : Ending s place) (hrun : s.cancelCollect = false)
    (hcancel : s'.cancelCollect = s.cancelCollect) (hcollector : s'.collector = s.collector)
    (hthreads : s.threads ⊆ s'.threads)
    (hstack : ∀ n k, place' n = some (.stack k) → place n = some (.stack k) ∨ k ∈ s'.threads) :
    Ending s' place' := by
  refine ⟨?_,?_,?_,?_⟩
  · rw [hcancel,hrun]
    rintro ⟨⟩
  · intro n k hn
    rcases hstack n k hn with hold | hnew
    · exact hthreads (h.listed n k hold)
    · exact hnew
  · rw [hcollector]
    exact fun k hk => hthreads (h.passing k hk)
  · rw [hcollector]
    intro hd
    have hc := (h.destroying hd).1
    rw [hrun] at hc
    cases hc

omit [DecidableEq L] in
/-- A step of a mutator takes no thread off the list. -/
theorem mutatorStep_threads {t : τ} {spurious : Bool} (hs : mutatorStep M t m spurious = some M') :
    M.threads ⊆ M'.threads := by
  intro k hk
  cases hpc : M.pc (.mutator m) with
  | absent | idle | retireNew v => simp [mutatorStep,threadStep,hpc] at hs
  | makeInsert =>
    simp only [mutatorStep,hpc] at hs
    split at hs <;> cases hs
    simp only [Manager.goto]
    split
    · exact hk
    · exact List.mem_cons_of_mem _ hk
  | makeAssert | register | destroyCount | acquireCheck | retireCas =>
    simp only [mutatorStep,threadStep,hpc] at hs
    split at hs <;> cases hs <;> exact hk
  | makeCount | acquireLoad | acquireStore | releaseStore | retireCount | destroyStore =>
    simp only [mutatorStep,threadStep,hpc,Option.some.injEq] at hs
    subst hs
    exact hk

omit [DecidableEq L] in
/-- The collector puts nodes only on the list that it works on. -/
theorem trackCollector_stack {spurious : Bool} {n : N} {k : Key μ τ}
    (hn : trackCollector M place spurious n = some (.stack k)) :
    place n = some (.stack k) ∨ k ∈ M.collector.keys := by
  cases hc : M.collector with
  | exchange pass =>
    obtain ⟨caller,todo,found⟩ := pass
    cases todo with
    | nil =>
      simp only [trackCollector,hc] at hn
      exact .inl hn
    | cons i rest =>
      simp only [trackCollector,hc] at hn
      split at hn
      next => cases hn
      next => exact .inl hn
  | walk pass i candidate =>
    cases candidate with
    | none =>
      simp only [trackCollector,hc] at hn
      exact .inl hn
    | some c =>
      cases hv : M.value c with
      | none =>
        simp only [trackCollector,hc,hv] at hn
        exact .inl hn
      | some v =>
        simp only [trackCollector,hc,hv,Function.update_apply] at hn
        split at hn
        next => split at hn <;> cases hn
        next => exact .inl hn
  | putCas pass i c next =>
    simp only [trackCollector,hc] at hn
    split at hn
    next =>
      rw [Function.update_apply] at hn
      split at hn
      next =>
        cases hn
        exact .inr List.mem_cons_self
      next => exact .inl hn
    next => exact .inl hn
  | _ =>
    simp only [trackCollector,hc] at hn
    exact .inl hn

omit [DecidableEq L] in
/-- A step of the destructor: a list is taken, a deleter runs or the destructor moves on. -/
theorem ending_destructor {spurious : Bool} (hempty : M.collector.emptying = true)
    (hahead : ∀ n k, place n = some (.stack k) → k ∈ M.collector.ahead)
    (hs : collectorStep M spurious = some M') (hfault : M'.collector ≠ .fault) :
    M'.collector.emptying = true ∧
      ∀ n k, trackCollector M place spurious n = some (.stack k) → k ∈ M'.collector.ahead := by
  cases hc : M.collector with
  | assertProtected pass =>
    rw [hc] at hempty hahead
    simp only [collectorStep,hc] at hs
    simp only [trackCollector,hc]
    split at hs
    · split at hs <;> cases hs
      exact ⟨hempty,hahead⟩
    · cases hs
      exact ⟨hempty,hahead⟩
  | exchange pass =>
    obtain ⟨caller,todo,found⟩ := pass
    rw [hc] at hempty hahead
    obtain ⟨rfl,-⟩ : caller = .destroy ∧ found.isEmpty = true := of_decide_eq_true hempty
    cases todo with
    | nil =>
      simp only [trackCollector,hc]
      simp only [collectorStep,checkToDelete,hc,Option.some.injEq] at hs
      subst hs
      exact ⟨rfl,hahead⟩
    | cons i rest =>
      simp only [trackCollector,hc]
      simp only [collectorStep,checkToDelete,hc,Option.some.injEq] at hs
      subst hs
      refine ⟨hempty,?_⟩
      intro n k hn
      split at hn
      next => cases hn
      next hne =>
        refine (List.mem_cons.mp (hahead n k hn)).resolve_left ?_
        rintro rfl
        exact hne hn
  | walk pass i candidate =>
    obtain ⟨caller,todo,found⟩ := pass
    rw [hc] at hempty hahead
    obtain ⟨rfl,hfound⟩ : caller = .destroy ∧ found.isEmpty = true := of_decide_eq_true hempty
    simp only [trackCollector,hc]
    cases candidate with
    | none =>
      simp only [collectorStep,checkToDelete,hc,Option.some.injEq] at hs
      subst hs
      exact ⟨hempty,hahead⟩
    | some c =>
      simp only [collectorStep,checkToDelete,hc] at hs
      cases hv : M.value c with
      | none =>
        simp only [hv,Option.some.injEq] at hs
        subst hs
        exact absurd rfl hfault
      | some v =>
        simp only [hv] at hs ⊢
        have hnot : v ∉ found := by
          rw [List.isEmpty_iff.mp hfound]
          rintro ⟨⟩
        simp only [hnot,if_false,Option.some.injEq] at hs ⊢
        subst hs
        refine ⟨hempty,?_⟩
        intro n k hn
        rw [Function.update_apply] at hn
        split at hn
        next => cases hn
        next => exact hahead n k hn
  | assertRetired pass i =>
    rw [hc] at hempty hahead
    simp only [collectorStep,hc] at hs
    simp only [trackCollector,hc]
    split at hs <;> cases hs
    exact ⟨hempty,hahead⟩
  | clear =>
    rw [hc] at hahead
    simp only [collectorStep,hc] at hs
    simp only [trackCollector,hc]
    split at hs <;> cases hs
    exact ⟨rfl,hahead⟩
  | destroyed => simp [collectorStep,hc] at hs
  | _ =>
    rw [hc] at hempty
    cases hempty

omit [DecidableEq L] in
/-- The destructor does not begin with a step of the collector. -/
theorem not_destroying_step {spurious : Bool} (hs : collectorStep M spurious = some M')
    (hd : M.collector.destroying = false) : M'.collector.destroying = false := by
  cases hc : M.collector with
  | lock | returned | destroyed | fault => simp [collectorStep,hc] at hs
  | assertProtected | assertRetired | clear =>
    rw [hc] at hd
    cases hd
  | guardCancel | guardCount | sleepCount | sleepCancel =>
    simp only [collectorStep,hc,Option.some.injEq] at hs
    subst hs
    simp only [Manager.moveCollector]
    split <;> rfl
  | reset | sleep =>
    simp only [collectorStep,hc,Option.some.injEq] at hs
    subst hs
    rfl
  | scan order todo found =>
    cases todo <;> simp only [collectorStep,hc,Option.some.injEq] at hs <;> subst hs <;> rfl
  | exchange pass =>
    obtain ⟨caller,todo,found⟩ := pass
    rw [hc] at hd
    cases caller with
    | destroy => simp [CollectorPc.destroying] at hd
    | collect =>
      cases todo <;> simp only [collectorStep,checkToDelete,hc,Option.some.injEq] at hs <;>
        subst hs <;> rfl
  | walk pass i candidate =>
    rw [hc] at hd
    obtain ⟨caller,todo,found⟩ := pass
    cases caller with
    | destroy => simp [CollectorPc.destroying] at hd
    | collect =>
      cases candidate with
      | none =>
        simp only [collectorStep,checkToDelete,hc,Option.some.injEq] at hs
        subst hs
        rfl
      | some c =>
        simp only [collectorStep,checkToDelete,hc] at hs
        split at hs
        · cases hs
          rfl
        · split at hs <;> cases hs <;> rfl
  | putLoad pass i c next | putCount pass i next =>
    rw [hc] at hd
    simp only [collectorStep,checkToDelete,hc,Option.some.injEq] at hs
    subst hs
    exact hd
  | putCas pass i c next =>
    simp only [collectorStep,checkToDelete,hc] at hs
    split at hs <;> cases hs
    · rw [hc] at hd
      exact hd
    · exact hd

omit [DecidableEq L] in
/-- A step of the collector, or of the destructor. -/
theorem ending_collect {spurious : Bool} (h : Ending s place)
    (hs : collectorStep s.toManager spurious = some M) :
    Ending (s.put M) (trackCollector s.toManager place spurious) := by
  obtain ⟨hkeys,hthreads,-,-,-⟩ := collectorStep_keys hs
  obtain ⟨hpc,hcancel,-⟩ := collectorStep_moves hs
  -- nothing is on a list when the threads are cleared
  have hstack : ∀ n k, trackCollector s.toManager place spurious n = some (.stack k) →
      k ∈ s.threads :=
    fun n k hn => (trackCollector_stack hn).elim (h.listed n k) (h.passing k)
  have hdestroying : M.collector.destroying = true → s.collector.destroying = true := by
    intro hd
    by_contra hnot
    rw [not_destroying_step hs (by simpa using hnot)] at hd
    cases hd
  have hahead : M.collector.destroying = true → s.cancelCollect = true ∧
      M.collector.emptying = true ∧
      ∀ n k, trackCollector s.toManager place spurious n = some (.stack k) →
      k ∈ M.collector.ahead := by
    intro hd
    obtain ⟨hc,hempty,hold⟩ := h.destroying (hdestroying hd)
    have hfault : M.collector ≠ .fault := by
      intro hf
      rw [hf] at hd
      cases hd
    exact ⟨hc,ending_destructor hempty hold hs hfault⟩
  refine ⟨?_,?_,?_,?_⟩
  · simp only [State.put,hcancel,hpc]
    exact h.absent
  · intro n k hn
    simp only [State.put]
    rcases hthreads with hthreads | ⟨-,-,hdestroyed⟩
    · rw [hthreads]
      exact hstack n k hn
    · have hempty := (hahead (by rw [hdestroyed]; rfl)).2.2 n k hn
      rw [hdestroyed] at hempty
      cases hempty
  · intro k hk
    simp only [State.put] at hk ⊢
    rcases hthreads with hthreads | ⟨-,-,hdestroyed⟩
    · rw [hthreads]
      exact h.passing k (hkeys k hk)
    · rw [hdestroyed] at hk
      cases hk
  · simp only [State.put,hcancel]
    exact hahead

/-- Every step of a run in which the manager is destroyed last. -/
theorem ending_step {a : Action μ τ L V N} (h : Ending s place) (hregistry : Registry s)
    (hallowed : LastOfAll s a) (hs : step s a = some s') : Ending s' (track s place a) := by
  have hsame : ∀ n k, place n = some (Place.stack k) → place n = some (.stack k) ∨ k ∈ s.threads :=
    fun _ _ hn => .inl hn
  cases a with
  | write ptr x =>
    simp only [step,Option.map_eq_some_iff,HazardManager.step] at hs
    obtain ⟨M,⟨⟩,rfl⟩ := hs
    exact ⟨h.absent,h.listed,h.passing,h.destroying⟩
  | makeMutator m t =>
    simp only [step,Option.map_eq_some_iff,HazardManager.step] at hs
    obtain ⟨M,hM,rfl⟩ := hs
    split at hM <;> cases hM
    exact h.move hallowed rfl rfl (fun _ hk => hk) hsame
  | acquire m ptr | release m | destroyMutator m =>
    simp only [step,Option.map_eq_some_iff,HazardManager.step] at hs
    obtain ⟨M,hM,rfl⟩ := hs
    obtain ⟨hidle,rfl⟩ := call_moves hM
    have hpc : s.pc (.mutator m) = .idle := hidle
    exact h.move (h.running (m := m) (by rw [hpc]; rintro ⟨⟩)) rfl rfl (fun _ hk => hk) hsame
  | retire m v =>
    cases v with
    | none | some v =>
      simp only [step,Option.map_eq_some_iff,HazardManager.step] at hs
      obtain ⟨M,hM,rfl⟩ := hs
      obtain ⟨hidle,rfl⟩ := call_moves hM
      have hpc : s.pc (.mutator m) = .idle := hidle
      exact h.move (h.running (m := m) (by rw [hpc]; rintro ⟨⟩)) rfl rfl (fun _ hk => hk) hsame
  | alloc m node =>
    simp only [step] at hs
    split at hs <;> cases hs
    next v hpc hfree =>
      refine h.move (h.running (m := m) (by rw [hpc]; rintro ⟨⟩)) rfl rfl (fun _ hk => hk) ?_
      intro n k hn
      simp only [track,Function.update_apply] at hn
      split at hn
      next => cases hn
      next => exact .inl hn
  | step m spurious =>
    have hnot : s.pc (.mutator m) ≠ .absent := by
      intro hpc
      simp [step,mutatorStep,threadStep,hpc] at hs
    simp only [step,Option.map_eq_some_iff] at hs
    obtain ⟨M,hM,rfl⟩ := hs
    obtain ⟨-,-,-,hcollector,hcancel⟩ := mutatorStep_moves hM
    refine h.move (h.running hnot) hcancel hcollector (mutatorStep_threads hM) ?_
    intro n k hn
    cases hpc : s.pc (.mutator m) with
    | retireCas retire =>
      simp only [track,hpc] at hn
      split at hn
      next =>
        rw [Function.update_apply] at hn
        split at hn
        next =>
          cases hn
          exact .inr (mutatorStep_threads hM (hregistry.home m (by rw [hpc]; rfl)))
        next => exact .inl hn
      next => exact .inl hn
    | _ =>
      simp only [track,hpc] at hn
      exact .inl hn
  | lock order =>
    simp only [step,Option.map_eq_some_iff,HazardManager.step] at hs
    obtain ⟨M,hM,rfl⟩ := hs
    split at hM
    next hperm =>
      have hkeys : ∀ k, k ∈ order ↔ k ∈ s.threads := fun k => hperm.mem_iff
      split at hM <;> cases hM
      next hc =>
        refine ⟨h.absent,h.listed,?_,by rintro ⟨⟩⟩
        intro k hk
        simp only [State.put,Manager.moveCollector,CollectorPc.keys,List.mem_append,or_self] at hk
        exact (hkeys k).mp hk
      next hc hcancel =>
        refine ⟨h.absent,h.listed,?_,?_⟩
        · intro k hk
          exact (hkeys k).mp hk
        · intro _
          exact ⟨hcancel,rfl,fun n k hn => (hkeys k).mpr (h.listed n k hn)⟩
    next => cases hM
  | collect spurious =>
    simp only [step,Option.map_eq_some_iff,HazardManager.step] at hs
    obtain ⟨M,hM,rfl⟩ := hs
    exact ending_collect h hM
  | destroy =>
    simp only [step,Option.map_eq_some_iff,HazardManager.step] at hs
    obtain ⟨M,hM,rfl⟩ := hs
    split at hM <;> cases hM
    next hcancel =>
      refine ⟨fun _ => hallowed,h.listed,h.passing,?_⟩
      intro hd
      exact absurd (h.destroying hd).1 hcancel

variable [Inhabited τ] {v : V}

/-- After the destructor, the deleter of every retired value has run as often as the
value was retired. -/
theorem deleted_of_destroyed (hr : (mutators μ τ L V N).ReachableUnder LastOfAll s)
    (hdestroyed : s.collector = .destroyed) : s.deleted v = s.retirements v := by
  have hplaces : ∃ place, Custody s.heap place ∧ Ending s place := by
    refine System.ReachableUnder.invariant ?_ ?_ hr
    · refine ⟨_,custody_initial,?_⟩
      constructor
      case absent => rintro ⟨⟩
      case listed => rintro _ _ ⟨⟩
      case passing => rintro _ ⟨⟩
      case destroying => rintro ⟨⟩
    · rintro s a s' hr ⟨place,hcustody,hending⟩ hallowed hs
      have hregistry := registry_reachable hr.reachable
      exact ⟨_,custody_step hcustody hs,ending_step hending hregistry hallowed hs⟩
  obtain ⟨place,hcustody,hending⟩ := hplaces
  obtain ⟨hcancel,-,hahead⟩ := hending.destroying (by rw [hdestroyed]; rfl)
  have hledger := ledger_reachable hr.reachable v
  have hcalls : census (fun x => x = some v) (announced s.toManager) = 0 := by
    refine census_eq_zero.mpr fun m => ?_
    rw [announced,hending.absent hcancel m]
    rintro ⟨⟩
  have hnodes : census (fun x => x = some v) s.value = 0 := by
    refine census_eq_zero.mpr fun n hn => ?_
    have hallocated : s.heap.allocated n = true := by simp [Manager.heap,hn]
    cases hp : place n with
    | none => exact hcustody.allocated_iff.mp hallocated hp
    | some p =>
      cases p with
      | pending k =>
        have hpending : (s.pc k).pending = some n := hcustody.pending_of_place hp
        have habsent : s.pc k = .absent := by
          cases k with
          | mutator m => exact hending.absent hcancel m
          | thread t => exact thread_absent hr.reachable t
        rw [habsent] at hpending
        cases hpending
      | stack k =>
        have hk := hahead n k hp
        rw [hdestroyed] at hk
        cases hk
      | hand =>
        have hhand : s.collector.kept = some n := hcustody.hand_of_place hp
        rw [hdestroyed] at hhand
        cases hhand
      | taken =>
        obtain ⟨ns,hns⟩ := hcustody.exists_taken
        have hmem := (hcustody.mem_taken hns).mpr hp
        have hnone : s.heap.taken = none := by simp [Manager.heap,hdestroyed,CollectorPc.candidates]
        rw [hnone] at hns
        cases ns with
        | nil => cases hmem
        | cons k rest => cases hns.1
  rw [hcalls,hnodes,zero_add,zero_add] at hledger
  exact_mod_cast hledger.symm

end Destructor

/-- No retired value is dropped or deleted twice. In every reachable state the nodes
are in one place each, the books balance, and a value that was retired once is in
exactly one place. One call of CheckToDelete runs the deleters for the values of the
chain that it exchanged which are not in its protected set, and puts the others back.
After the destructor of the manager every retired value is deleted. -/
theorem retired_never_lost [Inhabited τ] :
    (∀ s, (mutators μ τ L V N).Reachable s → (∃ place, Custody s.heap place) ∧
      Ledger s.toManager s.retirements ∧
      ∀ v, s.retirements v = 1 → ∃! w : Whereabouts μ τ, At s v w) ∧
    (∀ s s₁ s' pass i todo ns spurious acts, (mutators μ τ L V N).Reachable s →
      s.collector = .exchange pass → pass.todo = i :: todo → Chain s.next (s.retiredPtrs i) ns →
      step s (.collect spurious) = some s₁ → (mutators μ τ L V N).run s₁ acts = some s' →
      (mutators μ τ L V N).Meets WithinCall s₁ acts → s'.collector.leaving = true →
      (∀ v, s'.deleted v = s.deleted v +
        if v ∈ pass.found then 0 else ns.countP fun n => s.value n = some v) ∧
      ∃ ns', Chain s'.next (s'.retiredPtrs i) ns' ∧
        ∀ n ∈ ns, ∀ v ∈ pass.found, s.value n = some v → n ∈ ns' ∧ s'.value n = some v) ∧
    ∀ s v, (mutators μ τ L V N).ReachableUnder LastOfAll s → s.collector = .destroyed →
      s.deleted v = s.retirements v := by
  refine ⟨?_,?_,?_⟩
  · intro s hr
    exact ⟨custody_reachable hr,ledger_reachable hr,fun v hv => exists_unique_whereabouts hr hv⟩
  · intro s s₁ s' pass i todo ns spurious acts hr hexchange htodo hns hfirst hrun hwithin hend
    obtain ⟨place,hcustody⟩ := custody_reachable hr
    exact checkToDelete_call hcustody hexchange htodo hns hfirst hrun hwithin hend
  · intro s v hr hdestroyed
    exact deleted_of_destroyed hr hdestroyed

/-- Mutator 1 retires a value that mutator 0 holds and another one; a pass deletes the
other one and puts the first one back, until the destructor deletes it too. -/
def retiresTwo : List (Action (Fin 2) (Fin 2) (Fin 1) (Fin 2) (Fin 2)) :=
  [[.write 0 (some 0)],makes 0 0,makes 1 1,acquires 0 0,
    [.write 0 none,.retire 1 (some 0),.alloc 1 0,.step 1 false,.step 1 false],
    [.retire 1 (some 1),.alloc 1 1,.step 1 false,.step 1 false],
    List.replicate 3 (.collect false),[.lock [.thread 0,.thread 1]],
      List.replicate 13 (.collect false)].flatten

/-- All mutators are destroyed, and then the manager. -/
def endsManager : List (Action (Fin 2) (Fin 2) (Fin 1) (Fin 2) (Fin 2)) :=
  [[.destroyMutator 0,.step 0 false,.step 0 false,.destroyMutator 1,.step 1 false,
    .step 1 false,.destroy],
    List.replicate 3 (.collect false),[.lock [.thread 0,.thread 1]],
      List.replicate 12 (.collect false)].flatten

theorem retiresTwo_ends : (mutators (Fin 2) (Fin 2) (Fin 1) (Fin 2) (Fin 2)).Ends
    (initial ..) retiresTwo
    fun s => s.retirements 0 = 1 ∧ s.held (.mutator 0) = some 0 ∧ s.deleted 0 = 0 ∧
      s.deleted 1 = 1 := by
  decide +kernel

instance decidableLastOfAll [Fintype μ] (s : State μ τ L V N) : ∀ a, Decidable (LastOfAll s a)
  | .makeMutator _ _ => inferInstanceAs (Decidable (_ = _))
  | .destroy => inferInstanceAs (Decidable (∀ m, s.pc (.mutator m) = .absent))
  | .write .. | .acquire .. | .release .. | .retire .. | .destroyMutator .. | .alloc .. | .step ..
  | .lock .. | .collect .. => isTrue trivial

theorem endsManager_ends :
    (mutators (Fin 2) (Fin 2) (Fin 1) (Fin 2) (Fin 2)).Ends (initial ..) (retiresTwo ++ endsManager)
      fun s => s.collector = .destroyed ∧ s.retirements 0 = 1 := by
  decide +kernel

theorem endsManager_meets :
    (mutators (Fin 2) (Fin 2) (Fin 1) (Fin 2) (Fin 2)).Meets LastOfAll (initial ..)
      (retiresTwo ++ endsManager) := by
  decide +kernel

/-- The theorem at that run: the value that was put back is in one place, and deleted
in the end. -/
theorem retired_never_lost_two :
    (∃ s, (mutators (Fin 2) (Fin 2) (Fin 1) (Fin 2) (Fin 2)).Reachable s ∧
      s.held (.mutator 0) = some 0 ∧ s.deleted 0 = 0 ∧ s.deleted 1 = 1 ∧
      ∃! w : Whereabouts (Fin 2) (Fin 2), At s 0 w) ∧
    ∃ s, (mutators (Fin 2) (Fin 2) (Fin 1) (Fin 2) (Fin 2)).ReachableUnder LastOfAll s ∧
      s.collector = .destroyed ∧ s.deleted 0 = 1 := by
  obtain ⟨hplaces,-,hdestroyed⟩ :=
    retired_never_lost (μ := Fin 2) (τ := Fin 2) (L := Fin 1) (V := Fin 2)
    (N := Fin 2)
  constructor
  · obtain ⟨s,hr,hone,hheld,hzero,hother⟩ := retiresTwo_ends.reachable
    exact ⟨s,hr,hheld,hzero,hother,(hplaces s hr).2.2 0 hone⟩
  · obtain ⟨s,hr,hend,hone⟩ := endsManager_ends.reachableUnder endsManager_meets
    exact ⟨s,hr,hend,(hdestroyed s 0 hr hend).trans hone⟩

end ConcurrencyRuntime.HazardMutators
