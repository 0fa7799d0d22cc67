import ConcurrencyRuntime.HazardPlaces

/-!
# The registry of the mutators

Along every run the count of the mutators is the number of those that have
incremented it and not decremented it, the thread of a registered mutator is listed,
and the keys that the collector passes over are threads.
-/

namespace ConcurrencyRuntime.HazardManager

/-- The program points at which a mutator is counted. -/
def Pc.counted {L V N : Type*} : Pc L V N → Bool
  | .absent | .makeAssert | .makeInsert | .makeCount => false
  | _ => true

/-- The program points from the insertion of the thread state to its lookup. -/
def Pc.inserted {L V N : Type*} : Pc L V N → Bool
  | .makeCount | .register => true
  | _ => false

/-- The program points at which a mutator has its thread state. -/
def Pc.registered {L V N : Type*} : Pc L V N → Bool
  | .absent | .makeAssert | .makeInsert | .makeCount | .register => false
  | _ => true

theorem Pc.counted_of_registered {L V N : Type*} {q : Pc L V N} (h : q.registered = true) :
    q.counted = true := by
  cases q <;> first | rfl | cases h

/-- The keys that a pass of the collector still has. -/
def CollectorPc.keys {κ V N : Type*} : CollectorPc κ V N → List κ
  | .scan order todo _ => order ++ todo
  | .exchange pass | .assertProtected pass => pass.todo
  | .walk pass i _ | .putLoad pass i _ _ | .putCas pass i _ _ | .putCount pass i _
  | .assertRetired pass i => i :: pass.todo
  | _ => []

end ConcurrencyRuntime.HazardManager

namespace ConcurrencyRuntime.HazardMutators

open TransitionSystem HazardManager Census

/-- What the registry says of a state. -/
structure Registry {μ τ L V N : Type*} (s : State μ τ L V N) : Prop where
  count : (s.mutatorsCount : ℕ∞) = census (fun pc => pc.counted = true) fun m => s.pc (.mutator m)
  home : ∀ m, (s.pc (.mutator m)).registered = true → .thread (s.home m) ∈ s.threads
  inserted : ∀ m, (s.pc (.mutator m)).inserted = true →
    s.collector = .destroyed ∨ .thread (s.home m) ∈ s.threads
  keys : ∀ k, k ∈ s.threads ∨ k ∈ s.collector.keys → ∃ t, k = .thread t
  lists : ∀ m, s.retiredPtrs (.mutator m) = none

variable {μ τ L V N : Type*} [DecidableEq μ] [DecidableEq τ] [DecidableEq L]
  [DecidableEq V] [DecidableEq N]

section Steps

variable {s s' : State μ τ L V N} {M M' : Manager (Key μ τ) L V N} {t : τ} {m : μ} {q : Pc L V N}

omit [DecidableEq τ] [DecidableEq L] [DecidableEq V] [DecidableEq N] [DecidableEq μ] in
/-- A counted mutator keeps the count from zero. -/
theorem Registry.count_pos (h : Registry s) (hm : (s.pc (.mutator m)).counted = true) :
    s.mutatorsCount ≠ 0 := by
  intro hzero
  have hcount := h.count
  rw [hzero,Nat.cast_zero] at hcount
  exact census_eq_zero.mp hcount.symm m hm

/-- The count follows the mutator that moves. -/
inductive Counts (p q : Pc L V N) (count count' : ℕ) : Prop
  | stay : q.counted = p.counted → count' = count → Counts p q count count'
  | enter : p.counted = false → q.counted = true → count' = count + 1 → Counts p q count count'
  | leave : p.counted = true → q.counted = false → count = count' + 1 → Counts p q count count'

omit [DecidableEq L] [DecidableEq V] [DecidableEq N] in
/-- A mutator moves. -/
theorem Registry.move (h : Registry s) (hpc : s'.pc = Function.update s.pc (.mutator m) q)
    (hcount : Counts (s.pc (.mutator m)) q s.mutatorsCount s'.mutatorsCount)
    (hcollector : s'.collector = s.collector) (hhome : ∀ j, j ≠ m → s'.home j = s.home j)
    (hthreads : s.threads ⊆ s'.threads)
    (hkeys : ∀ k ∈ s'.threads, k ∈ s.threads ∨ ∃ t, k = .thread t)
    (hregistered : q.registered = true → .thread (s'.home m) ∈ s'.threads)
    (hinserted : q.inserted = true → s.collector = .destroyed ∨ .thread (s'.home m) ∈ s'.threads)
    (hlists : ∀ j, s'.retiredPtrs (.mutator j) = s.retiredPtrs (.mutator j)) : Registry s' := by
  have hpcs : (fun j => s'.pc (.mutator j)) =
      Function.update (fun j => s.pc (.mutator j)) m q := by
    funext j
    simp only [hpc,Function.update_apply,Key.mutator.injEq]
  refine ⟨?_,?_,?_,?_,fun j => (hlists j).trans (h.lists j)⟩
  · rw [hpcs]
    cases hcount with
    | stay hsame he => rw [he,h.count,census_stay (by simp [hsame])]
    | enter hp hq he =>
      rw [he,Nat.cast_add,h.count,census_enter (by simp [hp]) (by simp [hq]),Nat.cast_one]
    | leave hp hq he =>
      have hold := h.count
      rw [he,Nat.cast_add,census_leave (k := m) (a := q) hp (by simp [hq]),Nat.cast_one] at hold
      exact ENat.add_left_injective_of_ne_top ENat.one_ne_top hold
  · intro j hj
    by_cases hjm : j = m
    · subst hjm
      rw [hpc,Function.update_self] at hj
      exact hregistered hj
    · rw [hpc,Function.update_of_ne (by simpa using hjm)] at hj
      rw [hhome j hjm]
      exact hthreads (h.home j hj)
  · intro j hj
    rw [hcollector]
    by_cases hjm : j = m
    · subst hjm
      rw [hpc,Function.update_self] at hj
      exact hinserted hj
    · rw [hpc,Function.update_of_ne (by simpa using hjm)] at hj
      rw [hhome j hjm]
      exact (h.inserted j hj).imp_right fun hmem => hthreads hmem
  · intro k hk
    rw [hcollector] at hk
    rcases hk with hk | hk
    · rcases hkeys k hk with hold | hthread
      · exact h.keys k (.inl hold)
      · exact hthread
    · exact h.keys k (.inr hk)

omit [DecidableEq L] [DecidableEq V] [DecidableEq N] in
/-- A mutator moves and the map of thread states stays. -/
theorem Registry.moveListed (h : Registry s) (hpc : s'.pc = Function.update s.pc (.mutator m) q)
    (hcount : Counts (s.pc (.mutator m)) q s.mutatorsCount s'.mutatorsCount)
    (hframe : (s'.collector,s'.home,s'.threads) = (s.collector,s.home,s.threads))
    (hregistered : q.registered = true → .thread (s.home m) ∈ s.threads)
    (hinserted : q.inserted = true → s.collector = .destroyed ∨ .thread (s.home m) ∈ s.threads)
    (hlists : ∀ j, s'.retiredPtrs (.mutator j) = s.retiredPtrs (.mutator j)) : Registry s' := by
  simp only [Prod.mk.injEq] at hframe
  obtain ⟨hcollector,hhome,hthreads⟩ := hframe
  refine h.move hpc hcount hcollector (fun j _ => by rw [hhome]) ?_ ?_ ?_ ?_ hlists
  · rw [hthreads]
    exact List.Subset.refl _
  · rw [hthreads]
    exact fun _ hk => .inl hk
  · rwa [hhome,hthreads]
  · rwa [hhome,hthreads]

omit [DecidableEq L] in
/-- A step of a mutator. -/
theorem registry_mutatorStep {spurious : Bool} (h : Registry s)
    (hs : mutatorStep s.toManager (s.home m) m spurious = some M) : Registry (s.put M) := by
  cases hpc : s.pc (.mutator m) with
  | absent | idle | retireNew v => simp [mutatorStep,threadStep,hpc] at hs
  | makeAssert =>
    simp only [mutatorStep,threadStep,hpc] at hs
    split at hs <;> cases hs
    exact h.moveListed rfl (.stay (by rw [hpc]; rfl) rfl) rfl (by rintro ⟨⟩)
      (by rintro ⟨⟩) fun _ => rfl
  | makeInsert =>
    simp only [mutatorStep,hpc] at hs
    split at hs <;> cases hs
    have hlisted : Key.thread (s.home m) ∈
        if Key.thread (s.home m) ∈ s.threads then s.threads
        else .thread (s.home m) :: s.threads := by
      split
      · assumption
      · exact List.mem_cons_self
    refine h.move rfl (.stay (by rw [hpc]; rfl) rfl) rfl (fun _ _ => rfl) ?_ ?_ (by rintro ⟨⟩)
      (fun _ => .inr hlisted) fun _ => rfl
    · intro k hk
      simp only [State.put,Manager.goto]
      split
      · exact hk
      · exact List.mem_cons_of_mem _ hk
    · intro k hk
      simp only [State.put,Manager.goto] at hk
      split at hk
      · exact .inl hk
      · rcases List.mem_cons.mp hk with he | hk
        · exact .inr ⟨_,he⟩
        · exact .inl hk
  | makeCount =>
    simp only [mutatorStep,threadStep,hpc,Option.some.injEq] at hs
    subst hs
    refine h.moveListed rfl (.enter (by rw [hpc]; rfl) rfl rfl) rfl (by rintro ⟨⟩) ?_ fun _ => rfl
    exact fun _ => h.inserted m (by rw [hpc]; rfl)
  | register =>
    simp only [mutatorStep,threadStep,hpc] at hs
    split at hs <;> cases hs
    next hlocked =>
      refine h.moveListed rfl (.stay (by rw [hpc]; rfl) rfl) rfl ?_ (by rintro ⟨⟩) fun _ => rfl
      intro _
      rcases h.inserted m (by rw [hpc]; rfl) with hdestroyed | hmem
      · rw [hdestroyed] at hlocked
        exact absurd rfl hlocked
      · exact hmem
  | acquireLoad ptr | acquireStore ptr before | releaseStore | retireCount | destroyStore =>
    simp only [mutatorStep,threadStep,hpc,Option.some.injEq] at hs
    subst hs
    refine h.moveListed rfl (.stay (by rw [hpc]; rfl) rfl) rfl ?_ (by rintro ⟨⟩) fun _ => rfl
    exact fun _ => h.home m (by rw [hpc]; rfl)
  | acquireCheck ptr before =>
    simp only [mutatorStep,threadStep,hpc] at hs
    split at hs <;> cases hs
    all_goals
      refine h.moveListed rfl (.stay (by rw [hpc]; rfl) rfl) rfl ?_ (by rintro ⟨⟩) fun _ => rfl
      exact fun _ => h.home m (by rw [hpc]; rfl)
  | retireCas retire =>
    simp only [mutatorStep,hpc] at hs
    split at hs <;> cases hs
    · refine h.moveListed rfl (.stay (by rw [hpc]; rfl) rfl) rfl ?_ (by rintro ⟨⟩) fun _ => ?_
      · exact fun _ => h.home m (by rw [hpc]; rfl)
      · simp only [State.put,Manager.goto,Manager.setRetiredPtrs]
        rw [Function.update_of_ne (by rintro ⟨⟩)]
    · exact ⟨h.count,h.home,h.inserted,h.keys,h.lists⟩
  | destroyCount =>
    simp only [mutatorStep,threadStep,hpc] at hs
    split at hs <;> cases hs
    next hzero =>
      have hcount : s.mutatorsCount = s.mutatorsCount - 1 + 1 := by omega
      exact h.moveListed rfl (.leave (by rw [hpc]; rfl) rfl hcount) rfl (by rintro ⟨⟩)
        (by rintro ⟨⟩) fun _ => rfl

omit [DecidableEq L] in
/-- What a step of the collector does to the keys. -/
theorem collectorStep_keys {spurious : Bool} (hs : collectorStep M spurious = some M') :
    (∀ k ∈ M'.collector.keys, k ∈ M.collector.keys) ∧
      (M'.threads = M.threads ∨
        M.mutatorsCount = 0 ∧ M'.threads = [] ∧ M'.collector = .destroyed) ∧
      M'.mutatorsCount = M.mutatorsCount ∧ M.collector ≠ .destroyed ∧
      ∀ k, k ∉ M.collector.keys → M'.retiredPtrs k = M.retiredPtrs k := by
  cases hc : M.collector with
  | lock | returned | destroyed | fault => simp [collectorStep,hc] at hs
  | guardCancel | guardCount | sleepCount | sleepCancel =>
    simp only [collectorStep,hc,Option.some.injEq] at hs
    subst hs
    refine ⟨?_,.inl rfl,rfl,by rintro ⟨⟩,fun _ _ => rfl⟩
    simp only [Manager.moveCollector]
    split <;> rintro _ ⟨⟩
  | reset | sleep =>
    simp only [collectorStep,hc,Option.some.injEq] at hs
    subst hs
    exact ⟨by rintro _ ⟨⟩,.inl rfl,rfl,by rintro ⟨⟩,fun _ _ => rfl⟩
  | scan order todo found =>
    cases todo <;> simp only [collectorStep,hc,Option.some.injEq] at hs <;> subst hs
    · refine ⟨?_,.inl rfl,rfl,by rintro ⟨⟩,fun _ _ => rfl⟩
      intro k hk
      simp only [Manager.moveCollector,CollectorPc.keys,List.append_nil] at hk ⊢
      exact hk
    · refine ⟨?_,.inl rfl,rfl,by rintro ⟨⟩,fun _ _ => rfl⟩
      intro k hk
      simp only [Manager.moveCollector,CollectorPc.keys,List.mem_append,List.mem_cons] at hk ⊢
      exact hk.imp_right .inr
  | exchange pass =>
    obtain ⟨caller,todo,found⟩ := pass
    cases todo with
    | cons i rest =>
      simp only [collectorStep,checkToDelete,hc,Option.some.injEq] at hs
      subst hs
      refine ⟨fun k hk => hk,.inl rfl,rfl,by rintro ⟨⟩,?_⟩
      intro k hk
      refine Function.update_of_ne ?_ ..
      rintro rfl
      exact hk List.mem_cons_self
    | nil =>
      cases caller <;> simp only [collectorStep,checkToDelete,hc,Option.some.injEq] at hs
      all_goals
        subst hs
        exact ⟨by rintro _ ⟨⟩,.inl rfl,rfl,by rintro ⟨⟩,fun _ _ => rfl⟩
  | walk pass i candidate =>
    cases candidate with
    | none =>
      simp only [collectorStep,checkToDelete,hc] at hs
      split at hs <;> cases hs
      · exact ⟨fun k hk => List.mem_cons_of_mem _ hk,.inl rfl,rfl,by rintro ⟨⟩,fun _ _ => rfl⟩
      · exact ⟨fun k hk => hk,.inl rfl,rfl,by rintro ⟨⟩,fun _ _ => rfl⟩
    | some candidate =>
      simp only [collectorStep,checkToDelete,hc] at hs
      split at hs
      · cases hs
        exact ⟨by rintro _ ⟨⟩,.inl rfl,rfl,by rintro ⟨⟩,fun _ _ => rfl⟩
      · split at hs <;> cases hs
        · exact ⟨fun k hk => hk,.inl rfl,rfl,by rintro ⟨⟩,fun _ _ => rfl⟩
        · exact ⟨fun k hk => hk,.inl rfl,rfl,by rintro ⟨⟩,fun _ _ => rfl⟩
  | putLoad pass i candidate next | putCount pass i next =>
    simp only [collectorStep,checkToDelete,hc,Option.some.injEq] at hs
    subst hs
    exact ⟨fun k hk => hk,.inl rfl,rfl,by rintro ⟨⟩,fun _ _ => rfl⟩
  | putCas pass i candidate next =>
    simp only [collectorStep,checkToDelete,hc] at hs
    split at hs <;> cases hs
    · refine ⟨fun k hk => hk,.inl rfl,rfl,by rintro ⟨⟩,?_⟩
      intro k hk
      refine Function.update_of_ne ?_ ..
      rintro rfl
      exact hk List.mem_cons_self
    · refine ⟨fun k hk => ?_,.inl rfl,rfl,by rintro ⟨⟩,fun _ _ => rfl⟩
      rwa [Manager.setNext,hc] at hk
  | assertProtected pass =>
    simp only [collectorStep,hc] at hs
    split at hs
    · split at hs <;> cases hs
      exact ⟨fun k hk => hk,.inl rfl,rfl,by rintro ⟨⟩,fun _ _ => rfl⟩
    · cases hs
      exact ⟨fun k hk => hk,.inl rfl,rfl,by rintro ⟨⟩,fun _ _ => rfl⟩
  | assertRetired pass i =>
    simp only [collectorStep,hc] at hs
    split at hs <;> cases hs
    exact ⟨fun k hk => List.mem_cons_of_mem _ hk,.inl rfl,rfl,by rintro ⟨⟩,fun _ _ => rfl⟩
  | clear =>
    simp only [collectorStep,hc] at hs
    split at hs <;> cases hs
    next hzero => exact ⟨by rintro _ ⟨⟩,.inr ⟨hzero,rfl,rfl⟩,rfl,by rintro ⟨⟩,fun _ _ => rfl⟩

omit [DecidableEq L] in
/-- A step of the collector. -/
theorem registry_collectorStep {spurious : Bool} (h : Registry s)
    (hs : collectorStep s.toManager spurious = some M) : Registry (s.put M) := by
  obtain ⟨hkeys,hthreads,hcount,hne,hlists⟩ := collectorStep_keys hs
  obtain ⟨hpc,-⟩ := collectorStep_moves hs
  have hnothread : ∀ j, Key.mutator j ∉ s.collector.keys := by
    intro j hj
    obtain ⟨t,ht⟩ := h.keys _ (.inr hj)
    cases ht
  refine ⟨?_,?_,?_,?_,fun j => (hlists _ (hnothread j)).trans (h.lists j)⟩
  · simp only [State.put,hcount,hpc]
    exact h.count
  · intro j hj
    simp only [State.put,hpc] at hj
    rcases hthreads with hthreads | ⟨hzero,-⟩
    · simp only [State.put,hthreads]
      exact h.home j hj
    · exact absurd hzero (h.count_pos (Pc.counted_of_registered hj))
  · intro j hj
    simp only [State.put,hpc] at hj
    rcases hthreads with hthreads | ⟨-,-,hdestroyed⟩
    · simp only [State.put,hthreads]
      exact .inr ((h.inserted j hj).resolve_left hne)
    · exact .inl hdestroyed
  · intro k hk
    simp only [State.put] at hk
    rcases hk with hk | hk
    · rcases hthreads with hthreads | ⟨-,hnil,-⟩
      · rw [hthreads] at hk
        exact h.keys k (.inl hk)
      · rw [hnil] at hk
        cases hk
    · exact h.keys k (.inr (hkeys k hk))

omit [DecidableEq L] [DecidableEq V] [DecidableEq N] in
/-- A function of a live mutator is called. -/
theorem Registry.use (h : Registry s) (hidle : s.pc (.mutator m) = .idle)
    (hq : q.registered = true) (hpc : s'.pc = Function.update s.pc (.mutator m) q)
    (hframe : (s'.mutatorsCount,s'.collector,s'.home,s'.threads,s'.retiredPtrs) =
      (s.mutatorsCount,s.collector,s.home,s.threads,s.retiredPtrs)) : Registry s' := by
  simp only [Prod.mk.injEq] at hframe
  obtain ⟨hcount,hcollector,hhome,hthreads,hlists⟩ := hframe
  have hlisted : Key.thread (s.home m) ∈ s.threads := h.home m (by rw [hidle]; rfl)
  refine h.moveListed hpc (.stay ?_ hcount) ?_ (fun _ => hlisted)
    (fun _ => .inr hlisted) fun j => ?_
  · rw [hidle,Pc.counted_of_registered hq]
    rfl
  · rw [hcollector,hhome,hthreads]
  · rw [hlists]

/-- Every step keeps the registry. -/
theorem registry_step {a : Action μ τ L V N} (h : Registry s) (hs : step s a = some s') :
    Registry s' := by
  cases a with
  | write ptr x =>
    simp only [step,Option.map_eq_some_iff,HazardManager.step] at hs
    obtain ⟨M,⟨⟩,rfl⟩ := hs
    exact ⟨h.count,h.home,h.inserted,h.keys,h.lists⟩
  | makeMutator m t =>
    simp only [step,Option.map_eq_some_iff,HazardManager.step] at hs
    obtain ⟨M,hM,rfl⟩ := hs
    split at hM <;> cases hM
    next hpc =>
      refine h.move rfl (.stay (by rw [hpc]; rfl) rfl) rfl ?_ (fun _ hk => hk)
        (fun _ hk => .inl hk) (by rintro ⟨⟩) (by rintro ⟨⟩) fun _ => rfl
      exact fun j hj => Function.update_of_ne hj ..
  | acquire m ptr | release m | destroyMutator m =>
    simp only [step,Option.map_eq_some_iff,HazardManager.step] at hs
    obtain ⟨M,hM,rfl⟩ := hs
    obtain ⟨hidle,rfl⟩ := call_moves hM
    exact h.use hidle rfl rfl rfl
  | retire m v =>
    cases v with
    | none | some v =>
      simp only [step,Option.map_eq_some_iff,HazardManager.step] at hs
      obtain ⟨M,hM,rfl⟩ := hs
      obtain ⟨hidle,rfl⟩ := call_moves hM
      exact h.use hidle rfl rfl rfl
  | alloc m node =>
    simp only [step] at hs
    split at hs <;> cases hs
    next v hpc hfree =>
      refine h.moveListed rfl (.stay (by rw [hpc]; rfl) rfl) rfl ?_ (by rintro ⟨⟩) fun _ => rfl
      exact fun _ => h.home m (by rw [hpc]; rfl)
  | step m spurious =>
    simp only [step,Option.map_eq_some_iff] at hs
    obtain ⟨M,hM,rfl⟩ := hs
    exact registry_mutatorStep h hM
  | lock order =>
    simp only [step,Option.map_eq_some_iff,HazardManager.step] at hs
    obtain ⟨M,hM,rfl⟩ := hs
    split at hM
    next hperm =>
      have hkeys : ∀ k ∈ order, k ∈ s.threads := fun k hk => hperm.mem_iff.mp hk
      split at hM <;> cases hM
      next hc =>
        refine ⟨h.count,h.home,?_,?_,h.lists⟩
        · exact fun j hj => .inr ((h.inserted j hj).resolve_left (by rw [hc]; rintro ⟨⟩))
        · intro k hk
          simp only [State.put,Manager.moveCollector,CollectorPc.keys,List.mem_append,or_self] at hk
          exact h.keys k (.inl (hk.elim id (hkeys k)))
      next hc _ =>
        refine ⟨h.count,h.home,?_,?_,h.lists⟩
        · exact fun j hj => .inr ((h.inserted j hj).resolve_left (by rw [hc]; rintro ⟨⟩))
        · intro k hk
          simp only [State.put,Manager.moveCollector,CollectorPc.keys] at hk
          exact h.keys k (.inl (hk.elim id (hkeys k)))
    next => cases hM
  | collect spurious =>
    simp only [step,Option.map_eq_some_iff,HazardManager.step] at hs
    obtain ⟨M,hM,rfl⟩ := hs
    exact registry_collectorStep h hM
  | destroy =>
    simp only [step,Option.map_eq_some_iff,HazardManager.step] at hs
    obtain ⟨M,hM,rfl⟩ := hs
    split at hM <;> cases hM
    exact ⟨h.count,h.home,h.inserted,h.keys,h.lists⟩

theorem registry_reachable [Inhabited τ] (hr : (mutators μ τ L V N).Reachable s) : Registry s := by
  refine System.Reachable.invariant ?_ (fun _ _ _ hi hs => registry_step hi hs) hr
  constructor
  case count => exact (census_eq_zero.mpr (by rintro _ ⟨⟩)).symm
  case keys => rintro _ (he | he) <;> cases he
  case lists => exact fun _ => rfl
  all_goals rintro _ ⟨⟩

end Steps

end ConcurrencyRuntime.HazardMutators
