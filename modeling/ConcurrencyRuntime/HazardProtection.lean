import ConcurrencyRuntime.HazardRegistry
import ConcurrencyRuntime.HazardSafety

/-!
# Mutators that share a protected pointer

The protected pointer belongs to the thread, and each of its mutators writes it. A
pointer that a mutator got from Acquire stays protected as long as every store by
another mutator of the thread is of that same pointer; any other store takes it away.
-/

namespace ConcurrencyRuntime.HazardManager

/-- What the next step of a mutator stores into the protected pointer. -/
def Pc.stores {L V N : Type*} : Pc L V N → Option (Option V)
  | .acquireStore _ before => some before
  | .releaseStore | .destroyStore => some none
  | _ => none

/-- What a mutator has stored and is about to validate. -/
def Pc.validates {L V N : Type*} : Pc L V N → Option V
  | .acquireCheck _ before => before
  | _ => none

end ConcurrencyRuntime.HazardManager

namespace ConcurrencyRuntime.HazardMutators

open TransitionSystem HazardManager

/-- The protected pointers that Collect reads. -/
def State.protectedPtrs {μ τ L V N : Type*} (s : State μ τ L V N) : Set V :=
  {v | ∃ k ∈ s.threads, s.protectedPtr k = some v}

/-- The mutator holds the pointer, or is about to validate it in Acquire. -/
def Relies {μ τ L V N : Type*} (s : State μ τ L V N) (m : μ) (v : V) : Prop :=
  s.held (.mutator m) = some v ∨ (s.pc (.mutator m)).validates = some v

/-- What a mutator stores is what every other mutator of its thread relies on. -/
def Undisturbing {μ τ L V N : Type*} (s : State μ τ L V N) : Action μ τ L V N → Prop
  | .step m _ => ∀ x, (s.pc (.mutator m)).stores = some x → ∀ j, j ≠ m → s.home j = s.home m →
    ∀ v, Relies s j v → x = some v
  | _ => True

/-- The protected pointer of a thread is what each of its mutators relies on. -/
structure Protected {μ τ L V N : Type*} (s : State μ τ L V N) : Prop where
  relies : ∀ m v, Relies s m v → s.protectedPtr (.thread (s.home m)) = some v
  holding : ∀ m v, s.held (.mutator m) = some v → (s.pc (.mutator m)).holding = true

variable {μ τ L V N : Type*} [DecidableEq μ] [DecidableEq τ] [DecidableEq L]
  [DecidableEq V] [DecidableEq N]
  {s s' : State μ τ L V N} {M : Manager (Key μ τ) L V N} {m : μ} {q : Pc L V N}

omit [DecidableEq L] [DecidableEq V] [DecidableEq N] in
/-- A mutator moves and writes no protected pointer. -/
theorem Protected.move (h : Protected s) (hpc : s'.pc = Function.update s.pc (.mutator m) q)
    (hslots : s'.protectedPtr = s.protectedPtr) (hhome : ∀ j, j ≠ m → s'.home j = s.home j)
    (hheld : ∀ j, j ≠ m → s'.held (.mutator j) = s.held (.mutator j))
    (hrelies : ∀ v, Relies s' m v → s'.home m = s.home m ∧ Relies s m v)
    (hholding : ∀ v, s'.held (.mutator m) = some v → q.holding = true) : Protected s' := by
  have hpcs : ∀ j, j ≠ m → s'.pc (.mutator j) = s.pc (.mutator j) := by
    intro j hj
    rw [hpc,Function.update_of_ne (by simpa using hj)]
  constructor
  · intro j v hj
    rw [hslots]
    by_cases hjm : j = m
    · subst hjm
      obtain ⟨hsame,hold⟩ := hrelies v hj
      rw [hsame]
      exact h.relies j v hold
    · rw [hhome j hjm]
      refine h.relies j v ?_
      rwa [Relies,hheld j hjm,hpcs j hjm] at hj
  · intro j v hj
    by_cases hjm : j = m
    · subst hjm
      rw [hpc,Function.update_self]
      exact hholding v hj
    · rw [hpcs j hjm]
      rw [hheld j hjm] at hj
      exact h.holding j v hj

omit [DecidableEq L] [DecidableEq V] [DecidableEq N] in
/-- A mutator that holds nothing writes the protected pointer of its thread. -/
theorem Protected.store {x : Option V} (h : Protected s)
    (hpc : s'.pc = Function.update s.pc (.mutator m) q)
    (hslots : s'.protectedPtr = Function.update s.protectedPtr (.thread (s.home m)) x)
    (hhome : s'.home = s.home) (hheld : s'.held = s.held) (hnone : s.held (.mutator m) = none)
    (hvalidates : ∀ v, q.validates = some v → x = some v)
    (hothers : ∀ j, j ≠ m → s.home j = s.home m → ∀ v, Relies s j v → x = some v) :
    Protected s' := by
  have hpcs : ∀ j, j ≠ m → s'.pc (.mutator j) = s.pc (.mutator j) := by
    intro j hj
    rw [hpc,Function.update_of_ne (by simpa using hj)]
  constructor
  · intro j v hj
    rw [hslots,hhome]
    by_cases hjm : j = m
    · subst hjm
      rw [Relies,hheld,hnone,hpc,Function.update_self] at hj
      rw [Function.update_self]
      exact hvalidates v (hj.resolve_left (by rintro ⟨⟩))
    · rw [Relies,hheld,hpcs j hjm] at hj
      by_cases hsame : s.home j = s.home m
      · rw [hsame,Function.update_self]
        exact hothers j hjm hsame v hj
      · rw [Function.update_of_ne (by simpa using hsame)]
        exact h.relies j v hj
  · intro j v hj
    rw [hheld] at hj
    by_cases hjm : j = m
    · subst hjm
      rw [hnone] at hj
      cases hj
    · rw [hpcs j hjm]
      exact h.holding j v hj

omit [DecidableEq μ] [DecidableEq τ] [DecidableEq L] [DecidableEq V] [DecidableEq N] in
/-- A mutator outside of the program points that may use a pointer holds none. -/
theorem Protected.held_none (h : Protected s) (hm : (s.pc (.mutator m)).holding = false) :
    s.held (.mutator m) = none := by
  cases hv : s.held (.mutator m) with
  | none => rfl
  | some v =>
    rw [h.holding m v hv] at hm
    cases hm

omit [DecidableEq L] in
/-- A step of a mutator. -/
theorem protected_mutatorStep {spurious : Bool} (h : Protected s)
    (hallowed : Undisturbing s (.step m spurious))
    (hs : mutatorStep s.toManager (s.home m) m spurious = some M) : Protected (s.put M) := by
  cases hpc : s.pc (.mutator m) with
  | absent | idle | retireNew v => simp [mutatorStep,threadStep,hpc] at hs
  | makeAssert | makeInsert | register | destroyCount =>
    have hnone := h.held_none (m := m) (by rw [hpc]; rfl)
    simp only [mutatorStep,threadStep,hpc] at hs
    split at hs <;> cases hs
    refine h.move rfl rfl (fun _ _ => rfl) (fun _ _ => rfl) (fun v hv => ?_) fun v hv => ?_
    · simp [Relies,State.put,Manager.goto,hnone,Pc.validates] at hv
    · simp [State.put,Manager.goto,hnone] at hv
  | makeCount | acquireLoad ptr =>
    have hnone := h.held_none (m := m) (by rw [hpc]; rfl)
    simp only [mutatorStep,threadStep,hpc,Option.some.injEq] at hs
    subst hs
    refine h.move rfl rfl (fun _ _ => rfl) (fun _ _ => rfl) (fun v hv => ?_) fun v hv => ?_
    · simp [Relies,State.put,Manager.goto,hnone,Pc.validates] at hv
    · simp [State.put,Manager.goto,hnone] at hv
  | retireCount =>
    simp only [mutatorStep,threadStep,hpc,Option.some.injEq] at hs
    subst hs
    refine h.move rfl rfl (fun _ _ => rfl) (fun _ _ => rfl) (fun v hv => ⟨rfl,?_⟩) fun _ _ => rfl
    simp only [Relies,State.put,Manager.goto,Function.update_self,Pc.validates,
      reduceCtorEq,or_false] at hv
    exact .inl hv
  | acquireStore ptr before =>
    have hnone := h.held_none (m := m) (by rw [hpc]; rfl)
    simp only [mutatorStep,hpc,Option.some.injEq] at hs
    subst hs
    exact h.store rfl rfl rfl rfl hnone (fun v hv => hv) (hallowed before (by rw [hpc]; rfl))
  | releaseStore | destroyStore =>
    have hnone := h.held_none (m := m) (by rw [hpc]; rfl)
    simp only [mutatorStep,hpc,Option.some.injEq] at hs
    subst hs
    exact h.store rfl rfl rfl rfl hnone (by rintro _ ⟨⟩) (hallowed none (by rw [hpc]; rfl))
  | acquireCheck ptr before =>
    have hnone := h.held_none (m := m) (by rw [hpc]; rfl)
    simp only [mutatorStep,threadStep,hpc] at hs
    split at hs <;> cases hs
    · refine h.move rfl rfl (fun _ _ => rfl) ?_ (fun v hv => ⟨rfl,.inr ?_⟩) fun _ _ => rfl
      · intro j hj
        simp only [State.put,Manager.goto,Manager.hold]
        rw [Function.update_of_ne (by simpa using hj)]
      · simp only [Relies,State.put,Manager.goto,Manager.hold,Function.update_self,Pc.validates,
          reduceCtorEq,or_false] at hv
        rw [hpc]
        exact hv
    · refine h.move rfl rfl (fun _ _ => rfl) (fun _ _ => rfl) (fun v hv => ?_) fun v hv => ?_
      · simp [Relies,State.put,Manager.goto,hnone,Pc.validates] at hv
      · simp [State.put,Manager.goto,hnone] at hv
  | retireCas retire =>
    simp only [mutatorStep,hpc] at hs
    split at hs <;> cases hs
    · refine h.move rfl rfl (fun _ _ => rfl) (fun _ _ => rfl) (fun v hv => ⟨rfl,?_⟩) fun _ _ => rfl
      simp only [Relies,State.put,Manager.goto,Manager.setRetiredPtrs,Function.update_self,
        Pc.validates,reduceCtorEq,or_false] at hv
      exact .inl hv
    · exact ⟨h.relies,h.holding⟩

omit [DecidableEq L] [DecidableEq V] [DecidableEq N] in
/-- A function of a live mutator is called. -/
theorem Protected.use (h : Protected s) (hpc : s'.pc = Function.update s.pc (.mutator m) q)
    (hslots : s'.protectedPtr = s.protectedPtr) (hhome : s'.home = s.home)
    (hheld : ∀ j, j ≠ m → s'.held (.mutator j) = s.held (.mutator j))
    (hq : q.validates = none)
    (hm : s'.held (.mutator m) = none ∨
      s'.held (.mutator m) = s.held (.mutator m) ∧ q.holding = true) : Protected s' := by
  refine h.move hpc hslots (fun _ _ => by rw [hhome]) hheld
    (fun v hv => ⟨by rw [hhome],?_⟩) fun v hv => ?_
  · rw [Relies,hpc,Function.update_self,hq] at hv
    rcases hm with hnone | ⟨hsame,-⟩
    · rw [hnone] at hv
      exact absurd (hv.resolve_right (by rintro ⟨⟩)) (by rintro ⟨⟩)
    · rw [hsame] at hv
      exact .inl (hv.resolve_right (by rintro ⟨⟩))
  · rcases hm with hnone | ⟨-,hholding⟩
    · rw [hnone] at hv
      cases hv
    · exact hholding

/-- Every step of a run without disturbing stores keeps what is held protected. -/
theorem protected_step {a : Action μ τ L V N} (h : Protected s) (hallowed : Undisturbing s a)
    (hs : step s a = some s') : Protected s' := by
  cases a with
  | write ptr x =>
    simp only [step,Option.map_eq_some_iff,HazardManager.step] at hs
    obtain ⟨M,⟨⟩,rfl⟩ := hs
    exact ⟨h.relies,h.holding⟩
  | makeMutator m t =>
    simp only [step,Option.map_eq_some_iff,HazardManager.step] at hs
    obtain ⟨M,hM,rfl⟩ := hs
    split at hM <;> cases hM
    next hpc =>
      have hnone := h.held_none (m := m) (by rw [hpc]; rfl)
      refine h.move rfl rfl ?_ (fun _ _ => rfl) (fun v hv => ?_) fun v hv => ?_
      · exact fun j hj => Function.update_of_ne hj ..
      · simp [Relies,State.put,Manager.goto,hnone,Pc.validates] at hv
      · simp [State.put,Manager.goto,hnone] at hv
  | acquire m ptr | release m | destroyMutator m =>
    simp only [step,Option.map_eq_some_iff,HazardManager.step] at hs
    obtain ⟨M,hM,rfl⟩ := hs
    obtain ⟨-,rfl⟩ := call_moves hM
    refine h.use rfl rfl rfl ?_ rfl (.inl ?_)
    · intro j hj
      simp only [State.put,Manager.goto,Manager.hold]
      rw [Function.update_of_ne (by simpa using hj)]
    · simp [State.put,Manager.goto,Manager.hold]
  | retire m v =>
    cases v with
    | none | some v =>
      simp only [step,Option.map_eq_some_iff,HazardManager.step] at hs
      obtain ⟨M,hM,rfl⟩ := hs
      obtain ⟨-,rfl⟩ := call_moves hM
      exact h.use rfl rfl rfl (fun _ _ => rfl) rfl (.inr ⟨rfl,rfl⟩)
  | alloc m node =>
    simp only [step] at hs
    split at hs <;> cases hs
    next v hpc hfree => exact h.use rfl rfl rfl (fun _ _ => rfl) rfl (.inr ⟨rfl,rfl⟩)
  | step m spurious =>
    simp only [step,Option.map_eq_some_iff] at hs
    obtain ⟨M,hM,rfl⟩ := hs
    exact protected_mutatorStep h hallowed hM
  | lock order =>
    simp only [step,Option.map_eq_some_iff,HazardManager.step] at hs
    obtain ⟨M,hM,rfl⟩ := hs
    split at hM
    · split at hM <;> cases hM
      · exact ⟨h.relies,h.holding⟩
      · exact ⟨h.relies,h.holding⟩
    · cases hM
  | collect spurious =>
    simp only [step,Option.map_eq_some_iff,HazardManager.step] at hs
    obtain ⟨M,hM,rfl⟩ := hs
    obtain ⟨hpc,-,hheld,hslots,-⟩ := collectorStep_moves hM
    constructor
    · simp only [Relies,State.put,hpc,hheld,hslots]
      exact h.relies
    · simp only [State.put,hpc,hheld]
      exact h.holding
  | destroy =>
    simp only [step,Option.map_eq_some_iff,HazardManager.step] at hs
    obtain ⟨M,hM,rfl⟩ := hs
    split at hM <;> cases hM
    exact ⟨h.relies,h.holding⟩

variable [Inhabited τ]

/-- In a run in which no mutator stores what another mutator of its thread does not
rely on, the pointer that a mutator got from its last Acquire is among the protected
pointers until the mutator itself calls Acquire or Release or is destroyed. -/
theorem held_stays_protected {v : V} (hr : (mutators μ τ L V N).ReachableUnder Undisturbing s)
    (hheld : s.held (.mutator m) = some v) : v ∈ s.protectedPtrs := by
  have hprotected : Protected s := by
    refine System.ReachableUnder.invariant ?_ ?_ hr
    · constructor
      · intro m v hv
        exact absurd hv (by simp [Relies,mutators,initial,HazardManager.initial,Pc.validates])
      · rintro _ _ ⟨⟩
    · exact fun _ _ _ _ h hallowed hs => protected_step h hallowed hs
  have hregistered : (s.pc (.mutator m)).registered = true := by
    have hholding := hprotected.holding m v hheld
    revert hholding
    cases s.pc (.mutator m) <;> first | exact fun _ => rfl | rintro ⟨⟩
  exact ⟨_,(registry_reachable hr.reachable).home m hregistered,hprotected.relies m v (.inl hheld)⟩

instance decidableUndisturbing [Fintype μ] [Fintype V] (s : State μ τ L V N) :
    ∀ a, Decidable (Undisturbing s a)
  | .step m _ =>
    inferInstanceAs (Decidable
      (∀ x, (s.pc (.mutator m)).stores = some x → ∀ j, j ≠ m → s.home j = s.home m →
      ∀ v, s.held (.mutator j) = some v ∨ (s.pc (.mutator j)).validates = some v → x = some v))
  | .write .. | .makeMutator .. | .acquire .. | .release .. | .retire ..
  | .destroyMutator .. | .alloc ..
  | .lock .. | .collect .. | .destroy => isTrue trivial

/-- Two mutators of one thread acquire the same pointer, and a mutator of another
thread another one, which it releases. -/
def shares : List (Action (Fin 3) (Fin 2) (Fin 2) (Fin 2) (Fin 1)) :=
  [[.write 0 (some 0),.write 1 (some 1)],makes 0 0,makes 1 0,makes 2 1,acquires 0 0,acquires 1 0,
    acquires 2 1,[.release 2,.step 2 false]].flatten

theorem shares_ends : (mutators (Fin 3) (Fin 2) (Fin 2) (Fin 2) (Fin 1)).Ends (initial ..) shares
    fun s => s.held (.mutator 0) = some 0 ∧ s.held (.mutator 1) = some 0 := by
  decide +kernel

theorem shares_meets :
    (mutators (Fin 3) (Fin 2) (Fin 2) (Fin 2) (Fin 1)).Meets Undisturbing (initial ..) shares := by
  decide +kernel

/-- The theorem at that run. -/
theorem held_stays_protected_shared :
    ∃ s : State (Fin 3) (Fin 2) (Fin 2) (Fin 2) (Fin 1),
      (mutators (Fin 3) (Fin 2) (Fin 2) (Fin 2) (Fin 1)).ReachableUnder Undisturbing s ∧
      s.held (.mutator 0) = some 0 ∧ s.held (.mutator 1) = some 0 ∧ 0 ∈ s.protectedPtrs := by
  obtain ⟨s,hr,hheld,hother⟩ := shares_ends.reachableUnder shares_meets
  exact ⟨s,hr,hheld,hother,held_stays_protected hr hheld⟩

omit [DecidableEq L] [Inhabited τ] in
/-- A store writes the protected pointer of the thread and moves the mutator. -/
theorem mutatorStep_stores {t : τ} {x : Option V} (hx : (M.pc (.mutator m)).stores = some x)
    (spurious : Bool) :
    ∃ q, mutatorStep M t m spurious = some ((M.protect (.thread t) x).goto (.mutator m) q) := by
  cases hpc : M.pc (.mutator m) with
  | acquireStore ptr before | releaseStore | destroyStore =>
    rw [hpc] at hx
    cases hx
    simp only [mutatorStep,hpc]
    exact ⟨_,rfl⟩
  | absent | makeAssert | makeInsert | makeCount | register | idle | acquireLoad
  | acquireCheck | retireNew
  | retireCas | retireCount | destroyCount =>
    rw [hpc] at hx
    cases hx

/-- A store that the condition leaves out takes a pointer that another mutator holds,
or can get from Acquire, out of the protected pointer of their thread, and out of the
protected pointers where no other thread has it. -/
theorem unprotected_of_disturbing {j : μ} {v : V} {x : Option V}
    (hx : (s.pc (.mutator m)).stores = some x) (hj : j ≠ m) (hhome : s.home j = s.home m)
    (hrelies : Relies s j v) (hne : x ≠ some v) :
    ∃ acts s', (mutators μ τ L V N).run s (.step m false :: acts) = some s' ∧
      s'.held (.mutator j) = some v ∧ s'.protectedPtr (.thread (s'.home j)) ≠ some v ∧
      ((∀ k, k ≠ .thread (s.home m) → s.protectedPtr k ≠ some v) → v ∉ s'.protectedPtrs) := by
  obtain ⟨q,hstep⟩ := mutatorStep_stores (M := s.toManager) (t := s.home m) hx false
  have hslot : Function.update s.protectedPtr (Key.thread (s.home m)) x
      (.thread (s.home j)) ≠ some v := by
    rwa [hhome,Function.update_self]
  have hgone : (∀ k, k ≠ .thread (s.home m) → s.protectedPtr k ≠ some v) →
      ¬∃ k ∈ s.threads, Function.update s.protectedPtr (Key.thread (s.home m)) x k = some v := by
    rintro hothers ⟨k,-,hk⟩
    by_cases he : k = .thread (s.home m)
    · subst he
      rw [Function.update_self] at hk
      exact hne hk
    · rw [Function.update_of_ne he] at hk
      exact hothers k he hk
  rcases hrelies with hheld | hvalidates
  · refine ⟨[],s.put ((s.protect (.thread (s.home m)) x).goto (.mutator m) q),?_,hheld,hslot,hgone⟩
    simp [System.run,mutators,step,hstep]
  · obtain ⟨ptr,hpc⟩ : ∃ ptr, s.pc (.mutator j) = .acquireCheck ptr (some v) := by
      revert hvalidates
      cases s.pc (.mutator j) with
      | acquireCheck ptr before =>
        rintro ⟨⟩
        exact ⟨ptr,rfl⟩
      | absent | makeAssert | makeInsert | makeCount | register | idle | acquireLoad | acquireStore
      | releaseStore | retireNew | retireCas | retireCount | destroyStore
      | destroyCount => rintro ⟨⟩
    -- a client publishes the pointer again, and Acquire finds what it stored
    let stored := (s.protect (.thread (s.home m)) x).goto (.mutator m) q
    let written := { stored with shared := Function.update s.shared ptr (some v) }
    have hpc' : written.pc (.mutator j) = .acquireCheck ptr (some v) := by
      simp only [written,stored,Manager.goto,Manager.protect]
      rw [Function.update_of_ne (by simpa using hj)]
      exact hpc
    have hcheck : mutatorStep written (s.home j) j false =
        some ((written.hold (.mutator j) (some v)).goto (.mutator j) .idle) := by
      simp only [mutatorStep,threadStep,hpc']
      rw [if_pos (Function.update_self ..)]
    refine ⟨[.write ptr (some v),.step j false],
      s.put ((written.hold (.mutator j) (some v)).goto (.mutator j)
      .idle),?_,?_,hslot,hgone⟩
    · simp only [System.run,mutators,step,hstep,Option.map_some]
      simp only [HazardManager.step,Option.map_some,State.put]
      simp only [written,stored] at hcheck
      simp only [Manager.goto,Manager.protect] at hcheck ⊢
      rw [hcheck]
      rfl
    · simp [State.put,Manager.goto,Manager.hold]

/-- A thread acquires a pointer with one mutator; then it makes another one and
destroys it. -/
def nests : List (Action (Fin 2) (Fin 1) (Fin 1) (Fin 1) (Fin 1)) :=
  [[.write 0 (some 0)],makes 0 0,acquires 0 0,makes 1 0,
    [.destroyMutator 1,.step 1 false,.step 1 false]].flatten

theorem nests_ends : (mutators (Fin 2) (Fin 1) (Fin 1) (Fin 1) (Fin 1)).Ends (initial ..) nests
    fun s => s.held (.mutator 0) = some 0 ∧ s.pc (.mutator 0) = .idle ∧
      s.pc (.mutator 1) = .absent ∧
      s.threads = [.thread 0] ∧ s.protectedPtr (.thread 0) = none := by
  decide +kernel

/-- The destructor of the second mutator has taken away what the first one holds. -/
theorem nested_mutator_unprotects :
    ∃ s : State (Fin 2) (Fin 1) (Fin 1) (Fin 1) (Fin 1),
      (mutators (Fin 2) (Fin 1) (Fin 1) (Fin 1) (Fin 1)).Reachable s ∧ s.pc (.mutator 0) = .idle ∧
      s.held (.mutator 0) = some 0 ∧ 0 ∉ s.protectedPtrs := by
  obtain ⟨s,hr,hheld,hidle,-,hthreads,hslot⟩ := nests_ends.reachable
  refine ⟨s,hr,hidle,hheld,?_⟩
  rintro ⟨k,hk,hv⟩
  rw [hthreads,List.mem_singleton] at hk
  subst hk
  rw [hslot] at hv
  cases hv

end ConcurrencyRuntime.HazardMutators
