import ConcurrencyRuntime.HazardDestructor

/-!
# The counter that wakes the collector

A pass resets the counter before it looks at any list. Until a list is exchanged its
nodes are the business of the pass; from then on every node on it was pushed after the
reset, and is counted, or its Retire or the collector is about to count it. When the
pass is over this holds of all lists.
-/

namespace ConcurrencyRuntime.HazardManager

/-- The lists that the present pass has yet to exchange. The destructor does not
count, and neither the start of a pass. -/
def CollectorPc.Exempt {κ V N : Type*} : CollectorPc κ V N → κ → Prop
  | .guardCancel,_ | .guardCount,_ | .reset,_ | .sleepCount,_ | .sleepCancel,_ | .sleep,_ => False
  | .exchange pass,k | .walk pass ..,k | .putLoad pass ..,k | .putCas pass ..,k
  | .putCount pass ..,k => pass.caller = .destroy ∨ k ∈ pass.todo
  | _,_ => True

/-- The node that the collector has put back and not counted yet. -/
def CollectorPc.owes {κ V N : Type*} : CollectorPc κ V N → ℕ
  | .putCount .. => 1
  | _ => 0

/-- The sleep loop between two passes. -/
def CollectorPc.sleeping {κ V N : Type*} : CollectorPc κ V N → Bool
  | .sleepCount | .sleepCancel | .sleep => true
  | _ => false

/-- A program point of the collector that is neither in the scan nor in the asserts
of its destructor. -/
def CollectorPc.plain {κ V N : Type*} : CollectorPc κ V N → Bool
  | .scan .. | .assertProtected _ | .assertRetired .. => false
  | _ => true

end ConcurrencyRuntime.HazardManager

namespace ConcurrencyRuntime.HazardMutators

open TransitionSystem HazardManager LinkedPath LinkedStacks Census

variable {μ τ L V N : Type*} [DecidableEq μ] [DecidableEq τ] [DecidableEq L]
  [DecidableEq V] [DecidableEq N]

/-- A node on a list that is not exempt. -/
def Pushed {κ V N : Type*} (c : CollectorPc κ V N) (p : Option (Place κ)) : Prop :=
  ∃ k, p = some (.stack k) ∧ ¬c.Exempt k

/-- The calls of Retire that have pushed their node and not counted it. -/
noncomputable def uncounted {μ τ L V N : Type*} (M : Manager (Key μ τ) L V N) : ℕ∞ :=
  census (fun pc => pc = .retireCount) fun m => M.pc (.mutator m)

/-- Every node on a list that is not exempt is counted, or about to be. -/
structure Trigger {μ τ L V N : Type*} (M : Manager (Key μ τ) L V N)
    (place : N → Option (Place (Key μ τ))) : Prop where
  /-- Only the lists of known threads have nodes. -/
  listed : M.collector ≠ .destroyed → ∀ n k, place n = some (.stack k) → k ∈ M.threads
  /-- A pass covers the known threads. -/
  covers : ∀ order todo found, M.collector = .scan order todo found → M.threads ⊆ order
  destroyer : ∀ pass, M.collector = .assertProtected pass ∨
    (∃ i, M.collector = .assertRetired pass i) → pass.caller = .destroy
  count : census (Pushed M.collector) place ≤
    M.approximateFreeListSize + uncounted M + M.collector.owes

/-- What a pass knows: its scan covers the threads, and the asserts are of the
destructor. -/
structure Passing {K V N : Type*} (threads : List K) (pc : CollectorPc K V N) : Prop where
  covers : ∀ order todo found, pc = .scan order todo found → threads ⊆ order
  destroyer : ∀ pass, pc = .assertProtected pass ∨ (∃ i, pc = .assertRetired pass i) →
    pass.caller = .destroy

theorem Passing.plain {K V N : Type*} {threads : List K} {pc : CollectorPc K V N}
    (hpc : pc.plain = true) : Passing threads pc := by
  cases pc <;> constructor <;> simp_all [CollectorPc.plain]

section Steps

variable {s s' : State μ τ L V N} {M M' : Manager (Key μ τ) L V N} {t : τ} {m : μ} {q : Pc L V N}
  {place place' : N → Option (Place (Key μ τ))}

omit [DecidableEq L] [DecidableEq V] [DecidableEq N] in
/-- One mutator moves. -/
theorem uncounted_update (hpc : M'.pc = Function.update M.pc (.mutator m) q) :
    uncounted M' = census (fun pc => pc = .retireCount)
      (Function.update (fun j => M.pc (.mutator j)) m q) := by
  refine congrArg (census _) (funext ?_)
  intro j
  simp only [hpc,Function.update_apply,Key.mutator.injEq]

omit [DecidableEq L] [DecidableEq V] [DecidableEq N] in
/-- A mutator moves outside of the end of Retire. -/
theorem Trigger.move (h : Trigger M place) (hpc : M'.pc = Function.update M.pc (.mutator m) q)
    (hold : M.pc (.mutator m) ≠ .retireCount) (hnew : q ≠ .retireCount)
    (hsize : M'.approximateFreeListSize = M.approximateFreeListSize)
    (hcollector : M'.collector = M.collector) (hthreads : M'.threads = M.threads)
    (hplace : ∀ n k, place' n = some (.stack k) → place n = some (.stack k)) :
    Trigger M' place' := by
  refine ⟨?_,?_,?_,?_⟩
  · rw [hcollector,hthreads]
    exact fun hlive n k hn => h.listed hlive n k (hplace n k hn)
  · rw [hcollector,hthreads]
    exact h.covers
  · rw [hcollector]
    exact h.destroyer
  · have hstay : q = .retireCount ↔ M.pc (.mutator m) = .retireCount := iff_of_false hnew hold
    rw [hcollector,hsize,uncounted_update hpc,census_stay hstay]
    refine le_trans (census_le ?_) h.count
    rintro n ⟨k,hn,hk⟩
    exact ⟨k,hplace n k hn,hk⟩

omit [DecidableEq μ] [DecidableEq τ] [DecidableEq L] [DecidableEq V] [DecidableEq N] in
/-- The collector moves, with no fewer lists exempt and no node pushed. -/
theorem Trigger.quiet (h : Trigger M place) (hpc : M'.pc = M.pc)
    (hsize : M.approximateFreeListSize + M.collector.owes ≤
      M'.approximateFreeListSize + M'.collector.owes)
    (hthreads : M'.threads = M.threads)
    (hlive : M.collector ≠ .destroyed)
    (hplace : ∀ n k, place' n = some (.stack k) → place n = some (.stack k))
    (hexempt : ∀ k, M.collector.Exempt k → M'.collector.Exempt k)
    (hpassing : Passing M.threads M'.collector) : Trigger M' place' := by
  refine ⟨?_,?_,hpassing.destroyer,?_⟩
  · intro _ n k hn
    rw [hthreads]
    exact h.listed hlive n k (hplace n k hn)
  · rw [hthreads]
    exact hpassing.covers
  · have hless : census (Pushed M'.collector) place' ≤ census (Pushed M.collector) place := by
      refine census_le ?_
      rintro n ⟨k,hn,hk⟩
      exact ⟨k,hplace n k hn,fun he => hk (hexempt k he)⟩
    have hcast : (M.approximateFreeListSize : ℕ∞) + M.collector.owes ≤
        M'.approximateFreeListSize + M'.collector.owes := by exact_mod_cast hsize
    have huncounted : uncounted M' = uncounted M := by simp only [uncounted,hpc]
    calc census (Pushed M'.collector) place'
        ≤ M.approximateFreeListSize + uncounted M + M.collector.owes := hless.trans h.count
      _ = (M.approximateFreeListSize + M.collector.owes) + uncounted M := add_right_comm ..
      _ ≤ (M'.approximateFreeListSize + M'.collector.owes) + uncounted M := by gcongr
      _ = M'.approximateFreeListSize + uncounted M' + M'.collector.owes := by
        rw [huncounted]
        exact add_right_comm ..

omit [DecidableEq L] [DecidableEq V] in
/-- Retire pushes its node. -/
theorem Trigger.push {n : N} (h : Trigger M place) (hlisted : .thread t ∈ M.threads)
    (hpc : M'.pc = Function.update M.pc (.mutator m) .retireCount)
    (hold : M.pc (.mutator m) ≠ .retireCount)
    (hsize : M'.approximateFreeListSize = M.approximateFreeListSize)
    (hcollector : M'.collector = M.collector) (hthreads : M'.threads = M.threads) :
    Trigger M' (Function.update place n (some (.stack (.thread t)))) := by
  refine ⟨?_,?_,?_,?_⟩
  · rw [hcollector,hthreads]
    intro hlive n' k hn
    by_cases he : n' = n
    · subst he
      rw [Function.update_self] at hn
      cases hn
      exact hlisted
    · rw [Function.update_of_ne he] at hn
      exact h.listed hlive n' k hn
  · rw [hcollector,hthreads]
    exact h.covers
  · rw [hcollector]
    exact h.destroyer
  · have hmore : uncounted M' = uncounted M + 1 := by
      rw [uncounted_update hpc]
      exact census_enter hold rfl
    rw [hcollector,hsize,hmore]
    calc census (Pushed M.collector) (Function.update place n (some (.stack (.thread t))))
        ≤ census (Pushed M.collector) place + 1 := census_update_le ..
      _ ≤ M.approximateFreeListSize + uncounted M + M.collector.owes + 1 := by
        gcongr
        exact h.count
      _ = M.approximateFreeListSize + (uncounted M + 1) + M.collector.owes := by ring

omit [DecidableEq L] [DecidableEq V] [DecidableEq N] in
/-- IncreaseRetired. -/
theorem Trigger.increase (h : Trigger M place)
    (hpc : M'.pc = Function.update M.pc (.mutator m) .idle)
    (hold : M.pc (.mutator m) = .retireCount)
    (hsize : M'.approximateFreeListSize = M.approximateFreeListSize + 1)
    (hcollector : M'.collector = M.collector) (hthreads : M'.threads = M.threads) :
    Trigger M' place := by
  refine ⟨?_,?_,?_,?_⟩
  · rw [hcollector,hthreads]
    exact h.listed
  · rw [hcollector,hthreads]
    exact h.covers
  · rw [hcollector]
    exact h.destroyer
  · have hless : uncounted M = uncounted M' + 1 := by
      rw [uncounted_update hpc]
      exact census_leave hold (by rintro ⟨⟩)
    rw [hcollector,hsize]
    calc census (Pushed M.collector) place
        ≤ M.approximateFreeListSize + uncounted M + M.collector.owes := h.count
      _ = ((M.approximateFreeListSize + 1 : ℕ) : ℕ∞) + uncounted M' + M.collector.owes := by
        rw [hless]
        push_cast
        ring

omit [DecidableEq L] in
/-- A step of a mutator. -/
theorem trigger_mutatorStep {spurious : Bool} (h : Trigger M place)
    (hlisted : (M.pc (.mutator m)).registered = true → .thread t ∈ M.threads)
    (hs : mutatorStep M t m spurious = some M') :
    Trigger M' (match M.pc (.mutator m) with
      | .retireCas retire =>
        if M.retiredPtrs (.thread t) = M.next retire ∧ spurious = false then
          Function.update place retire (some (.stack (.thread t)))
        else place
      | _ => place) := by
  cases hpc : M.pc (.mutator m) with
  | absent | idle | retireNew v => simp [mutatorStep,threadStep,hpc] at hs
  | makeAssert | register | destroyCount | acquireCheck ptr before =>
    simp only [mutatorStep,threadStep,hpc] at hs
    split at hs <;> cases hs
    all_goals exact h.move rfl (by rw [hpc]; rintro ⟨⟩) (by rintro ⟨⟩) rfl rfl rfl fun _ _ hn => hn
  | makeCount | acquireLoad ptr | acquireStore ptr before | releaseStore | destroyStore =>
    simp only [mutatorStep,threadStep,hpc,Option.some.injEq] at hs
    subst hs
    exact h.move rfl (by rw [hpc]; rintro ⟨⟩) (by rintro ⟨⟩) rfl rfl rfl fun _ _ hn => hn
  | makeInsert =>
    simp only [mutatorStep,hpc] at hs
    split at hs
    next => cases hs
    next hlocked =>
      cases hs
      have hmove : Trigger (M.goto (.mutator m) .makeCount) place :=
        h.move rfl (by rw [hpc]; rintro ⟨⟩) (by rintro ⟨⟩) rfl rfl rfl fun _ _ hn => hn
      refine ⟨?_,?_,hmove.destroyer,hmove.count⟩
      · intro hlive n k hn
        have hk := h.listed hlive n k hn
        simp only [Manager.goto]
        split
        · exact hk
        · exact List.mem_cons_of_mem _ hk
      · -- the mutex is free, so no pass is going on
        intro order todo found hscan
        have hscan' : M.collector = .scan order todo found := hscan
        simp [hscan',CollectorPc.locked] at hlocked
  | retireCount =>
    simp only [mutatorStep,threadStep,hpc,Option.some.injEq] at hs
    subst hs
    exact h.increase rfl hpc rfl rfl rfl
  | retireCas retire =>
    simp only [mutatorStep,hpc] at hs
    split at hs
    next hcas =>
      cases hs
      simp only [hcas,and_self,if_true]
      exact h.push (hlisted (by rw [hpc]; rfl)) rfl (by rw [hpc]; rintro ⟨⟩) rfl rfl rfl
    next hcas =>
      cases hs
      simp only [hcas,if_false]
      exact ⟨h.listed,h.covers,h.destroyer,h.count⟩

omit [DecidableEq μ] [DecidableEq τ] [DecidableEq L] [DecidableEq V] [DecidableEq N] in
/-- No node is counted when all the lists with nodes are exempt. -/
theorem Trigger.start (hthreads : M'.threads = M.threads)
    (hlisted : ∀ n k, place n = some (.stack k) → k ∈ M.threads)
    (hexempt : ∀ k ∈ M.threads, M'.collector.Exempt k)
    (hpassing : Passing M.threads M'.collector) : Trigger M' place := by
  refine ⟨?_,?_,hpassing.destroyer,?_⟩
  · rw [hthreads]
    exact fun _ => hlisted
  · rw [hthreads]
    exact hpassing.covers
  · have hzero : census (Pushed M'.collector) place = 0 := by
      refine census_eq_zero.mpr ?_
      rintro n ⟨k,hn,hk⟩
      exact hk (hexempt k (hlisted n k hn))
    rw [hzero]
    exact zero_le

omit [DecidableEq L] in
/-- The collector exchanges a list, which has no node then. -/
theorem trigger_exchange {pass : Pass (Key μ τ) V} {spurious : Bool} (h : Trigger M place)
    (hc : M.collector = .exchange pass) (hs : checkToDelete M spurious = some M') :
    Trigger M' (trackCollector M place spurious) := by
  obtain ⟨caller,todo,found⟩ := pass
  have hlive : M.collector ≠ .destroyed := by
    rw [hc]
    rintro ⟨⟩
  cases todo with
  | nil =>
    cases caller with
    | collect | destroy =>
      simp only [checkToDelete,hc,Option.some.injEq] at hs
      subst hs
      simp only [trackCollector,hc]
      refine h.quiet rfl (by rw [hc]; exact le_rfl) rfl hlive (fun _ _ hn => hn) ?_ (.plain rfl)
      simp [hc,CollectorPc.Exempt,Manager.moveCollector]
  | cons i rest =>
    simp only [checkToDelete,hc,Option.some.injEq] at hs
    subst hs
    simp only [trackCollector,hc]
    have hstay : ∀ n k, (if place n = some (.stack i) then some .taken else place n) =
        some (.stack k) → place n = some (.stack k) ∧ k ≠ i := by
      intro n k hn
      split at hn
      next => cases hn
      next hne =>
        refine ⟨hn,?_⟩
        rintro rfl
        exact hne hn
    refine ⟨?_,by simp [Manager.moveCollector],by simp [Manager.moveCollector],?_⟩
    · exact fun _ n k hn => h.listed hlive n k (hstay n k hn).1
    · refine le_trans (census_le ?_) (h.count.trans_eq (by rw [hc]; rfl))
      rintro n ⟨k,hn,hk⟩
      obtain ⟨hplace,hne⟩ := hstay n k hn
      refine ⟨k,hplace,?_⟩
      rw [hc]
      simp only [CollectorPc.Exempt,Manager.moveCollector,List.mem_cons,not_or] at hk ⊢
      exact ⟨hk.1,hne,hk.2⟩

omit [DecidableEq L] in
/-- The collector puts a node back and counts it afterwards. -/
theorem trigger_putCas {pass : Pass (Key μ τ) V} {i : Key μ τ} {c : N} {next : Option N}
    {spurious : Bool} (h : Trigger M place) (hi : i ∈ M.threads)
    (hc : M.collector = .putCas pass i c next) (hs : checkToDelete M spurious = some M') :
    Trigger M' (trackCollector M place spurious) := by
  have hlive : M.collector ≠ .destroyed := by
    rw [hc]
    rintro ⟨⟩
  simp only [checkToDelete,hc] at hs
  simp only [trackCollector,hc]
  split at hs
  next hcas =>
    cases hs
    simp only [hcas,and_self,if_true]
    have hplain : Passing M.threads (.putCount pass i next) := .plain rfl
    refine ⟨?_,hplain.covers,hplain.destroyer,?_⟩
    · intro _ n k hn
      by_cases he : n = c
      · subst he
        rw [Function.update_self] at hn
        cases hn
        exact hi
      · rw [Function.update_of_ne he] at hn
        exact h.listed hlive n k hn
    · have hcount := h.count
      rw [hc] at hcount
      calc census (Pushed (.putCount pass i next)) (Function.update place c (some (.stack i)))
          ≤ census (Pushed (.putCount pass i next)) place + 1 := census_update_le ..
        _ ≤ M.approximateFreeListSize + uncounted M + 0 + 1 := by
          gcongr
          exact hcount
        _ = M.approximateFreeListSize + uncounted M + 1 := by rw [add_zero]
  next hcas =>
    cases hs
    simp only [hcas,if_false]
    exact ⟨h.listed,h.covers,h.destroyer,h.count⟩

omit [DecidableEq L] in
/-- A step of the collector. -/
theorem trigger_collectorStep {spurious : Bool} (h : Trigger M place)
    (hkeys : ∀ pass i c next, M.collector = .putCas pass i c next → i ∈ M.threads)
    (hs : collectorStep M spurious = some M') :
    Trigger M' (trackCollector M place spurious) := by
  have hlive : M.collector ≠ .destroyed := by
    intro he
    simp [collectorStep,he] at hs
  cases hc : M.collector with
  | lock | returned | destroyed | fault => simp [collectorStep,hc] at hs
  | exchange pass =>
    simp only [collectorStep,hc] at hs
    exact trigger_exchange h hc hs
  | putCas pass i c next =>
    simp only [collectorStep,hc] at hs
    exact trigger_putCas h (hkeys pass i c next hc) hc hs
  | guardCancel | guardCount | sleepCount | sleepCancel =>
    simp only [collectorStep,hc,Option.some.injEq] at hs
    subst hs
    simp only [trackCollector,hc]
    refine h.quiet rfl ?_ rfl hlive (fun _ _ hn => hn) ?_ (.plain ?_)
    all_goals simp only [hc,Manager.moveCollector]
    all_goals split
    all_goals simp [CollectorPc.owes,CollectorPc.Exempt,CollectorPc.plain]
  | sleep | putLoad pass i c next =>
    simp only [collectorStep,checkToDelete,hc,Option.some.injEq] at hs
    subst hs
    simp only [trackCollector,hc]
    refine h.quiet rfl (by rw [hc]; exact le_rfl) rfl hlive (fun _ _ hn => hn) ?_ (.plain rfl)
    simp [hc,CollectorPc.Exempt,Manager.moveCollector]
  | reset =>
    simp only [collectorStep,hc,Option.some.injEq] at hs
    subst hs
    simp only [trackCollector,hc]
    exact .start rfl (h.listed hlive) (fun _ _ => trivial) (.plain rfl)
  | scan order todo found =>
    have hcovers := h.covers order todo found hc
    simp only [trackCollector,hc]
    cases todo with
    | cons i rest =>
      simp only [collectorStep,hc,Option.some.injEq] at hs
      subst hs
      refine .start rfl (h.listed hlive) (fun _ _ => trivial) ?_
      constructor
      case covers =>
        rintro order' todo' found' ⟨⟩
        exact hcovers
      case destroyer => simp [Manager.moveCollector]
    | nil =>
      simp only [collectorStep,hc,Option.some.injEq] at hs
      subst hs
      exact .start rfl (h.listed hlive) (fun k hk => Or.inr (hcovers hk)) (.plain rfl)
  | walk pass i candidate =>
    cases candidate with
    | none =>
      cases hcaller : pass.caller with
      | collect | destroy =>
        simp only [collectorStep,checkToDelete,hc,hcaller,Option.some.injEq] at hs
        subst hs
        simp only [trackCollector,hc]
        refine h.quiet rfl (by rw [hc]; exact le_rfl) rfl hlive (fun _ _ hn => hn) ?_ ?_
        · simp [hc,CollectorPc.Exempt,Manager.moveCollector]
        · constructor <;> simp [Manager.moveCollector,hcaller]
    | some c =>
      simp only [collectorStep,checkToDelete,hc] at hs
      simp only [trackCollector,hc]
      cases hv : M.value c with
      | none =>
        simp only [hv,Option.some.injEq] at hs
        subst hs
        exact h.quiet rfl (by rw [hc]; exact le_rfl) rfl hlive (fun _ _ hn => hn)
          (fun _ _ => trivial) (.plain rfl)
      | some v =>
        -- the candidate goes into the hand of the collector or is deleted
        have hplace : ∀ n k,
            Function.update place c (if v ∈ pass.found then some .hand else none) n =
              some (.stack k) → place n = some (.stack k) := by
          intro n k hn
          by_cases he : n = c
          · subst he
            rw [Function.update_self] at hn
            split at hn <;> cases hn
          · rwa [Function.update_of_ne he] at hn
        simp only [hv] at hs
        split at hs
        all_goals
          cases hs
          refine h.quiet rfl (by rw [hc]; exact le_rfl) rfl hlive hplace ?_ (.plain rfl)
          simp [hc,CollectorPc.Exempt,Manager.moveCollector]
  | putCount pass i next =>
    simp only [collectorStep,checkToDelete,hc,Option.some.injEq] at hs
    subst hs
    simp only [trackCollector,hc]
    refine h.quiet rfl (by rw [hc]; exact le_rfl) rfl hlive (fun _ _ hn => hn) ?_ (.plain rfl)
    simp [hc,CollectorPc.Exempt,Manager.moveCollector]
  | assertProtected pass =>
    have hdestroy : pass.caller = .destroy := h.destroyer pass (.inl hc)
    have hmove : Trigger (M.moveCollector (.exchange pass)) place := by
      refine h.quiet rfl (by rw [hc]; exact le_rfl) rfl hlive (fun _ _ hn => hn) ?_ (.plain rfl)
      exact fun _ _ => Or.inl hdestroy
    simp only [trackCollector,hc]
    simp only [collectorStep,hc] at hs
    split at hs
    · split at hs <;> cases hs
      exact hmove
    · cases hs
      exact hmove
  | assertRetired pass i =>
    have hdestroy : pass.caller = .destroy := h.destroyer pass (.inr ⟨i,hc⟩)
    simp only [collectorStep,hc] at hs
    split at hs <;> cases hs
    simp only [trackCollector,hc]
    refine h.quiet rfl (by rw [hc]; exact le_rfl) rfl hlive (fun _ _ hn => hn) ?_ ?_
    · exact fun _ _ => trivial
    · constructor
      case covers => simp [Manager.moveCollector]
      case destroyer =>
        rintro pass' (⟨⟨⟩⟩ | ⟨i',⟨⟩⟩)
        exact hdestroy
  | clear =>
    simp only [collectorStep,hc] at hs
    split at hs <;> cases hs
    simp only [trackCollector,hc]
    have hplain : Passing ([] : List (Key μ τ)) (.destroyed : CollectorPc (Key μ τ) V N) :=
      .plain rfl
    refine ⟨fun hlive => absurd rfl hlive,hplain.covers,hplain.destroyer,?_⟩
    have hzero : census (Pushed (.destroyed : CollectorPc (Key μ τ) V N)) place = 0 := by
      refine census_eq_zero.mpr ?_
      rintro n ⟨k,_,hk⟩
      exact hk trivial
    exact hzero.trans_le zero_le

/-- A call of a function of a mutator. -/
theorem Trigger.call (h : Trigger M place) (hs : call M (.mutator m) q = some M')
    (hnew : q ≠ .retireCount) : Trigger M' place := by
  obtain ⟨hidle,rfl⟩ := call_moves hs
  exact h.move rfl (by rw [hidle]; rintro ⟨⟩) hnew rfl rfl rfl fun _ _ hn => hn

/-- Every step keeps the account. -/
theorem trigger_step {a : Action μ τ L V N} (h : Trigger s.toManager place) (hregistry : Registry s)
    (hpassing : ∀ k ∈ s.collector.keys, k ∈ s.threads) (hs : step s a = some s') :
    Trigger s'.toManager (track s place a) := by
  cases a with
  | write ptr x =>
    simp only [step,Option.map_eq_some_iff,HazardManager.step] at hs
    obtain ⟨M,⟨⟩,rfl⟩ := hs
    exact ⟨h.listed,h.covers,h.destroyer,h.count⟩
  | makeMutator m t =>
    simp only [step,Option.map_eq_some_iff,HazardManager.step] at hs
    obtain ⟨M,hM,rfl⟩ := hs
    split at hM <;> cases hM
    next hpc =>
      exact h.move rfl (by rw [hpc]; rintro ⟨⟩) (by rintro ⟨⟩) rfl rfl rfl fun _ _ hn => hn
  | acquire m ptr | release m | destroyMutator m =>
    simp only [step,Option.map_eq_some_iff,HazardManager.step] at hs
    obtain ⟨M,hM,rfl⟩ := hs
    have hhold : Trigger (s.hold (.mutator m) none) place := ⟨h.listed,h.covers,h.destroyer,h.count⟩
    exact hhold.call hM (by rintro ⟨⟩)
  | retire m v =>
    cases v with
    | none =>
      simp only [step,Option.map_eq_some_iff,HazardManager.step] at hs
      obtain ⟨M,hM,rfl⟩ := hs
      exact h.call hM (by rintro ⟨⟩)
    | some v =>
      simp only [step,Option.map_eq_some_iff,HazardManager.step] at hs
      obtain ⟨M,hM,rfl⟩ := hs
      have hretired : Trigger { s.toManager with retired := Function.update s.retired v true } place :=
        ⟨h.listed,h.covers,h.destroyer,h.count⟩
      exact hretired.call hM (by rintro ⟨⟩)
  | alloc m node =>
    simp only [step] at hs
    split at hs <;> cases hs
    next v hpc hfree =>
      refine h.move rfl (by rw [hpc]; rintro ⟨⟩) (by rintro ⟨⟩) rfl rfl rfl ?_
      intro n k hn
      simp only [track] at hn
      by_cases he : n = node
      · subst he
        rw [Function.update_self] at hn
        cases hn
      · rwa [Function.update_of_ne he] at hn
  | step m spurious =>
    simp only [step,Option.map_eq_some_iff] at hs
    obtain ⟨M,hM,rfl⟩ := hs
    exact trigger_mutatorStep h (hregistry.home m) hM
  | lock order =>
    simp only [step,Option.map_eq_some_iff,HazardManager.step] at hs
    obtain ⟨M,hM,rfl⟩ := hs
    simp only [track]
    split at hM
    next hperm =>
      split at hM <;> cases hM
      next hc =>
        refine .start rfl (h.listed (by rw [hc]; rintro ⟨⟩)) (fun _ _ => trivial) ?_
        constructor
        case covers =>
          rintro order' todo found ⟨⟩
          exact fun k hk => hperm.mem_iff.mpr hk
        case destroyer => simp [Manager.moveCollector,State.put]
      next hc _ =>
        refine .start rfl (h.listed (by rw [hc]; rintro ⟨⟩)) (fun _ _ => trivial) ?_
        constructor
        case covers => simp [Manager.moveCollector,State.put]
        case destroyer =>
          rintro pass (⟨⟨⟩⟩ | ⟨i,⟨⟩⟩)
          rfl
    next => cases hM
  | collect spurious =>
    simp only [step,Option.map_eq_some_iff,HazardManager.step] at hs
    obtain ⟨M,hM,rfl⟩ := hs
    refine trigger_collectorStep h ?_ hM
    intro pass i c next hc
    exact hpassing i (by rw [hc]; exact List.mem_cons_self)
  | destroy =>
    simp only [step,Option.map_eq_some_iff,HazardManager.step] at hs
    obtain ⟨M,hM,rfl⟩ := hs
    split at hM <;> cases hM
    exact ⟨h.listed,h.covers,h.destroyer,h.count⟩

/-- The keys that a pass has left are known threads. -/
theorem passing_step {a : Action μ τ L V N} (h : ∀ k ∈ s.collector.keys, k ∈ s.threads)
    (hs : step s a = some s') : ∀ k ∈ s'.collector.keys, k ∈ s'.threads := by
  cases a with
  | write ptr x =>
    simp only [step,Option.map_eq_some_iff,HazardManager.step] at hs
    obtain ⟨M,⟨⟩,rfl⟩ := hs
    exact h
  | makeMutator m t | destroy =>
    simp only [step,Option.map_eq_some_iff,HazardManager.step] at hs
    obtain ⟨M,hM,rfl⟩ := hs
    split at hM <;> cases hM
    exact h
  | acquire m ptr | release m | destroyMutator m =>
    simp only [step,Option.map_eq_some_iff,HazardManager.step] at hs
    obtain ⟨M,hM,rfl⟩ := hs
    obtain ⟨-,rfl⟩ := call_moves hM
    exact h
  | retire m v =>
    cases v with
    | none | some v =>
      simp only [step,Option.map_eq_some_iff,HazardManager.step] at hs
      obtain ⟨M,hM,rfl⟩ := hs
      obtain ⟨-,rfl⟩ := call_moves hM
      exact h
  | alloc m node =>
    simp only [step] at hs
    split at hs <;> cases hs
    exact h
  | step m spurious =>
    simp only [step,Option.map_eq_some_iff] at hs
    obtain ⟨M,hM,rfl⟩ := hs
    obtain ⟨-,-,-,hcollector,-⟩ := mutatorStep_moves hM
    intro k hk
    simp only [State.put,hcollector] at hk
    exact mutatorStep_threads hM (h k hk)
  | lock order =>
    simp only [step,Option.map_eq_some_iff,HazardManager.step] at hs
    obtain ⟨M,hM,rfl⟩ := hs
    split at hM
    next hperm =>
      have hkeys : ∀ k ∈ order, k ∈ s.threads := fun k hk => hperm.mem_iff.mp hk
      split at hM <;> cases hM
      next =>
        intro k hk
        simp only [State.put,Manager.moveCollector,CollectorPc.keys,List.mem_append,or_self] at hk
        exact hkeys k hk
      next => exact hkeys
    next => cases hM
  | collect spurious =>
    simp only [step,Option.map_eq_some_iff,HazardManager.step] at hs
    obtain ⟨M,hM,rfl⟩ := hs
    obtain ⟨hkeys,hthreads,-⟩ := collectorStep_keys hM
    intro k hk
    rcases hthreads with hsame | ⟨-,-,hdestroyed⟩
    · simp only [State.put,hsame]
      exact h k (hkeys k hk)
    · simp only [State.put,hdestroyed] at hk
      cases hk

theorem trigger_reachable [Inhabited τ] (hr : (mutators μ τ L V N).Reachable s) :
    ∃ place, Custody s.heap place ∧ Trigger s.toManager place := by
  have hinv : (∀ k ∈ s.collector.keys, k ∈ s.threads) ∧
      ∃ place, Custody s.heap place ∧ Trigger s.toManager place := by
    refine System.ReachableUnder.invariant ?_ ?_ hr
    · refine ⟨by rintro _ ⟨⟩,_,custody_initial,?_⟩
      refine ⟨by rintro _ _ _ ⟨⟩,by rintro _ _ _ ⟨⟩,(by rintro _ (he | ⟨_,he⟩) <;> cases he),?_⟩
      have hzero : census (Pushed (initial μ τ L V N).collector) (fun _ : N => none) = 0 :=
        census_eq_zero.mpr (by rintro n ⟨k,hn,_⟩; cases hn)
      exact hzero.trans_le zero_le
    · rintro s a s' hr ⟨hpassing,place,hcustody,htrigger⟩ - hs
      exact ⟨passing_step hpassing hs,_,custody_step hcustody hs,
        trigger_step htrigger (registry_reachable hr) hpassing hs⟩
  exact hinv.2

end Steps

/-- The nodes on all retired lists. -/
def pending {μ τ L V N : Type*} (s : State μ τ L V N) : Set N :=
  {n | ∃ t ns, Chain s.next (s.retiredPtrs (.thread t)) ns ∧ n ∈ ns}

/-- While the collector is in its sleep loop between two passes, the nodes on all lists
are counted, but for those of calls of Retire that have pushed and not counted yet; so
when enough are pending and no such call is left, the condition of the loop is false. -/
theorem pending_le_counter [Inhabited τ] {s : State μ τ L V N}
    (hr : (mutators μ τ L V N).Reachable s) (hsleep : s.collector.sleeping = true) :
    (pending s).encard ≤
      s.approximateFreeListSize + {m | s.pc (.mutator m) = .retireCount}.encard ∧
    ((limitFreeList : ℕ∞) ≤ (pending s).encard → (∀ m, s.pc (.mutator m) ≠ .retireCount) →
      ¬s.approximateFreeListSize < limitFreeList ∧
      (s.collector = .sleepCount → ∀ spurious, ∃ s',
        (mutators μ τ L V N).step s (.collect spurious) =
        some s' ∧ s'.collector = .guardCancel)) := by
  obtain ⟨place,hcustody,htrigger⟩ := trigger_reachable hr
  have hexempt : ∀ k, ¬s.collector.Exempt k := by
    intro k
    cases hc : s.collector with
    | sleepCount | sleepCancel | sleep => exact id
    | _ =>
      rw [hc] at hsleep
      cases hsleep
  have howes : s.collector.owes = 0 := by
    cases hc : s.collector with
    | putCount =>
      rw [hc] at hsleep
      cases hsleep
    | _ => rfl
  have hle : (pending s).encard ≤
      s.approximateFreeListSize + {m | s.pc (.mutator m) = .retireCount}.encard := by
    have hcount := htrigger.count
    rw [howes,Nat.cast_zero,add_zero] at hcount
    refine le_trans (Set.encard_le_encard ?_) hcount
    rintro n ⟨t,ns,hns,hn⟩
    exact ⟨.thread t,(hcustody.mem_stack hns).mp hn,hexempt _⟩
  refine ⟨hle,?_⟩
  intro hmany hnone
  have hempty : {m | s.pc (.mutator m) = .retireCount} = ∅ :=
    Set.eq_empty_iff_forall_notMem.mpr hnone
  rw [hempty,Set.encard_empty,add_zero] at hle
  have hlimit : ¬s.approximateFreeListSize < limitFreeList := by
    have hcast : (limitFreeList : ℕ∞) ≤ s.approximateFreeListSize := hmany.trans hle
    rw [Nat.cast_le] at hcast
    omega
  refine ⟨hlimit,?_⟩
  intro hc spurious
  have hstep : HazardManager.step s.toManager (.collect spurious) =
      some (s.toManager.moveCollector .guardCancel) := by
    simp only [HazardManager.step,collectorStep,hc,hlimit,if_false]
  refine ⟨_,congrArg (Option.map s.put) hstep,rfl⟩

/-- The first pass finds one thread without nodes; then a Retire pushes one. -/
def retiresAsleep : List (Action (Fin 1) (Fin 1) (Fin 1) (Fin 1) (Fin 1)) :=
  makes 0 0 ++ List.replicate 3 (.collect false) ++ .lock [.thread 0] ::
    List.replicate 5 (.collect false) ++ [.retire 0 (some 0),.alloc 0 0,.step 0 false]

theorem retiresAsleep_ends :
    (mutators (Fin 1) (Fin 1) (Fin 1) (Fin 1) (Fin 1)).Ends (initial ..) retiresAsleep
      fun s => s.collector.sleeping = true ∧ s.pc (.mutator 0) = .retireCount := by
  decide +kernel

theorem pending_le_counter_asleep :
    ∃ s : State (Fin 1) (Fin 1) (Fin 1) (Fin 1) (Fin 1), s.pc (.mutator 0) = .retireCount ∧
      (pending s).encard ≤
        s.approximateFreeListSize + {m | s.pc (.mutator m) = .retireCount}.encard := by
  obtain ⟨s,hr,hsleep,hpc⟩ := System.Ends.reachable retiresAsleep_ends
  exact ⟨s,hpc,(pending_le_counter hr hsleep).1⟩

end ConcurrencyRuntime.HazardMutators
