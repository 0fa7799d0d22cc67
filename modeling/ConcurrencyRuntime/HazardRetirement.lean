import ConcurrencyRuntime.HazardRegistry

/-!
# What becomes of a retired pointer

A value that was retired once is in one place: in a Retire before its successful
compare-exchange, on the retired list of a thread, with CheckToDelete, or deleted. A
call of CheckToDelete deletes the values of the chain that it exchanged which it did
not find protected and puts the others back, whatever the mutators push meanwhile.
-/

namespace ConcurrencyRuntime.HazardManager

/-- The call of CheckToDelete under way: its pass and the list it works on. -/
def CollectorPc.call {κ V N : Type*} : CollectorPc κ V N → Option (Pass κ V × κ)
  | .walk pass i _ | .putLoad pass i _ _ | .putCas pass i _ _ | .putCount pass i _ => some (pass,i)
  | _ => none

/-- CheckToDelete is at its end. -/
def CollectorPc.leaving {κ V N : Type*} : CollectorPc κ V N → Bool
  | .walk _ _ none => true
  | _ => false

end ConcurrencyRuntime.HazardManager

namespace ConcurrencyRuntime.HazardMutators

open TransitionSystem HazardManager LinkedPath LinkedStacks Census

/-- Where a retired value can be. -/
inductive Whereabouts (μ τ : Type*) where
  /-- In a call of Retire before its successful compare-exchange. -/
  | retire (m : μ)
  /-- On the chain of the retired list of a thread. -/
  | retiredPtrs (t : τ)
  /-- On the chain that CheckToDelete holds, or about to be put back by it. -/
  | checkToDelete
  /-- Its deleter has run once. -/
  | deleted

/-- The value is there. -/
def At {μ τ L V N : Type*} (s : State μ τ L V N) (v : V) : Whereabouts μ τ → Prop
  | .retire m => s.pc (.mutator m) = .retireNew v ∨
    ∃ n, s.pc (.mutator m) = .retireCas n ∧ s.value n = some v
  | .retiredPtrs t => ∃ ns n, Chain s.next (s.retiredPtrs (.thread t)) ns ∧ n ∈ ns ∧
    s.value n = some v
  | .checkToDelete => (∃ n, s.collector.kept = some n ∧ s.value n = some v) ∨
    ∃ ns n, Chain s.next s.collector.candidates ns ∧ n ∈ ns ∧ s.value n = some v
  | .deleted => s.deleted v = 1

variable {μ τ L V N : Type*} [DecidableEq μ] [DecidableEq τ] [DecidableEq L]
  [DecidableEq V] [DecidableEq N]

section Whereabouts

variable {s s' : State μ τ L V N} {M M' : Manager (Key μ τ) L V N} {m : μ} {v : V}
  {place : N → Option (Place (Key μ τ))}

/-- Threads have no program points of a mutator. -/
theorem step_thread {a : Action μ τ L V N} (hs : step s a = some s') (t : τ) :
    s'.pc (.thread t) = s.pc (.thread t) := by
  cases a with
  | write ptr x =>
    simp only [step,Option.map_eq_some_iff,HazardManager.step] at hs
    obtain ⟨M,⟨⟩,rfl⟩ := hs
    rfl
  | makeMutator m t =>
    simp only [step,Option.map_eq_some_iff,HazardManager.step] at hs
    obtain ⟨M,hM,rfl⟩ := hs
    split at hM <;> cases hM
    rfl
  | acquire m ptr | release m | destroyMutator m =>
    simp only [step,Option.map_eq_some_iff,HazardManager.step] at hs
    obtain ⟨M,hM,rfl⟩ := hs
    obtain ⟨-,rfl⟩ := call_moves hM
    rfl
  | retire m v =>
    cases v with
    | none | some v =>
      simp only [step,Option.map_eq_some_iff,HazardManager.step] at hs
      obtain ⟨M,hM,rfl⟩ := hs
      obtain ⟨-,rfl⟩ := call_moves hM
      rfl
  | alloc m node =>
    simp only [step] at hs
    split at hs <;> cases hs
    rfl
  | step m spurious =>
    simp only [step,Option.map_eq_some_iff] at hs
    obtain ⟨M,hM,rfl⟩ := hs
    obtain ⟨⟨q,hpc,-⟩,-⟩ := mutatorStep_moves hM
    simp only [State.put,hpc]
    rw [Function.update_of_ne (by rintro ⟨⟩)]
  | lock order =>
    simp only [step,Option.map_eq_some_iff,HazardManager.step] at hs
    obtain ⟨M,hM,rfl⟩ := hs
    split at hM
    · split at hM <;> cases hM
      · rfl
      · rfl
    · cases hM
  | collect spurious =>
    simp only [step,Option.map_eq_some_iff,HazardManager.step] at hs
    obtain ⟨M,hM,rfl⟩ := hs
    obtain ⟨hpc,-⟩ := collectorStep_moves hM
    simp only [State.put,hpc]
  | destroy =>
    simp only [step,Option.map_eq_some_iff,HazardManager.step] at hs
    obtain ⟨M,hM,rfl⟩ := hs
    split at hM <;> cases hM
    rfl

theorem thread_absent [Inhabited τ] (hr : (mutators μ τ L V N).Reachable s) (t : τ) :
    s.pc (.thread t) = .absent := by
  refine System.Reachable.invariant ?_ ?_ hr
  · rfl
  · intro s a s' h hs
    rw [step_thread hs t]
    exact h

omit [DecidableEq μ] [DecidableEq τ] [DecidableEq L] [DecidableEq V] [DecidableEq N] in
/-- Three parts of one. -/
theorem split_one {a b : ℕ∞} {d : ℕ} (h : 1 = a + b + d) :
    (a = 1 ∧ b = 0 ∧ d = 0) ∨ (a = 0 ∧ b = 1 ∧ d = 0) ∨ (a = 0 ∧ b = 0 ∧ d = 1) := by
  have ha : a ≠ ⊤ := by
    rintro rfl
    simp at h
  have hb : b ≠ ⊤ := by
    rintro rfl
    simp at h
  lift a to ℕ using ha
  lift b to ℕ using hb
  norm_cast at h ⊢
  omega

/-- Where the value of a node is. -/
def Place.whereabouts {μ τ : Type*} : Place (Key μ τ) → Option (Whereabouts μ τ)
  | .pending (.mutator m) => some (.retire m)
  | .stack (.thread t) => some (.retiredPtrs t)
  | .hand | .taken => some .checkToDelete
  | _ => none

variable [Inhabited τ]

/-- Every node has whereabouts. -/
theorem node_whereabouts {n : N} (hr : (mutators μ τ L V N).Reachable s) (hc : Custody s.heap place)
    (hn : s.value n = some v) : ∃ w, (place n).bind Place.whereabouts = some w := by
  have hallocated : s.heap.allocated n = true := by simp [Manager.heap,hn]
  cases hp : place n with
  | none => exact absurd hp (hc.allocated_iff.mp hallocated)
  | some p =>
    cases p with
    | pending k =>
      cases k with
      | mutator m => exact ⟨_,rfl⟩
      | thread t =>
        have hpending := hc.pending_of_place hp
        simp [Manager.heap,thread_absent hr t,Pc.pending] at hpending
    | stack k =>
      cases k with
      | thread t => exact ⟨_,rfl⟩
      | mutator m =>
        obtain ⟨ns,hns⟩ := hc.exists_stack (.mutator m)
        have hmem := (hc.mem_stack hns).mpr hp
        have hnone : s.heap.stack (.mutator m) = none := (registry_reachable hr).lists m
        rw [hnone] at hns
        cases ns with
        | nil => cases hmem
        | cons k rest => cases hns.1
    | hand | taken => exact ⟨_,rfl⟩

omit [DecidableEq μ] [DecidableEq τ] [DecidableEq L] [DecidableEq V]
  [DecidableEq N] [Inhabited τ] in
/-- The value of a node is where the node is. -/
theorem at_of_node {n : N} {w : Whereabouts μ τ} (hc : Custody s.heap place)
    (hn : s.value n = some v) (hw : (place n).bind Place.whereabouts = some w) : At s v w := by
  cases hp : place n with
  | none =>
    rw [hp] at hw
    cases hw
  | some p =>
    rw [hp] at hw
    cases p with
    | pending k =>
      cases k with
      | mutator m =>
        cases hw
        have hpending : (s.pc (.mutator m)).pending = some n := hc.pending_of_place hp
        cases hpc : s.pc (.mutator m) with
        | retireCas retire =>
          rw [hpc] at hpending
          cases hpending
          exact .inr ⟨n,hpc,hn⟩
        | _ =>
          rw [hpc] at hpending
          cases hpending
      | thread t => cases hw
    | stack k =>
      cases k with
      | thread t =>
        cases hw
        obtain ⟨ns,hns⟩ := hc.exists_stack (.thread t)
        exact ⟨ns,n,hns,(hc.mem_stack hns).mpr hp,hn⟩
      | mutator m => cases hw
    | hand =>
      cases hw
      exact .inl ⟨n,hc.hand_of_place hp,hn⟩
    | taken =>
      cases hw
      obtain ⟨ns,hns⟩ := hc.exists_taken
      exact .inr ⟨ns,n,hns,(hc.mem_taken hns).mpr hp,hn⟩

omit [DecidableEq μ] [DecidableEq τ] [DecidableEq L] [DecidableEq V]
  [DecidableEq N] [Inhabited τ] in
/-- A value that is somewhere is in a call without a node, on a node there, or
deleted. -/
theorem node_of_at {w : Whereabouts μ τ} (hc : Custody s.heap place) (hw : At s v w) :
    (∃ m, w = .retire m ∧ announced s.toManager m = some v) ∨
      (∃ n, s.value n = some v ∧ (place n).bind Place.whereabouts = some w) ∨
      (w = .deleted ∧ s.deleted v = 1) := by
  cases w with
  | retire m =>
    rcases hw with hpc | ⟨n,hpc,hn⟩
    · exact .inl ⟨m,rfl,congrArg Pc.announced hpc⟩
    · refine .inr (.inl ⟨n,hn,?_⟩)
      rw [hc.pending_place (i := .mutator m) (by simp [Manager.heap,hpc,Pc.pending])]
      rfl
  | retiredPtrs t =>
    obtain ⟨ns,n,hns,hmem,hn⟩ := hw
    have hstack : Chain s.heap.next (s.heap.stack (.thread t)) ns := hns
    refine .inr (.inl ⟨n,hn,?_⟩)
    rw [(hc.mem_stack hstack).mp hmem]
    rfl
  | checkToDelete =>
    rcases hw with ⟨n,hkept,hn⟩ | ⟨ns,n,hns,hmem,hn⟩
    · refine .inr (.inl ⟨n,hn,?_⟩)
      rw [hc.hand_place hkept]
      rfl
    · have htaken : Chain s.heap.next s.heap.taken ns := hns
      refine .inr (.inl ⟨n,hn,?_⟩)
      rw [(hc.mem_taken htaken).mp hmem]
      rfl
  | deleted => exact .inr (.inr ⟨rfl,hw⟩)

/-- A value that was retired once is in exactly one place. -/
theorem exists_unique_whereabouts (hr : (mutators μ τ L V N).Reachable s)
    (hv : s.retirements v = 1) :
    ∃! w : Whereabouts μ τ, At s v w := by
  obtain ⟨place,hc⟩ := custody_reachable hr
  have hledger := ledger_reachable hr v
  rw [hv,Nat.cast_one] at hledger
  rcases split_one hledger with ⟨hone,hzero,hkeep⟩ | ⟨hzero,hone,hkeep⟩ | ⟨hzero,hzero',hone⟩
  · obtain ⟨m,hm,hunique⟩ := census_eq_one hone
    have hpc : s.pc (.mutator m) = .retireNew v := by
      revert hm
      simp only [announced]
      cases s.pc (.mutator m) with
      | retireNew w =>
        rintro ⟨⟩
        rfl
      | _ => rintro ⟨⟩
    refine ⟨.retire m,.inl hpc,?_⟩
    intro w hw
    rcases node_of_at hc hw with ⟨m',rfl,hm'⟩ | ⟨n,hn,-⟩ | ⟨-,hd⟩
    · rw [hunique m' hm']
    · exact absurd hn (census_eq_zero.mp hzero n)
    · exact absurd hd (by omega)
  · obtain ⟨n,hn,hunique⟩ := census_eq_one hone
    obtain ⟨w,hw⟩ := node_whereabouts hr hc hn
    refine ⟨w,at_of_node hc hn hw,?_⟩
    intro w' hw'
    rcases node_of_at hc hw' with ⟨m',-,hm'⟩ | ⟨n',hn',hplace⟩ | ⟨-,hd⟩
    · exact absurd hm' (census_eq_zero.mp hzero m')
    · rw [hunique n' hn',hw] at hplace
      exact (Option.some.inj hplace).symm
    · exact absurd hd (by omega)
  · refine ⟨.deleted,hone,?_⟩
    intro w hw
    rcases node_of_at hc hw with ⟨m',-,hm'⟩ | ⟨n,hn,-⟩ | ⟨rfl,-⟩
    · exact absurd hm' (census_eq_zero.mp hzero m')
    · exact absurd hn (census_eq_zero.mp hzero' n)
    · rfl

end Whereabouts

section Call

variable {s s' s₀ : State μ τ L V N} {M M' : Manager (Key μ τ) L V N} {m : μ} {t : τ}
  {pass : Pass (Key μ τ) V} {i : Key μ τ} {ns done rest : List N}
    {place : N → Option (Place (Key μ τ))}

omit [DecidableEq L] in
/-- A step of a mutator leaves every node alone but the one that its Retire holds. -/
theorem mutatorStep_frame {spurious : Bool} {n : N} (hs : mutatorStep M t m spurious = some M')
    (hn : (M.pc (.mutator m)).pending ≠ some n) : M'.next n = M.next n := by
  cases hpc : M.pc (.mutator m) with
  | absent | idle | retireNew v => simp [mutatorStep,threadStep,hpc] at hs
  | makeAssert | makeInsert | register | destroyCount | acquireCheck =>
    simp only [mutatorStep,threadStep,hpc] at hs
    split at hs <;> cases hs <;> rfl
  | makeCount | acquireLoad | acquireStore | releaseStore | retireCount | destroyStore =>
    simp only [mutatorStep,threadStep,hpc,Option.some.injEq] at hs
    subst hs
    rfl
  | retireCas retire =>
    simp only [mutatorStep,hpc] at hs
    split at hs <;> cases hs
    · rfl
    · simp only [Manager.setNext]
      refine Function.update_of_ne ?_ ..
      rintro rfl
      exact hn (by rw [hpc]; rfl)

/-- A step of anybody but the collector leaves the nodes of the lists and those of
CheckToDelete alone. -/
theorem step_frame {a : Action μ τ L V N} (hc : Custody s.heap place)
    (hcall : s.collector.call = some (pass,i)) (ha : ∀ spurious, a ≠ .collect spurious)
    (hs : step s a = some s') :
    s'.collector = s.collector ∧ s'.deleted = s.deleted ∧
      ∀ n, place n ≠ none → (∀ k, place n ≠ some (.pending k)) →
        s'.value n = s.value n ∧ s'.next n = s.next n ∧ track s place a n = place n := by
  cases a with
  | write ptr x =>
    simp only [step,Option.map_eq_some_iff,HazardManager.step] at hs
    obtain ⟨M,⟨⟩,rfl⟩ := hs
    exact ⟨rfl,rfl,fun _ _ _ => ⟨rfl,rfl,rfl⟩⟩
  | makeMutator m t =>
    simp only [step,Option.map_eq_some_iff,HazardManager.step] at hs
    obtain ⟨M,hM,rfl⟩ := hs
    split at hM <;> cases hM
    exact ⟨rfl,rfl,fun _ _ _ => ⟨rfl,rfl,rfl⟩⟩
  | acquire m ptr | release m | destroyMutator m =>
    simp only [step,Option.map_eq_some_iff,HazardManager.step] at hs
    obtain ⟨M,hM,rfl⟩ := hs
    obtain ⟨-,rfl⟩ := call_moves hM
    exact ⟨rfl,rfl,fun _ _ _ => ⟨rfl,rfl,rfl⟩⟩
  | retire m v =>
    cases v with
    | none | some v =>
      simp only [step,Option.map_eq_some_iff,HazardManager.step] at hs
      obtain ⟨M,hM,rfl⟩ := hs
      obtain ⟨-,rfl⟩ := call_moves hM
      exact ⟨rfl,rfl,fun _ _ _ => ⟨rfl,rfl,rfl⟩⟩
  | alloc m node =>
    simp only [step] at hs
    split at hs <;> cases hs
    next v hpc hfree =>
      refine ⟨rfl,rfl,fun n hn _ => ?_⟩
      have hne : n ≠ node := by
        rintro rfl
        have hallocated := hc.allocated_iff.mpr hn
        simp [Manager.heap,hfree] at hallocated
      exact ⟨Function.update_of_ne hne ..,Function.update_of_ne hne ..,Function.update_of_ne hne ..⟩
  | step m spurious =>
    simp only [step,Option.map_eq_some_iff] at hs
    obtain ⟨M,hM,rfl⟩ := hs
    obtain ⟨-,hvalue,hdeleted,hcollector,-⟩ := mutatorStep_moves hM
    refine ⟨hcollector,hdeleted,fun n _ hn => ?_⟩
    have hpending : (s.pc (.mutator m)).pending ≠ some n := fun he => hn _ (hc.pending_place he)
    refine ⟨congrFun hvalue n,mutatorStep_frame hM hpending,?_⟩
    cases hpc : s.pc (.mutator m) with
    | retireCas retire =>
      simp only [track,hpc]
      split
      next =>
        refine Function.update_of_ne ?_ ..
        rintro rfl
        exact hpending (by rw [hpc]; rfl)
      next => rfl
    | _ => simp only [track,hpc]
  | lock order =>
    simp only [step,Option.map_eq_some_iff,HazardManager.step] at hs
    obtain ⟨M,hM,rfl⟩ := hs
    split at hM
    · split at hM <;> cases hM
      next hlock =>
        rw [hlock] at hcall
        cases hcall
      next hreturned _ =>
        rw [hreturned] at hcall
        cases hcall
    · cases hM
  | collect spurious => exact absurd rfl (ha spurious)
  | destroy =>
    simp only [step,Option.map_eq_some_iff,HazardManager.step] at hs
    obtain ⟨M,hM,rfl⟩ := hs
    split at hM <;> cases hM
    exact ⟨rfl,rfl,fun _ _ _ => ⟨rfl,rfl,rfl⟩⟩

/-- What a call of CheckToDelete has done so far: the exchanged chain is what it is
done with, the candidate in its hand and the rest of the chain. -/
structure Calling (s₀ s : State μ τ L V N) (pass : Pass (Key μ τ) V) (i : Key μ τ)
    (ns done rest : List N) (place : N → Option (Place (Key μ τ))) : Prop where
  custody : Custody s.heap place
  call : s.collector.call = some (pass,i)
  chain : Chain s.next s.collector.candidates rest
  split : ns = done ++ (s.collector.kept.toList ++ rest)
  /-- The nodes that are yet to be decided have their values. -/
  values : ∀ n ∈ s.collector.kept.toList ++ rest, s.value n = s₀.value n
  kept : ∀ n, s.collector.kept = some n → ∃ v ∈ pass.found, s₀.value n = some v
  /-- What was found protected is back on the list. -/
  back : ∀ n ∈ done, ∀ v ∈ pass.found, s₀.value n = some v →
    place n = some (.stack i) ∧ s.value n = some v
  /-- The deleters ran for the others. -/
  deleted : ∀ v, s.deleted v = s₀.deleted v +
    if v ∈ pass.found then 0 else done.countP fun n => s₀.value n = some v

/-- A step of anybody but the collector goes on with the call. -/
theorem Calling.frame {a : Action μ τ L V N} (h : Calling s₀ s pass i ns done rest place)
    (ha : ∀ spurious, a ≠ .collect spurious) (hs : step s a = some s') :
    Calling s₀ s' pass i ns done rest (track s place a) := by
  obtain ⟨hcollector,hdeleted,hframe⟩ := step_frame h.custody h.call ha hs
  have hrest : ∀ n ∈ rest, place n = some .taken := fun n hn => (h.custody.mem_taken h.chain).mp hn
  have hhand : ∀ n, s.collector.kept = some n → place n = some .hand :=
    fun n hn => h.custody.hand_place hn
  refine ⟨custody_step h.custody hs,by rw [hcollector]; exact h.call,?_,
    by rw [hcollector]; exact h.split,
    ?_,by rw [hcollector]; exact h.kept,?_,by rw [hdeleted]; exact h.deleted⟩
  · rw [hcollector]
    refine chain_congr h.chain fun n hn => ?_
    exact (hframe n (by rw [hrest n hn]; rintro ⟨⟩) (by rw [hrest n hn]; rintro _ ⟨⟩)).2.1
  · rw [hcollector]
    intro n hn
    have hplace : place n = some .hand ∨ place n = some .taken := by
      rcases List.mem_append.mp hn with hn | hn
      · exact .inl (hhand n (by simpa using hn))
      · exact .inr (hrest n hn)
    have hvalue : s'.value n = s.value n := by
      rcases hplace with hplace | hplace
      · exact (hframe n (by rw [hplace]; rintro ⟨⟩) (by rw [hplace]; rintro _ ⟨⟩)).1
      · exact (hframe n (by rw [hplace]; rintro ⟨⟩) (by rw [hplace]; rintro _ ⟨⟩)).1
    rw [hvalue]
    exact h.values n hn
  · intro n hn v hv hold
    obtain ⟨hplace,hvalue⟩ := h.back n hn v hv hold
    obtain ⟨hsame,-,htrack⟩ := hframe n (by rw [hplace]; rintro ⟨⟩) (by rw [hplace]; rintro _ ⟨⟩)
    exact ⟨by rw [htrack,hplace],by rw [hsame,hvalue]⟩

omit [DecidableEq μ] [DecidableEq τ] [DecidableEq L] [DecidableEq N] in
/-- The candidate in the hand is not on the rest of the chain. -/
theorem Calling.hand_not_mem {n : N} (h : Calling s₀ s pass i ns done rest place)
    (hn : s.collector.kept = some n) : n ∉ rest := by
  intro hmem
  have hhand := h.custody.hand_place hn
  have hchain : Chain s.heap.next s.heap.taken rest := h.chain
  rw [(h.custody.mem_taken hchain).mp hmem] at hhand
  cases hhand

/-- The test of a candidate: it goes into the hand, or its deleter runs. -/
theorem Calling.walk {spurious : Bool} {c : N} (h : Calling s₀ s pass i ns done rest place)
    (hc : s.collector = .walk pass i (some c)) (hs : step s (.collect spurious) = some s') :
    ∃ done' rest', Calling s₀ s' pass i ns done' rest' (track s place (.collect spurious)) := by
  have hcustody := custody_step h.custody hs
  have hchain := h.chain
  have hsplit := h.split
  have hvalues := h.values
  rw [hc] at hchain hsplit hvalues
  have htaken : place c = some .taken :=
    h.custody.taken_place (by simp [Manager.heap,hc,CollectorPc.candidates])
  have hne : ∀ n w, n ∈ done → w ∈ pass.found → s₀.value n = some w → n ≠ c := by
    rintro n w hn hw hold rfl
    have hplace := (h.back n hn w hw hold).1
    rw [htaken] at hplace
    cases hplace
  cases rest with
  | nil => cases hchain
  | cons c' rest =>
    cases hchain.1
    have hvalue : s.value c = s₀.value c := hvalues c (by simp [CollectorPc.kept])
    have hfresh : c ∉ rest := (List.nodup_cons.mp (chain_nodup hchain)).1
    simp only [step,Option.map_eq_some_iff,HazardManager.step] at hs
    obtain ⟨M,hM,rfl⟩ := hs
    cases hv : s.value c with
    | none =>
      have hallocated : s.heap.allocated c = true :=
        h.custody.allocated_iff.mpr (by rw [htaken]; rintro ⟨⟩)
      simp [Manager.heap,hv] at hallocated
    | some v =>
      simp only [collectorStep,checkToDelete,hc,hv] at hM
      simp only [track,trackCollector,hc,hv] at hcustody ⊢
      split at hM <;> cases hM
      next hfound =>
        simp only [hfound,if_true] at hcustody ⊢
        refine ⟨done,rest,hcustody,rfl,hchain.2,hsplit,hvalues,?_,?_,h.deleted⟩
        · rintro n ⟨⟩
          exact ⟨v,hfound,hvalue.symm.trans hv⟩
        · intro n hn w hw hold
          obtain ⟨hplace,hsame⟩ := h.back n hn w hw hold
          exact ⟨by rw [Function.update_of_ne (hne n w hn hw hold)]; exact hplace,hsame⟩
      next hfound =>
        simp only [hfound,if_false] at hcustody ⊢
        refine ⟨done ++ [c],rest,hcustody,rfl,hchain.2,?_,?_,by rintro _ ⟨⟩,?_,?_⟩
        · rw [hsplit]
          simp [State.put,Manager.moveCollector,CollectorPc.kept]
        · intro n hn
          have hmem : n ∈ rest := by
            simpa [State.put,Manager.moveCollector,CollectorPc.kept] using hn
          have hnc : n ≠ c := by
            rintro rfl
            exact hfresh hmem
          simp only [State.put,Manager.moveCollector]
          rw [Function.update_of_ne hnc]
          exact hvalues n (by simp [hmem])
        · intro n hn w hw hold
          have hnc : n ≠ c := by
            rintro rfl
            cases hold.symm.trans (hvalue.symm.trans hv)
            exact hfound hw
          have hmem : n ∈ done := by simpa [hnc] using hn
          obtain ⟨hplace,hsame⟩ := h.back n hmem w hw hold
          simp only [State.put,Manager.moveCollector]
          rw [Function.update_of_ne hnc,Function.update_of_ne hnc]
          exact ⟨hplace,hsame⟩
        · intro w
          have hw := h.deleted w
          have hcount : List.countP (fun n => decide (s₀.value n = some w)) [c] =
              if v = w then 1 else 0 := by
            rw [List.countP_singleton,←hvalue,hv]
            simp
          simp only [State.put,Manager.moveCollector,Function.update_apply,
            List.countP_append,hcount]
          by_cases he : w = v
          · subst he
            simp only [if_true,hfound,if_false] at hw ⊢
            omega
          · simp only [he,Ne.symm he,if_false] at hw ⊢
            exact hw

/-- The compare-exchange that puts a candidate back. -/
theorem Calling.putCas {spurious : Bool} {c : N} {next : Option N}
    (h : Calling s₀ s pass i ns done rest place) (hc : s.collector = .putCas pass i c next)
    (hs : step s (.collect spurious) = some s') :
    ∃ done' rest', Calling s₀ s' pass i ns done' rest' (track s place (.collect spurious)) := by
  have hcustody := custody_step h.custody hs
  have hchain := h.chain
  have hsplit := h.split
  have hvalues := h.values
  have hkept := h.kept
  rw [hc] at hchain hsplit hvalues hkept
  obtain ⟨v,hfound,hvalue⟩ := hkept c rfl
  simp only [step,Option.map_eq_some_iff,HazardManager.step] at hs
  obtain ⟨M,hM,rfl⟩ := hs
  simp only [collectorStep,checkToDelete,hc] at hM
  simp only [track,trackCollector,hc] at hcustody ⊢
  split at hM <;> cases hM
  next hcas =>
    simp only [hcas,and_self,if_true] at hcustody ⊢
    refine ⟨done ++ [c],rest,hcustody,rfl,hchain,?_,?_,by rintro _ ⟨⟩,?_,?_⟩
    · rw [hsplit]
      simp [State.put,Manager.moveCollector,CollectorPc.kept]
    · exact fun n hn => hvalues n (List.mem_append_right _ hn)
    · intro n hn w hw hold
      by_cases hnc : n = c
      · subst hnc
        exact ⟨Function.update_self ..,(hvalues n (by simp [CollectorPc.kept])).trans hold⟩
      · have hmem : n ∈ done := by simpa [hnc] using hn
        obtain ⟨hplace,hsame⟩ := h.back n hmem w hw hold
        exact ⟨by rw [Function.update_of_ne hnc]; exact hplace,hsame⟩
    · intro w
      refine (h.deleted w).trans ?_
      split
      next => rfl
      next hnot =>
        have hne : s₀.value c ≠ some w := by
          rw [hvalue]
          rintro ⟨⟩
          exact hnot hfound
        simp [List.countP_append,hne]
  next hcas =>
    simp only [hcas,if_false] at hcustody ⊢
    have hout := h.hand_not_mem (n := c) (by rw [hc]; rfl)
    refine ⟨done,rest,hcustody,?_,?_,?_,?_,?_,h.back,h.deleted⟩
    all_goals simp only [State.put,Manager.setNext,hc]
    · rfl
    · exact chain_frame hchain hout _
    · exact hsplit
    · exact hvalues
    · exact hkept

/-- A step of CheckToDelete that does not leave it goes on with the call. -/
theorem Calling.collect {spurious : Bool} (h : Calling s₀ s pass i ns done rest place)
    (hleaving : s.collector.leaving = false) (hs : step s (.collect spurious) = some s') :
    ∃ done' rest', Calling s₀ s' pass i ns done' rest' (track s place (.collect spurious)) := by
  have hcall := h.call
  cases hc : s.collector with
  | walk p k candidate =>
    rw [hc] at hcall hleaving
    cases hcall
    cases candidate with
    | none => cases hleaving
    | some c => exact h.walk hc hs
  | putLoad p k c next =>
    have hcustody := custody_step h.custody hs
    have hchain := h.chain
    have hsplit := h.split
    have hvalues := h.values
    have hkept := h.kept
    have hout := h.hand_not_mem (n := c) (by rw [hc]; rfl)
    rw [hc] at hcall hchain hsplit hvalues hkept
    cases hcall
    simp only [step,Option.map_eq_some_iff,HazardManager.step] at hs
    obtain ⟨M,hM,rfl⟩ := hs
    simp only [collectorStep,checkToDelete,hc,Option.some.injEq] at hM
    subst hM
    simp only [track,trackCollector,hc] at hcustody ⊢
    exact ⟨done,rest,hcustody,rfl,chain_frame hchain hout _,hsplit,hvalues,hkept,h.back,h.deleted⟩
  | putCas p k c next =>
    rw [hc] at hcall
    cases hcall
    exact h.putCas hc hs
  | putCount p k next =>
    have hcustody := custody_step h.custody hs
    have hchain := h.chain
    have hsplit := h.split
    have hvalues := h.values
    rw [hc] at hcall hchain hsplit hvalues
    cases hcall
    simp only [step,Option.map_eq_some_iff,HazardManager.step] at hs
    obtain ⟨M,hM,rfl⟩ := hs
    simp only [collectorStep,checkToDelete,hc,Option.some.injEq] at hM
    subst hM
    simp only [track,trackCollector,hc] at hcustody ⊢
    exact ⟨done,rest,hcustody,rfl,hchain,hsplit,hvalues,by rintro _ ⟨⟩,h.back,h.deleted⟩
  | _ =>
    rw [hc] at hcall
    cases hcall

/-- The collector does not leave CheckToDelete. -/
def WithinCall {μ τ L V N : Type*} (s : State μ τ L V N) : Action μ τ L V N → Prop
  | .collect _ => s.collector.leaving = false
  | _ => True

/-- One call of CheckToDelete, from its exchange to its end: the deleters run for the
values of the exchanged chain that are not in the protected set, and the others are
back on the list. -/
theorem checkToDelete_call {s₁ : State μ τ L V N} {spurious : Bool} {todo : List (Key μ τ)}
    {acts : List (Action μ τ L V N)} [Inhabited τ] (hcustody : Custody s.heap place)
    (hexchange : s.collector = .exchange pass) (htodo : pass.todo = i :: todo)
    (hns : Chain s.next (s.retiredPtrs i) ns) (hfirst : step s (.collect spurious) = some s₁)
    (hrun : (mutators μ τ L V N).run s₁ acts = some s')
    (hwithin : (mutators μ τ L V N).Meets WithinCall s₁ acts) (hend : s'.collector.leaving = true) :
    (∀ v, s'.deleted v = s.deleted v +
      if v ∈ pass.found then 0 else ns.countP fun n => s.value n = some v) ∧
    ∃ ns', Chain s'.next (s'.retiredPtrs i) ns' ∧
      ∀ n ∈ ns, ∀ v ∈ pass.found, s.value n = some v → n ∈ ns' ∧ s'.value n = some v := by
  obtain ⟨caller,todo',found⟩ := pass
  cases htodo
  have hstart :
      Calling s s₁ ⟨caller,todo,found⟩ i ns [] ns (track s place (.collect spurious)) := by
    have hcustody' := custody_step hcustody hfirst
    simp only [step,Option.map_eq_some_iff,HazardManager.step,collectorStep,checkToDelete,hexchange]
      at hfirst
    obtain ⟨M,⟨⟩,rfl⟩ := hfirst
    refine ⟨hcustody',rfl,hns,rfl,fun _ _ => rfl,by rintro _ ⟨⟩,by rintro _ ⟨⟩,?_⟩
    intro v
    simp [State.put,Manager.moveCollector,Manager.setRetiredPtrs]
  have hstep : ∀ u a u',
      (∃ place' done rest, Calling s u ⟨caller,todo,found⟩ i ns done rest place') →
      WithinCall u a → (mutators μ τ L V N).step u a = some u' →
      ∃ place' done rest, Calling s u' ⟨caller,todo,found⟩ i ns done rest place' := by
    rintro u a u' ⟨place',done,rest,h⟩ hallowed hs
    have hs : step u a = some u' := hs
    by_cases hcollect : ∃ spurious, a = .collect spurious
    · obtain ⟨spurious,rfl⟩ := hcollect
      obtain ⟨done',rest',h'⟩ := h.collect hallowed hs
      exact ⟨_,done',rest',h'⟩
    · exact ⟨_,done,rest,h.frame (fun spurious he => hcollect ⟨spurious,he⟩) hs⟩
  obtain ⟨place',done,rest,hcalling⟩ := System.Meets.invariant hstep hwithin ⟨_,[],ns,hstart⟩ hrun
  have hsplit := hcalling.split
  have hchain := hcalling.chain
  have hdone : ns = done := by
    cases hc : s'.collector with
    | walk p k candidate =>
      rw [hc] at hend hsplit hchain
      cases candidate with
      | some c => cases hend
      | none =>
        cases rest with
        | nil => simpa [CollectorPc.kept] using hsplit
        | cons n rest => cases hchain.1
    | _ =>
      rw [hc] at hend
      cases hend
  subst hdone
  obtain ⟨ns',hns'⟩ := hcalling.custody.exists_stack i
  refine ⟨hcalling.deleted,ns',hns',?_⟩
  intro n hn v hv hold
  obtain ⟨hplace,hvalue⟩ := hcalling.back n hn v hv hold
  exact ⟨(hcalling.custody.mem_stack hns').mpr hplace,hvalue⟩

end Call

end ConcurrencyRuntime.HazardMutators
