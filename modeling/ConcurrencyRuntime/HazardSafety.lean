import ConcurrencyRuntime.HazardCustody

/-!
# When the collector spares what the threads hold

A pass reads the protected pointers first and empties the retired lists
afterwards. A value that is retired onto a list yet to be emptied, while a
thread holds it whose slot was read before it protected the value, is deleted
under that thread. Without such a late Retire no deleter runs on a held value.
-/

namespace ConcurrencyRuntime.HazardManager

open TransitionSystem LinkedStacks

/-- The program points of a thread that is listed. -/
@[grind =]
def Pc.listed {L V N : Type*} : Pc L V N → Bool
  | .absent | .makeAssert | .makeInsert => false
  | _ => true

/-- The program points at which the result of Acquire may be used. -/
@[grind =]
def Pc.holding {L V N : Type*} : Pc L V N → Bool
  | .idle | .retireNew _ | .retireCas _ | .retireCount => true
  | _ => false

theorem Pc.listed_of_holding {L V N : Type*} {q : Pc L V N} (h : q.holding = true) :
    q.listed = true := by
  cases q <;> first | rfl | cases h

/-- The program points of the destructor of the manager. -/
@[grind =]
def CollectorPc.destroying {τ V N : Type*} : CollectorPc τ V N → Bool
  | .assertProtected _ | .assertRetired .. | .clear | .destroyed => true
  | .exchange pass | .walk pass .. | .putLoad pass .. | .putCas pass .. | .putCount pass .. =>
    pass.caller = .destroy
  | _ => false

/-- The threads whose retired list the pass under way is yet to exchange. -/
@[grind =]
def CollectorPc.unexchanged {τ V N : Type*} : CollectorPc τ V N → List τ
  | .scan order _ _ => order
  | .exchange pass | .walk pass .. | .putLoad pass .. | .putCas pass .. | .putCount pass .. =>
    pass.todo
  | _ => []

/-- The pass under way found the value protected, or is yet to read the slot
of the thread. -/
@[grind =]
def CollectorPc.Covers {τ V N : Type*} : CollectorPc τ V N → V → τ → Prop
  | .scan _ todo found,v,t => v ∈ found ∨ t ∈ todo
  | .exchange pass,v,_ | .walk pass ..,v,_ | .putLoad pass ..,v,_ | .putCas pass ..,v,_
  | .putCount pass ..,v,_ => v ∈ pass.found
  | _,_,_ => True

/-- When a Retire pushes its value on a list that the pass under way is yet to
exchange, the pass covers the value for every thread that holds it. -/
def Timely {τ L V N : Type*} (s : Manager τ L V N) : Action τ L V N → Prop
  | .step t spurious => ∀ retire v, s.pc t = .retireCas retire → s.value retire = some v →
      s.retiredPtrs t = s.next retire → spurious = false → t ∈ s.collector.unexchanged →
      ∀ j, s.held j = some v → s.collector.Covers v j
  | _ => True

/-- The clients keep their contract and every Retire is timely. -/
def Orderly {τ L V N : Type*} (s : Manager τ L V N) (a : Action τ L V N) : Prop :=
  Contract s a ∧ Timely s a

/-- A node that the pass under way may still delete. -/
def Exposed {τ L V N : Type*} (s : Manager τ L V N) (place : N → Option (Place τ)) (n : N) : Prop :=
  place n = some .taken ∨ ∃ i, place n = some (.stack i) ∧ i ∈ s.collector.unexchanged

/-- Only retired values are on nodes and no retired value is shared, what a
thread holds stands in its slot, and the pass under way covers whatever it may
still delete. -/
structure Guarded {τ L V N : Type*} (s : Manager τ L V N)
    (place : N → Option (Place τ)) : Prop where
  located : ∀ ptr v, s.shared ptr = some v → s.retired v = false
  recorded : ∀ n v, s.value n = some v → s.retired v = true
  retiring : ∀ t v, s.pc t = .retireNew v → s.retired v = true
  held : ∀ t v, s.held t = some v → s.protectedPtr t = some v ∧ (s.pc t).holding = true
  stored : ∀ t ptr before, s.pc t = .acquireCheck ptr before → s.protectedPtr t = before
  listed : ∀ t, (s.pc t).listed = true → t ∈ s.threads
  cancelled : s.cancelCollect = true → ∀ t, s.pc t = .absent
  destroying : s.collector.destroying = true → s.cancelCollect = true
  exposed : ∀ n v j, Exposed s place n → s.value n = some v → s.held j = some v →
    s.collector.Covers v j
  kept : ∀ c v j, s.collector.kept = some c → s.value c = some v → s.collector.Covers v j

variable {τ L V N : Type*} [DecidableEq τ] [DecidableEq L] [DecidableEq V] [DecidableEq N]

section Steps

variable {s s' : Manager τ L V N} {t : τ} {q : Pc L V N} {place : N → Option (Place τ)}

omit [DecidableEq τ] [DecidableEq L] [DecidableEq V] [DecidableEq N] in
/-- A thread with a mutator runs before the destructor of the manager. -/
theorem Guarded.running (h : Guarded s place) (hpc : s.pc t ≠ .absent) :
    s.cancelCollect = false := by
  cases hc : s.cancelCollect with
  | false => rfl
  | true => exact absurd (h.cancelled hc t) hpc

omit [DecidableEq τ] [DecidableEq L] [DecidableEq V] [DecidableEq N] in
/-- While the destructor of the manager runs, nothing is held. -/
theorem Guarded.held_none (h : Guarded s place) (hc : s.cancelCollect = true) (j : τ) :
    s.held j = none := by
  cases hj : s.held j with
  | none => rfl
  | some v =>
    have hp := (h.held j v hj).2
    rw [h.cancelled hc j] at hp
    cases hp

omit [DecidableEq L] [DecidableEq V] [DecidableEq N] in
/-- A thread moves, holding nothing new, and only its own slot may change. -/
theorem Guarded.thread (h : Guarded s place) (hpc : s'.pc = Function.update s.pc t q)
    (hshared : s'.shared = s.shared) (hvalue : s'.value = s.value)
    (hcollector : s'.collector = s.collector) (hcancel : s'.cancelCollect = s.cancelCollect)
    (hretired : s'.retired = s.retired) (hthreads : s.threads ⊆ s'.threads)
    (hheld : ∀ j v, s'.held j = some v → s.held j = some v)
    (hslots : ∀ j, j ≠ t → s'.protectedPtr j = s.protectedPtr j)
    (hidle : s.cancelCollect = false) (hretiring : ∀ v, q = .retireNew v → s.retired v = true)
    (hholding : ∀ v, s'.held t = some v → s'.protectedPtr t = some v ∧ q.holding = true)
    (hstored : ∀ ptr before, q = .acquireCheck ptr before → s'.protectedPtr t = before)
    (hlisted : q.listed = true → t ∈ s'.threads) : Guarded s' place := by
  have hold := h.held
  have hstore := h.stored
  have hlist := h.listed
  have hret := h.retiring
  refine ⟨?_,?_,?_,?_,?_,?_,?_,?_,?_,?_⟩
  all_goals simp only [hpc,hshared,hvalue,hcollector,hcancel,hretired,Exposed,Function.update_apply]
  · exact h.located
  · exact h.recorded
  · grind
  · grind
  · grind
  · grind
  · grind
  · exact h.destroying
  · intro n v j hn hv hj
    exact h.exposed n v j hn hv (hheld j v hj)
  · exact h.kept

omit [DecidableEq τ] [DecidableEq L] [DecidableEq V] [DecidableEq N] in
/-- The collector moves and the rest of the state stays. -/
theorem Guarded.collector {place' : N → Option (Place τ)} (h : Guarded s place)
    (hframe : (s'.pc,s'.shared,s'.value,s'.cancelCollect,s'.retired,s'.threads,s'.held,
        s'.protectedPtr) =
      (s.pc,s.shared,s.value,s.cancelCollect,s.retired,s.threads,s.held,s.protectedPtr))
    (hdestroying : s'.collector.destroying = true → s.cancelCollect = true)
    (hexposed : ∀ n v j, Exposed s' place' n → s.value n = some v → s.held j = some v →
      s'.collector.Covers v j)
    (hkept : ∀ c v j, s'.collector.kept = some c → s.value c = some v → s'.collector.Covers v j) :
    Guarded s' place' := by
  simp only [Prod.mk.injEq] at hframe
  obtain ⟨hpc,hshared,hvalue,hcancel,hretired,hthreads,hheld,hprotected⟩ := hframe
  refine ⟨?_,?_,?_,?_,?_,?_,?_,?_,?_,?_⟩
  all_goals simp only [hpc,hshared,hvalue,hcancel,hretired,hthreads,hheld,hprotected]
  · exact h.located
  · exact h.recorded
  · exact h.retiring
  · exact h.held
  · exact h.stored
  · exact h.listed
  · exact h.cancelled
  · exact hdestroying
  · exact hexposed
  · exact hkept

omit [DecidableEq τ] [DecidableEq L] [DecidableEq V] [DecidableEq N] in
/-- The collector moves to a point outside of a pass, where nothing is deleted. -/
theorem Guarded.outside {place' : N → Option (Place τ)} (h : Guarded s place)
    (hframe : (s'.pc,s'.shared,s'.value,s'.cancelCollect,s'.retired,s'.threads,s'.held,
        s'.protectedPtr) =
      (s.pc,s.shared,s.value,s.cancelCollect,s.retired,s.threads,s.held,s.protectedPtr))
    (hcovers : ∀ v j, s'.collector.Covers v j)
    (hdestroying : s'.collector.destroying = true → s.cancelCollect = true) : Guarded s' place' :=
  h.collector hframe hdestroying (fun _ v j _ _ _ => hcovers v j) fun _ v j _ _ => hcovers v j

/-- What a thread that holds its slot unchanged needs to move. -/
structure Moves {L V N : Type*} (p q : Pc L V N) : Prop where
  running : p ≠ .absent
  retiring : ∀ v, q ≠ .retireNew v
  check : ∀ ptr before, q ≠ .acquireCheck ptr before
  holding : p.holding = true → q.holding = true
  listed : q.listed = true → p.listed = true

omit [DecidableEq L] [DecidableEq V] [DecidableEq N] in
/-- A thread moves and nothing else that matters changes. -/
theorem Guarded.move (h : Guarded s place) (hpc : s'.pc = Function.update s.pc t q)
    (hframe : (s'.shared,s'.value,s'.collector,s'.cancelCollect,s'.retired,s'.threads,s'.held,
        s'.protectedPtr) =
      (s.shared,s.value,s.collector,s.cancelCollect,s.retired,s.threads,s.held,s.protectedPtr))
    (hm : Moves (s.pc t) q) : Guarded s' place := by
  simp only [Prod.mk.injEq] at hframe
  obtain ⟨hshared,hvalue,hcollector,hcancel,hretired,hthreads,hheld,hslots⟩ := hframe
  refine h.thread hpc hshared hvalue hcollector hcancel hretired (by simp [hthreads]) ?_ ?_
    (h.running hm.running) ?_ ?_ ?_ ?_
  · exact fun j v hj => hheld ▸ hj
  · exact fun j _ => congrFun hslots j
  · exact fun v hv => absurd hv (hm.retiring v)
  · rw [hheld,hslots]
    exact fun v hv => ⟨(h.held t v hv).1,hm.holding (h.held t v hv).2⟩
  · exact fun ptr before hq => absurd hq (hm.check ptr before)
  · rw [hthreads]
    exact fun hq => h.listed t (hm.listed hq)

omit [DecidableEq L] [DecidableEq V] [DecidableEq N] in
/-- A thread that holds nothing writes its slot. -/
theorem Guarded.protect {p : Option V} (h : Guarded s place) (hrun : s.pc t ≠ .absent)
    (hretiring : ∀ v, q ≠ .retireNew v)
    (hcheck : ∀ ptr before, q = .acquireCheck ptr before → p = before)
    (hholding : (s.pc t).holding = false) (hlisted : q.listed = true → (s.pc t).listed = true) :
    Guarded ((s.protect t p).goto t q) place := by
  have hnone : ∀ v, s.held t ≠ some v := by
    intro v hv
    rw [(h.held t v hv).2] at hholding
    cases hholding
  refine h.thread rfl rfl rfl rfl rfl rfl (List.Subset.refl _) ?_ ?_ (h.running hrun) ?_ ?_ ?_ ?_
  · exact fun j v hj => hj
  · exact fun j hj => Function.update_of_ne hj ..
  · exact fun v hv => absurd hv (hretiring v)
  · exact fun v hv => absurd hv (hnone v)
  · exact fun ptr before hq => (Function.update_self ..).trans (hcheck ptr before hq)
  · exact fun hq => h.listed t (hlisted hq)

omit [DecidableEq L] [DecidableEq V] [DecidableEq N] in
/-- Acquire returns what the shared pointer still holds: it is not retired, so
no node records it. -/
theorem Guarded.acquired {ptr : L} {before : Option V} (h : Guarded s place)
    (hpc : s.pc t = .acquireCheck ptr before) (hcheck : s.shared ptr = before) :
    Guarded ((s.hold t before).goto t .idle) place := by
  have hrun := h.running (t := t) (by simp [hpc])
  have hslot := h.stored t ptr before hpc
  have hstore := h.stored
  have hlist := h.listed
  have hold := h.held
  have hret := h.retiring
  have hfresh : ∀ n v, before = some v → s.value n ≠ some v := by
    rintro n v rfl hv
    have hlive := h.located ptr v hcheck
    rw [h.recorded n v hv] at hlive
    cases hlive
  refine { h with
    retiring := ?_
    held := ?_
    stored := ?_
    listed := ?_
    cancelled := ?_
    exposed := ?_ }
  all_goals simp only [Manager.goto,Manager.hold,Function.update_apply]
  · grind
  · grind
  · grind
  · grind
  · grind
  · intro n v j hn hv hj
    split at hj
    · exact absurd hv (hfresh n v hj)
    · exact h.exposed n v j hn hv hj

omit [DecidableEq L] [DecidableEq V] in
/-- A timely Retire pushes its node. -/
theorem Guarded.pushed {retire : N} (h : Guarded s place) (hpc : s.pc t = .retireCas retire)
    (htimely : ∀ v, s.value retire = some v → t ∈ s.collector.unexchanged →
      ∀ j, s.held j = some v → s.collector.Covers v j) (p : Option N) :
    Guarded ((s.setRetiredPtrs t p).goto t .retireCount)
      (Function.update place retire (some (.stack t))) := by
  have h' : Guarded ((s.setRetiredPtrs t p).goto t .retireCount) place :=
    h.move rfl rfl (by rw [hpc]; constructor <;> simp [Pc.holding,Pc.listed])
  refine { h' with exposed := ?_ }
  intro n v j hn hv hj
  by_cases hne : n = retire
  · subst hne
    simp only [Exposed,Function.update_self] at hn
    rcases hn with hn | ⟨i,hi,hmem⟩
    · cases hn
    · cases hi
      exact htimely v hv hmem j hj
  · simp only [Exposed,Function.update_of_ne hne] at hn
    exact h.exposed n v j hn hv hj

omit [DecidableEq L] in
/-- The steps of a thread. -/
theorem guarded_threadStep {spurious : Bool} (h : Guarded s place)
    (ha : Timely s (.step t spurious)) (hs : threadStep s t spurious = some s') :
    Guarded s' (track s place (.step t spurious)) := by
  simp only [track]
  cases hpc : s.pc t with
  | absent | idle | retireNew v => simp [threadStep,hpc] at hs
  | makeAssert | register | destroyCount =>
    simp only [threadStep,hpc] at hs
    split at hs <;> cases hs
    exact h.move rfl rfl (by rw [hpc]; constructor <;> simp [Pc.holding,Pc.listed])
  | makeInsert =>
    simp only [threadStep,hpc] at hs
    split at hs <;> cases hs
    refine h.thread rfl rfl rfl rfl rfl rfl ?_ ?_ ?_ (h.running (t := t) (by simp [hpc]))
      (by simp) ?_ (by simp) ?_
    · dsimp only [Manager.goto]
      split
      · exact List.Subset.refl _
      · exact List.subset_cons_self ..
    · exact fun j v hj => hj
    · exact fun j hj => rfl
    · intro v hv
      have hp := (h.held t v hv).2
      rw [hpc] at hp
      cases hp
    · dsimp only [Manager.goto]
      split
      next hmem => exact fun _ => hmem
      next => exact fun _ => List.mem_cons_self
  | makeCount | acquireLoad ptr | retireCount =>
    simp only [threadStep,hpc,Option.some.injEq] at hs
    subst hs
    exact h.move rfl rfl (by rw [hpc]; constructor <;> simp [Pc.holding,Pc.listed])
  | acquireStore ptr before =>
    simp only [threadStep,hpc,Option.some.injEq] at hs
    subst hs
    refine h.protect (by simp [hpc]) (by simp) ?_ (by rw [hpc]; rfl) (by simp [hpc,Pc.listed])
    rintro _ _ ⟨⟩
    rfl
  | releaseStore | destroyStore =>
    simp only [threadStep,hpc,Option.some.injEq] at hs
    subst hs
    exact h.protect (by simp [hpc]) (by simp) (by simp) (by rw [hpc]; rfl)
      (by simp [hpc,Pc.listed])
  | acquireCheck ptr before =>
    simp only [threadStep,hpc] at hs
    split at hs <;> cases hs
    next hcheck => exact h.acquired hpc hcheck
    next =>
      exact h.move rfl rfl (by rw [hpc]; constructor <;> simp [Pc.holding,Pc.listed])
  | retireCas retire =>
    simp only [threadStep,hpc] at hs
    split at hs <;> cases hs
    next hcas =>
      simp only [hcas,and_self,if_true]
      exact h.pushed hpc (fun v hv hmem => ha retire v hpc hv hcas.1 hcas.2 hmem) _
    next hcas =>
      simp only [hcas,if_false]
      exact { h with }

omit [DecidableEq L] in
/-- The steps of CheckToDelete. -/
theorem guarded_checkToDelete {spurious : Bool} (h : Guarded s place)
    (hs : checkToDelete s spurious = some s') : Guarded s' (trackCollector s place spurious) := by
  have hexposed := h.exposed
  have hdestroying := h.destroying
  have hkept := h.kept
  cases hc : s.collector with
  | exchange pass =>
    obtain ⟨caller,todo,found⟩ := pass
    simp only [hc,Exposed] at hexposed hdestroying
    simp only [trackCollector,hc]
    simp only [checkToDelete,hc] at hs
    cases todo with
    | cons i rest =>
      cases hs
      refine h.collector rfl hdestroying ?_ (by rintro _ _ _ ⟨⟩)
      intro n v j hn hv hj
      refine hexposed n v j ?_ hv hj
      simp only [Exposed,Manager.moveCollector,CollectorPc.unexchanged] at hn ⊢
      grind
    | nil =>
      cases caller <;> cases hs
      · exact h.outside rfl (fun _ _ => trivial) (by rintro ⟨⟩)
      · exact h.outside rfl (fun _ _ => trivial) hdestroying
  | walk pass i candidate =>
    simp only [hc,Exposed] at hexposed hdestroying
    simp only [trackCollector,hc]
    simp only [checkToDelete,hc] at hs
    cases candidate with
    | none =>
      simp only at hs
      split at hs <;> cases hs
      · exact h.collector rfl hdestroying hexposed (by rintro _ _ _ ⟨⟩)
      next hcaller =>
        refine h.outside rfl (fun _ _ => trivial) ?_
        exact fun _ => hdestroying (by simp [CollectorPc.destroying,hcaller])
    | some candidate =>
      cases hv : s.value candidate with
      | none =>
        simp only [hv] at hs ⊢
        cases hs
        exact h.outside rfl (fun _ _ => trivial) (by rintro ⟨⟩)
      | some v =>
        simp only [hv] at hs ⊢
        split at hs <;> cases hs
        next hfound =>
          simp only [hfound,if_true]
          refine h.collector rfl hdestroying ?_ ?_
          · intro n w j hn hw hj
            refine hexposed n w j ?_ hw hj
            simp only [Exposed,Manager.moveCollector,CollectorPc.unexchanged,
              Function.update_apply] at hn ⊢
            grind
          · rintro c w j ⟨⟩ hw
            cases hv.symm.trans hw
            exact hfound
        next hfound =>
          simp only [hfound,if_false]
          refine { h with
            recorded := ?_
            destroying := hdestroying
            exposed := ?_
            kept := (by rintro _ _ _ ⟨⟩) }
          · intro n w hw
            by_cases hne : n = candidate
            · simp [Manager.moveCollector,hne] at hw
            · exact h.recorded n w (by simpa [Manager.moveCollector,hne] using hw)
          · intro n w j hn hw hj
            by_cases hne : n = candidate
            · simp [Manager.moveCollector,hne] at hw
            · simp only [Exposed,Function.update_of_ne hne] at hn
              exact hexposed n w j hn (by simpa [Manager.moveCollector,hne] using hw) hj
  | putLoad pass i candidate next =>
    simp only [hc,Exposed] at hexposed hdestroying hkept
    simp only [trackCollector,hc]
    simp only [checkToDelete,hc] at hs
    cases hs
    exact h.collector rfl hdestroying hexposed hkept
  | putCas pass i candidate next =>
    simp only [hc,Exposed] at hexposed hdestroying hkept
    simp only [trackCollector,hc]
    simp only [checkToDelete,hc] at hs
    split at hs <;> cases hs
    next hcas =>
      simp only [hcas,and_self,if_true]
      refine h.collector rfl hdestroying ?_ (by rintro _ _ _ ⟨⟩)
      intro n v j hn hv hj
      by_cases hne : n = candidate
      · exact hkept n v j (by rw [hne]; rfl) hv
      · refine hexposed n v j ?_ hv hj
        simp only [Exposed,Function.update_of_ne hne] at hn
        exact hn
    next hcas =>
      simp only [hcas,if_false]
      exact { h with }
  | putCount pass i next =>
    simp only [hc,Exposed] at hexposed hdestroying
    simp only [trackCollector,hc]
    simp only [checkToDelete,hc] at hs
    cases hs
    exact h.collector rfl hdestroying hexposed (by rintro _ _ _ ⟨⟩)
  | _ => simp [checkToDelete,hc] at hs

omit [DecidableEq L] in
/-- The steps of the collector. -/
theorem guarded_collectorStep {spurious : Bool} (h : Guarded s place)
    (hs : collectorStep s spurious = some s') : Guarded s' (trackCollector s place spurious) := by
  have hexposed := h.exposed
  have hdestroying := h.destroying
  cases hc : s.collector with
  | exchange pass | walk pass i candidate | putLoad pass i candidate next
  | putCas pass i candidate next | putCount pass i next =>
    simp only [collectorStep,hc] at hs
    exact guarded_checkToDelete h hs
  | lock | returned | destroyed | fault => simp [collectorStep,hc] at hs
  | guardCancel | guardCount | sleepCount | sleepCancel =>
    simp only [trackCollector,hc]
    simp only [collectorStep,hc,Option.some.injEq] at hs
    subst hs
    split <;> exact h.outside rfl (fun _ _ => trivial) (by rintro ⟨⟩)
  | reset | sleep =>
    simp only [trackCollector,hc]
    simp only [collectorStep,hc,Option.some.injEq] at hs
    subst hs
    exact h.outside rfl (fun _ _ => trivial) (by rintro ⟨⟩)
  | scan order todo found =>
    simp only [hc,Exposed] at hexposed
    simp only [trackCollector,hc]
    cases todo with
    | nil =>
      simp only [collectorStep,hc,Option.some.injEq] at hs
      subst hs
      refine h.collector rfl (by rintro ⟨⟩) ?_ (by rintro _ _ _ ⟨⟩)
      intro n v j hn hv hj
      exact (hexposed n v j hn hv hj).resolve_right List.not_mem_nil
    | cons i rest =>
      simp only [collectorStep,hc,Option.some.injEq] at hs
      subst hs
      refine h.collector rfl (by rintro ⟨⟩) ?_ (by rintro _ _ _ ⟨⟩)
      intro n v j hn hv hj
      simp only [Manager.moveCollector,CollectorPc.Covers]
      rcases hexposed n v j hn hv hj with hfound | hmem
      · exact .inl (List.mem_append_right _ hfound)
      · -- the slot just read is that of the thread, and holds the value
        rcases List.mem_cons.mp hmem with rfl | hmem
        · exact .inl (List.mem_append_left _ (by simp [(h.held j v hj).1]))
        · exact .inr hmem
  | assertProtected pass =>
    simp only [hc] at hdestroying
    have hcancel := hdestroying rfl
    have hnobody : ∀ n v j, Exposed (s.moveCollector (.exchange pass)) place n →
        s.value n = some v → s.held j = some v →
        (s.moveCollector (.exchange pass)).collector.Covers v j := by
      intro n v j hn hv hj
      simp [h.held_none hcancel j] at hj
    simp only [trackCollector,hc]
    simp only [collectorStep,hc] at hs
    split at hs
    · split at hs <;> cases hs
      exact h.collector rfl (fun _ => hcancel) hnobody (by rintro _ _ _ ⟨⟩)
    · cases hs
      exact h.collector rfl (fun _ => hcancel) hnobody (by rintro _ _ _ ⟨⟩)
  | assertRetired pass i =>
    simp only [hc] at hdestroying
    simp only [trackCollector,hc]
    simp only [collectorStep,hc] at hs
    split at hs <;> cases hs
    exact h.outside rfl (fun _ _ => trivial) fun _ => hdestroying rfl
  | clear =>
    simp only [hc] at hdestroying
    have habsent := h.cancelled (hdestroying rfl)
    simp only [trackCollector,hc]
    simp only [collectorStep,hc] at hs
    split at hs <;> cases hs
    refine { h with
      listed := ?_
      destroying := fun _ => hdestroying rfl
      exposed := fun _ _ _ _ _ _ => trivial
      kept := (by rintro _ _ _ ⟨⟩) }
    intro j hj
    simp [Manager.moveCollector,habsent j,Pc.listed] at hj

/-- The call of a function of the mutator, after which the thread holds
nothing. -/
theorem Guarded.call (h : Guarded s place) (hs : call (s.hold t none) t q = some s')
    (hretiring : ∀ v, q ≠ .retireNew v) (hcheck : ∀ ptr before, q ≠ .acquireCheck ptr before) :
    Guarded s' place := by
  unfold HazardManager.call at hs
  split at hs <;> cases hs
  next hpc =>
    have hidle : s.pc t = .idle := hpc
    refine h.thread rfl rfl rfl rfl rfl rfl (List.Subset.refl _) ?_ ?_
      (h.running (t := t) (by simp [hidle])) ?_ ?_ ?_ ?_
    · intro j v hj
      by_cases hne : j = t
      · simp [Manager.goto,Manager.hold,hne] at hj
      · simpa [Manager.goto,Manager.hold,hne] using hj
    · exact fun j hj => rfl
    · exact fun v hv => absurd hv (hretiring v)
    · exact fun v hv => by simp [Manager.goto,Manager.hold] at hv
    · exact fun ptr before hq => absurd hq (hcheck ptr before)
    · exact fun _ => h.listed t (by rw [hidle]; rfl)

omit [DecidableEq L] [DecidableEq N] in
/-- A value that no shared pointer holds is handed to Retire. -/
theorem Guarded.retire {v : V} (h : Guarded s place) (hidle : s.pc t = .idle)
    (hunlinked : ∀ ptr, s.shared ptr ≠ some v) :
    Guarded ({ s with retired := Function.update s.retired v true }.goto t (.retireNew v)) place := by
  have hrun := h.running (t := t) (by simp [hidle])
  have hlocated := h.located
  have hold := h.held
  have hstore := h.stored
  have hlist := h.listed
  have hret := h.retiring
  have hrec := h.recorded
  refine { h with
    located := ?_
    recorded := ?_
    retiring := ?_
    held := ?_
    stored := ?_
    listed := ?_
    cancelled := ?_ }
  all_goals simp only [Manager.goto,Function.update_apply]
  · grind
  · grind
  · grind
  · grind
  · grind
  · grind
  · grind

omit [DecidableEq L] [DecidableEq V] in
/-- Retire allocates a node, which is on no list yet. -/
theorem Guarded.allocated {v : V} {node : N} (h : Guarded s place) (hcustody : Custody s.heap place)
    (hpc : s.pc t = .retireNew v) (hfree : s.value node = none) :
    Guarded (({ s with value := Function.update s.value node (some v) }.setNext node
      (s.retiredPtrs t)).goto t (.retireCas node))
      (Function.update place node (some (.pending t))) := by
  have h' : Guarded (s.goto t (.retireCas node)) place :=
    h.move rfl rfl (by rw [hpc]; constructor <;> simp [Pc.holding,Pc.listed])
  refine { h' with
    recorded := ?_
    exposed := ?_
    kept := ?_ }
  · intro n w hw
    by_cases hne : n = node
    · simp only [Manager.goto,Manager.setNext,hne,Function.update_self,Option.some.injEq] at hw
      exact hw ▸ h.retiring t v hpc
    · exact h.recorded n w (by simpa [Manager.goto,Manager.setNext,hne] using hw)
  · intro n w j hn hw hj
    by_cases hne : n = node
    · simp [Exposed,hne] at hn
    · simp only [Exposed,Function.update_of_ne hne] at hn
      exact h.exposed n w j hn (by simpa [Manager.goto,Manager.setNext,hne] using hw) hj
  · intro c w j hc hw
    have hne : c ≠ node := by
      rintro rfl
      have halloc := hcustody.allocated_iff.mpr
        (show place c ≠ none by simp [hcustody.hand_place (n := c) hc])
      simp [Manager.heap,hfree] at halloc
    exact h.kept c w j hc (by simpa [Manager.goto,Manager.setNext,hne] using hw)

/-- Every orderly step keeps the invariant. -/
theorem guarded_step {a : Action τ L V N} (h : Guarded s place) (hcustody : Custody s.heap place)
    (ha : Orderly s a) (hs : step s a = some s') : Guarded s' (track s place a) := by
  obtain ⟨hcontract,htimely⟩ := ha
  cases a with
  | write ptr x =>
    cases hs
    refine { h with located := ?_ }
    intro l v hl
    by_cases hne : l = ptr
    · simp only [hne,Function.update_self] at hl
      subst hl
      exact hcontract
    · exact h.located l v (by simpa [hne] using hl)
  | makeMutator t =>
    simp only [step] at hs
    split at hs <;> cases hs
    next hpc =>
      refine h.thread rfl rfl rfl rfl rfl rfl (List.Subset.refl _) (fun j v hj => hj)
        (fun j _ => rfl) hcontract (by rintro _ ⟨⟩) ?_ (by rintro _ _ ⟨⟩) (by rintro ⟨⟩)
      intro v hv
      have hp := (h.held t v hv).2
      rw [hpc] at hp
      cases hp
  | acquire t ptr | release t | destroyMutator t =>
    simp only [step] at hs
    exact h.call hs (by rintro _ ⟨⟩) (by rintro _ _ ⟨⟩)
  | retire t v =>
    cases v with
    | none =>
      simp only [step,call] at hs
      split at hs <;> cases hs
      next hpc =>
        exact h.move rfl rfl (by rw [hpc]; constructor <;> simp [Pc.holding,Pc.listed])
    | some v =>
      simp only [step,call] at hs
      split at hs <;> cases hs
      next hpc => exact h.retire hpc hcontract.2
  | alloc t node =>
    simp only [step] at hs
    split at hs <;> cases hs
    next v hpc hfree => exact h.allocated hcustody hpc hfree
  | step t spurious => exact guarded_threadStep h htimely hs
  | lock order =>
    simp only [step] at hs
    split at hs
    next hperm =>
      split at hs <;> cases hs
      · refine h.collector rfl (by rintro ⟨⟩) ?_ (by rintro _ _ _ ⟨⟩)
        intro n v j _ _ hj
        have hlist := h.listed j (Pc.listed_of_holding (h.held j v hj).2)
        exact .inr (hperm.mem_iff.mpr hlist)
      next hcancel =>
        exact h.outside rfl (fun _ _ => trivial) fun _ => hcancel
    next => cases hs
  | collect spurious => exact guarded_collectorStep h hs
  | destroy =>
    simp only [step] at hs
    split at hs <;> cases hs
    exact { h with
      cancelled := fun _ => hcontract
      destroying := fun _ => rfl }

end Steps

section Runs

variable {s s' : Manager τ L V N}

/-- Every state of an orderly run is guarded. -/
theorem guarded_reachable (hr : (manager τ L V N).ReachableUnder Orderly s) :
    ∃ place, Custody s.heap place ∧ Guarded s place := by
  refine System.ReachableUnder.invariant ?_ ?_ hr
  · refine ⟨fun _ => none,custody_initial,?_⟩
    constructor <;> simp [manager,initial,Pc.listed,CollectorPc.destroying,Exposed,CollectorPc.kept]
  · rintro s a s' _ ⟨place,hcustody,h⟩ ha hs
    exact ⟨track s place a,custody_step hcustody hs,guarded_step h hcustody ha hs⟩

omit [DecidableEq L] in
/-- No step of a thread runs a deleter. -/
theorem threadStep_deleted {t : τ} {spurious : Bool} (hs : threadStep s t spurious = some s') :
    s'.deleted = s.deleted := by
  unfold threadStep at hs
  split at hs <;> try split at hs
  all_goals
    cases hs
    try rfl

omit [DecidableEq L] in
/-- The deleter runs in CheckToDelete only, on a value that was not found. -/
theorem checkToDelete_deleted {spurious : Bool} {v : V} (hs : checkToDelete s spurious = some s')
    (hd : s'.deleted v ≠ s.deleted v) : ∃ pass i candidate,
      s.collector = .walk pass i (some candidate) ∧ s.value candidate = some v ∧
      v ∉ pass.found := by
  unfold checkToDelete at hs
  split at hs
  next hc =>
    split at hs <;> cases hs <;> exact absurd rfl hd
  next hc =>
    split at hs <;> cases hs <;> exact absurd rfl hd
  next pass i candidate hc =>
    split at hs
    next => cases hs; exact absurd rfl hd
    next w hw =>
      split at hs <;> cases hs
      next => exact absurd rfl hd
      next hfound =>
        by_cases hv : v = w
        · exact ⟨pass,i,candidate,hc,hv ▸ hw,hv ▸ hfound⟩
        · exact absurd (Function.update_of_ne hv ..) hd
  next => cases hs; exact absurd rfl hd
  next => split at hs <;> cases hs <;> exact absurd rfl hd
  next => cases hs; exact absurd rfl hd
  next => cases hs

omit [DecidableEq L] in
/-- No other step of the collector runs a deleter. -/
theorem collectorStep_deleted {spurious : Bool} (hs : collectorStep s spurious = some s') :
    s'.deleted = s.deleted ∨ checkToDelete s spurious = some s' := by
  unfold collectorStep at hs
  split at hs
  all_goals first
    | exact .inr hs
    | cases hs <;> exact .inl rfl
    | split at hs <;> cases hs <;> exact .inl rfl
    | split at hs <;> (try split at hs) <;> cases hs <;> exact .inl rfl

/-- The deleter of a value runs only where CheckToDelete did not find it. -/
theorem step_deleted {a : Action τ L V N} {v : V} (hs : step s a = some s')
    (hd : s'.deleted v ≠ s.deleted v) : ∃ pass i candidate,
      s.collector = .walk pass i (some candidate) ∧ s.value candidate = some v ∧
      v ∉ pass.found := by
  cases a with
  | step t spurious => exact absurd (congrFun (threadStep_deleted hs) v) hd
  | collect spurious =>
    rcases collectorStep_deleted hs with hsame | hcheck
    · exact absurd (congrFun hsame v) hd
    · exact checkToDelete_deleted hcheck hd
  | retire t x =>
    cases x <;> simp only [step,call] at hs <;> split at hs <;> cases hs
    · exact absurd rfl hd
    · exact absurd rfl hd
  | write ptr x =>
    cases hs
    exact absurd rfl hd
  | lock order =>
    simp only [step] at hs
    split at hs
    · split at hs <;> cases hs <;> exact absurd rfl hd
    · cases hs
  | makeMutator t | acquire t ptr | release t | destroyMutator t | alloc t node | destroy =>
    simp only [step,call] at hs
    split at hs <;> cases hs
    exact absurd rfl hd

/-- In every run whose clients keep their contract and whose Retires are
timely, no deleter runs on a value while a thread holds it. -/
theorem deleter_spares_held {a : Action τ L V N} {v : V}
    (hr : (manager τ L V N).ReachableUnder Orderly s) (hs : (manager τ L V N).step s a = some s')
    (hd : s'.deleted v ≠ s.deleted v) (t : τ) : s.held t ≠ some v := by
  obtain ⟨place,hcustody,h⟩ := guarded_reachable hr
  obtain ⟨pass,i,candidate,hc,hv,hfound⟩ := step_deleted hs hd
  intro ht
  have htaken : place candidate = some .taken :=
    hcustody.taken_place (by rw [Manager.heap,hc]; rfl)
  have hcovers := h.exposed candidate v t (.inl htaken) hv ht
  rw [hc] at hcovers
  exact hfound hcovers

end Runs

instance [Fintype τ] [Fintype L] (s : Manager τ L V N) : ∀ a, Decidable (Contract s a)
  | .write _ (some v) => inferInstanceAs (Decidable (s.retired v = false))
  | .retire _ (some v) =>
    inferInstanceAs (Decidable (s.retired v = false ∧ ∀ ptr, s.shared ptr ≠ some v))
  | .makeMutator _ => inferInstanceAs (Decidable (s.cancelCollect = false))
  | .destroy => inferInstanceAs (Decidable (∀ t, s.pc t = .absent))
  | .write _ none | .retire _ none | .acquire .. | .release _ | .destroyMutator _ | .alloc ..
  | .step .. | .lock _ | .collect _ => isTrue trivial

instance (c : CollectorPc τ V N) (v : V) (t : τ) : Decidable (c.Covers v t) :=
  match c with
  | .scan _ todo found => inferInstanceAs (Decidable (v ∈ found ∨ t ∈ todo))
  | .exchange pass | .walk pass .. | .putLoad pass .. | .putCas pass .. | .putCount pass .. =>
    inferInstanceAs (Decidable (v ∈ pass.found))
  | .guardCancel | .guardCount | .reset | .lock | .sleepCount | .sleepCancel | .sleep | .returned
  | .assertProtected _ | .assertRetired .. | .clear | .destroyed | .fault => isTrue trivial

instance [Fintype τ] [Fintype V] [Fintype N] (s : Manager τ L V N) : ∀ a, Decidable (Timely s a)
  | .step t spurious => inferInstanceAs (Decidable (∀ retire v, s.pc t = .retireCas retire →
      s.value retire = some v → s.retiredPtrs t = s.next retire → spurious = false →
      t ∈ s.collector.unexchanged → ∀ j, s.held j = some v → s.collector.Covers v j))
  | .write .. | .retire .. | .acquire .. | .release _ | .destroyMutator _ | .alloc .. | .lock _
  | .collect _ | .makeMutator _ | .destroy => isTrue trivial

instance [Fintype τ] [Fintype L] [Fintype V] [Fintype N] (s : Manager τ L V N)
    (a : Action τ L V N) : Decidable (Orderly s a) :=
  inferInstanceAs (Decidable (Contract s a ∧ Timely s a))

/-- A thread makes its mutator. -/
def start {τ L V N : Type*} (t : τ) : List (Action τ L V N) :=
  .makeMutator t :: List.replicate 4 (.step t false)

/-- A thread acquires a shared pointer that nobody writes meanwhile. -/
def protects {τ L V N : Type*} (t : τ) (ptr : L) : List (Action τ L V N) :=
  .acquire t ptr :: List.replicate 3 (.step t false)

/-- Thread 0 holds value 1 while thread 1 unlinks and retires value 0, whose
deleter runs in the next pass. -/
def retireOther : List (Action (Fin 2) (Fin 2) (Fin 2) (Fin 1)) :=
  [[.write 0 (some 0),.write 1 (some 1)],start 0,start 1,protects 0 1,
    [.write 0 none,.retire 1 (some 0),.alloc 1 0,.step 1 false,.collect false,.collect false,
      .collect false,.lock [0,1]],List.replicate 6 (.collect false)].flatten

theorem retireOther_ends :
    (manager (Fin 2) (Fin 2) (Fin 2) (Fin 1)).Ends (initial (Fin 2) (Fin 2) (Fin 2) (Fin 1))
      retireOther
      fun s => s.held 0 = some 1 ∧ (manager (Fin 2) (Fin 2) (Fin 2) (Fin 1)).Ends s [.collect false]
        fun s' => s'.deleted 0 = s.deleted 0 + 1 := by
  decide +kernel

theorem retireOther_orderly :
    (manager (Fin 2) (Fin 2) (Fin 2) (Fin 1)).Meets Orderly
      (initial (Fin 2) (Fin 2) (Fin 2) (Fin 1)) retireOther := by
  decide +kernel

theorem deleter_spares_held_other :
    ∃ s s' : Manager (Fin 2) (Fin 2) (Fin 2) (Fin 1),
      (manager (Fin 2) (Fin 2) (Fin 2) (Fin 1)).ReachableUnder Orderly s ∧
      (manager (Fin 2) (Fin 2) (Fin 2) (Fin 1)).step s (.collect false) = some s' ∧
      s'.deleted 0 = s.deleted 0 + 1 ∧ s.held 0 = some 1 ∧ ∀ t, s.held t ≠ some 0 := by
  obtain ⟨s,hr,hheld,hend⟩ := retireOther_ends.reachableUnder retireOther_orderly
  obtain ⟨s',hs,hd⟩ := hend.exists_run
  have hs := System.run_one hs
  exact ⟨s,s',hr,hs,hd,hheld,deleter_spares_held hr hs (by omega)⟩

/-- The pass reads the empty slot of thread 0, which then acquires value 0.
Thread 1 unlinks the value and retires it on its list, which the pass empties
next: the deleter runs under thread 0. -/
def retireHeld : List (Action (Fin 2) (Fin 1) (Fin 1) (Fin 1)) :=
  [[.write 0 (some 0)],start 0,start 1,
    [.collect false,.collect false,.collect false,.lock [0,1],.collect false],protects 0 0,
    [.write 0 none,.retire 1 (some 0),.alloc 1 0,.step 1 false],
    List.replicate 5 (.collect false)].flatten

theorem retireHeld_ends :
    (manager (Fin 2) (Fin 1) (Fin 1) (Fin 1)).Ends (initial (Fin 2) (Fin 1) (Fin 1) (Fin 1))
      retireHeld
      fun s => s.held 0 = some 0 ∧ (manager (Fin 2) (Fin 1) (Fin 1) (Fin 1)).Ends s [.collect false]
        fun s' => s'.deleted 0 ≠ s.deleted 0 := by
  decide +kernel

theorem retireHeld_contract :
    (manager (Fin 2) (Fin 1) (Fin 1) (Fin 1)).Meets Contract
      (initial (Fin 2) (Fin 1) (Fin 1) (Fin 1)) retireHeld := by
  decide +kernel

theorem deleter_runs_on_held :
    ¬∀ s a s' v t, (manager (Fin 2) (Fin 1) (Fin 1) (Fin 1)).ReachableUnder Contract s →
      (manager (Fin 2) (Fin 1) (Fin 1) (Fin 1)).step s a = some s' → s'.deleted v ≠ s.deleted v →
      s.held t ≠ some v := by
  intro hall
  obtain ⟨s,hr,hheld,hend⟩ := retireHeld_ends.reachableUnder retireHeld_contract
  obtain ⟨s',hs,hd⟩ := hend.exists_run
  have hs := System.run_one hs
  exact hall s _ s' 0 0 hr hs hd hheld

end ConcurrencyRuntime.HazardManager
