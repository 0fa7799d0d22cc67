import ConcurrencyRuntime.AsyncMutex
import ConcurrencyRuntime.FiberSectionsWaiters
import ConcurrencyRuntime.FiberSyncSections

/-!
# Each mutex of the fibers

A mutex that fibers use among other mutexes and wait groups goes through states
of the mutex alone. With the guards that make the sections atomic this holds of
the mutex of the source, spinlock included.
-/

namespace ConcurrencyRuntime.AsyncMutex

open TransitionSystem IntrusiveList
open FiberSections (Waiters Arranged)

/-- The mutex alone has this flag, this owner and these waiters. -/
structure Matches {ι : Type*} (s : Mutex ι) (locked : Bool) (owner : Option ι) (W : Waiters ι) :
    Prop where
  locked : s.locked = locked
  owns : ∀ f, s.owns f = true ↔ owner = some f
  holds : Holds s.next s.waiters W.list
  tasks : s.tasks = W.tasks
  suspended : ∀ f, s.fiber f = .suspended ↔ W.waiting f = true
  unlocking : ∀ f w k, s.fiber f = .unlocking w k → W.hand f = [w]
  hand : ∀ f w rest, W.hand f = w :: rest → ∃ k, s.fiber f = .unlocking w k

variable {ι : Type*}

/-- A fiber that neither waits nor has a waiter in its hands runs outside. -/
theorem Matches.outside {s : Mutex ι} {locked : Bool} {owner : Option ι} {W : Waiters ι} {f : ι}
    (h : Matches s locked owner W) (hhand : W.hand f = []) (hwaiting : W.waiting f = false) :
    s.fiber f = .outside := by
  cases hf : s.fiber f with
  | outside => rfl
  | suspended =>
    rw [(h.suspended f).mp hf] at hwaiting
    cases hwaiting
  | unlocking w k =>
    rw [h.unlocking f w k hf] at hhand
    cases hhand

theorem Matches.of_eq {s : Mutex ι} {locked locked' : Bool} {owner owner' : Option ι}
    {W W' : Waiters ι} (h : Matches s locked owner W) (hlocked : locked' = locked)
    (howner : owner' = owner) (hW : W' = W) : Matches s locked' owner' W' := by
  rw [hlocked,howner,hW]
  exact h

section Sections

variable [DecidableEq ι] {s : Mutex ι} {locked : Bool} {owner : Option ι} {W W' : Waiters ι}
  {f w : ι} {rest : List ι}

/-- Lock parks the fiber on a locked mutex. -/
theorem Matches.park (h : Matches s true owner W) (hhand : W.hand f = [])
    (hout : f ∉ W.list) : Matches (lock s f) true owner (W.park f) := by
  have hlock : AsyncMutex.lock s f =
      { s with
        waiters := s.waiters.push f
        next := s.waiters.pushLinks (Function.update s.next f none) f
        fiber := Function.update s.fiber f .suspended
        parks := s.parks ++ [f] } := if_pos h.locked
  rw [hlock]
  constructor
  case locked => exact h.locked
  case owns => exact h.owns
  case holds => exact (h.holds.write hout none).push hout
  case tasks => exact h.tasks
  case suspended =>
    intro g
    simp only [Waiters.park,Function.update_apply]
    split
    · exact iff_of_true rfl rfl
    · exact h.suspended g
  case unlocking =>
    intro g u k hg
    simp only [Function.update_apply] at hg
    split at hg
    · cases hg
    · exact h.unlocking g u k hg
  case hand =>
    intro g u rest hg
    have hgf : g ≠ f := by
      rintro rfl
      rw [Waiters.park,hhand] at hg
      cases hg
    simp only [Function.update_of_ne hgf]
    exact h.hand g u rest hg

/-- Lock takes a free mutex. -/
theorem Matches.take (h : Matches s false owner W) (hnobody : ∀ g, s.owns g = false) :
    Matches (lock s f) true (some f) W := by
  have hlock : AsyncMutex.lock s f =
      { s with locked := true, owns := Function.update s.owns f true } :=
    if_neg (by rw [h.locked]; exact Bool.false_ne_true)
  rw [hlock]
  refine ⟨rfl,?_,h.holds,h.tasks,h.suspended,h.unlocking,h.hand⟩
  intro g
  simp only [Function.update_apply,hnobody,Option.some.injEq]
  split
  next hg => exact iff_of_true rfl hg.symm
  next hg => exact iff_of_false Bool.false_ne_true (Ne.symm hg)

/-- Unlock frees a mutex without waiters. -/
theorem Matches.free (h : Matches s locked (some f) W) (hlist : W.list = []) :
    Matches (unlock s f) false none W := by
  have hempty : s.waiters.isEmpty = true := by rw [h.holds.isEmpty,hlist,List.isEmpty_nil]
  have hunlock : AsyncMutex.unlock s f =
      { s with locked := false, owns := Function.update s.owns f false } := if_pos hempty
  rw [hunlock]
  refine ⟨rfl,?_,h.holds,h.tasks,h.suspended,h.unlocking,h.hand⟩
  intro g
  refine iff_of_false ?_ (by rintro ⟨⟩)
  simp only [Function.update_apply]
  split
  · exact Bool.false_ne_true
  next hg =>
    rw [h.owns,Option.some.injEq]
    exact Ne.symm hg

/-- Unlock hands the mutex to the first waiter. -/
theorem Matches.handOver (h : Matches s locked (some f) W) (hlist : W.list = w :: rest)
    (hwaiting : W.waiting f = false) :
    Matches (unlock s f) locked (some w) (W.pop f [w] rest) := by
  obtain ⟨hpopped,hpop⟩ := h.holds.pop
  have hempty : ¬s.waiters.isEmpty = true := by
    rw [h.holds.isEmpty,hlist,List.isEmpty_cons]
    exact Bool.false_ne_true
  have hunlock : AsyncMutex.unlock s f =
      { s with
        waiters := s.waiters.pop s.next
        fiber := Function.update s.fiber f (.unlocking w s.grants.length)
        owns := Function.update (Function.update s.owns f false) w true
        grants := s.grants ++ [w] } := by
    rw [AsyncMutex.unlock,if_neg hempty,hpopped,hlist]
    rfl
  rw [hunlock]
  constructor
  case locked => exact h.locked
  case owns =>
    intro g
    simp only [Function.update_apply,Option.some.injEq]
    split
    next hg => exact iff_of_true rfl hg.symm
    next hg =>
      refine iff_of_false ?_ (Ne.symm hg)
      split
      · exact Bool.false_ne_true
      next hgf =>
        rw [h.owns,Option.some.injEq]
        exact Ne.symm hgf
  case holds =>
    rw [hlist] at hpop
    exact hpop
  case tasks => exact h.tasks
  case suspended =>
    intro g
    simp only [Waiters.pop,Function.update_apply]
    split
    next hg =>
      rw [hg,hwaiting]
      exact iff_of_false (by rintro ⟨⟩) Bool.false_ne_true
    next => exact h.suspended g
  case unlocking =>
    intro g u k hg
    simp only [Waiters.pop,Function.update_apply] at hg ⊢
    split at hg
    next hgf =>
      cases hg
      rw [if_pos hgf]
    next hgf =>
      rw [if_neg hgf]
      exact h.unlocking g u k hg
  case hand =>
    intro g u rest' hg
    simp only [Waiters.pop,Function.update_apply] at hg ⊢
    split at hg
    next hgf =>
      cases hg
      exact ⟨_,if_pos hgf⟩
    next hgf =>
      simp only [if_neg hgf]
      exact h.hand g u rest' hg

/-- The waiter is scheduled, and its fiber leaves Unlock. -/
theorem Matches.schedule {k : ℕ} (h : Matches s locked owner W) (hwaiting : W.waiting f = false) :
    Matches { s with
      fiber := Function.update s.fiber f .outside
      tasks := s.tasks ++ [w]
      schedules := s.schedules ++ [k] } locked owner (W.schedule f w []) := by
  constructor
  case locked => exact h.locked
  case owns => exact h.owns
  case holds => exact h.holds
  case tasks => exact congrArg (· ++ [w]) h.tasks
  case suspended =>
    intro g
    simp only [Waiters.schedule,Function.update_apply]
    split
    next hg =>
      rw [hg,hwaiting]
      exact iff_of_false (by rintro ⟨⟩) Bool.false_ne_true
    next => exact h.suspended g
  case unlocking =>
    intro g u j hg
    simp only [Waiters.schedule,Function.update_apply] at hg ⊢
    split at hg
    · cases hg
    next hgf =>
      rw [if_neg hgf]
      exact h.unlocking g u j hg
  case hand =>
    intro g u rest' hg
    simp only [Waiters.schedule,Function.update_apply] at hg ⊢
    split at hg
    · cases hg
    next hgf =>
      simp only [if_neg hgf]
      exact h.hand g u rest' hg

/-- The first waiter of the pool is resumed. -/
theorem Matches.resume (h : Matches s locked owner W) (hhand : W.hand w = []) :
    Matches { s with tasks := rest, fiber := Function.update s.fiber w .outside } locked owner
      (W.resume w rest) := by
  constructor
  case locked => exact h.locked
  case owns => exact h.owns
  case holds => exact h.holds
  case tasks => rfl
  case suspended =>
    intro g
    simp only [Waiters.resume,Function.update_apply]
    split
    · exact iff_of_false (by rintro ⟨⟩) Bool.false_ne_true
    · exact h.suspended g
  case unlocking =>
    intro g u k hg
    simp only [Function.update_apply] at hg
    split at hg
    · cases hg
    · exact h.unlocking g u k hg
  case hand =>
    intro g u rest' hg
    have hgw : g ≠ w := by
      rintro rfl
      rw [Waiters.resume,hhand] at hg
      cases hg
    simp only [Function.update_of_ne hgw]
    exact h.hand g u rest' hg

/-- A step outside of the sections of the mutex schedules or resumes a waiter
of it, or does nothing to it. -/
theorem Matches.moves (h : Matches s locked owner W) (hm : W.Moves W') :
    ∃ labels s', (mutex ι).run s labels = some s' ∧ Matches s' locked owner W' := by
  cases hm with
  | stay => exact ⟨[],s,rfl,h⟩
  | @schedule f w rest hhand hwaiting =>
    obtain ⟨k,hf⟩ := h.hand f w rest hhand
    obtain rfl : rest = [] := by
      have hone := h.unlocking f w k hf
      rw [hhand] at hone
      exact (List.cons.inj hone).2
    refine ⟨[.schedule f],_,?_,h.schedule (k := k) hwaiting⟩
    simp [System.run,mutex,step,hf]
  | @resume w rest htasks hwaiting hhand =>
    refine ⟨[.resume],_,?_,h.resume hhand⟩
    simp [System.run,mutex,step,h.tasks,htasks,(h.suspended w).mpr hwaiting]

end Sections

section Runs

variable {ω ι κ γ : Type*} [DecidableEq ω] [DecidableEq ι] [DecidableEq κ] [DecidableEq γ]
  {x x' : FiberSections.Runtime ω ι κ γ} {s : Mutex ι} {m : κ}

/-- The mutex alone answers every step of the fibers: its own sections where
they run, and the others not at all. -/
theorem matches_step {a : FiberSections.Action ω ι κ γ} (hA : Arranged x)
    (hr : (mutex ι).Reachable s)
    (h : Matches s (x.locked m) (x.owner m) (x.waitersOf (.inl m)))
    (hs : FiberSections.step x a = some x') :
    ∃ labels s', (mutex ι).run s labels = some s' ∧
      Matches s' (x'.locked m) (x'.owner m) (x'.waitersOf (.inl m)) := by
  by_cases hapart : ∀ v op, a = .perform v op → op.host ≠ .inl m
  · obtain ⟨hmoves,hdata⟩ := FiberSections.waitersOf_moves hA hs hapart
    obtain ⟨hlocked,howner⟩ := Prod.mk.inj (Sum.inl.inj hdata)
    rw [hlocked,howner]
    exact h.moves hmoves
  · push Not at hapart
    obtain ⟨v,op,rfl,hop⟩ := hapart
    simp only [FiberSections.step] at hs
    split at hs
    next f hv =>
      split at hs <;> cases hs
      next hf =>
        obtain ⟨hf,hpermitted⟩ := hf
        obtain ⟨hhand,hwaiting⟩ := FiberSections.waitersOf_running (h := .inl m) hf
        have houtside := h.outside hhand hwaiting
        cases op with
        | lock n =>
          cases hop
          refine ⟨[.lock f],lock s f,by simp [System.run,mutex,step,houtside],?_⟩
          cases hlocked : x.locked m with
          | true =>
            have hpark : x.perform v f (.lock m) = x.park v f (.inl m) := if_pos hlocked
            have hout := hA.nowhere (f := f) (by rw [hf]; rfl) (.list (.inl m))
            rw [hlocked] at h
            rw [hpark]
            exact (h.park hhand hout).of_eq hlocked rfl (FiberSections.waitersOf_park hA hf)
          | false =>
            have htake : x.perform v f (.lock m) = { x with
                locked := Function.update x.locked m true
                owner := Function.update x.owner m (some f) } :=
              if_neg (by rw [hlocked]; exact Bool.false_ne_true)
            rw [hlocked] at h
            obtain ⟨ws,hws⟩ := accounted_reachable hr
            rw [htake]
            exact (h.take (hws.free h.locked).2).of_eq (Function.update_self ..)
              (Function.update_self ..) rfl
        | unlock n =>
          cases hop
          have howner : x.owner m = some f := of_decide_eq_true hpermitted
          rw [howner] at h
          refine ⟨[.unlock f],unlock s f,?_,?_⟩
          · simp [System.run,mutex,step,houtside,(h.owns f).mpr rfl]
          · unfold FiberSections.Runtime.perform
            simp only
            split
            next hlist =>
              exact (h.free hlist).of_eq (Function.update_self ..) (Function.update_self ..) rfl
            next w rest hlist =>
              exact (h.handOver hlist hwaiting).of_eq rfl (Function.update_self ..)
                (FiberSections.waitersOf_pop hA hf hlist rfl (Function.update_self ..) rfl)
        | add w amount | done w | wait w => cases hop
    next => cases hs

omit [DecidableEq ω] in
theorem matches_initial :
    Matches (initial ι) false none ((FiberSections.initial ω ι κ γ).waitersOf (.inl m)) := by
  constructor
  case locked => rfl
  case owns => simp [initial]
  case holds => exact holds_clear
  case tasks => rfl
  case suspended => simp [initial,FiberSections.Runtime.waitersOf,FiberSections.initial]
  case unlocking => rintro _ _ _ ⟨⟩
  case hand => rintro _ _ _ ⟨⟩

/-- Every state of the fibers shows each mutex in a state of the mutex alone. -/
theorem matches_reachable (hr : (FiberSections.sections ω ι κ γ).Reachable x) (m : κ) :
    ∃ s, (mutex ι).Reachable s ∧ Matches s (x.locked m) (x.owner m) (x.waitersOf (.inl m)) := by
  refine System.ReachableUnder.simulated (A := mutex ι)
    (R := fun (x : FiberSections.Runtime ω ι κ γ) s =>
      Matches s (x.locked m) (x.owner m) (x.waitersOf (.inl m))) hr matches_initial ?_
  intro x s a x' hr hr' h _ hs
  obtain ⟨labels,s',hrun,h'⟩ := matches_step (FiberSections.arranged_reachable hr) hr' h hs
  exact ⟨labels,s',System.meets_of_forall (fun _ _ => trivial) s labels,hrun,h'⟩

/-- With the guards of the source, each mutex is in a state of the mutex alone
at every moment: the sections of the mutex may be taken as single steps. -/
theorem mutex_of_guards {t : FiberSync.Runtime ω ι κ γ}
    (hr : (FiberSync.fibers ω ι κ γ).ReachableUnder FiberSync.Cleared t) (m : κ) :
    ∃ x s, FiberSync.Follows t x ∧ (mutex ι).Reachable s ∧
      Matches s (t.locked m) (t.owner m) (x.waitersOf (.inl m)) := by
  obtain ⟨x,hx,hF⟩ := FiberSync.sections_reachable hr
  obtain ⟨s,hs,h⟩ := matches_reachable hx m
  have hdata := hF.data
  simp only [FiberSync.Runtime.data,Prod.mk.injEq] at hdata
  rw [hdata.1,hdata.2.1] at h
  exact ⟨x,s,hF,hs,h⟩

end Runs

end ConcurrencyRuntime.AsyncMutex
