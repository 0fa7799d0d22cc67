import Mathlib

/-!
# Executable transition systems

A system has one start state and a partial step indexed by actions, so that
a schedule is a list of actions and a run can be evaluated. Reachability is
taken relative to a condition on the state before each step and the action
chosen there: a run is admitted when all its steps meet the condition. The
invariant rule and the forward simulation rule below are the only places
where a run is traversed.
-/

namespace ConcurrencyRuntime.TransitionSystem

-- Example runs number their parties from zero. With a named instance for each
-- small bound, such a numeral elaborates to the same term in every module.
instance neZero_one : NeZero 1 := ⟨by decide⟩
instance neZero_two : NeZero 2 := ⟨by decide⟩
instance neZero_three : NeZero 3 := ⟨by decide⟩
instance neZero_four : NeZero 4 := ⟨by decide⟩

/-- A deterministic partial step for each action from one start state.
All scheduling and spurious failures are choices of the action. -/
structure System (State Action : Type*) where
  /-- The state in which every run begins. -/
  start : State
  /-- The effect of one action, none where the action is not enabled. -/
  step : State → Action → Option State

variable {State Action Spec Label : Type*}

/-- Execute a schedule from the left, stopping at the first disabled action. -/
def System.run (M : System State Action) : State → List Action → Option State
  | s, [] => some s
  | s, a :: rest =>
    match M.step s a with
    | some s' => M.run s' rest
    | none => none

/-- States reached by the runs whose every step meets the condition, which
reads the state before the step and the action taken. -/
inductive System.ReachableUnder (M : System State Action) (Allowed : State → Action → Prop) :
    State → Prop
  | start : M.ReachableUnder Allowed M.start
  | step {s s' : State} {a : Action} : M.ReachableUnder Allowed s → Allowed s a →
      M.step s a = some s' → M.ReachableUnder Allowed s'

/-- States reached by any run at all. -/
def System.Reachable (M : System State Action) (s : State) : Prop :=
  M.ReachableUnder (fun _ _ => True) s

/-- Every step of the schedule that is executed meets the condition. -/
def System.Meets (M : System State Action) (Allowed : State → Action → Prop) :
    State → List Action → Prop
  | _, [] => True
  | s, a :: rest => Allowed s a ∧
    match M.step s a with
    | some s' => M.Meets Allowed s' rest
    | none => True

instance System.decidableMeets (M : System State Action) (Allowed : State → Action → Prop)
    [∀ s a, Decidable (Allowed s a)] : ∀ s acts, Decidable (M.Meets Allowed s acts)
  | _, [] => isTrue trivial
  | s, a :: rest =>
    match h : M.step s a with
    | some s' =>
      have := M.decidableMeets Allowed s' rest
      decidable_of_iff (Allowed s a ∧ M.Meets Allowed s' rest) (by rw [System.Meets,h])
    | none => decidable_of_iff (Allowed s a) (by simp [System.Meets,h])

/-- The whole schedule can be executed, and ends in a state as described. -/
def System.Ends (M : System State Action) (s : State) (acts : List Action)
    (P : State → Prop) : Prop :=
  match M.run s acts with
  | some s' => P s'
  | none => False

instance System.decidableEnds (M : System State Action) (s : State) (acts : List Action)
    (P : State → Prop) [DecidablePred P] : Decidable (M.Ends s acts P) :=
  match h : M.run s acts with
  | some s' => decidable_of_iff (P s') (by rw [System.Ends,h])
  | none => isFalse (by rw [System.Ends,h]; exact id)

/-- The invariant rule: what holds at the start and is kept by each
admitted step from a reached state holds in every reached state. -/
@[elab_as_elim]
theorem System.ReachableUnder.invariant {M : System State Action}
    {Allowed : State → Action → Prop} {Inv : State → Prop} (hstart : Inv M.start)
    (hstep : ∀ s a s', M.ReachableUnder Allowed s → Inv s → Allowed s a →
      M.step s a = some s' → Inv s') {s : State} (h : M.ReachableUnder Allowed s) : Inv s := by
  induction h with
  | start => exact hstart
  | step hr ha hs ih => exact hstep _ _ _ hr ih ha hs

/-- The invariant rule for unrestricted runs. -/
@[elab_as_elim]
theorem System.Reachable.invariant {M : System State Action} {Inv : State → Prop}
    (hstart : Inv M.start) (hstep : ∀ s a s', Inv s → M.step s a = some s' → Inv s')
    {s : State} (h : M.Reachable s) : Inv s :=
  System.ReachableUnder.invariant hstart (fun s a s' _ hi _ hs => hstep s a s' hi hs) h

/-- A weaker condition admits more runs. -/
theorem System.ReachableUnder.mono {M : System State Action}
    {Allowed Allowed' : State → Action → Prop} (hle : ∀ s a, Allowed s a → Allowed' s a)
    {s : State} (h : M.ReachableUnder Allowed s) : M.ReachableUnder Allowed' s := by
  induction h with
  | start => exact .start
  | step _ ha hs ih => exact .step ih (hle _ _ ha) hs

/-- A conditioned run is a run. -/
theorem System.ReachableUnder.reachable {M : System State Action}
    {Allowed : State → Action → Prop} {s : State} (h : M.ReachableUnder Allowed s) :
    M.Reachable s :=
  h.mono fun _ _ _ => trivial

/-- One more step of an unrestricted run. -/
theorem System.Reachable.next {M : System State Action} {s s' : State} {a : Action}
    (h : M.Reachable s) (hs : M.step s a = some s') : M.Reachable s' :=
  .step h trivial hs

/-- Executing a schedule whose steps meet the condition stays reachable. -/
theorem System.ReachableUnder.run {M : System State Action}
    {Allowed : State → Action → Prop} {acts : List Action} {s s' : State}
    (h : M.ReachableUnder Allowed s) (hm : M.Meets Allowed s acts)
    (hr : M.run s acts = some s') : M.ReachableUnder Allowed s' := by
  induction acts generalizing s with
  | nil =>
    cases hr
    exact h
  | cons a rest ih =>
    cases hs : M.step s a with
    | none => simp [System.run,hs] at hr
    | some t =>
      rw [System.run,hs] at hr
      rw [System.Meets,hs] at hm
      exact ih (h.step hm.1 hs) hm.2 hr

/-- Every schedule meets a condition that holds everywhere. -/
theorem System.meets_of_forall {M : System State Action} {Allowed : State → Action → Prop}
    (h : ∀ s a, Allowed s a) (s : State) (acts : List Action) : M.Meets Allowed s acts := by
  induction acts generalizing s with
  | nil => exact trivial
  | cons a rest ih =>
    rw [System.Meets]
    cases M.step s a with
    | none => exact ⟨h s a,trivial⟩
    | some t => exact ⟨h s a,ih t⟩

/-- Executing any schedule from a reachable state stays reachable. -/
theorem System.Reachable.run {M : System State Action} {acts : List Action} {s s' : State}
    (h : M.Reachable s) (hr : M.run s acts = some s') : M.Reachable s' :=
  System.ReachableUnder.run h (System.meets_of_forall (fun _ _ => trivial) s acts) hr

/-- A schedule that ends as described can be executed, into such a state. -/
theorem System.Ends.exists_run {M : System State Action} {acts : List Action} {s : State}
    {P : State → Prop} (h : M.Ends s acts P) : ∃ s', M.run s acts = some s' ∧ P s' := by
  rw [System.Ends] at h
  cases hr : M.run s acts with
  | none => simp [hr] at h
  | some s' =>
    rw [hr] at h
    exact ⟨s',rfl,h⟩

/-- A schedule that ends as described reaches such a state. -/
theorem System.Ends.reachable {M : System State Action} {acts : List Action} {P : State → Prop}
    (h : M.Ends M.start acts P) : ∃ s, M.Reachable s ∧ P s := by
  obtain ⟨s,hr,hp⟩ := h.exists_run
  exact ⟨s,System.Reachable.run .start hr,hp⟩

/-- A schedule whose steps meet the condition and that ends as described
reaches such a state under the condition. -/
theorem System.Ends.reachableUnder {M : System State Action}
    {Allowed : State → Action → Prop} {acts : List Action} {P : State → Prop}
    (h : M.Ends M.start acts P) (hm : M.Meets Allowed M.start acts) :
    ∃ s, M.ReachableUnder Allowed s ∧ P s := by
  obtain ⟨s,hr,hp⟩ := h.exists_run
  exact ⟨s,System.ReachableUnder.run .start hm hr,hp⟩

/-- Two schedules executed one after the other are one schedule. -/
theorem System.run_append (M : System State Action) (s : State) (front back : List Action) :
    M.run s (front ++ back) = (M.run s front).bind fun t => M.run t back := by
  induction front generalizing s with
  | nil => rfl
  | cons a rest ih =>
    cases hs : M.step s a with
    | none => simp [System.run,hs]
    | some t => simp [System.run,hs,ih]

/-- Labels of the abstract system that a concrete schedule stands for, read
off the states it passes through. -/
def System.image (M : System State Action) (label : State → Action → List Label) :
    State → List Action → List Label
  | _, [] => []
  | s, a :: rest =>
    label s a ++
      match M.step s a with
      | some s' => M.image label s' rest
      | none => []

/-- The labels of two schedules executed one after the other. -/
theorem System.image_append {M : System State Action} {label : State → Action → List Label}
    {front : List Action} {s t : State} (h : M.run s front = some t) (back : List Action) :
    M.image label s (front ++ back) = M.image label s front ++ M.image label t back := by
  induction front generalizing s with
  | nil =>
    cases h
    rfl
  | cons a rest ih =>
    cases hs : M.step s a with
    | none => simp [System.run,hs] at h
    | some u =>
      rw [System.run,hs] at h
      simp [System.image,hs,ih h]

/-- A schedule of one action is its step. -/
theorem System.run_one {M : System State Action} {s s' : State} {a : Action}
    (h : M.run s [a] = some s') : M.step s a = some s' := by
  cases hs : M.step s a with
  | none => simp [System.run,hs] at h
  | some t => simpa [System.run,hs] using h

/-- The last step of a schedule, after the state that the others reach. -/
theorem System.run_snoc {M : System State Action} {s s' : State} {front : List Action} {a : Action}
    (h : M.run s (front ++ [a]) = some s') : ∃ t, M.run s front = some t ∧
      M.step t a = some s' := by
  rw [System.run_append] at h
  obtain ⟨t,ht,hlast⟩ := Option.bind_eq_some_iff.mp h
  exact ⟨t,ht,System.run_one hlast⟩

/-- A run that comes to have a property has a step that brings it. -/
theorem System.run_becomes {M : System State Action} {P : State → Prop} {acts : List Action}
    {s s' : State} (hs : ¬P s) (hr : M.run s acts = some s') (hs' : P s') :
    ∃ front a back t u, acts = front ++ a :: back ∧ M.run s front = some t ∧ ¬P t ∧
      M.step t a = some u ∧ P u ∧ M.run u back = some s' := by
  induction acts generalizing s with
  | nil =>
    cases hr
    exact absurd hs' hs
  | cons a rest ih =>
    cases hstep : M.step s a with
    | none => simp [System.run,hstep] at hr
    | some t =>
      rw [System.run,hstep] at hr
      by_cases ht : P t
      · exact ⟨[],a,rest,s,t,rfl,rfl,hs,hstep,ht,hr⟩
      · obtain ⟨front,b,back,u,x,hacts,hfront,hu,hb,hx,hback⟩ := ih ht hr
        refine ⟨a :: front,b,back,u,x,by rw [hacts]; rfl,?_,hu,hb,hx,hback⟩
        rw [System.run,hstep]
        exact hfront

/-- The front of a schedule that meets a condition meets it. -/
theorem System.Meets.front {M : System State Action} {Allowed : State → Action → Prop}
    {front back : List Action} {s : State} (h : M.Meets Allowed s (front ++ back)) :
    M.Meets Allowed s front := by
  induction front generalizing s with
  | nil => exact trivial
  | cons a rest ih =>
    rw [List.cons_append,System.Meets] at h
    rw [System.Meets]
    refine ⟨h.1,?_⟩
    cases hs : M.step s a with
    | none => exact trivial
    | some t =>
      rw [hs] at h
      exact ih h.2

/-- The last step of a schedule that meets a condition meets it. -/
theorem System.Meets.last {M : System State Action} {Allowed : State → Action → Prop}
    {front : List Action} {a : Action} {s t : State} (h : M.Meets Allowed s (front ++ [a]))
    (hr : M.run s front = some t) : Allowed t a := by
  induction front generalizing s with
  | nil =>
    cases hr
    exact h.1
  | cons b rest ih =>
    cases hs : M.step s b with
    | none => simp [System.run,hs] at hr
    | some u =>
      rw [System.run,hs] at hr
      rw [List.cons_append,System.Meets,hs] at h
      exact ih h.2 hr

/-- A schedule that meets a condition meets every weaker one. -/
theorem System.Meets.mono {M : System State Action} {Allowed Allowed' : State → Action → Prop}
    (hle : ∀ s a, Allowed s a → Allowed' s a) {acts : List Action} {s : State}
    (h : M.Meets Allowed s acts) : M.Meets Allowed' s acts := by
  induction acts generalizing s with
  | nil => exact trivial
  | cons a rest ih =>
    rw [System.Meets] at h ⊢
    refine ⟨hle s a h.1,?_⟩
    cases hs : M.step s a with
    | none => exact trivial
    | some t =>
      rw [hs] at h
      exact ih h.2

/-- What each admitted step keeps, an admitted schedule keeps from any state. -/
theorem System.Meets.invariant {M : System State Action} {Allowed : State → Action → Prop}
    {Inv : State → Prop}
    (hstep : ∀ s a s', Inv s → Allowed s a → M.step s a = some s' → Inv s')
    {acts : List Action} {s s' : State} (hm : M.Meets Allowed s acts) (hi : Inv s)
    (hr : M.run s acts = some s') : Inv s' := by
  induction acts generalizing s with
  | nil =>
    cases hr
    exact hi
  | cons a rest ih =>
    cases hs : M.step s a with
    | none => simp [System.run,hs] at hr
    | some t =>
      rw [System.run,hs] at hr
      rw [System.Meets,hs] at hm
      exact ih hm.2 (hstep s a t hi hm.1 hs) hr

/-- The forward simulation rule. When each admitted concrete step is answered
by the abstract schedule its label names, every admitted concrete run is
answered by the abstract run over the concatenated labels. -/
theorem System.simulation {M : System State Action} {A : System Spec Label}
    {Allowed : State → Action → Prop} {label : State → Action → List Label}
    {R : State → Spec → Prop}
    (hstep : ∀ s x a s', R s x → Allowed s a → M.step s a = some s' →
      ∃ x', A.run x (label s a) = some x' ∧ R s' x')
    {acts : List Action} {s s' : State} {x : Spec} (hR : R s x) (hm : M.Meets Allowed s acts)
    (hr : M.run s acts = some s') :
    ∃ x', A.run x (M.image label s acts) = some x' ∧ R s' x' := by
  induction acts generalizing s x with
  | nil =>
    cases hr
    exact ⟨x,rfl,hR⟩
  | cons a rest ih =>
    cases hs : M.step s a with
    | none => simp [System.run,hs] at hr
    | some t =>
      rw [System.run,hs] at hr
      rw [System.Meets,hs] at hm
      obtain ⟨y,hy,hRy⟩ := hstep s x a t hR hm.1 hs
      obtain ⟨z,hz,hRz⟩ := ih hRy hm.2 hr
      refine ⟨z,?_,hRz⟩
      rw [System.image,hs,System.run_append,hy]
      exact hz

/-- The simulation rule for states. When each admitted step from a reached
state is answered by some abstract schedule that is admitted there, every
state reached has an abstract one beside it. -/
theorem System.ReachableUnder.simulated {M : System State Action} {A : System Spec Label}
    {Allowed : State → Action → Prop} {Admitted : Spec → Label → Prop} {R : State → Spec → Prop}
    {s : State} (h : M.ReachableUnder Allowed s) (hstart : R M.start A.start)
    (hstep : ∀ s x a s', M.ReachableUnder Allowed s → A.ReachableUnder Admitted x → R s x →
      Allowed s a → M.step s a = some s' →
      ∃ labels x', A.Meets Admitted x labels ∧ A.run x labels = some x' ∧ R s' x') :
    ∃ x, A.ReachableUnder Admitted x ∧ R s x := by
  induction h with
  | start => exact ⟨A.start,.start,hstart⟩
  | step hr ha hs ih =>
    obtain ⟨x,hx,hR⟩ := ih
    obtain ⟨labels,x',hm,hrun,hR'⟩ := hstep _ x _ _ hr hx hR ha hs
    exact ⟨x',hx.run hm hrun,hR'⟩

end ConcurrencyRuntime.TransitionSystem
