import ConcurrencyRuntime.TransitionSystem

/-!
# Programs that use an object

A program and an object run together and meet in events, which are the calls and the
returns of the object. All that the program sees of the object are these events. When
the events of every run of one object are the events of a run of another, the program
reaches no state with the first that it does not reach with the second.
-/

namespace ConcurrencyRuntime.ClientRefinement

open TransitionSystem

/-- A program, by its own steps and by its part in the events of an object. Both may be
impossible in a state, as a call that the program does not make there. -/
structure Client (Program Own Event : Type*) where
  /-- The state in which the program begins. -/
  start : Program
  /-- A step of its own. -/
  own : Program → Own → Option Program
  /-- Its part in an event. -/
  take : Program → Event → Option Program

/-- Who moves. -/
inductive Joint (Own Action : Type*) where
  /-- The program takes a step of its own. -/
  | own (o : Own)
  /-- The object takes a step, which the program follows if it is an event. -/
  | object (a : Action)

variable {Program Own Event State Action Spec Label : Type*}

/-- The part of a program in an event that may not be one. -/
def Client.follow (P : Client Program Own Event) (p : Program) : Option Event → Option Program
  | some e => P.take p e
  | none => some p

/-- A program with an object. -/
def Client.on (P : Client Program Own Event) (M : System State Action)
    (event : State → Action → Option Event) : System (Program × State) (Joint Own Action) where
  start := (P.start,M.start)
  step q
    | .own o => (P.own q.1 o).map fun p => (p,q.2)
    | .object a =>
      match M.step q.2 a,P.follow q.1 (event q.2 a) with
      | some s,some p => some (p,s)
      | _,_ => none

/-- What the program does alone: its own steps and its part in events. -/
def Client.replay (P : Client Program Own Event) : Program → List (Own ⊕ Event) → Option Program
  | p,[] => some p
  | p,.inl o :: rest => (P.own p o).bind fun p' => P.replay p' rest
  | p,.inr e :: rest => (P.take p e).bind fun p' => P.replay p' rest

/-- The events in what the program does. -/
def events (history : List (Own ⊕ Event)) : List Event :=
  history.filterMap Sum.getRight?

/-- The events of a run of an object. -/
def trace (M : System State Action) (event : State → Action → Option Event) (s : State)
    (acts : List Action) : List Event :=
  M.image (fun s a => (event s a).toList) s acts

/-- A condition on the steps of the object, as one on those of both. -/
def OnObject (Allowed : State → Action → Prop) (q : Program × State) : Joint Own Action → Prop
  | .own _ => True
  | .object a => Allowed q.2 a

instance {Allowed : State → Action → Prop} [∀ s a, Decidable (Allowed s a)] (q : Program × State) :
    ∀ act : Joint Own Action, Decidable (OnObject Allowed q act)
  | .own _ => isTrue trivial
  | .object a => inferInstanceAs (Decidable (Allowed q.2 a))

section Runs

variable {P : Client Program Own Event} {M : System State Action}
  {event : State → Action → Option Event} {Allowed : State → Action → Prop} {p p' : Program}
  {s s' : State}

/-- A run of both is a run of the object and what the program does meanwhile, with the
same events. -/
theorem Client.split {acts : List (Joint Own Action)}
    (hm : (P.on M event).Meets (OnObject Allowed) (p,s) acts)
    (hr : (P.on M event).run (p,s) acts = some (p',s')) :
    ∃ moves history, M.Meets Allowed s moves ∧ M.run s moves = some s' ∧
      P.replay p history = some p' ∧ events history = trace M event s moves := by
  induction acts generalizing p s with
  | nil =>
    cases hr
    exact ⟨[],[],trivial,rfl,rfl,rfl⟩
  | cons act rest ih =>
    cases act with
    | own o =>
      cases hown : P.own p o with
      | none => simp [System.run,Client.on,hown] at hr
      | some q =>
        have hstep : (P.on M event).step (p,s) (.own o) = some (q,s) := by simp [Client.on,hown]
        rw [System.run,hstep] at hr
        rw [System.Meets,hstep] at hm
        obtain ⟨moves,history,hmeets,hrun,hreplay,hevents⟩ := ih hm.2 hr
        refine ⟨moves,.inl o :: history,hmeets,hrun,?_,hevents⟩
        rw [Client.replay,hown]
        exact hreplay
    | object a =>
      cases hs : M.step s a with
      | none => simp [System.run,Client.on,hs] at hr
      | some t =>
        cases hf : P.follow p (event s a) with
        | none => simp [System.run,Client.on,hs,hf] at hr
        | some q =>
          have hstep : (P.on M event).step (p,s) (.object a) = some (q,t) := by
            simp [Client.on,hs,hf]
          rw [System.run,hstep] at hr
          rw [System.Meets,hstep] at hm
          obtain ⟨moves,history,hmeets,hrun,hreplay,hevents⟩ := ih hm.2 hr
          have hmoves : M.Meets Allowed s (a :: moves) := by
            rw [System.Meets,hs]
            exact ⟨hm.1,hmeets⟩
          have hmove : M.run s (a :: moves) = some s' := by
            rw [System.run,hs]
            exact hrun
          cases he : event s a with
          | none =>
            rw [he] at hf
            cases hf
            refine ⟨a :: moves,history,hmoves,hmove,hreplay,?_⟩
            simp [hevents,trace,System.image,hs,he]
          | some e =>
            rw [he] at hf
            refine ⟨a :: moves,.inr e :: history,hmoves,hmove,?_,?_⟩
            · rw [Client.replay,show P.take p e = some q from hf]
              exact hreplay
            · simp only [trace,System.image,hs,he,Option.toList_some,List.singleton_append]
              rw [events,List.filterMap_cons]
              exact congrArg (e :: ·) hevents

variable {A : System Spec Label} {seen : Label → Option Event} {x x' : Spec}

/-- A run of an object without events leaves the program where it is. -/
theorem Client.idle {labels : List Label} (hnone : labels.filterMap seen = [])
    (hr : A.run x labels = some x') :
    (P.on A fun _ l => seen l).run (p,x) (labels.map .object) = some (p,x') := by
  induction labels generalizing x with
  | nil =>
    cases hr
    rfl
  | cons l rest ih =>
    cases hs : A.step x l with
    | none => simp [System.run,hs] at hr
    | some y =>
      rw [System.run,hs] at hr
      cases hl : seen l with
      | some e => simp [hl] at hnone
      | none =>
        rw [List.filterMap_cons,hl] at hnone
        have hstep : (P.on A fun _ l => seen l).step (p,x) (.object l) = some (p,y) := by
          simp [Client.on,hs,hl,Client.follow]
        rw [List.map_cons,System.run,hstep]
        exact ih hnone hr

/-- A run of an object and what a program does, with the same events, are a run of both. -/
theorem Client.merge {labels : List Label} {history : List (Own ⊕ Event)}
    (hevents : labels.filterMap seen = events history) (hr : A.run x labels = some x')
    (hreplay : P.replay p history = some p') :
    ∃ acts, (P.on A fun _ l => seen l).run (p,x) acts = some (p',x') := by
  -- on what the program does; before each event, on the steps of the object up to it
  induction history generalizing p x labels with
  | nil =>
    cases hreplay
    exact ⟨labels.map .object,Client.idle hevents hr⟩
  | cons h history ih =>
    cases h with
    | inl o =>
      cases hown : P.own p o with
      | none => simp [Client.replay,hown] at hreplay
      | some q =>
        rw [Client.replay,hown] at hreplay
        obtain ⟨acts,hacts⟩ := ih hevents hr hreplay
        refine ⟨.own o :: acts,?_⟩
        have hstep : (P.on A fun _ l => seen l).step (p,x) (.own o) = some (q,x) := by
          simp [Client.on,hown]
        rw [System.run,hstep]
        exact hacts
    | inr e =>
      induction labels generalizing x with
      | nil => simp [events] at hevents
      | cons l labels ihl =>
        cases hs : A.step x l with
        | none => simp [System.run,hs] at hr
        | some y =>
          rw [System.run,hs] at hr
          cases hl : seen l with
          | none =>
            rw [List.filterMap_cons,hl] at hevents
            obtain ⟨acts,hacts⟩ := ihl hr hevents
            refine ⟨.object l :: acts,?_⟩
            have hstep : (P.on A fun _ l => seen l).step (p,x) (.object l) = some (p,y) := by
              simp [Client.on,hs,hl,Client.follow]
            rw [System.run,hstep]
            exact hacts
          | some e' =>
            rw [List.filterMap_cons,hl,events,List.filterMap_cons] at hevents
            obtain ⟨rfl,htail⟩ := List.cons.inj hevents
            cases htake : P.take p e' with
            | none => simp [Client.replay,htake] at hreplay
            | some q =>
              rw [Client.replay,htake] at hreplay
              obtain ⟨acts,hacts⟩ := ih htail hr hreplay
              refine ⟨.object l :: acts,?_⟩
              have hstep : (P.on A fun _ l => seen l).step (p,x) (.object l) = some (q,y) := by
                simp [Client.on,hs,hl,Client.follow,htake]
              rw [System.run,hstep]
              exact hacts

/-- The rule of contextual refinement. When the events of every admitted run of an object
are those of a run of the abstract one, whatever a program comes to with the object, it
can come to with the abstract one. -/
theorem Client.refines
    (hobject : ∀ moves s, M.Meets Allowed M.start moves → M.run M.start moves = some s →
      ∃ labels x, labels.filterMap seen = trace M event M.start moves ∧
        A.run A.start labels = some x)
    {acts : List (Joint Own Action)}
    (hm : (P.on M event).Meets (OnObject Allowed) (P.start,M.start) acts)
    (hr : (P.on M event).run (P.start,M.start) acts = some (p,s)) :
    ∃ acts' x, (P.on A fun _ l => seen l).run (P.start,A.start) acts' = some (p,x) := by
  obtain ⟨moves,history,hmeets,hrun,hreplay,hevents⟩ := Client.split hm hr
  obtain ⟨labels,x,hlabels,hx⟩ := hobject moves s hmeets hrun
  obtain ⟨acts',hacts⟩ := Client.merge (hlabels.trans hevents.symm) hx hreplay
  exact ⟨acts',x,hacts⟩

end Runs

end ConcurrencyRuntime.ClientRefinement
