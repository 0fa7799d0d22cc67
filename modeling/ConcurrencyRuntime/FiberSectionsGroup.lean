import ConcurrencyRuntime.FiberSectionsWaiters
import ConcurrencyRuntime.FiberSyncSections
import ConcurrencyRuntime.WaitGroup

/-!
# Each wait group of the fibers

A wait group that fibers use among other objects goes through states of the
wait group alone, as long as its counter neither overflows nor falls below
zero. With the guards that make the sections atomic this holds of the wait
group of the source, spinlock included.
-/

namespace ConcurrencyRuntime.WaitGroup

open TransitionSystem IntrusiveList LinkedPath
open FiberSections (Waiters Arranged)

/-- The wait group alone has this counter and these waiters. A Done is before
its read of Next of the first waiter in its hands. -/
structure Matches {ι : Type*} (s : Group ι) (counter : ℕ) (W : Waiters ι) : Prop where
  counter : s.counter = counter
  holds : Holds s.next s.waiters W.list
  tasks : s.tasks = W.tasks
  waiting : ∀ f, s.fiber f = .waiting ↔ W.waiting f = true
  walking : ∀ f w rest, W.hand f = w :: rest →
    ∃ b, s.fiber f = .walking w b ∧ Path s.next w rest
  outside : ∀ f, W.hand f = [] → W.waiting f = false → s.fiber f = .outside

/-- The callers' part for one wait group among others. -/
def Counted {ω ι κ γ : Type*} (g : γ) (counter : γ → ℕ) : FiberSections.Action ω ι κ γ → Prop
  | .perform _ (.add w amount) => w = g → counter g + amount < 2 ^ 64
  | .perform _ (.done w) => w = g → 0 < counter g
  | _ => True

section Sections

variable {ι : Type*} [DecidableEq ι] {s : Group ι} {counter : ℕ} {W W' : Waiters ι}
  {f w : ι} {rest : List ι}

omit [DecidableEq ι] in
theorem Matches.of_eq {counter' : ℕ} (h : Matches s counter W) (hcounter : counter' = counter)
    (hW : W' = W) : Matches s counter' W' := by
  rw [hcounter,hW]
  exact h

omit [DecidableEq ι] in
theorem Matches.setCounter (h : Matches s counter W) (c : ℕ) : Matches (s.setCounter c) c W :=
  ⟨rfl,h.holds,h.tasks,h.waiting,h.walking,h.outside⟩

/-- Wait parks the fiber, out of the way of the walks. -/
theorem Matches.park (h : Matches s counter W) (hcounter : 0 < counter) (hhand : W.hand f = [])
    (hout : f ∉ W.list) (hapart : ∀ g, ∀ n ∈ W.hand g, n ≠ f ∧ n ∉ W.list) :
    Matches (wait s f) counter (W.park f) := by
  have hpositive : 0 < s.counter := by rwa [h.counter]
  have hwait : WaitGroup.wait s f =
      { s with
        waiters := s.waiters.push f
        next := s.waiters.pushLinks (Function.update s.next f none) f
        fiber := Function.update s.fiber f .waiting
        parks := s.parks + 1
        ticket := Function.update s.ticket f s.parks
        parked := s.parked ++ [s.parks]
        zeroSeen := Function.update s.zeroSeen f (s.counter == 0) } := if_pos hpositive
  rw [hwait]
  have hsame : ∀ g, ∀ n ∈ W.hand g,
      s.waiters.pushLinks (Function.update s.next f none) f n = s.next n := by
    intro g n hn
    obtain ⟨hnf,hlist⟩ := hapart g n hn
    rw [(h.holds.write hout none).pushLinks_of_not_mem hlist,Function.update_of_ne hnf]
  constructor
  case counter => exact h.counter
  case holds => exact (h.holds.write hout none).push hout
  case tasks => exact h.tasks
  case waiting =>
    intro g
    simp only [Waiters.park,Function.update_apply]
    split
    · exact iff_of_true rfl rfl
    · exact h.waiting g
  case walking =>
    intro g w rest hg
    have hgf : g ≠ f := by
      rintro rfl
      rw [Waiters.park,hhand] at hg
      cases hg
    obtain ⟨b,hwalk,hpath⟩ := h.walking g w rest hg
    simp only [Function.update_of_ne hgf]
    refine ⟨b,hwalk,path_congr hpath ?_⟩
    intro n hn
    refine hsame g n ?_
    rw [show W.hand g = w :: rest from hg]
    exact hn
  case outside =>
    intro g hg hwait
    simp only [Waiters.park,Function.update_apply] at hwait ⊢
    split at hwait
    · cases hwait
    next hgf =>
      rw [if_neg hgf]
      exact h.outside g hg hwait

omit [DecidableEq ι] in
/-- Wait returns at zero. -/
theorem Matches.pass (h : Matches s counter W) (returns : List Bool) :
    Matches { s with returns := returns } counter W :=
  ⟨h.counter,h.holds,h.tasks,h.waiting,h.walking,h.outside⟩

/-- The Done that finds the counter at zero takes the waiters. -/
theorem Matches.detach (h : Matches s counter W) (hf : s.fiber f = .outside)
    (hhand : W.hand f = []) (hended : ∀ m ∈ W.list.getLast?, s.next m = none) :
    Matches (s.detach f) counter (W.pop f W.list []) := by
  have hwaiting : W.waiting f = false := by
    cases hw : W.waiting f with
    | false => rfl
    | true =>
      rw [(h.waiting f).mpr hw] at hf
      cases hf
  have hpopped := h.holds.pop.1
  have hothers : ∀ g, g ≠ f → (s.detach f).fiber g = s.fiber g := by
    intro g hg
    cases hp : s.waiters.popped with
    | none => simp only [Group.detach,hp]
    | some w => simp only [Group.detach,hp,Function.update_of_ne hg]
  cases hlist : W.list with
  | nil =>
    have hfiber : (s.detach f).fiber = s.fiber := by
      unfold Group.detach
      simp only [hpopped,hlist,List.head?_nil]
    have hhands : Function.update W.hand f [] = W.hand := by
      rw [←hhand]
      exact Function.update_eq_self ..
    constructor
    case counter => exact h.counter
    case holds => exact holds_clear
    case tasks => exact h.tasks
    case waiting =>
      rw [hfiber]
      exact h.waiting
    case walking =>
      rw [hfiber]
      simp only [Waiters.pop,hhands]
      exact h.walking
    case outside =>
      rw [hfiber]
      simp only [Waiters.pop,hhands]
      exact h.outside
  | cons w rest =>
    have hpath : Path s.next w rest := by
      have hholds := h.holds
      rw [hlist] at hholds hended
      exact hholds.path hended
    have hself : (s.detach f).fiber f = .walking w s.detached.length := by
      unfold Group.detach
      simp only [hpopped,hlist,List.head?_cons,Function.update_self]
    constructor
    case counter => exact h.counter
    case holds => exact holds_clear
    case tasks => exact h.tasks
    case waiting =>
      intro g
      rcases eq_or_ne g f with rfl | hg
      · rw [hself]
        refine iff_of_false (by rintro ⟨⟩) ?_
        rw [Waiters.pop,hwaiting]
        exact Bool.false_ne_true
      · rw [hothers g hg]
        exact h.waiting g
    case walking =>
      intro g u rest' hg
      simp only [Waiters.pop,Function.update_apply] at hg
      split at hg
      next hgf =>
        cases hg
        rw [hgf]
        exact ⟨_,hself,hpath⟩
      next hgf =>
        rw [hothers g hgf]
        exact h.walking g u rest' hg
    case outside =>
      intro g hg hwait
      simp only [Waiters.pop,Function.update_apply] at hg
      split at hg
      · cases hg
      next hgf =>
        rw [hothers g hgf]
        exact h.outside g hg hwait

/-- The waiter is in the pool, and the Done goes on with the rest. -/
theorem Matches.scheduled (h : Matches s counter W) (w : ι) (rest : List ι) (q : FiberPc ι)
    (scheduled : ℕ → List ℕ) (hwaiting : W.waiting f = false) (hq : q ≠ .waiting) (hend : rest = [] → q = .outside)
    (hnext : ∀ m r, rest = m :: r → ∃ b, q = .walking m b ∧ Path s.next m r) :
    Matches { s with
      tasks := s.tasks ++ [w]
      scheduled := scheduled
      fiber := Function.update s.fiber f q } counter (W.schedule f w rest) := by
  constructor
  case counter => exact h.counter
  case holds => exact h.holds
  case tasks => exact congrArg (· ++ [w]) h.tasks
  case waiting =>
    intro g
    simp only [Waiters.schedule,Function.update_apply]
    split
    next hg =>
      rw [hg,hwaiting]
      exact iff_of_false hq Bool.false_ne_true
    next => exact h.waiting g
  case walking =>
    intro g u rest' hg
    simp only [Waiters.schedule,Function.update_apply] at hg ⊢
    split at hg
    next hgf =>
      rw [if_pos hgf]
      exact hnext u rest' hg
    next hgf =>
      rw [if_neg hgf]
      exact h.walking g u rest' hg
  case outside =>
    intro g hg hwait
    simp only [Waiters.schedule,Function.update_apply] at hg ⊢
    split at hg
    next hgf =>
      rw [if_pos hgf]
      exact hend hg
    next hgf =>
      rw [if_neg hgf]
      exact h.outside g hg hwait

/-- The Done reads Next of the waiter, schedules it and goes on. -/
theorem Matches.schedule (h : Matches s counter W) (hhand : W.hand f = w :: rest)
    (hwaiting : W.waiting f = false) :
    ∃ s', (group ι).run s [.walk f,.schedule f] = some s' ∧
      Matches s' counter (W.schedule f w rest) := by
  obtain ⟨b,hf,hpath⟩ := h.walking f w rest hhand
  have hmatches := fun q => h.scheduled w rest q
    (Function.update s.scheduled b (s.scheduled b ++ [s.ticket w])) hwaiting
  cases rest with
  | nil =>
    have hnull : s.next w = none := hpath
    refine ⟨_,?_,hmatches .outside (by rintro ⟨⟩) (fun _ => rfl) (by rintro _ _ ⟨⟩)⟩
    simp [System.run,group,step,hf,hnull]
  | cons m r =>
    refine ⟨_,?_,hmatches (.walking m b) (by rintro ⟨⟩) (by rintro ⟨⟩) ?_⟩
    · simp [System.run,group,step,hf,hpath.1]
    · rintro _ _ ⟨⟩
      exact ⟨b,rfl,hpath.2⟩

/-- The first waiter of the pool is resumed. -/
theorem Matches.resume (h : Matches s counter W) (hwaiting : W.waiting w = true)
    (rest : List ι) (returns : List Bool) :
    Matches { s with
      tasks := rest
      fiber := Function.update s.fiber w .outside
      returns := returns } counter (W.resume w rest) := by
  have hw := (h.waiting w).mpr hwaiting
  constructor
  case counter => exact h.counter
  case holds => exact h.holds
  case tasks => rfl
  case waiting =>
    intro g
    simp only [Waiters.resume,Function.update_apply]
    split
    · exact iff_of_false (by rintro ⟨⟩) Bool.false_ne_true
    · exact h.waiting g
  case walking =>
    intro g u rest' hg
    obtain ⟨b,hwalk,hpath⟩ := h.walking g u rest' hg
    have hgw : g ≠ w := by
      rintro rfl
      rw [hw] at hwalk
      cases hwalk
    simp only [Function.update_of_ne hgw]
    exact ⟨b,hwalk,hpath⟩
  case outside =>
    intro g hg hwait
    simp only [Waiters.resume,Function.update_apply] at hwait ⊢
    split
    · rfl
    next hgw =>
      rw [if_neg hgw] at hwait
      exact h.outside g hg hwait

/-- A step outside of the sections of the wait group schedules or resumes a
waiter of it, or does nothing to it. -/
theorem Matches.moves (h : Matches s counter W) (hm : W.Moves W') :
    ∃ labels s', (∀ t, (group ι).Meets Proper t labels) ∧ (group ι).run s labels = some s' ∧
      Matches s' counter W' := by
  have hproper : ∀ a : Action ι, (∀ t : Group ι, Proper t a) → ∀ labels,
      (∀ t, (group ι).Meets Proper t labels) → ∀ t, (group ι).Meets Proper t (a :: labels) := by
    intro a ha labels hlabels t
    refine ⟨ha t,?_⟩
    split
    · exact hlabels _
    · exact trivial
  have hnil : ∀ t, (group ι).Meets Proper t [] := fun _ => trivial
  cases hm with
  | stay => exact ⟨[],s,hnil,rfl,h⟩
  | @schedule f w rest hhand hwaiting =>
    obtain ⟨s',hrun,h'⟩ := h.schedule hhand hwaiting
    have hschedule := hproper (.schedule f) (fun _ => trivial) [] hnil
    exact ⟨_,s',hproper (.walk f) (fun _ => trivial) _ hschedule,hrun,h'⟩
  | @resume w rest htasks hwaiting hhand =>
    have hresume := h.resume hwaiting rest (s.returns ++ [s.zeroSeen w])
    refine ⟨[.resume],_,hproper .resume (fun _ => trivial) [] hnil,?_,hresume⟩
    simp [System.run,group,step,h.tasks,htasks,(h.waiting w).mpr hwaiting]

end Sections

section Runs

variable {ω ι κ γ : Type*} [DecidableEq ω] [DecidableEq ι] [DecidableEq κ] [DecidableEq γ]
  {x x' : FiberSections.Runtime ω ι κ γ} {s : Group ι} {g : γ} {v : ω} {f : ι}

/-- The wait group alone answers its own sections. -/
theorem matches_perform {op : FiberSync.Op κ γ} (hA : Arranged x)
    (hr : (group ι).ReachableUnder Proper s)
    (h : Matches s (x.counter g) (x.waitersOf (.inr g)))
    (hf : x.fiber f = .running) (hop : op.host = .inr g)
    (ha : Counted g x.counter (.perform v op : FiberSections.Action ω ι κ γ)) :
    ∃ a s', Proper s a ∧ step s a = some s' ∧
      Matches s' ((x.perform v f op).counter g) ((x.perform v f op).waitersOf (.inr g)) := by
  obtain ⟨hhand,hwaiting⟩ := FiberSections.waitersOf_running (h := .inr g) hf
  have houtside := h.outside f hhand hwaiting
  have hnowhere := hA.nowhere (f := f) (by rw [hf]; rfl)
  cases op with
  | lock n | unlock n => cases hop
  | add w amount =>
    cases hop
    refine ⟨.add f amount,add s amount,?_,if_pos houtside,?_⟩
    · have hlt := ha rfl
      rwa [←h.counter] at hlt
    · refine (h.setCounter _).of_eq ?_ rfl
      rw [h.counter]
      exact Function.update_self ..
  | done w =>
    cases hop
    refine ⟨.done f,done s f,?_,if_pos houtside,?_⟩
    · have hpositive := ha rfl
      rwa [←h.counter] at hpositive
    · by_cases hzero : (x.counter g + 2 ^ 64 - 1) % 2 ^ 64 = 0
      · have hdone : WaitGroup.done s f = (s.setCounter 0).detach f := by
          simp only [WaitGroup.done,h.counter,hzero,if_true]
        have hperform : x.perform v f (.done g) =
            { x with
              counter := Function.update x.counter g 0
              waiters := Function.update x.waiters (.inr g) [] }.goto f
                (.after (x.waiters (.inr g))) := by
          simp only [FiberSections.Runtime.perform,if_pos hzero]
        obtain ⟨ws,rem,place,hG⟩ := grouped_reachable hr
        obtain rfl := hG.holds.unique h.holds
        rw [hdone,hperform]
        refine ((h.setCounter 0).detach houtside hhand hG.ended).of_eq ?_ ?_
        · exact Function.update_self ..
        · exact FiberSections.waitersOf_pop hA hf (List.append_nil _).symm rfl
            (Function.update_self ..) rfl
      · have hdone : WaitGroup.done s f =
            s.setCounter ((x.counter g + 2 ^ 64 - 1) % 2 ^ 64) := by
          simp only [WaitGroup.done,h.counter,if_neg hzero]
        have hperform : x.perform v f (.done g) =
            { x with counter :=
                Function.update x.counter g ((x.counter g + 2 ^ 64 - 1) % 2 ^ 64) } := by
          simp only [FiberSections.Runtime.perform,if_neg hzero]
        rw [hdone,hperform]
        exact (h.setCounter _).of_eq (Function.update_self ..) rfl
  | wait w =>
    cases hop
    refine ⟨.wait f,wait s f,trivial,if_pos houtside,?_⟩
    by_cases hpositive : 0 < x.counter g
    · have hperform : x.perform v f (.wait g) = x.park v f (.inr g) := if_pos hpositive
      rw [hperform]
      refine (h.park hpositive hhand (hnowhere (.list (.inr g))) ?_).of_eq rfl
        (FiberSections.waitersOf_park hA hf)
      intro u n hn
      have hpopped : n ∈ x.content (.popped u) := List.mem_of_mem_filter hn
      refine ⟨?_,?_⟩
      · rintro rfl
        exact hnowhere (.popped u) hpopped
      · intro hlist
        cases hA.exclusive.unique (.popped u) (.list (.inr g)) n hpopped hlist
    · have hperform : x.perform v f (.wait g) = x := if_neg hpositive
      have hwait : WaitGroup.wait s f = { s with returns := s.returns ++ [s.counter == 0] } :=
        if_neg (by rw [h.counter]; exact hpositive)
      rw [hperform,hwait]
      exact h.pass _

/-- The wait group alone answers every step of the fibers: its own sections
where they run, and the others not at all. -/
theorem matches_step {a : FiberSections.Action ω ι κ γ} (hA : Arranged x)
    (hr : (group ι).ReachableUnder Proper s)
    (h : Matches s (x.counter g) (x.waitersOf (.inr g))) (ha : Counted g x.counter a)
    (hs : FiberSections.step x a = some x') :
    ∃ labels s', (group ι).Meets Proper s labels ∧ (group ι).run s labels = some s' ∧
      Matches s' (x'.counter g) (x'.waitersOf (.inr g)) := by
  by_cases hapart : ∀ v op, a = .perform v op → op.host ≠ .inr g
  · obtain ⟨hmoves,hdata⟩ := FiberSections.waitersOf_moves hA hs hapart
    obtain ⟨labels,s',hproper,hrun,h'⟩ := h.moves hmoves
    exact ⟨labels,s',hproper s,hrun,h'.of_eq (Sum.inr.inj hdata) rfl⟩
  · push Not at hapart
    obtain ⟨v,op,rfl,hop⟩ := hapart
    simp only [FiberSections.step] at hs
    split at hs
    next f hv =>
      split at hs <;> cases hs
      next hf =>
        obtain ⟨b,s',hproper,hstep,h'⟩ := matches_perform hA hr h hf.1 hop ha
        refine ⟨[b],s',⟨hproper,?_⟩,by simp [System.run,group,hstep],h'⟩
        split <;> exact trivial
    next => cases hs

omit [DecidableEq ω] in
theorem matches_initial :
    Matches (initial ι) 0 ((FiberSections.initial ω ι κ γ).waitersOf (.inr g)) := by
  constructor
  case counter => rfl
  case holds => exact holds_clear
  case tasks => rfl
  case waiting => simp [initial,FiberSections.Runtime.waitersOf,FiberSections.initial]
  case walking => rintro _ _ _ ⟨⟩
  case outside => exact fun _ _ _ => rfl

/-- Every state of the fibers shows each wait group in a state of the wait
group alone. -/
theorem matches_reachable
    (hr : (FiberSections.sections ω ι κ γ).ReachableUnder (fun x a => Counted g x.counter a) x) :
    ∃ s, (group ι).ReachableUnder Proper s ∧
      Matches s (x.counter g) (x.waitersOf (.inr g)) := by
  refine System.ReachableUnder.simulated (A := group ι)
    (R := fun (x : FiberSections.Runtime ω ι κ γ) s =>
      Matches s (x.counter g) (x.waitersOf (.inr g))) hr matches_initial ?_
  intro x s a x' hr hr' h ha hs
  exact matches_step (FiberSections.arranged_reachable hr.reachable) hr' h ha hs

/-- With the guards of the source, each wait group is in a state of the wait
group alone at every moment: the sections of the wait group may be taken as
single steps. -/
theorem group_of_guards {t : FiberSync.Runtime ω ι κ γ}
    (hr : (FiberSync.fibers ω ι κ γ).ReachableUnder
      (fun t a => FiberSync.Cleared t a ∧ ∀ b ∈ FiberSync.label t a, Counted g t.counter b) t) :
    ∃ x s, FiberSync.Follows t x ∧ (group ι).ReachableUnder Proper s ∧
      Matches s (t.counter g) (x.waitersOf (.inr g)) := by
  obtain ⟨x,hx,hF⟩ := FiberSync.follows_reachable (Counted g) hr
  obtain ⟨s,hs,h⟩ := matches_reachable hx
  have hdata := hF.data
  simp only [FiberSync.Runtime.data,Prod.mk.injEq] at hdata
  rw [hdata.2.2.1] at h
  exact ⟨x,s,hF,hs,h⟩

end Runs

end ConcurrencyRuntime.WaitGroup
