import ConcurrencyRuntime.FiberSections

/-!
# The waiters of one object

What the steps of the fibers are to a single mutex or wait group. Its waiters
stand in its list, in the hands of the fiber that popped them, or in the queue
of the pool, and only the sections of the object itself suspend new ones.
-/

namespace ConcurrencyRuntime.FiberSections

open TransitionSystem ExclusivePlaces
open FiberSync (Op)

/-- The waiters of an object, in the order in which they stand. -/
@[ext]
structure Waiters (ι : Type*) where
  /-- In the list of the object. -/
  list : List ι
  /-- Popped by a fiber and not scheduled yet. -/
  hand : ι → List ι
  /-- In the queue of the pool. -/
  tasks : List ι
  /-- Suspended by the object. -/
  waiting : ι → Bool

section Steps

variable {ι : Type*} [DecidableEq ι]

/-- A fiber is suspended and joins the list. -/
def Waiters.park (W : Waiters ι) (f : ι) : Waiters ι :=
  { W with list := W.list ++ [f], waiting := Function.update W.waiting f true }

/-- A fiber takes waiters from the list. -/
def Waiters.pop (W : Waiters ι) (f : ι) (popped rest : List ι) : Waiters ι :=
  { W with list := rest, hand := Function.update W.hand f popped }

/-- A fiber schedules the first waiter in its hands. -/
def Waiters.schedule (W : Waiters ι) (f w : ι) (rest : List ι) : Waiters ι :=
  { W with hand := Function.update W.hand f rest, tasks := W.tasks ++ [w] }

/-- A worker resumes the first waiter of the pool. -/
def Waiters.resume (W : Waiters ι) (w : ι) (rest : List ι) : Waiters ι :=
  { W with tasks := rest, waiting := Function.update W.waiting w false }

/-- What the steps outside of the sections of the object do to its waiters. -/
inductive Waiters.Moves (W : Waiters ι) : Waiters ι → Prop
  | stay : W.Moves W
  | schedule {f w : ι} {rest : List ι} : W.hand f = w :: rest → W.waiting f = false →
      W.Moves (W.schedule f w rest)
  | resume {w : ι} {rest : List ι} : W.tasks = w :: rest → W.waiting w = true →
      W.hand w = [] → W.Moves (W.resume w rest)

end Steps

section Views

variable {ω ι κ γ : Type*} [DecidableEq ι] [DecidableEq κ] [DecidableEq γ]

/-- The fibers of a list that the object has suspended. -/
def Runtime.part (x : Runtime ω ι κ γ) (h : κ ⊕ γ) (fs : List ι) : List ι :=
  fs.filter fun f => x.fiber f = .waiting h

/-- The waiters of an object. -/
def Runtime.waitersOf (x : Runtime ω ι κ γ) (h : κ ⊕ γ) : Waiters ι where
  list := x.waiters h
  hand u := x.part h (x.fiber u).popped
  tasks := x.part h x.tasks
  waiting f := decide (x.fiber f = .waiting h)

/-- The data of an object. -/
def Runtime.dataOf {ω ι κ γ : Type*} (x : Runtime ω ι κ γ) : κ ⊕ γ → (Bool × Option ι) ⊕ ℕ
  | .inl m => .inl (x.locked m,x.owner m)
  | .inr g => .inr (x.counter g)

variable {x x' : Runtime ω ι κ γ} {f w : ι} {h k : κ ⊕ γ} {q : Status ι κ γ} {fs rest : List ι}

theorem part_append (fs fs' : List ι) : x.part h (fs ++ fs') = x.part h fs ++ x.part h fs' :=
  List.filter_append ..

theorem part_cons_of_waiting (hw : x.fiber w = .waiting h) :
    x.part h (w :: fs) = w :: x.part h fs :=
  List.filter_cons_of_pos (decide_eq_true hw)

theorem part_cons_of_ne (hw : x.fiber w ≠ .waiting h) : x.part h (w :: fs) = x.part h fs :=
  List.filter_cons_of_neg (by simpa using hw)

/-- The waiters of an object are all part of its waiters, and not of those of
others. -/
theorem part_of_waiting (hfs : ∀ g ∈ fs, x.fiber g = .waiting k) :
    x.part h fs = if k = h then fs else [] := by
  split
  next hk =>
    subst hk
    exact List.filter_eq_self.mpr fun g hg => decide_eq_true (hfs g hg)
  next hk =>
    refine List.filter_eq_nil_iff.mpr fun g hg => ?_
    rw [hfs g hg]
    simpa using hk

theorem part_congr (hsame : ∀ g ∈ fs, x'.fiber g = .waiting h ↔ x.fiber g = .waiting h) :
    x'.part h fs = x.part h fs :=
  List.filter_congr fun g hg => decide_eq_decide.mpr (hsame g hg)

/-- A fiber that is in no hands moves. -/
theorem waitersOf_update (hfiber : x'.fiber = Function.update x.fiber f q)
    (hpopped : ∀ u, f ∉ (x.fiber u).popped) (hq : f ∉ q.popped)
    (htasks : f ∈ x'.tasks → q ≠ .waiting h ∧ x.fiber f ≠ .waiting h) :
    x'.waitersOf h =
      { list := x'.waiters h
        hand := Function.update (x.waitersOf h).hand f (x.part h q.popped)
        tasks := x.part h x'.tasks
        waiting := Function.update (x.waitersOf h).waiting f (decide (q = .waiting h)) } := by
  have hpart : ∀ fs, (f ∈ fs → q ≠ .waiting h ∧ x.fiber f ≠ .waiting h) →
      x'.part h fs = x.part h fs := by
    intro fs hfs
    refine part_congr fun g hg => ?_
    rw [hfiber,Function.update_apply]
    split
    next he =>
      subst he
      exact iff_of_false (hfs hg).1 (hfs hg).2
    next => rfl
  ext1
  · rfl
  · funext u
    simp only [Runtime.waitersOf,hfiber,Function.update_apply]
    split
    next => exact hpart _ fun hmem => absurd hmem hq
    next => exact hpart _ fun hmem => absurd hmem (hpopped u)
  · exact hpart _ htasks
  · funext g
    simp only [Runtime.waitersOf,hfiber,Function.update_apply]
    split <;> rfl

/-- A fiber that is no waiter of the object moves, and the waiters of the
object stay where they are. -/
theorem waitersOf_stay (hfiber : x'.fiber = Function.update x.fiber f q)
    (hpopped : ∀ u, f ∉ (x.fiber u).popped) (hq : f ∉ q.popped)
    (hf : x.fiber f ≠ .waiting h) (hqh : q ≠ .waiting h) (hlist : x'.waiters h = x.waiters h)
    (hhand : x.part h q.popped = x.part h (x.fiber f).popped)
    (htasks : x.part h x'.tasks = x.part h x.tasks) : x'.waitersOf h = x.waitersOf h := by
  rw [waitersOf_update hfiber hpopped hq fun _ => ⟨hqh,hf⟩]
  ext1
  · exact hlist
  · exact hhand ▸ Function.update_eq_self ..
  · exact htasks
  · have hwaiting : decide (q = .waiting h) = (x.waitersOf h).waiting f := by
      simp only [Runtime.waitersOf,hf,hqh]
    rw [hwaiting]
    exact Function.update_eq_self ..

/-- A running fiber has nothing in its hands. -/
theorem waitersOf_running (hf : x.fiber f = .running) :
    (x.waitersOf h).hand f = [] ∧ (x.waitersOf h).waiting f = false := by
  constructor
  · simp only [Runtime.waitersOf,hf]
    rfl
  · simp [Runtime.waitersOf,hf]

/-- A section of the object parks its fiber. -/
theorem waitersOf_park [DecidableEq ω] {v : ω} (hA : Arranged x) (hf : x.fiber f = .running) :
    (x.park v f h).waitersOf h = (x.waitersOf h).park f := by
  have hnowhere := hA.nowhere (f := f) (by rw [hf]; rfl)
  have hempty : x.part h (Status.waiting h : Status ι κ γ).popped = (x.waitersOf h).hand f :=
    (waitersOf_running hf).1.symm
  refine (waitersOf_update (q := .waiting h) ?_ (fun u => hnowhere (.popped u)) List.not_mem_nil
    ?_).trans ?_
  · rfl
  · exact fun hmem => absurd hmem (hnowhere .tasks)
  rw [hempty]
  ext1
  · exact Function.update_self ..
  · exact Function.update_eq_self ..
  · rfl
  · simp [Waiters.park]

/-- A section of the object pops waiters. -/
theorem waitersOf_pop (hA : Arranged x) (hf : x.fiber f = .running)
    (hlist : x.waiters h = fs ++ rest) (hfiber : x'.fiber = Function.update x.fiber f (.after fs))
    (hwaiters : x'.waiters h = rest) (htasks : x'.tasks = x.tasks) :
    x'.waitersOf h = (x.waitersOf h).pop f fs rest := by
  have hnowhere := hA.nowhere (f := f) (by rw [hf]; rfl)
  have hfs : ∀ g ∈ fs, x.fiber g = .waiting h := by
    intro g hg
    refine hA.list h g ?_
    rw [hlist]
    exact List.mem_append_left rest hg
  have hout : f ∉ (Status.after fs : Status ι κ γ).popped := by
    rw [Status.popped_after]
    intro hmem
    refine hnowhere (.list h) ?_
    rw [Runtime.content,hlist]
    exact List.mem_append_left rest hmem
  rw [waitersOf_update hfiber (fun u => hnowhere (.popped u)) hout
    fun hmem => absurd hmem (by rw [htasks]; exact hnowhere .tasks),Status.popped_after,
    part_of_waiting hfs,if_pos rfl]
  have hwaiting : decide ((Status.after fs : Status ι κ γ) = .waiting h) =
      (x.waitersOf h).waiting f := by
    rw [(waitersOf_running hf).2]
    cases fs with
    | nil | cons w rest => rfl
  ext1
  · exact hwaiters
  · rfl
  · rw [htasks]
    rfl
  · rw [hwaiting]
    exact Function.update_eq_self ..

/-- A section of another object pops waiters or none. -/
theorem waitersOf_apart (hA : Arranged x) (hf : x.fiber f = .running) (hk : k ≠ h)
    (hfs : ∀ g ∈ fs, x.fiber g = .waiting k)
    (hfiber : x'.fiber = Function.update x.fiber f (.after fs))
    (hwaiters : x'.waiters h = x.waiters h) (htasks : x'.tasks = x.tasks) :
    x'.waitersOf h = x.waitersOf h := by
  have hnowhere := hA.nowhere (f := f) (by rw [hf]; rfl)
  refine waitersOf_stay hfiber (fun u => hnowhere (.popped u)) ?_ ?_ ?_ hwaiters ?_ (by rw [htasks])
  · rw [Status.popped_after]
    intro hmem
    have hwait := hfs f hmem
    rw [hf] at hwait
    cases hwait
  · rw [hf]
    rintro ⟨⟩
  · cases fs with
    | nil => rintro ⟨⟩
    | cons w rest => rintro ⟨⟩
  · rw [Status.popped_after,part_of_waiting hfs,if_neg hk,hf]
    rfl

/-- A section of another object parks its fiber. -/
theorem waitersOf_park_apart [DecidableEq ω] {v : ω} (hA : Arranged x) (hf : x.fiber f = .running)
    (hk : k ≠ h) : (x.park v f k).waitersOf h = x.waitersOf h := by
  have hnowhere := hA.nowhere (f := f) (by rw [hf]; rfl)
  refine waitersOf_stay rfl (fun u => hnowhere (.popped u)) (by rintro ⟨⟩) ?_ ?_ ?_ ?_ rfl
  · rw [hf]
    rintro ⟨⟩
  · rintro ⟨⟩
    exact hk rfl
  · exact Function.update_of_ne hk.symm ..
  · rw [hf]
    rfl

/-- The sections of the other objects leave the waiters alone. -/
theorem waitersOf_perform [DecidableEq ω] {v : ω} {op : Op κ γ} (hA : Arranged x)
    (hf : x.fiber f = .running) (hop : op.host ≠ h) :
    (x.perform v f op).waitersOf h = x.waitersOf h := by
  have hsame : ∀ x' : Runtime ω ι κ γ, x'.fiber = x.fiber → x'.waiters h = x.waiters h →
      x'.tasks = x.tasks → x'.waitersOf h = x.waitersOf h := by
    intro x' hfiber hwaiters htasks
    have hself : x'.fiber = Function.update x.fiber f (.after []) := by
      rw [hfiber,show Status.after [] = x.fiber f from hf.symm]
      exact (Function.update_eq_self ..).symm
    exact waitersOf_apart hA hf hop (by rintro _ ⟨⟩) hself hwaiters htasks
  unfold Runtime.perform
  cases op with
  | lock m =>
    simp only
    split
    · exact waitersOf_park_apart hA hf hop
    · exact hsame _ rfl rfl rfl
  | unlock m =>
    simp only
    split
    · exact hsame _ rfl rfl rfl
    next w rest hlist =>
      refine waitersOf_apart hA hf hop ?_ rfl (Function.update_of_ne (Ne.symm hop) ..) rfl
      intro g hg
      rw [List.mem_singleton.mp hg]
      refine hA.list (.inl m) w ?_
      rw [hlist]
      exact List.mem_cons_self
  | add w amount => exact hsame _ rfl rfl rfl
  | done w =>
    simp only
    split
    · exact waitersOf_apart hA hf hop (hA.list _) rfl (Function.update_of_ne (Ne.symm hop) ..) rfl
    · exact hsame _ rfl rfl rfl
  | wait w =>
    simp only
    split
    · exact waitersOf_park_apart hA hf hop
    · rfl

/-- The sections of the other objects leave the data alone. -/
theorem dataOf_perform [DecidableEq ω] {v : ω} {op : Op κ γ} (hop : op.host ≠ h) :
    (x.perform v f op).dataOf h = x.dataOf h := by
  cases h with
  | inl m =>
    simp only [Runtime.dataOf,Sum.inl.injEq,Prod.mk.injEq]
    unfold Runtime.perform
    cases op with
    | lock n =>
      have hn : m ≠ n := fun he => hop (congrArg Sum.inl he.symm)
      simp only
      split
      · exact ⟨rfl,rfl⟩
      · exact ⟨Function.update_of_ne hn ..,Function.update_of_ne hn ..⟩
    | unlock n =>
      have hn : m ≠ n := fun he => hop (congrArg Sum.inl he.symm)
      simp only
      split
      · exact ⟨Function.update_of_ne hn ..,Function.update_of_ne hn ..⟩
      · exact ⟨rfl,Function.update_of_ne hn ..⟩
    | add w amount => exact ⟨rfl,rfl⟩
    | done w =>
      by_cases hzero : (x.counter w + 2 ^ 64 - 1) % 2 ^ 64 = 0
      · simp only [if_pos hzero,Runtime.goto,and_self]
      · simp only [if_neg hzero,and_self]
    | wait w =>
      simp only
      split <;> exact ⟨rfl,rfl⟩
  | inr g =>
    simp only [Runtime.dataOf,Sum.inr.injEq]
    unfold Runtime.perform
    cases op with
    | lock n =>
      simp only
      split <;> rfl
    | unlock n =>
      simp only
      split <;> rfl
    | add w amount =>
      have hw : g ≠ w := fun he => hop (congrArg Sum.inr he.symm)
      simp only [Function.update_apply,if_neg hw]
    | done w =>
      have hw : g ≠ w := fun he => hop (congrArg Sum.inr he.symm)
      by_cases hzero : (x.counter w + 2 ^ 64 - 1) % 2 ^ 64 = 0
      · simp only [if_pos hzero,Runtime.goto,Function.update_apply,if_neg hw]
      · simp only [if_neg hzero,Function.update_apply,if_neg hw]
    | wait w =>
      simp only
      split <;> rfl

/-- A worker resumes the first task. -/
theorem waitersOf_take (hA : Arranged x) (ht : x.tasks = f :: rest)
    (hf : (x.fiber f).stopped = true) (hfiber : x'.fiber = Function.update x.fiber f .running)
    (htasks : x'.tasks = rest) (hwaiters : x'.waiters = x.waiters) :
    (x.waitersOf h).Moves (x'.waitersOf h) := by
  obtain ⟨-,hout⟩ := hA.dequeue ht
  have hpopped : ∀ u, f ∉ (x.fiber u).popped := fun u => hout (.popped u)
  have hempty := Status.popped_of_stopped hf
  have hhand : (x.waitersOf h).hand f = [] := by
    simp only [Runtime.waitersOf,hempty]
    rfl
  by_cases hfh : x.fiber f = .waiting h
  · have hresume : x'.waitersOf h = (x.waitersOf h).resume f (x.part h rest) := by
      rw [waitersOf_update hfiber hpopped List.not_mem_nil
        fun hmem => absurd hmem (by rw [htasks]; exact hout .tasks)]
      ext1
      · exact congrFun hwaiters h
      · have hnone : x.part h (Status.running : Status ι κ γ).popped =
            (x.waitersOf h).hand f := hhand.symm
        rw [hnone]
        exact Function.update_eq_self ..
      · exact congrArg (x.part h) htasks
      · rfl
    rw [hresume]
    refine .resume ?_ (decide_eq_true hfh) hhand
    simp only [Runtime.waitersOf,ht]
    exact part_cons_of_waiting hfh
  · have hstay : x'.waitersOf h = x.waitersOf h := by
      refine waitersOf_stay hfiber hpopped List.not_mem_nil hfh (by rintro ⟨⟩)
        (congrFun hwaiters h) (by rw [hempty]; rfl) ?_
      rw [htasks,ht,part_cons_of_ne hfh]
    rw [hstay]
    exact .stay

/-- A fiber schedules the first waiter in its hands. -/
theorem waitersOf_schedule (hA : Arranged x) (hf : x.fiber f = .scheduling (w :: rest))
    (hfiber : x'.fiber = Function.update x.fiber f (.after rest))
    (htasks : x'.tasks = x.tasks ++ [w]) (hwaiters : x'.waiters = x.waiters) :
    (x.waitersOf h).Moves (x'.waitersOf h) := by
  have hnowhere := hA.nowhere (f := f) (by rw [hf]; rfl)
  have hpopped : ∀ u, f ∉ (x.fiber u).popped := fun u => hnowhere (.popped u)
  have hout : f ∉ (Status.after rest : Status ι κ γ).popped := by
    rw [Status.popped_after]
    intro hmem
    refine hpopped f ?_
    rw [hf]
    exact List.mem_cons_of_mem w hmem
  have hfh : x.fiber f ≠ .waiting h := by
    rw [hf]
    rintro ⟨⟩
  have hafter : (Status.after rest : Status ι κ γ) ≠ .waiting h := by
    cases rest with
    | nil | cons m rest => rintro ⟨⟩
  by_cases hw : x.fiber w = .waiting h
  · have hschedule : x'.waitersOf h = (x.waitersOf h).schedule f w (x.part h rest) := by
      rw [waitersOf_update hfiber hpopped hout fun _ => ⟨hafter,hfh⟩,Status.popped_after]
      ext1
      · exact congrFun hwaiters h
      · rfl
      · rw [htasks,part_append,part_cons_of_waiting hw]
        rfl
      · have hwaiting : decide ((Status.after rest : Status ι κ γ) = .waiting h) =
            (x.waitersOf h).waiting f := by
          simp only [Runtime.waitersOf,hfh,hafter]
        rw [hwaiting]
        exact Function.update_eq_self ..
    rw [hschedule]
    refine .schedule ?_ (decide_eq_false hfh)
    simp only [Runtime.waitersOf,hf]
    exact part_cons_of_waiting hw
  · have hstay : x'.waitersOf h = x.waitersOf h := by
      refine waitersOf_stay hfiber hpopped hout hfh hafter (congrFun hwaiters h) ?_ ?_
      · rw [Status.popped_after,hf]
        exact (part_cons_of_ne hw).symm
      · rw [htasks,part_append,part_cons_of_ne hw]
        exact List.append_nil _
    rw [hstay]
    exact .stay

/-- A fiber that was not submitted, or that ends, is no waiter. -/
theorem waitersOf_plain (hA : Arranged x) (hf : x.fiber f = .fresh ∨ x.fiber f = .running)
    (hq : q = .ready ∨ q = .done) (hfiber : x'.fiber = Function.update x.fiber f q)
    (htasks : x'.tasks = x.tasks ∨ x'.tasks = x.tasks ++ [f])
    (hwaiters : x'.waiters = x.waiters) : (x.waitersOf h).Moves (x'.waitersOf h) := by
  have hplain : (x.fiber f).stopped = false ∧ (x.fiber f).popped = [] ∧
      x.fiber f ≠ .waiting h := by
    rcases hf with hf | hf <;> rw [hf] <;> exact ⟨rfl,rfl,by rintro ⟨⟩⟩
  have hplain' : q.popped = [] ∧ q ≠ .waiting h := by
    rcases hq with rfl | rfl <;> exact ⟨rfl,by rintro ⟨⟩⟩
  have hnowhere := hA.nowhere hplain.1
  have hstay : x'.waitersOf h = x.waitersOf h := by
    refine waitersOf_stay hfiber (fun u => hnowhere (.popped u)) ?_ hplain.2.2 hplain'.2
      (congrFun hwaiters h) ?_ ?_
    · rw [hplain'.1]
      exact List.not_mem_nil
    · rw [hplain'.1,hplain.2.1]
    · rcases htasks with htasks | htasks
      · rw [htasks]
      · rw [htasks,part_append,part_cons_of_ne hplain.2.2]
        exact List.append_nil _
  rw [hstay]
  exact .stay

/-- What each step outside of the sections of the object does to its waiters. -/
theorem waitersOf_moves [DecidableEq ω] {a : Action ω ι κ γ} (hA : Arranged x)
    (hs : step x a = some x') (ha : ∀ v op, a = .perform v op → op.host ≠ h) :
    (x.waitersOf h).Moves (x'.waitersOf h) ∧ x'.dataOf h = x.dataOf h := by
  cases a with
  | submit f =>
    simp only [step] at hs
    split at hs <;> cases hs
    next hf =>
      refine ⟨?_,by cases h <;> rfl⟩
      exact waitersOf_plain hA (.inl hf) (.inl rfl) rfl (.inr rfl) rfl
  | take v =>
    simp only [step] at hs
    split at hs
    next f rest hv ht =>
      split at hs <;> cases hs
      next hf => exact ⟨waitersOf_take hA ht hf rfl rfl rfl,by cases h <;> rfl⟩
    next => cases hs
  | perform v op =>
    simp only [step] at hs
    split at hs
    next f hv =>
      split at hs <;> cases hs
      next hf =>
        have hop := ha v op rfl
        rw [waitersOf_perform hA hf.1 hop]
        exact ⟨.stay,dataOf_perform hop⟩
    next => cases hs
  | schedule v =>
    simp only [step] at hs
    split at hs
    next f hv =>
      split at hs <;> cases hs
      next w rest hf => exact ⟨waitersOf_schedule hA hf rfl rfl rfl,by cases h <;> rfl⟩
    next => cases hs
  | finish v =>
    simp only [step] at hs
    split at hs
    next f hv =>
      split at hs <;> cases hs
      next hf =>
        refine ⟨?_,by cases h <;> rfl⟩
        exact waitersOf_plain hA (.inr hf) (.inr rfl) rfl (.inl rfl) rfl
    next => cases hs

end Views

end ConcurrencyRuntime.FiberSections
