import ConcurrencyRuntime.PoolFibers

/-!
# One place for each fiber

The lists of the pool and of the objects are well linked, and every fiber is in
at most one place: it moves from the queue to the hands of a worker, from there
to a list of waiters, to a Schedule and back to the queue, and each step of the
source moves it as a whole. The handles of the waiters and the states of the
coroutines follow the places.
-/

namespace ConcurrencyRuntime.PoolFibers

open TransitionSystem IntrusiveList IntrusivePool ExclusivePlaces LinkedPath

/-- The waiter that the Done on a worker visits next. -/
@[grind =]
def WorkerPc.walking {ι ε : Type*} : WorkerPc ι ε → Option ι
  | .walk _ w => some w
  | .schedule _ _ (.walk next) | .submit _ _ (.walk next) => next
  | _ => none

/-- The state of the fiber in the hands of a worker. -/
@[grind =]
def WorkerPc.status {ι ε : Type*} : WorkerPc ι ε → Coro
  | .resume _ => .stopped
  | .completed _ => .completed
  | _ => .running

/-- The waiter whose handle a worker is about to release. -/
@[grind =]
def WorkerPc.releases {ι ε : Type*} : WorkerPc ι ε → Option ι
  | .schedule _ w _ => some w
  | _ => none

variable {ω ι κ γ ε O : Type*}

/-- The places hold the listed fibers, each of them once, and the fields of the
source agree. -/
structure Sound (s : Runtime ω ι κ γ ε O) (c : Place ω κ γ ε O → List ι) : Prop where
  exclusive : Exclusive c
  tasks : Holds s.next s.tasks (c .tasks)
  lists : ∀ o, Holds s.link (s.waiters o) (c (.list o))
  last : ∀ o w, (c (.list o)).getLast? = some w → s.link w = none
  hand : ∀ v, c (.hand v) = (s.worker v).hand
  call : ∀ v, c (.call v) = (s.worker v).call
  walk : ∀ v, c (.walk v) = s.detached v
  outside : ∀ o, c (.outside o) = ((s.outside o).map task).toList
  chain : ∀ v, Chain s.link (s.worker v).walking (s.detached v)
  /-- Only a worker that has a fiber in its hands runs it. -/
  stopped : ∀ p f, f ∈ c p → (∃ v, p = .hand v) ∨ s.coro f = .stopped
  status : ∀ v f, f ∈ c (.hand v) → s.coro f = (s.worker v).status
  handleList : ∀ o f, f ∈ c (.list o) → s.handle f = some f
  handleWalk : ∀ v f, f ∈ c (.walk v) → s.handle f = some f
  handleCall : ∀ v w, (s.worker v).releases = some w → s.handle w = some w
  fault : s.fault = false

/-- The listed fibers are those that the fields lead to. -/
theorem Sound.content {s : Runtime ω ι κ γ ε O} {c : Place ω κ γ ε O → List ι} (h : Sound s c) :
    c = s.content := by
  funext p
  cases p with
  | tasks => exact h.tasks.contents.symm
  | hand v => exact h.hand v
  | call v => exact h.call v
  | walk v => exact h.walk v
  | list o => exact (h.lists o).contents.symm
  | outside o => exact h.outside o

theorem sound_initial : Sound (initial ω ι κ γ ε O) fun _ => [] := by
  constructor
  case exclusive => exact exclusive_empty
  case tasks => exact holds_clear
  case lists => exact fun _ => holds_clear
  all_goals simp [initial,WorkerPc.hand,WorkerPc.call,WorkerPc.walking,WorkerPc.releases,Chain]

variable [DecidableEq ω] [DecidableEq ι] [DecidableEq κ] [DecidableEq γ] [DecidableEq ε]
  [DecidableEq O]

section Steps

variable {s s' : Runtime ω ι κ γ ε O} {c c' : Place ω κ γ ε O → List ι} {v : ω} {f w : ι}
  {o : Object κ γ ε} {pc : WorkerPc ι ε}

omit [DecidableEq ι] [DecidableEq κ] [DecidableEq γ] [DecidableEq ε] [DecidableEq O] in
/-- A worker moves on and leaves the waiters with their handles alone: what it
carries goes between its hands, its call of Submit and the queue. -/
theorem Sound.moveWorker (pc' : WorkerPc ι ε) (h : Sound s c) (hv : s.worker v = pc)
    (hworker : s'.worker = Function.update s.worker v pc')
    (hframe : (s'.waiters,s'.link,s'.handle,s'.outside,s'.detached,s'.fault) =
      (s.waiters,s.link,s.handle,s.outside,s.detached,s.fault))
    (hexclusive : Exclusive c') (htasks : Holds s'.next s'.tasks (c' .tasks))
    (hhand : c' (.hand v) = pc'.hand) (hcall : c' (.call v) = pc'.call)
    (hplaces : ∀ p, p ≠ .tasks → p ≠ .hand v → p ≠ .call v → c' p = c p)
    (hwalking : pc'.walking = pc.walking) (hreleases : pc'.releases = none)
    (hstopped : ∀ p g, g ∈ c' p → (∃ u, p = .hand u) ∨ s'.coro g = .stopped)
    (hstatus : ∀ u g, g ∈ c' (.hand u) → s'.coro g = (s'.worker u).status) : Sound s' c' := by
  simp only [Prod.mk.injEq] at hframe
  obtain ⟨hwaiters,hlink,hhandle,houtside,hdetached,hfault⟩ := hframe
  have hlist : ∀ o, c' (.list o) = c (.list o) := fun o => hplaces _ (by simp) (by simp) (by simp)
  have hwalk : ∀ u, c' (.walk u) = c (.walk u) := fun u => hplaces _ (by simp) (by simp) (by simp)
  have hself : s'.worker v = pc' := by
    rw [hworker]
    exact Function.update_self ..
  have hothers : ∀ u, u ≠ v → s'.worker u = s.worker u := by
    intro u hu
    rw [hworker]
    exact Function.update_of_ne hu ..
  constructor
  case exclusive => exact hexclusive
  case tasks => exact htasks
  case stopped => exact hstopped
  case status => exact hstatus
  case lists =>
    intro o
    rw [hwaiters,hlink,hlist]
    exact h.lists o
  case last =>
    intro o
    rw [hlink,hlist]
    exact h.last o
  case hand =>
    intro u
    by_cases hu : u = v
    · subst hu
      rw [hhand,hself]
    · rw [hothers u hu,hplaces _ (by simp) (by simp [hu]) (by simp),h.hand]
  case call =>
    intro u
    by_cases hu : u = v
    · subst hu
      rw [hcall,hself]
    · rw [hothers u hu,hplaces _ (by simp) (by simp) (by simp [hu]),h.call]
  case walk =>
    intro u
    rw [hdetached,hwalk,h.walk]
  case outside =>
    intro k
    rw [houtside,hplaces _ (by simp) (by simp) (by simp),h.outside]
  case chain =>
    intro u
    rw [hlink,hdetached]
    by_cases hu : u = v
    · subst hu
      rw [hself,hwalking,←hv]
      exact h.chain u
    · rw [hothers u hu]
      exact h.chain u
  case handleList =>
    intro o
    rw [hhandle,hlist]
    exact h.handleList o
  case handleWalk =>
    intro u
    rw [hhandle,hwalk]
    exact h.handleWalk u
  case handleCall =>
    intro u w hw
    rw [hhandle]
    by_cases hu : u = v
    · subst hu
      rw [hself,hreleases] at hw
      cases hw
    · rw [hothers u hu] at hw
      exact h.handleCall u w hw
  case fault =>
    rw [hfault]
    exact h.fault

omit [DecidableEq ι] [DecidableEq κ] [DecidableEq γ] [DecidableEq ε] [DecidableEq O] in
/-- A worker moves on and carries no fiber anywhere. -/
theorem Sound.stay (pc' : WorkerPc ι ε) (h : Sound s c) (hv : s.worker v = pc)
    (hworker : s'.worker = Function.update s.worker v pc')
    (hframe : (s'.tasks,s'.next,s'.coro,s'.waiters,s'.link,s'.handle,s'.outside,s'.detached,
        s'.fault) =
      (s.tasks,s.next,s.coro,s.waiters,s.link,s.handle,s.outside,s.detached,s.fault))
    (hhand : pc'.hand = pc.hand) (hcall : pc'.call = pc.call) (hwalking : pc'.walking = pc.walking)
    (hstatus : pc.hand ≠ [] → pc'.status = pc.status) (hreleases : pc'.releases = none) :
    Sound s' c := by
  simp only [Prod.mk.injEq] at hframe
  obtain ⟨htasks,hnext,hcoro,hframe⟩ := hframe
  refine h.moveWorker pc' hv hworker ?_ h.exclusive ?_ ?_ ?_ (fun _ _ _ _ => rfl) hwalking hreleases
    ?_ ?_
  · simpa only [Prod.mk.injEq] using hframe
  · rw [htasks,hnext]
    exact h.tasks
  · rw [h.hand,hv,hhand]
  · rw [h.call,hv,hcall]
  · rw [hcoro]
    exact h.stopped
  · intro u g hg
    rw [hcoro,h.status u g hg,hworker]
    by_cases hu : u = v
    · subst hu
      have hne : pc.hand ≠ [] := by
        rw [←hv,←h.hand]
        exact List.ne_nil_of_mem hg
      rw [Function.update_self,hv,hstatus hne]
    · rw [Function.update_of_ne hu]

omit [DecidableEq ω] [DecidableEq ι] [DecidableEq κ] [DecidableEq γ] [DecidableEq ε] in
/-- A call from outside moves on, with the fiber that it carries and the queue. -/
theorem Sound.moveOutside {k : O} {call' : Option (SubmitPc ι)} (h : Sound s c)
    (houtside : s'.outside = Function.update s.outside k call')
    (hframe : (s'.worker,s'.waiters,s'.link,s'.handle,s'.detached,s'.fault) =
      (s.worker,s.waiters,s.link,s.handle,s.detached,s.fault))
    (hexclusive : Exclusive c') (htasks : Holds s'.next s'.tasks (c' .tasks))
    (hcall : c' (.outside k) = (call'.map task).toList)
    (hplaces : ∀ p, p ≠ .tasks → p ≠ .outside k → c' p = c p)
    (hcoro : ∀ p g, g ∈ c p → s'.coro g = s.coro g)
    (hstopped : ∀ p g, g ∈ c' p → p = .tasks ∨ p = .outside k → s'.coro g = .stopped) :
    Sound s' c' := by
  simp only [Prod.mk.injEq] at hframe
  obtain ⟨hworker,hwaiters,hlink,hhandle,hdetached,hfault⟩ := hframe
  have hsame : ∀ p, p ≠ .tasks → (∀ j, p ≠ .outside j) → c' p = c p :=
    fun p htasks hout => hplaces p htasks (hout k)
  constructor
  case exclusive => exact hexclusive
  case tasks => exact htasks
  case lists =>
    intro o
    rw [hwaiters,hlink,hsame _ (by simp) (by simp)]
    exact h.lists o
  case last =>
    intro o
    rw [hlink,hsame _ (by simp) (by simp)]
    exact h.last o
  case hand =>
    intro u
    rw [hworker,hsame _ (by simp) (by simp),h.hand]
  case call =>
    intro u
    rw [hworker,hsame _ (by simp) (by simp),h.call]
  case walk =>
    intro u
    rw [hdetached,hsame _ (by simp) (by simp),h.walk]
  case outside =>
    intro j
    rw [houtside]
    by_cases hj : j = k
    · subst hj
      rw [hcall,Function.update_self]
    · rw [hplaces _ (by simp) (by simp [hj]),Function.update_of_ne hj,h.outside]
  case chain =>
    intro u
    rw [hworker,hlink,hdetached]
    exact h.chain u
  case stopped =>
    intro p g hg
    by_cases hp : p = .tasks ∨ p = .outside k
    · exact Or.inr (hstopped p g hg hp)
    · rw [not_or] at hp
      rw [hplaces p hp.1 hp.2] at hg
      rw [hcoro p g hg]
      exact h.stopped p g hg
  case status =>
    intro u g hg
    rw [hsame _ (by simp) (by simp)] at hg
    rw [hworker,hcoro _ g hg]
    exact h.status u g hg
  case handleList =>
    intro o
    rw [hhandle,hsame _ (by simp) (by simp)]
    exact h.handleList o
  case handleWalk =>
    intro u
    rw [hhandle,hsame _ (by simp) (by simp)]
    exact h.handleWalk u
  case handleCall =>
    rw [hhandle,hworker]
    exact h.handleCall
  case fault =>
    rw [hfault]
    exact h.fault

omit [DecidableEq ι] in
/-- A worker takes the first fiber of the queue. -/
theorem Sound.take {rest : List ι} (h : Sound s c) (hv : s.worker v = .pop)
    (ht : c .tasks = f :: rest) :
    Sound ({ s with tasks := s.tasks.pop s.next }.goto v (.resume f))
      (Function.update (Function.update c .tasks rest) (.hand v) (c (.hand v) ++ [f])) := by
  have hhand : c (.hand v) = [] := by
    rw [h.hand,hv]
    rfl
  have hpop := h.tasks.pop.2
  rw [ht] at hpop
  have hhands := h.hand
  have hstopped := h.stopped
  have hstatus := h.status
  refine h.moveWorker (.resume f) hv rfl rfl (h.exclusive.move (.of_eq ht) (by rintro ⟨⟩)) ?_ ?_ ?_
    ?_ rfl rfl ?_ ?_
  all_goals
    simp only [Runtime.goto,Function.update_apply,reduceCtorEq,if_false,if_true,Place.hand.injEq]
  · exact hpop
  · rw [hhand]
    rfl
  · rw [h.call,hv]
    rfl
  all_goals grind

omit [DecidableEq κ] [DecidableEq γ] [DecidableEq ε] [DecidableEq O] in
/-- The coroutine in the hands of a worker is resumed, or completes. -/
theorem Sound.switch (pc' : WorkerPc ι ε) (h : Sound s c) (hv : s.worker v = pc)
    (hpc : pc.hand = [f])
    (hhand : pc'.hand = [f]) (hcall : pc'.call = pc.call) (hwalking : pc'.walking = pc.walking)
    (hreleases : pc'.releases = none) :
    Sound ((s.setCoro f pc'.status).goto v pc') c := by
  have hmem : f ∈ c (.hand v) := by
    rw [h.hand,hv,hpc]
    exact List.mem_singleton_self f
  have hunique := fun p => h.exclusive.unique p (.hand v) f
  have hhands := h.hand
  have hstopped := h.stopped
  have hstatus := h.status
  refine h.moveWorker pc' hv rfl rfl h.exclusive h.tasks ?_ ?_ (fun _ _ _ _ => rfl) hwalking
    hreleases ?_ ?_
  · rw [h.hand,hv,hpc,hhand]
  · rw [h.call,hv,hcall]
  all_goals
    simp only [Runtime.goto,Runtime.setCoro,Function.update_apply]
    grind

/-- A fiber that has completed is deleted. -/
theorem Sound.delete (h : Sound s c) (hv : s.worker v = .completed f) :
    Sound ((s.setCoro f .absent).goto v .pop) (Function.update c (.hand v) []) := by
  have hhand : c (.hand v) = [f] := by
    rw [h.hand,hv]
    rfl
  have hgone := h.exclusive.gone (.of_eq hhand)
  simp only [Function.update_apply] at hgone
  have hstopped := h.stopped
  have hstatus := h.status
  refine h.moveWorker .pop hv rfl rfl (h.exclusive.keep List.nil_subperm) ?_ ?_ ?_ ?_ rfl rfl ?_ ?_
  all_goals
    simp only [Runtime.goto,Runtime.setCoro,Function.update_apply,reduceCtorEq,if_false,
      Place.hand.injEq]
  · exact h.tasks
  · rfl
  · rw [h.call,hv]
    rfl
  all_goals grind

/-- A fiber yields: it is handed to Submit. -/
theorem Sound.yield (h : Sound s c) (hv : s.worker v = .body f) :
    Sound ((s.setCoro f .stopped).goto v (.submit f (.check f) .returned))
      (Function.update (Function.update c (.hand v) []) (.call v) (c (.call v) ++ [f])) := by
  have hhand : c (.hand v) = [f] := by
    rw [h.hand,hv]
    rfl
  have hcall : c (.call v) = [] := by
    rw [h.call,hv]
    rfl
  have hstopped := h.stopped
  have hstatus := h.status
  refine h.moveWorker (.submit f (.check f) .returned) hv rfl rfl
    (h.exclusive.move (.of_eq hhand) (by rintro ⟨⟩)) ?_ ?_ ?_ ?_ rfl rfl ?_ ?_
  all_goals
    simp only [Runtime.goto,Runtime.setCoro,Function.update_apply,reduceCtorEq,if_false,
      Place.hand.injEq]
  · exact h.tasks
  · rfl
  · rw [hcall]
    rfl
  all_goals grind [h.exclusive.unique]

omit [DecidableEq ω] [DecidableEq κ] [DecidableEq γ] [DecidableEq ε] [DecidableEq O] in
/-- Park writes the links of its own list and of the new waiter only. -/
theorem Sound.park_link (h : Sound s c) (hf : ∀ o, f ∉ c (.list o)) {n : ι} (hne : n ≠ f)
    (hn : n ∉ c (.list o)) :
    (s.waiters o).pushLinks (Function.update s.link f none) f n = s.link n := by
  rw [((h.lists o).write (hf o) none).pushLinks_of_not_mem hn]
  exact Function.update_of_ne hne ..

/-- A fiber parks: its waiter becomes the last one of a list. -/
theorem Sound.park (h : Sound s c) (hv : s.worker v = .body f) :
    Sound ((s.park f o).goto v .pop)
      (Function.update (Function.update c (.hand v) []) (.list o) (c (.list o) ++ [f])) := by
  have hhand : c (.hand v) = [f] := by
    rw [h.hand,hv]
    rfl
  have hmem : f ∈ c (.hand v) := by
    rw [hhand]
    exact List.mem_singleton_self f
  have hunique := fun p hp => h.exclusive.unique p (.hand v) f hp hmem
  have hout : ∀ o, f ∉ c (.list o) := fun o hp => absurd (hunique _ hp) (by rintro ⟨⟩)
  have hwalk : ∀ u, f ∉ c (.walk u) := fun u hp => absurd (hunique _ hp) (by rintro ⟨⟩)
  have hlink := fun {n : ι} => h.park_link (o := o) hout (n := n)
  have hpush := ((h.lists o).write (hout o) none).push (hout o)
  have hself : (s.waiters o).pushLinks (Function.update s.link f none) f f = none := by
    rw [((h.lists o).write (hout o) none).pushLinks_of_not_mem (hout o)]
    exact Function.update_self ..
  have hhands := h.hand
  have hcalls := h.call
  have hchains := h.chain
  have hstopped := h.stopped
  have hstatus := h.status
  constructor
  case exclusive => exact h.exclusive.move (.of_eq hhand) (by rintro ⟨⟩)
  case fault => exact h.fault
  all_goals
    simp only [Runtime.goto,Runtime.park,Function.update_apply,reduceCtorEq,if_false,
      Place.hand.injEq,Place.list.injEq]
  case tasks => exact h.tasks
  case lists =>
    intro k
    split
    next hk =>
      subst hk
      exact hpush
    next hk =>
      refine (h.lists k).frame fun n hn => ?_
      refine hlink ?_ ?_
      · rintro rfl
        exact hout k hn
      · intro hn'
        cases h.exclusive.unique _ _ n hn hn'
        exact hk rfl
  case last =>
    intro k w hw
    split at hw
    next hk =>
      rw [List.getLast?_append_of_ne_nil _ (by simp)] at hw
      cases hw
      exact hself
    next hk =>
      have hwk := List.mem_of_getLast? hw
      rw [hlink ?_ ?_]
      · exact h.last k w hw
      · rintro rfl
        exact hout k hwk
      · intro hw'
        cases h.exclusive.unique _ _ w hwk hw'
        exact hk rfl
  case walk => exact h.walk
  case outside => exact h.outside
  case chain =>
    intro u
    have hchain : Chain ((s.waiters o).pushLinks (Function.update s.link f none) f)
        (s.worker u).walking (s.detached u) := by
      refine chain_congr (hchains u) fun n hn => ?_
      rw [←h.walk] at hn
      refine hlink ?_ ?_
      · rintro rfl
        exact hwalk u hn
      · intro hn'
        cases h.exclusive.unique _ _ n hn hn'
    rcases eq_or_ne u v with rfl | hne
    · rw [if_pos rfl]
      rw [hv] at hchain
      exact hchain
    · rw [if_neg hne]
      exact hchain
  case status => grind [h.exclusive.unique]
  case handleList => grind [h.handleList]
  case handleWalk => grind [h.handleWalk]
  case handleCall => grind [h.handleCall]
  all_goals grind

omit [DecidableEq ι] in
/-- A fiber pops the first waiter of a list and goes on to schedule it. -/
theorem Sound.popWaiter {rest : List ι} {after : After ι ε} (h : Sound s c) (hv : s.worker v = pc)
    (hpc : pc.hand = [f] ∧ pc.call = [] ∧ pc.walking = none ∧ pc.status = .running)
    (hafter : (WorkerPc.schedule f w after).hand = [f] ∧
      (WorkerPc.schedule f w after).walking = none)
    (ho : c (.list o) = w :: rest) :
    Sound ((s.setWaiters o ((s.waiters o).pop s.link)).goto v (.schedule f w after))
      (Function.update (Function.update c (.list o) rest) (.call v) (c (.call v) ++ [w])) := by
  obtain ⟨hpchand,hpccall,hpcwalking,hpcstatus⟩ := hpc
  obtain ⟨hafterhand,hafterwalking⟩ := hafter
  have hcall : c (.call v) = [] := by rw [h.call,hv,hpccall]
  have hpop := (h.lists o).pop.2
  rw [ho] at hpop
  have hlists := h.lists
  have hhandle : s.handle w = some w := h.handleList o w (by rw [ho]; exact List.mem_cons_self)
  have hstopw := h.stopped (.list o) w (by rw [ho]; exact List.mem_cons_self)
  have hhands := h.hand
  have hcalls := h.call
  have hchains := h.chain
  have hstopped := h.stopped
  have hstatus := h.status
  constructor
  case exclusive => exact h.exclusive.move (.of_eq ho) (by rintro ⟨⟩)
  case fault => exact h.fault
  all_goals
    simp only [Runtime.goto,Runtime.setWaiters,Function.update_apply,reduceCtorEq,if_false,
      Place.list.injEq,Place.call.injEq]
  case tasks => exact h.tasks
  case last =>
    intro k x hx
    split at hx
    next hk =>
      refine h.last o x ?_
      rw [ho]
      cases rest with
      | nil => cases hx
      | cons y rest => rwa [List.getLast?_cons_cons]
    next => exact h.last k x hx
  case walk => exact h.walk
  case outside => exact h.outside
  case handleList => grind [h.handleList]
  case handleWalk => exact h.handleWalk
  case handleCall => grind [h.handleCall]
  all_goals grind

omit [DecidableEq ι] in
/-- The Done that finds waiters detaches all of them and begins its walk. -/
theorem Sound.detach {rest : List ι} (h : Sound s c) (hv : s.worker v = .body f)
    (ho : c (.list o) = w :: rest) :
    Sound ({ s.setWaiters o .clear with
        detached := Function.update s.detached v (c (.list o)) }.goto v (.walk f w))
      (Function.update (Function.update c (.list o) []) (.walk v) (c (.list o))) := by
  have hchain : Chain s.link (some w) (c (.list o)) := by
    have hlist := h.lists o
    rw [ho] at hlist ⊢
    refine ⟨rfl,chain_next_iff.mpr (hlist.path ?_)⟩
    intro x hx
    exact h.last o x (by rw [ho]; exact hx)
  have hlists := h.lists
  have hlast := h.last
  have hwalks := h.walk
  have hhandles := h.handleList o
  have hhands := h.hand
  have hcalls := h.call
  have hchains := h.chain
  have hstopped := h.stopped
  have hstatus := h.status
  constructor
  case exclusive => exact h.exclusive.moveAll
  case fault => exact h.fault
  all_goals
    simp only [Runtime.goto,Runtime.setWaiters,Function.update_apply,reduceCtorEq,if_false,
      Place.list.injEq,Place.walk.injEq]
  case tasks => exact h.tasks
  case lists =>
    intro k
    split
    next => exact holds_clear
    next => exact hlists k
  case outside => exact h.outside
  case chain =>
    intro u
    split
    next => exact hchain
    next => exact hchains u
  case handleList => grind [h.handleList]
  case handleWalk => grind [h.handleWalk]
  case handleCall => grind [h.handleCall]
  all_goals grind

omit [DecidableEq ι] in
/-- The walk of Done takes the waiter that it visits out of the chain. -/
theorem Sound.visit (h : Sound s c) (hv : s.worker v = .walk f w) :
    ∃ rest, c (.walk v) = w :: rest ∧
      Sound ({ s with detached := Function.update s.detached v (s.detached v).tail }.goto v
          (.schedule f w (.walk (s.link w))))
        (Function.update (Function.update c (.walk v) rest) (.call v) (c (.call v) ++ [w])) := by
  have hchain := h.chain v
  rw [hv] at hchain
  obtain ⟨rest,hdetached⟩ : ∃ rest, s.detached v = w :: rest := by
    cases hd : s.detached v with
    | nil =>
      rw [hd] at hchain
      cases hchain
    | cons x rest =>
      rw [hd] at hchain
      cases hchain.1
      exact ⟨rest,rfl⟩
  rw [hdetached] at hchain
  have hwalk : c (.walk v) = w :: rest := (h.walk v).trans hdetached
  have hcall : c (.call v) = [] := by
    rw [h.call,hv]
    rfl
  have hhandle : s.handle w = some w := h.handleWalk v w (by rw [hwalk]; exact List.mem_cons_self)
  have hstopw := h.stopped (.walk v) w (by rw [hwalk]; exact List.mem_cons_self)
  have hwalks := h.walk
  refine ⟨rest,hwalk,?_⟩
  rw [hdetached,List.tail_cons]
  have hhands := h.hand
  have hcalls := h.call
  have hchains := h.chain
  have hstopped := h.stopped
  have hstatus := h.status
  constructor
  case exclusive => exact h.exclusive.move (.of_eq hwalk) (by rintro ⟨⟩)
  case fault => exact h.fault
  all_goals
    simp only [Runtime.goto,Function.update_apply,reduceCtorEq,if_false,Place.walk.injEq,
      Place.call.injEq]
  case tasks => exact h.tasks
  case lists => exact h.lists
  case last => exact h.last
  case outside => exact h.outside
  case chain =>
    intro u
    split
    next => exact hchain.2
    next => exact hchains u
  case handleList => exact h.handleList
  case handleWalk => grind [h.handleWalk]
  case handleCall => grind [h.handleCall]
  all_goals grind

omit [DecidableEq κ] [DecidableEq γ] [DecidableEq ε] [DecidableEq O] in
/-- Schedule releases the handle of the waiter and calls Submit of its fiber. -/
theorem Sound.release {after : After ι ε} (h : Sound s c) (hv : s.worker v = .schedule f w after) :
    Sound ({ s with handle := Function.update s.handle w none }.goto v
      (.submit f (.check w) after)) c := by
  have hmem : w ∈ c (.call v) := by
    rw [h.call,hv]
    exact List.mem_singleton_self w
  have hunique := fun p hp => h.exclusive.unique p (.call v) w hp hmem
  have hreleases : ∀ u x, (s.worker u).releases = some x → x ∈ c (.call u) := by
    intro u x hx
    rw [h.call]
    cases hu : s.worker u <;> rw [hu] at hx <;> grind
  have hsame : (WorkerPc.submit f (.check w) after).hand =
      (WorkerPc.schedule f w after).hand := by
    cases after <;> rfl
  have hhands := h.hand
  have hcalls := h.call
  have hchains := h.chain
  have hstopped := h.stopped
  have hstatus := h.status
  constructor
  case exclusive => exact h.exclusive
  case fault => exact h.fault
  all_goals simp only [Runtime.goto,Function.update_apply]
  case tasks => exact h.tasks
  case lists => exact h.lists
  case last => exact h.last
  case walk => exact h.walk
  case outside => exact h.outside
  case chain =>
    intro u
    split
    next hu =>
      subst hu
      have hchain := hchains u
      rw [hv] at hchain
      cases after <;> exact hchain
    next => exact hchains u
  case stopped => exact h.stopped
  case handleList => grind [h.handleList]
  case handleWalk => grind [h.handleWalk]
  case handleCall => grind [h.handleCall]
  all_goals grind

omit [DecidableEq ω] [DecidableEq ι] [DecidableEq κ] [DecidableEq γ] [DecidableEq ε]
  [DecidableEq O] in
/-- The worker goes on where Submit was called. -/
theorem After.resume_frame (f : ι) (call : SubmitPc ι) (after : After ι ε) :
    (after.resume f).hand = (WorkerPc.submit f call after).hand ∧ (after.resume f).call = [] ∧
      (after.resume f).walking = (WorkerPc.submit f call after).walking ∧
      ((after.resume f).hand ≠ [] → (after.resume f).status = .running) ∧
      (after.resume f).releases = none := by
  cases after with
  | walk next => cases next <;> simp [After.resume,WorkerPc.hand,WorkerPc.call,WorkerPc.walking,
      WorkerPc.status,WorkerPc.releases]
  | body | fire e | returned => simp [After.resume,WorkerPc.hand,WorkerPc.call,WorkerPc.walking,
      WorkerPc.status,WorkerPc.releases]

omit [DecidableEq ι] in
/-- Submit returns at once on a pool that is shut down. -/
theorem Sound.drop {call : SubmitPc ι} {after : After ι ε} (h : Sound s c)
    (hv : s.worker v = .submit f call after) :
    Sound (s.goto v (after.resume f)) (Function.update c (.call v) []) := by
  obtain ⟨hhand,hcall,hwalking,hrunning,hreleases⟩ := After.resume_frame f call after
  have hstopped := h.stopped
  have hstatus := h.status
  refine h.moveWorker (after.resume f) hv rfl rfl (h.exclusive.keep List.nil_subperm) ?_ ?_ ?_ ?_
    hwalking hreleases ?_ ?_
  all_goals simp only [Runtime.goto,Function.update_apply,reduceCtorEq,if_false]
  · exact h.tasks
  · rw [h.hand,hv,hhand]
  · exact hcall.symm
  all_goals grind

/-- Submit pushes the fiber onto the queue and returns. -/
theorem Sound.push {g : ι} {after : After ι ε} (h : Sound s c)
    (hv : s.worker v = .submit f (.push g) after) :
    Sound ({ s with tasks := s.tasks.push g, next := s.tasks.pushLinks s.next g }.goto v
        (after.resume f))
      (Function.update (Function.update c (.call v) []) .tasks (c .tasks ++ [g])) := by
  obtain ⟨hhand,hcall,hwalking,hrunning,hreleases⟩ :=
    After.resume_frame f (SubmitPc.push g) after
  have hcallv : c (.call v) = [g] := by
    rw [h.call,hv]
    rfl
  have hstopg := h.stopped (.call v) g (by rw [hcallv]; exact List.mem_singleton_self g)
  have hout : g ∉ c .tasks := by
    intro hg
    cases h.exclusive.unique _ (.call v) g hg (by rw [hcallv]; exact List.mem_singleton_self g)
  have hstopped := h.stopped
  have hstatus := h.status
  refine h.moveWorker (after.resume f) hv rfl rfl
    (h.exclusive.move (.of_eq hcallv) (by rintro ⟨⟩)) ?_ ?_ ?_ ?_ hwalking hreleases ?_ ?_
  all_goals
    simp only [Runtime.goto,Function.update_apply,reduceCtorEq,if_false,if_true]
  · exact h.tasks.push hout
  · rw [h.hand,hv,hhand]
  · exact hcall.symm
  all_goals grind

omit [DecidableEq ω] [DecidableEq ι] [DecidableEq κ] [DecidableEq γ] [DecidableEq ε]
  [DecidableEq O] in
/-- An address without a fiber is in no place. -/
theorem Sound.absent (h : Sound s c) (hf : s.coro f = .absent) (p : Place ω κ γ ε O) :
    f ∉ c p := by
  intro hp
  rcases h.stopped p f hp with ⟨v,rfl⟩ | hstopped
  · have hstatus := h.status v f hp
    rw [hf] at hstatus
    cases hpc : s.worker v <;> rw [hpc] at hstatus <;> cases hstatus
  · rw [hf] at hstopped
    cases hstopped

/-- A fiber constructs a new one and calls Submit for it. -/
theorem Sound.go {g : ι} (h : Sound s c) (hv : s.worker v = .body f) (hg : s.coro g = .absent) :
    Sound ((s.construct g).goto v (.submit f (.check g) .body))
      (Function.update c (.call v) (c (.call v) ++ [g])) := by
  have habsent := h.absent hg
  have hcall : c (.call v) = [] := by
    rw [h.call,hv]
    rfl
  have hstopped := h.stopped
  have hstatus := h.status
  refine h.moveWorker (.submit f (.check g) .body) hv rfl rfl (h.exclusive.insert habsent) ?_ ?_ ?_
    ?_ rfl rfl ?_ ?_
  all_goals
    simp only [Runtime.goto,Runtime.construct,Function.update_apply,reduceCtorEq,if_false]
  · exact h.tasks.write (habsent _) none
  · rw [h.hand,hv]
    rfl
  · rw [hcall]
    rfl
  all_goals grind

/-- A thread outside of the pool constructs a fiber and calls Submit for it. -/
theorem Sound.goOutside {g : ι} {k : O} (h : Sound s c) (hk : s.outside k = none)
    (hg : s.coro g = .absent) :
    Sound { s.construct g with outside := Function.update s.outside k (some (.check g)) }
      (Function.update c (.outside k) (c (.outside k) ++ [g])) := by
  have habsent := h.absent hg
  have hout : c (.outside k) = [] := by
    rw [h.outside,hk]
    rfl
  have hstopped := h.stopped
  refine h.moveOutside rfl rfl (h.exclusive.insert habsent) ?_ ?_ ?_ ?_ ?_
  all_goals
    simp only [Runtime.construct,Function.update_apply,reduceCtorEq,if_false]
  · exact h.tasks.write (habsent _) none
  · rw [hout]
    rfl
  all_goals grind

omit [DecidableEq ω] [DecidableEq ι] [DecidableEq κ] [DecidableEq γ] [DecidableEq ε] in
/-- A call from outside goes on with its fiber. -/
theorem Sound.stayOutside {k : O} {call : SubmitPc ι} (call' : SubmitPc ι) (accepted : ι → Bool)
    (h : Sound s c)
    (hk : s.outside k = some call) (htask : task call' = task call) :
    Sound { s with outside := Function.update s.outside k (some call'), accepted := accepted } c := by
  refine { h with outside := ?_ }
  intro j
  simp only [Function.update_apply]
  split
  next hj =>
    subst hj
    rw [h.outside,hk]
    simp [htask]
  next => exact h.outside j

omit [DecidableEq ι] in
/-- A call from outside returns at once on a pool that is shut down. -/
theorem Sound.dropOutside {k : O} (h : Sound s c) :
    Sound { s with outside := Function.update s.outside k none }
      (Function.update c (.outside k) []) := by
  have hstopped := h.stopped
  refine h.moveOutside rfl rfl (h.exclusive.keep List.nil_subperm) ?_ ?_ ?_ ?_ ?_
  all_goals simp only [Function.update_apply,reduceCtorEq,if_false]
  · exact h.tasks
  · rfl
  all_goals grind

/-- A call from outside pushes the fiber onto the queue and returns. -/
theorem Sound.pushOutside {g : ι} {k : O} (h : Sound s c) (hk : s.outside k = some (.push g)) :
    Sound { s with
        tasks := s.tasks.push g
        next := s.tasks.pushLinks s.next g
        outside := Function.update s.outside k none }
      (Function.update (Function.update c (.outside k) []) .tasks (c .tasks ++ [g])) := by
  have hcall : c (.outside k) = [g] := by
    rw [h.outside,hk]
    rfl
  have hmem : g ∈ c (.outside k) := by
    rw [hcall]
    exact List.mem_singleton_self g
  have hstopg := h.stopped (.outside k) g hmem
  have hout : g ∉ c .tasks := fun hg =>
    absurd (h.exclusive.unique _ (.outside k) g hg hmem) (by rintro ⟨⟩)
  have hstopped := h.stopped
  refine h.moveOutside rfl rfl (h.exclusive.move (.of_eq hcall) (by rintro ⟨⟩)) ?_ ?_ ?_ ?_ ?_
  all_goals simp only [Function.update_apply,reduceCtorEq,if_false,if_true]
  · exact h.tasks.push hout
  · rfl
  all_goals grind

/-- The call of Submit that a step goes on with. -/
def Runtime.submits {ω ι κ γ ε O : Type*} (s : Runtime ω ι κ γ ε O) :
    Action ω ι κ γ ε O → Option (SubmitPc ι)
  | .worker v =>
    match s.worker v with
    | .submit _ call _ => some call
    | _ => none
  | .outside k => s.outside k
  | _ => none

/-- The fibers that a step takes out of all places: they are deleted, or
dropped by a Submit on a pool that is shut down. -/
def Runtime.loses {ω ι κ γ ε O : Type*} (s : Runtime ω ι κ γ ε O) (a : Action ω ι κ γ ε O)
    (f : ι) : Prop :=
  (∃ v, a = .worker v ∧ s.worker v = .completed f) ∨
    (s.submits a = some (.check f) ∧ s.shutdown = true)

omit [DecidableEq ι] [DecidableEq κ] [DecidableEq γ] [DecidableEq ε] [DecidableEq O] in
/-- The routine on a worker goes on after a section without a suspension. -/
theorem Sound.proceed (h : Sound s c) (hv : s.worker v = .body f) (hworker : s'.worker = s.worker)
    (hframe : (s'.tasks,s'.next,s'.coro,s'.waiters,s'.link,s'.handle,s'.outside,s'.detached,
        s'.fault) =
      (s.tasks,s.next,s.coro,s.waiters,s.link,s.handle,s.outside,s.detached,s.fault)) :
    Sound s' c := by
  refine h.stay (.body f) hv ?_ hframe rfl rfl rfl (fun _ => rfl) rfl
  rw [hworker,←hv,Function.update_eq_self]

omit [DecidableEq ω] [DecidableEq ι] [DecidableEq κ] [DecidableEq γ] [DecidableEq ε]
  [DecidableEq O] in
/-- A list that is not empty has a first waiter, and Pop returns it. -/
theorem Sound.first (h : Sound s c) (hempty : (s.waiters o).isEmpty = false) :
    ∃ w rest, c (.list o) = w :: rest ∧ (s.waiters o).popped = some w := by
  have hlist := (h.lists o).isEmpty
  rw [hempty] at hlist
  cases hc : c (.list o) with
  | nil =>
    rw [hc] at hlist
    cases hlist
  | cons w rest =>
    refine ⟨w,rest,rfl,?_⟩
    rw [(h.lists o).pop.1,hc]
    rfl

omit [DecidableEq ω] [DecidableEq ι] [DecidableEq O] in
/-- An empty list is cleared. -/
theorem Sound.clear (h : Sound s c) (ho : c (.list o) = []) : Sound (s.setWaiters o .clear) c := by
  refine { h with lists := ?_ }
  intro k
  simp only [Runtime.setWaiters,Function.update_apply]
  split
  next hk =>
    rw [hk,ho]
    exact holds_clear
  next => exact h.lists k

/-- The section of Done detaches the waiters when the counter reaches zero. -/
theorem Sound.done {g : γ} (h : Sound s c) (hv : s.worker v = .body f)
    (hs : s.perform v f (.done g) = some s') (lost : ι → Prop) :
    ∃ c', Sound s' c' ∧ Covers c c' lost := by
  have hcount : ∀ counter : γ → ℕ, Sound { s with counter := counter } c := fun counter =>
    h.proceed hv rfl rfl
  have hpop := (h.lists (.group g)).pop.1
  simp only [Runtime.perform] at hs
  split at hs
  next =>
    rw [hpop] at hs
    cases hc : c (.list (.group g)) with
    | nil =>
      rw [hc] at hs
      cases hs
      exact ⟨c,(hcount _).clear hc,covers_self c lost⟩
    | cons w rest =>
      rw [hc,(h.lists (.group g)).contents] at hs
      cases hs
      refine ⟨_,(hcount _).detach hv hc,covers_moveAll lost (by rintro ⟨⟩) ?_⟩
      have hchain := h.chain v
      rw [h.walk]
      rw [hv] at hchain
      cases hd : s.detached v with
      | nil => rfl
      | cons x tail =>
        rw [hd] at hchain
        cases hchain.1
  next =>
    cases hs
    exact ⟨c,hcount _,covers_self c lost⟩

/-- An operation of the routine of a fiber moves fibers and loses none. -/
theorem Sound.perform {op : Op ι κ γ ε} (h : Sound s c) (hv : s.worker v = .body f)
    (hs : s.perform v f op = some s') (lost : ι → Prop) :
    ∃ c', Sound s' c' ∧ Covers c c' lost := by
  have hhand : c (.hand v) = [f] := by
    rw [h.hand,hv]
    rfl
  cases op with
  | yield =>
    cases hs
    exact ⟨_,h.yield hv,covers_move lost (.of_eq hhand) (by rintro ⟨⟩)⟩
  | go g =>
    simp only [Runtime.perform] at hs
    split at hs <;> cases hs
    next hg => exact ⟨_,h.go hv hg,covers_insert lost⟩
  | lock m =>
    simp only [Runtime.perform] at hs
    split at hs <;> cases hs
    next => exact ⟨_,h.park hv,covers_move lost (.of_eq hhand) (by rintro ⟨⟩)⟩
    next => exact ⟨c,h.proceed hv rfl rfl,covers_self c lost⟩
  | unlock m =>
    simp only [Runtime.perform] at hs
    split at hs
    next =>
      cases hs
      exact ⟨c,h.proceed hv rfl rfl,covers_self c lost⟩
    next hempty =>
      obtain ⟨w,rest,ho,hpopped⟩ := h.first (by simpa using hempty)
      rw [hpopped] at hs
      cases hs
      exact ⟨_,h.popWaiter hv ⟨rfl,rfl,rfl,rfl⟩ ⟨rfl,rfl⟩ ho,
        covers_move lost (.of_eq ho) (by rintro ⟨⟩)⟩
  | add g amount =>
    cases hs
    exact ⟨c,h.proceed hv rfl rfl,covers_self c lost⟩
  | done g => exact h.done hv hs lost
  | wait g =>
    simp only [Runtime.perform] at hs
    split at hs <;> cases hs
    next => exact ⟨_,h.park hv,covers_move lost (.of_eq hhand) (by rintro ⟨⟩)⟩
    next => exact ⟨c,h,covers_self c lost⟩
  | await e =>
    simp only [Runtime.perform] at hs
    split at hs <;> cases hs
    exact ⟨_,h.park hv,covers_move lost (.of_eq hhand) (by rintro ⟨⟩)⟩
  | fire e =>
    simp only [Runtime.perform] at hs
    split at hs <;> cases hs
    exact ⟨c,h.stay _ hv rfl rfl rfl rfl rfl (fun _ => rfl) rfl,
      covers_self c lost⟩
  | finish =>
    cases hs
    exact ⟨c,h.switch (.completed f) hv rfl rfl rfl rfl rfl,covers_self c lost⟩

/-- A step of Submit on a worker. -/
theorem Sound.submit {call : SubmitPc ι} {after : After ι ε} (h : Sound s c)
    (hv : s.worker v = .submit f call after) {lost : ι → Prop}
    (hlost : ∀ g, call = .check g → s.shutdown = true → lost g) :
    ∃ c', Sound ((s.submit call).1.goto v
        (match (s.submit call).2 with
        | some call' => .submit f call' after
        | none => after.resume f)) c' ∧ Covers c c' lost := by
  have hcall : c (.call v) = [task call] := by
    rw [h.call,hv]
    rfl
  have hstay : ∀ (call' : SubmitPc ι) (accepted : ι → Bool), task call' = task call →
      Sound ({ s with accepted := accepted }.goto v (.submit f call' after)) c := by
    intro call' accepted htask
    refine h.stay (.submit f call' after) hv rfl rfl ?_ ?_ ?_
      (fun _ => rfl) rfl
    · cases after <;> rfl
    · simp only [WorkerPc.call,htask]
    · cases after <;> rfl
  cases call with
  | check g =>
    by_cases hshutdown : s.shutdown = true
    · simp only [Runtime.submit,if_pos hshutdown]
      exact ⟨_,h.drop hv,covers_keep (.of_eq hcall) (hlost g rfl hshutdown)⟩
    · simp only [Runtime.submit,if_neg hshutdown]
      exact ⟨c,hstay (.add g) _ rfl,covers_self c lost⟩
  | add g => exact ⟨c,hstay (.push g) s.accepted rfl,covers_self c lost⟩
  | push g => exact ⟨_,h.push hv,covers_move lost (.of_eq hcall) (by rintro ⟨⟩)⟩

/-- A step of a worker outside of routines. -/
theorem Sound.workerStep (h : Sound s c) (hs : s.workerStep v = some s') :
    ∃ c', Sound s' c' ∧ Covers c c' (s.loses (.worker v)) := by
  have hself := covers_self c (s.loses (.worker v))
  simp only [Runtime.workerStep] at hs
  split at hs
  next hv =>
    have hpop := h.tasks.pop
    cases hc : c .tasks with
    | nil =>
      rw [hpop.1,hc] at hs
      cases hs
      rw [hc] at hpop
      refine ⟨c,?_,hself⟩
      have hstay : Sound (s.goto v .empty) c := h.stay .empty hv rfl
        rfl rfl rfl rfl (fun _ => rfl) rfl
      refine { hstay with tasks := ?_ }
      rw [hc]
      exact hpop.2
    | cons f rest =>
      rw [hpop.1,hc] at hs
      cases hs
      exact ⟨_,h.take hv hc,covers_move _ (.of_eq hc) (by rintro ⟨⟩)⟩
  next hv =>
    cases hs
    refine ⟨c,h.stay _ hv rfl rfl ?_ ?_ ?_ (fun hne => ?_) ?_,hself⟩
    · split <;> rfl
    · split <;> rfl
    · split <;> rfl
    · exact absurd rfl hne
    · split <;> rfl
  next f hv =>
    have hf : s.coro f = .stopped := by
      have hstatus := h.status v f (by rw [h.hand,hv]; exact List.mem_singleton_self f)
      rw [hstatus,hv]
      rfl
    rw [hf] at hs
    cases hs
    exact ⟨c,h.switch (.body f) hv rfl rfl rfl rfl rfl,hself⟩
  next => cases hs
  next f w hv =>
    cases hs
    obtain ⟨rest,hwalk,hvisit⟩ := h.visit hv
    exact ⟨_,hvisit,covers_move _ (.of_eq hwalk) (by rintro ⟨⟩)⟩
  next f w after hv =>
    rw [h.handleCall v w (by rw [hv]; rfl)] at hs
    cases hs
    exact ⟨c,h.release hv,hself⟩
  next f call after hv =>
    cases hs
    refine h.submit hv ?_
    rintro g rfl hshutdown
    refine Or.inr ⟨?_,hshutdown⟩
    simp only [Runtime.submits,hv]
  next f e hv =>
    split at hs
    next =>
      cases hs
      exact ⟨c,h.stay _ hv rfl rfl rfl rfl rfl (fun _ => rfl) rfl,
        hself⟩
    next hempty =>
      obtain ⟨w,rest,ho,hpopped⟩ := h.first (by simpa using hempty)
      rw [hpopped] at hs
      cases hs
      exact ⟨_,h.popWaiter hv ⟨rfl,rfl,rfl,rfl⟩ ⟨rfl,rfl⟩ ho,
        covers_move _ (.of_eq ho) (by rintro ⟨⟩)⟩
  next f hv =>
    cases hs
    have hhand : c (.hand v) = [f] := by
      rw [h.hand,hv]
      rfl
    exact ⟨_,h.delete hv,covers_keep (.of_eq hhand) (Or.inl ⟨v,rfl,hv⟩)⟩
  next => cases hs

/-- Each step carries the fibers, and loses those that are deleted or dropped. -/
theorem Sound.step {a : Action ω ι κ γ ε O} (h : Sound s c) (hs : step s a = some s') :
    ∃ c', Sound s' c' ∧ Covers c c' (s.loses a) := by
  cases a with
  | worker v => exact h.workerStep hs
  | op v op =>
    simp only [PoolFibers.step] at hs
    split at hs
    next f hv => exact h.perform hv hs _
    next => cases hs
  | go k f =>
    simp only [PoolFibers.step] at hs
    split at hs <;> cases hs
    next hk hf => exact ⟨_,h.goOutside hk hf,covers_insert _⟩
  | outside k =>
    simp only [PoolFibers.step] at hs
    split at hs <;> cases hs
    next call hk =>
      have hcall : c (.outside k) = [task call] := by
        rw [h.outside,hk]
        rfl
      cases call with
      | check g =>
        by_cases hshutdown : s.shutdown = true
        · simp only [Runtime.submit,if_pos hshutdown]
          exact ⟨_,h.dropOutside,covers_keep (.of_eq hcall) (Or.inr ⟨hk,hshutdown⟩)⟩
        · simp only [Runtime.submit,if_neg hshutdown]
          exact ⟨c,h.stayOutside (.add g) _ hk rfl,covers_self c _⟩
      | add g => exact ⟨c,h.stayOutside (.push g) s.accepted hk rfl,covers_self c _⟩
      | push g => exact ⟨_,h.pushOutside hk,covers_move _ (.of_eq hcall) (by rintro ⟨⟩)⟩
  | startShutdown =>
    cases hs
    exact ⟨c,{ h with },covers_self c _⟩

/-- The fibers are in their places in every run. -/
theorem sound_reachable (hr : (fibers ω ι κ γ ε O).Reachable s) : Sound s s.content := by
  have h : ∃ c, Sound s c := by
    refine System.Reachable.invariant ?_ ?_ hr
    · exact ⟨_,sound_initial⟩
    · rintro s a s' ⟨c,h⟩ hs
      obtain ⟨c',h',-⟩ := h.step hs
      exact ⟨c',h'⟩
  obtain ⟨c,h⟩ := h
  exact h.content ▸ h

end Steps

/-- In every run each fiber is in at most one place and at most once there: the
queue of the pool, the hands of one worker, one list of waiters, the waiters
that one Done has yet to visit, or one call of Schedule or Submit. A fiber that
a worker is about to resume is stopped, and a coroutine that runs is in the
hands of one worker. A handle that Schedule is about to release is valid. So no
assert fails and no coroutine is resumed that runs or has completed. -/
theorem fiber_in_one_place {s : Runtime ω ι κ γ ε O} (hr : (fibers ω ι κ γ ε O).Reachable s) :
    (∀ p q f, f ∈ s.content p → f ∈ s.content q → p = q) ∧
    (∀ p, (s.content p).Nodup) ∧
    (∀ v f, s.worker v = .resume f → s.coro f = .stopped) ∧
    (∀ v f w after, s.worker v = .schedule f w after → s.handle w = some w) ∧
    s.fault = false := by
  have h := sound_reachable hr
  refine ⟨h.exclusive.unique,h.exclusive.nodup,?_,?_,h.fault⟩
  · intro v f hv
    have hstatus := h.status v f (by rw [h.hand,hv]; exact List.mem_singleton_self f)
    rw [hstatus,hv]
    rfl
  · intro v f w after hv
    exact h.handleCall v w (by rw [hv]; rfl)

/-- A fiber locks a mutex and spawns a second one, which parks on the mutex on
another worker; the Unlock of the first brings it back to the queue, and the
other worker takes it again while the first still runs. -/
def handOverSchedule : List (Action Bool ℕ Unit Unit Unit Unit) :=
  [.go () 0,.outside (),.outside (),.outside (),.worker false,.worker false,
    .op false (.lock ()),.op false (.go 1),.worker false,.worker false,.worker false,
    .worker true,.worker true,.op true (.lock ()),.op false (.unlock ()),.worker false,
    .worker false,.worker false,.worker false,.worker true]

theorem fiber_in_one_place_handOver : ∃ s, (fibers Bool ℕ Unit Unit Unit Unit).Reachable s ∧
    s.worker false = .body 0 ∧ s.worker true = .resume 1 ∧ s.coro 1 = .stopped ∧
    (∀ p, 1 ∈ s.content p → p = .hand true) := by
  have hends : (fibers Bool ℕ Unit Unit Unit Unit).Ends (initial ..) handOverSchedule fun s =>
      s.worker false = .body 0 ∧ s.worker true = .resume 1 := by
    decide
  obtain ⟨s,hr,hfalse,htrue⟩ := System.Ends.reachable hends
  have hplaces := fiber_in_one_place hr
  refine ⟨s,hr,hfalse,htrue,hplaces.2.2.1 true 1 htrue,fun p hp => ?_⟩
  refine hplaces.1 p (.hand true) 1 hp ?_
  simp [Runtime.content,htrue,WorkerPc.hand]

end ConcurrencyRuntime.PoolFibers
