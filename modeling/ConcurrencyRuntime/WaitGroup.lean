import ConcurrencyRuntime.IntrusiveList
import ConcurrencyRuntime.TransitionSystem

/-!
# The wait group and the walk over its detached waiters

Each section under spinlock_ is one step, as the guards make it in the runs of
group_of_guards; the section of a Wait that parks ends after Park in
AwaitSuspend. The Done that brings the counter to zero pops the first waiter
and clears the header; then it walks the waiters by their next fields, outside
of any lock: a step that reads Next and a step that schedules, for each waiter.
A resumed fiber may call Wait again at once, on the same address.
-/

namespace ConcurrencyRuntime.WaitGroup

open TransitionSystem IntrusiveList LinkedPath

/-- Where a fiber stands. -/
inductive FiberPc (ι : Type*) where
  /-- Running outside of the wait group, or about to run a section. -/
  | outside
  /-- Suspended in Wait until a worker resumes it. -/
  | waiting
  /-- In Done, about to read Next of wg_waiter. The number of times that the
  counter had reached zero before is kept as history. -/
  | walking (wgWaiter : ι) (batch : ℕ)
  /-- In Done, about to schedule wg_waiter, with what Next returned. -/
  | scheduling (wgWaiter : ι) (next : Option ι) (batch : ℕ)
  deriving DecidableEq

/-- The wait group, its waiters, the pool and the history. A waiter lives on
the stack of its fiber and is addressed by it; each parked waiter has a number
of its own. -/
structure Group (ι : Type*) where
  /-- The counter, a 64-bit word. -/
  counter : ℕ
  /-- The header of the list of waiters. -/
  waiters : Header ι
  /-- The next field of each waiter. -/
  next : ι → Option ι
  /-- Where each fiber stands. -/
  fiber : ι → FiberPc ι
  /-- The queue of the pool. -/
  tasks : List ι
  /-- History: the number of waiters parked so far. -/
  parks : ℕ
  /-- History: the number of the last waiter of each fiber. -/
  ticket : ι → ℕ
  /-- History: the waiters parked since the counter was last zero. -/
  parked : List ℕ
  /-- History: for each time that a Done brought the counter to zero, the
  waiters parked at that moment. -/
  detached : List (List ℕ)
  /-- History: the waiters that each of these Done calls has scheduled. -/
  scheduled : ℕ → List ℕ
  /-- History: the counter was zero during the current Wait of the fiber. -/
  zeroSeen : ι → Bool
  /-- History: whether the counter was zero during each Wait that returned. -/
  returns : List Bool

/-- Scheduler choices. -/
inductive Action (ι : Type*) where
  /-- A fiber calls Add. -/
  | add (f : ι) (amount : ℕ)
  /-- A fiber runs the section of Done. -/
  | done (f : ι)
  /-- A fiber runs the section of Wait. -/
  | wait (f : ι)
  /-- A fiber in Done reads Next of a waiter. -/
  | walk (f : ι)
  /-- A fiber in Done schedules a waiter. -/
  | schedule (f : ι)
  /-- A worker takes the first task and resumes it. -/
  | resume

variable {ι : Type*} [DecidableEq ι]

/-- Write the counter, and record a zero for every Wait in progress. -/
def Group.setCounter {ι : Type*} (s : Group ι) (counter : ℕ) : Group ι :=
  { s with counter := counter, zeroSeen := fun f => s.zeroSeen f || counter == 0 }

/-- The section of Add. -/
def add {ι : Type*} (s : Group ι) (amount : ℕ) : Group ι :=
  s.setCounter ((s.counter + amount) % 2 ^ 64)

/-- Pop and Clear in the section of Done: its walk starts at what Pop
returned, if anything. -/
def Group.detach (s : Group ι) (f : ι) : Group ι :=
  { s with
    waiters := .clear
    fiber :=
      match s.waiters.popped with
      | some w => Function.update s.fiber f (.walking w s.detached.length)
      | none => s.fiber
    parked := []
    detached := s.detached ++ [s.parked] }

/-- The section of Done: a counter that reaches zero detaches the waiters. -/
def done (s : Group ι) (f : ι) : Group ι :=
  let counter := (s.counter + 2 ^ 64 - 1) % 2 ^ 64
  if counter = 0 then (s.setCounter counter).detach f else s.setCounter counter

/-- The section of Wait: a counter above zero parks a new waiter. -/
def wait (s : Group ι) (f : ι) : Group ι :=
  if 0 < s.counter then
    { s with
      waiters := s.waiters.push f
      next := s.waiters.pushLinks (Function.update s.next f none) f
      fiber := Function.update s.fiber f .waiting
      parks := s.parks + 1
      ticket := Function.update s.ticket f s.parks
      parked := s.parked ++ [s.parks]
      zeroSeen := Function.update s.zeroSeen f (s.counter == 0) }
  else { s with returns := s.returns ++ [s.counter == 0] }

/-- One scheduled step. -/
def step (s : Group ι) : Action ι → Option (Group ι)
  | .add f amount =>
    if s.fiber f = .outside then some (add s amount) else none
  | .done f => if s.fiber f = .outside then some (done s f) else none
  | .wait f => if s.fiber f = .outside then some (wait s f) else none
  | .walk f =>
    match s.fiber f with
    | .walking w b =>
      some { s with fiber := Function.update s.fiber f (.scheduling w (s.next w) b) }
    | _ => none
  | .schedule f =>
    match s.fiber f with
    | .scheduling w next b => some { s with
        tasks := s.tasks ++ [w]
        scheduled := Function.update s.scheduled b (s.scheduled b ++ [s.ticket w])
        fiber := Function.update s.fiber f
          (match next with
          | some m => .walking m b
          | none => .outside) }
    | _ => none
  | .resume =>
    match s.tasks with
    | w :: rest =>
      if s.fiber w = .waiting then some { s with
        tasks := rest
        fiber := Function.update s.fiber w .outside
        returns := s.returns ++ [s.zeroSeen w] }
      else none
    | [] => none

/-- A new wait group and fibers that have not used it. -/
def initial (ι : Type*) : Group ι :=
  ⟨0,.clear,fun _ => none,fun _ => .outside,[],0,fun _ => 0,[],[],fun _ => [],fun _ => false,[]⟩

/-- The wait group as a transition system. -/
def group (ι : Type*) [DecidableEq ι] : System (Group ι) (Action ι) :=
  ⟨initial ι,step⟩

/-- The callers' part: an Add does not overflow the counter, and the Done
calls do not exceed the amounts added. -/
def Proper {ι : Type*} (s : Group ι) : Action ι → Prop
  | .add _ amount => s.counter + amount < 2 ^ 64
  | .done _ => 0 < s.counter
  | _ => True

/-- The time of the counter at zero that a Done is walking for. -/
@[grind =]
def FiberPc.batch {ι : Type*} : FiberPc ι → Option ℕ
  | .walking _ b | .scheduling _ _ b => some b
  | .outside | .waiting => none

/-- The waiter that a fiber in Done is about to read. -/
@[grind =]
def FiberPc.reads {ι : Type*} : FiberPc ι → Option ι
  | .walking w _ | .scheduling w _ _ => some w
  | .outside | .waiting => none

/-- Where the waiter of a fiber is. -/
inductive Place (ι : Type*) where
  /-- The fiber has no waiter. -/
  | absent
  /-- In the list of the wait group. -/
  | list
  /-- Detached by a Done and not scheduled. -/
  | walk (g : ι)
  /-- Scheduled, its fiber in the queue of the pool. -/
  | pool

/-- Every waiter is in one place, the chains of the walkers are intact and
null-terminated, and the history agrees with them. -/
structure Grouped {ι : Type*} (s : Group ι) (ws : List ι) (rem : ι → List ι) (place : ι → Place ι) :
    Prop where
  holds : Holds s.next s.waiters ws
  ended : ∀ m ∈ ws.getLast?, s.next m = none
  inList : ∀ f, f ∈ ws ↔ place f = .list
  inWalk : ∀ f g, f ∈ rem g ↔ place f = .walk g
  inPool : ∀ f, f ∈ s.tasks ↔ place f = .pool
  waiting : ∀ f, s.fiber f = .waiting ↔ place f ≠ .absent
  tasks : s.tasks.Nodup
  /-- Before the read of Next the chain starts at the waiter. -/
  walking : ∀ g w b, s.fiber g = .walking w b → ∃ r, rem g = w :: r ∧ Path s.next w r
  /-- After it the rest of the chain starts at what was read. -/
  scheduling : ∀ g w n b, s.fiber g = .scheduling w n b → ∃ r, rem g = w :: r ∧ w ∉ r ∧
    match n with
    | some m => ∃ r', r = m :: r' ∧ Path s.next m r'
    | none => r = []
  others : ∀ g, (s.fiber g).batch = none → rem g = []
  zero : s.counter = 0 → ws = []
  seen : ∀ f, place f ≠ .absent → place f ≠ .list → s.zeroSeen f = true
  returns : ∀ b ∈ s.returns, b = true
  parked : s.parked = ws.map s.ticket
  order : s.detached.flatten ++ s.parked = List.range s.parks
  batch : ∀ g b, (s.fiber g).batch = some b →
    s.detached[b]? = some (s.scheduled b ++ (rem g).map s.ticket)
  batchUnique : ∀ g h b, (s.fiber g).batch = some b → (s.fiber h).batch = some b → g = h
  finished : ∀ b d, s.detached[b]? = some d → (∀ g, (s.fiber g).batch ≠ some b) → s.scheduled b = d
  fresh : ∀ b, s.detached.length ≤ b → s.scheduled b = []
  issued : ∀ f, place f ≠ .absent → s.ticket f < s.parks
  ticketInj : ∀ f g, place f ≠ .absent → place g ≠ .absent → s.ticket f = s.ticket g → f = g
  logged : ∀ b k, k ∈ s.scheduled b → k < s.parks
  /-- The number of a waiter that is not in the pool is in no log. -/
  unscheduled : ∀ f b, place f ≠ .absent → place f ≠ .pool → s.ticket f ∉ s.scheduled b

section Steps

variable {s s' : Group ι} {ws : List ι} {rem : ι → List ι} {place : ι → Place ι} {f : ι}

omit [DecidableEq ι] in
theorem grouped_initial : Grouped (initial ι) [] (fun _ => []) fun _ => .absent := by
  constructor <;> simp [initial,holds_clear,FiberPc.batch]

/-- Parking puts the fiber at the end of the list and touches no chain of a
walker. -/
theorem Grouped.wait (h : Grouped s ws rem place) (hf : s.fiber f = .outside) :
    ∃ ws' place', Grouped (wait s f) ws' rem place' := by
  have habs : place f = .absent := by
    by_contra hne
    rw [(h.waiting f).mpr hne] at hf
    cases hf
  have hout : f ∉ ws := by
    rw [h.inList,habs]
    rintro ⟨⟩
  have hrem : ∀ g, f ∉ rem g := by
    intro g
    rw [h.inWalk,habs]
    rintro ⟨⟩
  unfold WaitGroup.wait
  split
  next hc =>
    -- the walkers' chains avoid the new node and the node it is linked after
    have hsame : ∀ g, ∀ n ∈ rem g,
        s.waiters.pushLinks (Function.update s.next f none) f n = s.next n := by
      intro g n hn
      have hnf : n ≠ f := fun he => hrem g (he ▸ hn)
      have hnw : n ∉ ws := by
        rw [h.inList,(h.inWalk n g).mp hn]
        rintro ⟨⟩
      rw [(h.holds.write hout none).pushLinks_of_not_mem hnw,Function.update_of_ne hnf]
    have hlast : s.waiters.pushLinks (Function.update s.next f none) f f = none := by
      rw [(h.holds.write hout none).pushLinks_of_not_mem hout,Function.update_self]
    have hissued := h.issued
    have hlogged := h.logged
    have hne : ∀ n, place n ≠ .absent → n ≠ f := fun n hn he => hn (he ▸ habs)
    have hticket : ∀ n, place n ≠ .absent → Function.update s.ticket f s.parks n = s.ticket n :=
      fun n hn => Function.update_of_ne (hne n hn) ..
    have hmap : ∀ g, (rem g).map (Function.update s.ticket f s.parks) = (rem g).map s.ticket := by
      intro g
      refine List.map_congr_left fun n hn => hticket n ?_
      rw [(h.inWalk n g).mp hn]
      rintro ⟨⟩
    have hbatch : ∀ g, (Function.update s.fiber f .waiting g).batch = (s.fiber g).batch := by
      intro g
      rw [Function.update_apply]
      split
      next hg => simp [hg,hf,FiberPc.batch]
      next => rfl
    refine ⟨ws ++ [f],Function.update place f .list,{ h with
      holds := (h.holds.write hout none).push hout
      ended := by simp [hlast]
      inList := ?_
      inWalk := ?_
      inPool := ?_
      waiting := ?_
      walking := ?_
      scheduling := ?_
      others := ?_
      zero := ?_
      seen := ?_
      parked := ?_
      order := ?_
      batch := ?_
      batchUnique := ?_
      finished := ?_
      issued := ?_
      ticketInj := ?_
      logged := ?_
      unscheduled := ?_ }⟩
    · intro n
      simp only [List.mem_append,List.mem_singleton,Function.update_apply]
      grind [h.inList]
    · simp only [Function.update_apply]
      grind [h.inWalk]
    · simp only [Function.update_apply]
      grind [h.inPool]
    · simp only [Function.update_apply]
      grind [h.waiting]
    · intro g w b hg
      have hgf : g ≠ f := by
        rintro rfl
        simp at hg
      obtain ⟨r,hr,hp⟩ := h.walking g w b (by simpa [hgf] using hg)
      exact ⟨r,hr,path_congr hp fun n hn => hsame g n (hr ▸ hn)⟩
    · intro g w n b hg
      have hgf : g ≠ f := by
        rintro rfl
        simp at hg
      obtain ⟨r,hr,hw,hp⟩ := h.scheduling g w n b (by simpa [hgf] using hg)
      refine ⟨r,hr,hw,?_⟩
      cases n with
      | none => exact hp
      | some m =>
        obtain ⟨r',rfl,hp⟩ := hp
        exact ⟨r',rfl,path_congr hp fun k hk => hsame g k (hr ▸ List.mem_cons_of_mem _ hk)⟩
    · intro g hg
      exact h.others g (by rwa [←hbatch])
    · intro hz
      have hz : s.counter = 0 := hz
      omega
    · intro n hn hl
      by_cases hnf : n = f
      · simp [hnf] at hl
      · simpa [hnf] using h.seen n (by simpa [hnf] using hn) (by simpa [hnf] using hl)
    · have hws : ws.map (Function.update s.ticket f s.parks) = ws.map s.ticket := by
        refine List.map_congr_left fun n hn => hticket n ?_
        rw [(h.inList n).mp hn]
        rintro ⟨⟩
      simp [hws,h.parked]
    · rw [List.range_succ,←h.order,List.append_assoc]
    · intro g b hg
      rw [hbatch] at hg
      rw [hmap]
      exact h.batch g b hg
    · intro g g' b hg hg'
      rw [hbatch] at hg hg'
      exact h.batchUnique g g' b hg hg'
    · intro b d hb hno
      exact h.finished b d hb fun g => by rw [←hbatch]; exact hno g
    · simp only [Function.update_apply]
      grind
    · simp only [Function.update_apply]
      grind [h.ticketInj]
    · intro b k hk
      exact Nat.lt_succ_of_lt (hlogged b k hk)
    · simp only [Function.update_apply]
      grind [h.unscheduled]
  next hc =>
    refine ⟨ws,place,{ h with returns := ?_ }⟩
    have hz : s.counter = 0 := by omega
    simpa [hz] using h.returns

omit [DecidableEq ι] in
/-- A counter that does not reach zero over parked waiters changes nothing
else. -/
theorem Grouped.setCounter (h : Grouped s ws rem place) {c : ℕ} (hz : c = 0 → ws = []) :
    Grouped (s.setCounter c) ws rem place :=
  { h with
    zero := hz
    seen := fun f hf hl => by simp [Group.setCounter,h.seen f hf hl] }

omit [DecidableEq ι] in
/-- An Add that does not overflow reaches zero from zero only. -/
theorem Grouped.add {amount : ℕ} (h : Grouped s ws rem place) (hlt : s.counter + amount < 2 ^ 64) :
    Grouped (add s amount) ws rem place := by
  refine h.setCounter ?_
  rw [Nat.mod_eq_of_lt hlt]
  exact fun hc => h.zero (by omega)

/-- A counter that reaches zero hands the whole list to the Done, which walks
it from its first node. -/
theorem Grouped.detach (h : Grouped s ws rem place) (hf : s.fiber f = .outside) :
    ∃ rem' place', Grouped ((s.setCounter 0).detach f) [] rem' place' := by
  have hremf : rem f = [] := h.others f (by simp [hf,FiberPc.batch])
  unfold Group.detach Group.setCounter
  dsimp only
  rw [h.holds.pop.1]
  cases ws with
  | nil =>
    have hpk : s.parked = [] := h.parked
    refine ⟨rem,place,{ h with
      holds := holds_clear
      zero := fun _ => rfl
      seen := fun f _ _ => by simp
      parked := rfl
      order := by simpa [hpk] using h.order
      batch := ?_
      finished := ?_
      fresh := ?_ }⟩
    · intro g b hb
      have hold := h.batch g b hb
      grind
    · intro b d hd hno
      have hold := fun hb => h.finished b d hb hno
      have hnew := h.fresh b
      simp only [hpk] at hd
      grind
    · intro b hb
      exact h.fresh b (by simp at hb; omega)
  | cons w rest =>
    have hpath := h.holds.path h.ended
    refine ⟨Function.update rem f (w :: rest),
      fun n => if n ∈ w :: rest then .walk f else place n,{ h with
      holds := holds_clear
      ended := by rintro _ ⟨⟩
      inList := ?_
      inWalk := ?_
      inPool := ?_
      waiting := ?_
      walking := ?_
      scheduling := ?_
      others := ?_
      zero := fun _ => rfl
      seen := fun f _ _ => by simp
      parked := rfl
      order := by simpa using h.order
      batch := ?_
      batchUnique := ?_
      finished := ?_
      fresh := ?_
      issued := ?_
      ticketInj := ?_
      unscheduled := ?_ }⟩
    · grind [h.inList]
    · intro n g
      have hwalk := h.inWalk n g
      have hwalkf := h.inWalk n f
      simp only [hremf,Function.update_apply] at hwalkf ⊢
      grind [h.inList]
    · grind [h.inList,h.inPool]
    · simp only [List.head?_cons,Function.update_apply]
      grind [h.inList,h.waiting]
    · intro g v b hg
      by_cases hgf : g = f
      · subst hgf
        simp only [List.head?_cons,Function.update_self,FiberPc.walking.injEq] at hg
        exact ⟨rest,by simp [hg.1],hg.1 ▸ hpath⟩
      · have hg' : s.fiber g = .walking v b := by simpa [hgf] using hg
        simpa [hgf] using h.walking g v b hg'
    · intro g v n b hg
      have hgf : g ≠ f := by
        rintro rfl
        simp at hg
      have hg' : s.fiber g = .scheduling v n b := by simpa [hgf] using hg
      simpa [hgf] using h.scheduling g v n b hg'
    · simp only [List.head?_cons,Function.update_apply]
      grind [h.others]
    · simp only [List.head?_cons,Function.update_apply]
      intro g b hg
      have hold := h.batch g b
      have hnew := h.fresh b
      have hpk := h.parked
      grind
    · simp only [List.head?_cons,Function.update_apply]
      intro g g' b hg hg'
      have hold := h.batchUnique g g' b
      have hb := h.batch g b
      have hb' := h.batch g' b
      grind
    · simp only [List.head?_cons,Function.update_apply]
      intro b d hd hno
      have hold := h.finished b d
      have hf' := hno f
      grind
    · intro b hb
      exact h.fresh b (by simp at hb; omega)
    · have hissued := h.issued
      grind [h.inList]
    · grind [h.inList,h.ticketInj]
    · grind [h.inList,h.unscheduled]

/-- The section of Done keeps the waiters grouped. -/
theorem Grouped.done (h : Grouped s ws rem place) (hf : s.fiber f = .outside) :
    ∃ ws' rem' place', Grouped (done s f) ws' rem' place' := by
  simp only [WaitGroup.done]
  split
  next hz =>
    rw [hz]
    exact ⟨[],h.detach hf⟩
  next hz => exact ⟨ws,rem,place,h.setCounter fun hc => absurd hc hz⟩

/-- The read of Next finds the next waiter of the chain. -/
theorem Grouped.walk {w : ι} {b : ℕ} (h : Grouped s ws rem place) (hf : s.fiber f = .walking w b) :
    Grouped { s with fiber := Function.update s.fiber f (.scheduling w (s.next w) b) } ws rem place := by
  obtain ⟨r,hr,hp⟩ := h.walking f w b hf
  have hbatch : ∀ g, (Function.update s.fiber f (.scheduling w (s.next w) b) g).batch =
      (s.fiber g).batch := by
    intro g
    rw [Function.update_apply]
    split
    next hg => simp [hg,hf,FiberPc.batch]
    next => rfl
  refine { h with
    waiting := ?_
    walking := ?_
    scheduling := ?_
    others := ?_
    batch := ?_
    batchUnique := ?_
    finished := ?_ }
  · simp only [Function.update_apply]
    grind [h.waiting]
  · intro g v c hg
    have hgf : g ≠ f := by
      rintro rfl
      simp at hg
    exact h.walking g v c (by simpa [hgf] using hg)
  · intro g v n c hg
    by_cases hgf : g = f
    · subst hgf
      simp only [Function.update_self,FiberPc.scheduling.injEq] at hg
      obtain ⟨rfl,rfl,rfl⟩ := hg
      refine ⟨r,hr,(List.nodup_cons.mp (path_nodup hp)).1,?_⟩
      cases r with
      | nil =>
        have hn : s.next w = none := hp
        simp [hn]
      | cons m r' => simpa [hp.1] using hp.2
    · exact h.scheduling g v n c (by simpa [hgf] using hg)
  · intro g hg
    exact h.others g (by rwa [←hbatch])
  · intro g c hg
    exact h.batch g c (by rwa [←hbatch])
  · intro g g' c hg hg'
    exact h.batchUnique g g' c (by rwa [←hbatch]) (by rwa [←hbatch])
  · intro c d hc hno
    exact h.finished c d hc fun g => by rw [←hbatch]; exact hno g

/-- Schedule moves the waiter from the chain into the pool. -/
theorem Grouped.schedule {w : ι} {n : Option ι} {b : ℕ} (h : Grouped s ws rem place)
    (hf : s.fiber f = .scheduling w n b) :
    ∃ rem' place', Grouped { s with
      tasks := s.tasks ++ [w]
      scheduled := Function.update s.scheduled b (s.scheduled b ++ [s.ticket w])
      fiber := Function.update s.fiber f
        (match n with
        | some m => .walking m b
        | none => .outside) } ws rem' place' := by
  obtain ⟨r,hr,hwr,hn⟩ := h.scheduling f w n b hf
  have hw : place w = .walk f := (h.inWalk w f).mp (by simp [hr])
  have hbf : (s.fiber f).batch = some b := by simp [hf,FiberPc.batch]
  have hother : ∀ g, g ≠ f → (s.fiber g).batch ≠ some b :=
    fun g hg hb => hg (h.batchUnique g f b hb hbf)
  have hlog : s.detached[b]? = some (s.scheduled b ++ s.ticket w :: r.map s.ticket) := by
    simpa [hr] using h.batch f b hbf
  have hkeep : ∀ g c, (Function.update s.fiber f
      (match n with
      | some m => .walking m b
      | none => .outside) g).batch = some c → (s.fiber g).batch = some c := by
    intro g c hg
    by_cases hgf : g = f
    · subst hgf
      cases n <;> simp_all [FiberPc.batch]
    · simpa [hgf] using hg
  have hlogged := h.logged
  have hissued := h.issued
  refine ⟨Function.update rem f r,Function.update place w .pool,{ h with
    inList := ?_
    inWalk := ?_
    inPool := ?_
    waiting := ?_
    tasks := ?_
    walking := ?_
    scheduling := ?_
    others := ?_
    seen := ?_
    batch := ?_
    batchUnique := ?_
    finished := ?_
    fresh := ?_
    issued := ?_
    ticketInj := ?_
    logged := ?_
    unscheduled := ?_ }⟩
  · simp only [Function.update_apply]
    grind [h.inList]
  · intro v g
    have hvg := h.inWalk v g
    have hvf := h.inWalk v f
    simp only [Function.update_apply]
    grind
  · simp only [Function.update_apply]
    grind [h.inPool]
  · simp only [Function.update_apply]
    grind [h.waiting]
  · have hnot : w ∉ s.tasks := by
      rw [h.inPool,hw]
      rintro ⟨⟩
    grind [h.tasks]
  · intro g v c hg
    by_cases hgf : g = f
    · subst hgf
      cases n with
      | none => simp at hg
      | some m =>
        simp only [Function.update_self,FiberPc.walking.injEq] at hg
        obtain ⟨rfl,rfl⟩ := hg
        obtain ⟨r',rfl,hp⟩ := hn
        exact ⟨r',by simp,hp⟩
    · simpa [hgf] using h.walking g v c (by simpa [hgf] using hg)
  · intro g v k c hg
    have hgf : g ≠ f := by
      rintro rfl
      cases n <;> simp at hg
    simpa [hgf] using h.scheduling g v k c (by simpa [hgf] using hg)
  · intro g hg
    by_cases hgf : g = f
    · subst hgf
      cases n with
      | none => simpa using hn
      | some m => simp [FiberPc.batch] at hg
    · simpa [hgf] using h.others g (by simpa [hgf] using hg)
  · simp only [Function.update_apply]
    grind [h.seen]
  · intro g c hg
    by_cases hgf : g = f
    · subst hgf
      have hc : c = b := by cases n <;> simp_all [FiberPc.batch]
      subst hc
      simp [hlog]
    · have hg : (s.fiber g).batch = some c := by simpa [hgf] using hg
      have hcb : c ≠ b := fun he => hother g hgf (he ▸ hg)
      simpa [hgf,hcb] using h.batch g c hg
  · intro g g' c hg hg'
    exact h.batchUnique g g' c (hkeep g c hg) (hkeep g' c hg')
  · intro c d hc hno
    by_cases hcb : c = b
    · subst hcb
      cases n with
      | none =>
        rw [hn] at hlog
        simpa [hlog] using hc
      | some m => exact absurd (by simp [FiberPc.batch]) (hno f)
    · have hold : ∀ g, (s.fiber g).batch ≠ some c := by
        intro g hg
        by_cases hgf : g = f
        · rw [hgf,hbf] at hg
          exact hcb (Option.some.inj hg).symm
        · exact hno g (by simpa [hgf] using hg)
      simpa [hcb] using h.finished c d hc hold
  · intro c hc
    have hcb : c ≠ b := by
      rintro rfl
      have hlt := (List.getElem?_eq_some_iff.mp hlog).1
      have hle : s.detached.length ≤ c := hc
      omega
    simpa [hcb] using h.fresh c hc
  · simp only [Function.update_apply]
    grind
  · simp only [Function.update_apply]
    grind [h.ticketInj]
  · simp only [Function.update_apply]
    grind
  · simp only [Function.update_apply]
    grind [h.unscheduled,h.ticketInj]

/-- A resumed fiber leaves Wait, and its waiter is gone. -/
theorem Grouped.resume {w : ι} {rest : List ι} (h : Grouped s ws rem place)
    (ht : s.tasks = w :: rest) :
    ∃ place', Grouped { s with
      tasks := rest
      fiber := Function.update s.fiber w .outside
      returns := s.returns ++ [s.zeroSeen w] } ws rem place' := by
  have hw : place w = .pool := (h.inPool w).mp (by simp [ht])
  have hfw : s.fiber w = .waiting := (h.waiting w).mpr (by simp [hw])
  have hnd := h.tasks
  rw [ht] at hnd
  have hbatch : ∀ g, (Function.update s.fiber w .outside g).batch = (s.fiber g).batch := by
    intro g
    rw [Function.update_apply]
    split
    next hg => simp [hg,hfw,FiberPc.batch]
    next => rfl
  have hissued := h.issued
  refine ⟨Function.update place w .absent,{ h with
    inList := ?_
    inWalk := ?_
    inPool := ?_
    waiting := ?_
    tasks := hnd.tail
    walking := ?_
    scheduling := ?_
    others := ?_
    seen := ?_
    returns := ?_
    batch := ?_
    batchUnique := ?_
    finished := ?_
    issued := ?_
    ticketInj := ?_
    unscheduled := ?_ }⟩
  · simp only [Function.update_apply]
    grind [h.inList]
  · simp only [Function.update_apply]
    grind [h.inWalk]
  · simp only [Function.update_apply]
    grind [h.inPool]
  · simp only [Function.update_apply]
    grind [h.waiting]
  · intro g v c hg
    refine h.walking g v c ?_
    simp only [Function.update_apply] at hg
    grind
  · intro g v n c hg
    refine h.scheduling g v n c ?_
    simp only [Function.update_apply] at hg
    grind
  · intro g hg
    exact h.others g (by rwa [←hbatch])
  · simp only [Function.update_apply]
    grind [h.seen]
  · have hseen := h.seen w (by simp [hw]) (by simp [hw])
    grind [h.returns]
  · intro g c hg
    exact h.batch g c (by rwa [←hbatch])
  · intro g g' c hg hg'
    exact h.batchUnique g g' c (by rwa [←hbatch]) (by rwa [←hbatch])
  · intro c d hc hno
    exact h.finished c d hc fun g => by rw [←hbatch]; exact hno g
  · simp only [Function.update_apply]
    grind
  · simp only [Function.update_apply]
    grind [h.ticketInj]
  · simp only [Function.update_apply]
    grind [h.unscheduled]

/-- Every proper step keeps the waiters grouped. -/
theorem grouped_step {a : Action ι} (h : Grouped s ws rem place) (ha : Proper s a)
    (hs : step s a = some s') : ∃ ws' rem' place', Grouped s' ws' rem' place' := by
  cases a with
  | add f amount =>
    simp only [step,Option.ite_none_right_eq_some,Option.some.injEq] at hs
    obtain ⟨-,rfl⟩ := hs
    exact ⟨ws,rem,place,h.add ha⟩
  | done f =>
    simp only [step,Option.ite_none_right_eq_some,Option.some.injEq] at hs
    obtain ⟨hf,rfl⟩ := hs
    exact h.done hf
  | wait f =>
    simp only [step] at hs
    split at hs <;> cases hs
    next hf =>
      obtain ⟨ws',place',h'⟩ := h.wait hf
      exact ⟨ws',rem,place',h'⟩
  | walk f =>
    simp only [step] at hs
    split at hs <;> cases hs
    next w b hf => exact ⟨ws,rem,place,h.walk hf⟩
  | schedule f =>
    simp only [step] at hs
    split at hs <;> cases hs
    next w n b hf => exact ⟨ws,h.schedule hf⟩
  | resume =>
    simp only [step] at hs
    split at hs
    next w rest ht =>
      split at hs <;> cases hs
      exact ⟨ws,rem,h.resume ht⟩
    next => cases hs

/-- The waiters of every properly used wait group are grouped. -/
theorem grouped_reachable (hr : (group ι).ReachableUnder Proper s) :
    ∃ ws rem place, Grouped s ws rem place := by
  refine System.ReachableUnder.invariant ?_ ?_ hr
  · exact ⟨[],fun _ => [],fun _ => .absent,grouped_initial⟩
  · rintro s a s' - ⟨ws,rem,place,h⟩ ha hs
    exact grouped_step h ha hs

end Steps

/-- The waiters are woken once each, in order, and only at zero. -/
structure WakesOnce {ι : Type*} (s : Group ι) : Prop where
  /-- Nobody is parked at zero. -/
  parked_positive : s.waiters.isEmpty = false → 0 < s.counter
  /-- Every Wait that returned had the counter at zero during the call. -/
  returned_zero : ∀ b ∈ s.returns, b = true
  /-- The list holds the waiters parked since the counter was last zero. -/
  in_list : ∃ ws, Holds s.next s.waiters ws ∧ s.parked = ws.map s.ticket ∧
    ∀ f ∈ ws, s.fiber f = .waiting
  /-- Each parked waiter belongs to one time that the counter reached zero,
  or is still parked; all in the order of parking. -/
  in_order : s.detached.flatten ++ s.parked = List.range s.parks
  /-- A Done has scheduled a first part of the waiters parked when it brought
  the counter to zero, in their order, -/
  scheduled_front : ∀ b d, s.detached[b]? = some d → s.scheduled b <+: d
  /-- and all of them once it has finished. -/
  scheduled_all : ∀ b d, s.detached[b]? = some d → (∀ g, (s.fiber g).batch ≠ some b) →
    s.scheduled b = d
  /-- A Done only reads waiters that exist and that nobody has scheduled. -/
  reads_unscheduled : ∀ g w, (s.fiber g).reads = some w →
    s.fiber w = .waiting ∧ ∀ b, s.ticket w ∉ s.scheduled b
  /-- The queue of the pool holds the waiters that were scheduled and are not resumed,
  each once. -/
  scheduled_pooled : s.tasks.Nodup ∧
    ∀ f, f ∈ s.tasks ↔ s.fiber f = .waiting ∧ ∃ b, s.ticket f ∈ s.scheduled b

omit [DecidableEq ι] in
/-- A waiter in the queue of the pool was scheduled by the Done that detached it. -/
theorem Grouped.scheduled_of_pool {s : Group ι} {ws : List ι} {rem : ι → List ι}
    {place : ι → Place ι} {f : ι} (h : Grouped s ws rem place) (hf : place f = .pool) :
    ∃ b, s.ticket f ∈ s.scheduled b := by
  have habsent : place f ≠ .absent := by
    rw [hf]
    rintro ⟨⟩
  have hticket : s.ticket f ∈ s.detached.flatten ++ s.parked := by
    rw [h.order,List.mem_range]
    exact h.issued f habsent
  have hsame : ∀ g, place g ≠ .absent → s.ticket g = s.ticket f → place g = .pool := by
    intro g hg hticket
    rw [h.ticketInj g f hg habsent hticket,hf]
  rcases List.mem_append.mp hticket with hmem | hmem
  · obtain ⟨d,hd,hmem⟩ := List.mem_flatten.mp hmem
    obtain ⟨b,hb⟩ := List.mem_iff_getElem?.mp hd
    refine ⟨b,?_⟩
    by_cases hex : ∃ g, (s.fiber g).batch = some b
    · obtain ⟨g,hg⟩ := hex
      obtain rfl := Option.some.inj (hb.symm.trans (h.batch g b hg))
      refine (List.mem_append.mp hmem).resolve_right fun hrem => ?_
      obtain ⟨w,hw,hticket⟩ := List.mem_map.mp hrem
      have hwalk := (h.inWalk w g).mp hw
      rw [hsame w (by rw [hwalk]; rintro ⟨⟩) hticket] at hwalk
      cases hwalk
    · rw [h.finished b d hb fun g hg => hex ⟨g,hg⟩]
      exact hmem
  · rw [h.parked] at hmem
    obtain ⟨g,hg,hticket⟩ := List.mem_map.mp hmem
    have hlist := (h.inList g).mp hg
    rw [hsame g (by rw [hlist]; rintro ⟨⟩) hticket] at hlist
    cases hlist

/-- For every order of Add, Done and Wait by any number of fibers. -/
theorem group_wakes_once {s : Group ι} (hr : (group ι).ReachableUnder Proper s) : WakesOnce s := by
  obtain ⟨ws,rem,place,h⟩ := grouped_reachable hr
  have hwalk : ∀ g w, (s.fiber g).reads = some w → place w = .walk g := by
    intro g w hg
    rw [←h.inWalk]
    cases hp : s.fiber g with
    | outside | waiting => simp [hp,FiberPc.reads] at hg
    | walking v b =>
      obtain ⟨r,hr,-⟩ := h.walking g v b hp
      simp_all [FiberPc.reads]
    | scheduling v n b =>
      obtain ⟨r,hr,-⟩ := h.scheduling g v n b hp
      simp_all [FiberPc.reads]
  refine ⟨?_,h.returns,⟨ws,h.holds,h.parked,?_⟩,h.order,?_,h.finished,?_,h.tasks,?_⟩
  · intro he
    rw [h.holds.isEmpty] at he
    by_contra hc
    rw [h.zero (by omega)] at he
    cases he
  · intro f hf
    rw [h.waiting,(h.inList f).mp hf]
    rintro ⟨⟩
  · intro b d hb
    by_cases hex : ∃ g, (s.fiber g).batch = some b
    · obtain ⟨g,hg⟩ := hex
      have hd := hb.symm.trans (h.batch g b hg)
      rw [Option.some.inj hd]
      exact List.prefix_append ..
    · have hall := h.finished b d hb fun g hg => hex ⟨g,hg⟩
      exact hall ▸ List.prefix_rfl
  · intro g w hg
    have hw := hwalk g w hg
    exact ⟨by rw [h.waiting,hw]; rintro ⟨⟩,fun b => h.unscheduled w b (by simp [hw]) (by simp [hw])⟩
  · intro f
    rw [h.inPool,h.waiting]
    constructor
    · intro hf
      exact ⟨by rw [hf]; rintro ⟨⟩,h.scheduled_of_pool hf⟩
    · rintro ⟨hplace,b,hb⟩
      by_contra hpool
      exact h.unscheduled f b hplace hpool hb

instance {ι : Type*} (s : Group ι) : ∀ a, Decidable (Proper s a)
  | .add _ amount => inferInstanceAs (Decidable (s.counter + amount < 2 ^ 64))
  | .done _ => inferInstanceAs (Decidable (0 < s.counter))
  | .wait _ | .walk _ | .schedule _ | .resume => isTrue trivial

/-- Fiber 3 brings the counter to zero over two waiters and schedules the
first, which is resumed and waits again on the re-armed group while fiber 3
still walks. -/
theorem group_wakes_once_rearmed :
    ∃ s, (group (Fin 4)).ReachableUnder Proper s ∧
      (s.detached = [[0,1]] ∧ s.scheduled 0 = [0] ∧ s.parked = [2] ∧ s.fiber 3 = .walking 2 0) ∧
      WakesOnce s := by
  have hrun : (group (Fin 4)).Ends (initial (Fin 4))
      [.add 3 1,.wait 1,.wait 2,.done 3,.walk 3,.schedule 3,.resume,.add 0 1,.wait 1]
      fun s => s.detached = [[0,1]] ∧ s.scheduled 0 = [0] ∧ s.parked = [2] ∧
        s.fiber 3 = .walking 2 0 := by decide
  have hmeets : (group (Fin 4)).Meets Proper (initial (Fin 4))
      [.add 3 1,.wait 1,.wait 2,.done 3,.walk 3,.schedule 3,.resume,.add 0 1,.wait 1] := by decide
  obtain ⟨s,hr,hend⟩ := hrun.reachableUnder hmeets
  exact ⟨s,hr,hend,group_wakes_once hr⟩

end ConcurrencyRuntime.WaitGroup
