import ConcurrencyRuntime.ConditionVariable
import ConcurrencyRuntime.TransitionSystem

/-!
# The unbounded blocking queue

Put tests the close flag before it takes the mutex; Take and Close work under
it. One step is one load of the flag outside the mutex, one section under the
mutex, or the notification that Take sends after unlocking. A section ends in
wait as it ends in unlock, so the mutex is free between the steps.
-/

namespace ConcurrencyRuntime.BlockingQueue

open TransitionSystem ConditionVariable

/-- Where a thread is. -/
inductive Pc (V : Type*) where
  /-- In no call. -/
  | idle
  /-- Put is called, before the load of close_. -/
  | put (value : V)
  /-- Put has read false, before its section. -/
  | putting (value : V)
  /-- Take is called, before its section. -/
  | take
  /-- Take is in wait. -/
  | waiting
  /-- Take has unlocked with its result, before notify_one. -/
  | notifying (result : Option V)
  deriving DecidableEq

/-- The queue, its threads and the history of its calls. -/
structure State (T V : Type*) where
  /-- The queued values, oldest first. -/
  data : List V
  /-- The close_ flag. -/
  close : Bool
  /-- The empty_data_ condition variable. -/
  emptyData : CondVar T
  /-- The program point of each thread. -/
  thread : T → Pc V
  /-- Values in the order of the pushes. -/
  pushed : List V
  /-- The threads and the results of the calls of Take, in the order in which they
  unlocked. -/
  results : List (T × Option V)
  /-- What the calls of Take of each thread have returned. -/
  returned : T → List (Option V)
  /-- Some Take has returned nullopt. -/
  ended : Bool
  /-- Values pushed by a Put that returned true after that. -/
  late : List V

/-- The steps of the threads; a notification names the sleeper it takes. -/
inductive Action (T V : Type*) where
  /-- Put is called. -/
  | callPut (t : T) (value : V)
  /-- Put loads close_. -/
  | loadClose (t : T)
  /-- The section of Put. -/
  | push (t : T) (woken : Option T)
  /-- Take is called. -/
  | callTake (t : T)
  /-- A section of Take, up to wait or unlock. -/
  | check (t : T)
  /-- The notification of Take, and its return. -/
  | notify (t : T) (woken : Option T)
  /-- The section of Close. -/
  | close (t : T)
  /-- A sleeper wakes up without a notification. -/
  | wake (t : T)

variable {T V : Type*} [DecidableEq T]

/-- Move a thread to a program point. -/
def State.goto (s : State T V) (t : T) (pc : Pc V) : State T V :=
  { s with thread := Function.update s.thread t pc }

/-- The section of Put, which returns true. -/
def State.put (s : State T V) (t : T) (value : V) (c : CondVar T) : State T V :=
  { s with
    data := s.data ++ [value]
    pushed := s.pushed ++ [value]
    late := if s.ended then s.late ++ [value] else s.late
    emptyData := c }.goto t .idle

/-- Take unlocks with its result and leaves the rest of the queue. -/
def State.unlock (s : State T V) (t : T) (result : Option V) (rest : List V) : State T V :=
  { s with
    data := rest
    results := s.results ++ [(t,result)]
    emptyData := s.emptyData.resume t }.goto t (.notifying result)

/-- A section of Take: wait while the queue is empty and open, else take the
front if there is one. -/
def State.check (s : State T V) (t : T) : State T V :=
  match s.data, s.close with
  | [], false => { s with emptyData := (s.emptyData.resume t).wait t }.goto t .waiting
  | [], true => s.unlock t none []
  | value :: rest, _ => s.unlock t (some value) rest

/-- One step of the queue. -/
def step (s : State T V) : Action T V → Option (State T V)
  | .callPut t value =>
    match s.thread t with
    | .idle => some (s.goto t (.put value))
    | _ => none
  | .loadClose t =>
    match s.thread t with
    | .put value => some (s.goto t (if s.close then .idle else .putting value))
    | _ => none
  | .push t woken =>
    match s.thread t with
    | .putting value => (s.emptyData.notifyOne woken).map (s.put t value)
    | _ => none
  | .callTake t =>
    match s.thread t with
    | .idle => some (s.goto t .take)
    | _ => none
  | .check t =>
    match s.thread t with
    | .take => some (s.check t)
    | .waiting => if t ∈ s.emptyData.asleep then none else some (s.check t)
    | _ => none
  | .notify t woken =>
    match s.thread t with
    | .notifying result =>
      (s.emptyData.notifyOne woken).map fun c =>
        { s with
          emptyData := c
          returned := Function.update s.returned t (s.returned t ++ [result])
          ended := s.ended || result.isNone }.goto t .idle
    | _ => none
  | .close t =>
    match s.thread t with
    | .idle => some { s with close := true, emptyData := s.emptyData.notifyAll }
    | _ => none
  | .wake t =>
    if t ∈ s.emptyData.asleep then some { s with emptyData := s.emptyData.wake t } else none

/-- An open and empty queue. -/
def initial (T V : Type*) : State T V :=
  ⟨[],false,CondVar.new T,fun _ => .idle,[],[],fun _ => [],false,[]⟩

/-- The queue under all interleavings. -/
def system (T V : Type*) [DecidableEq T] : System (State T V) (Action T V) := ⟨initial T V,step⟩

/-- The values that the calls of Take have taken, in the order in which they unlocked. -/
def State.taken {T V : Type*} (s : State T V) : List V := s.results.filterMap Prod.snd

/-- The results of the calls of one thread. -/
def State.resultsOf (s : State T V) (t : T) : List (Option V) :=
  (s.results.filter fun r => r.1 = t).map Prod.snd

/-- The result with which Take has unlocked, until it returns it. -/
def Pc.result {V : Type*} : Pc V → List (Option V)
  | .notifying result => [result]
  | _ => []

/-- The queue is in order, and a sleeper has nothing to do: what is queued is
left to consumers that were notified before. -/
structure Served (s : State T V) : Prop where
  order : s.taken ++ s.data = s.pushed
  waiting : ∀ t, t ∈ s.emptyData.asleep ++ s.emptyData.notified → s.thread t = .waiting
  asleep : s.emptyData.asleep ≠ [] →
    s.close = false ∧ s.data.length ≤ s.emptyData.notified.length

section Steps

variable {s s' : State T V} {t : T} {pc : Pc V} {c : CondVar T} {woken : Option T}

omit [DecidableEq T] in
theorem served_initial : Served (initial T V) :=
  ⟨rfl,by rintro _ ⟨⟩,fun h => absurd rfl h⟩

/-- A thread outside of wait moves on. -/
theorem Served.goto (h : Served s) (ht : s.thread t ≠ .waiting) : Served (s.goto t pc) := by
  refine { h with waiting := ?_ }
  intro u hu
  have hne : u ≠ t := by
    rintro rfl
    exact ht (h.waiting u hu)
  exact (Function.update_of_ne hne ..).trans (h.waiting u hu)

/-- A notification alone. -/
theorem Served.notified (h : Served s) (hc : s.emptyData.notifyOne woken = some c) :
    Served { s with emptyData := c } := by
  refine { h with waiting := ?_, asleep := ?_ }
  · intro u hu
    exact h.waiting u ((CondVar.notifyOne_mem hc).mp hu)
  · intro hne
    rcases CondVar.notifyOne_cases hc with ⟨-,-,rfl⟩ | ⟨u,-,hmem,-,hnotified⟩
    · exact h.asleep hne
    · obtain ⟨hopen,hlen⟩ := h.asleep (List.ne_nil_of_mem hmem)
      refine ⟨hopen,?_⟩
      simp only [hnotified,List.length_cons]
      omega

/-- The section of Put: the new value and the notified consumer come together. -/
theorem Served.put {value : V} (h : Served s) (ht : s.thread t = .putting value)
    (hc : s.emptyData.notifyOne woken = some c) : Served (s.put t value c) := by
  have hnotified := h.notified hc
  refine Served.goto ⟨?_,hnotified.waiting,?_⟩ (by simp only [ht]; rintro ⟨⟩)
  · show s.taken ++ (s.data ++ [value]) = s.pushed ++ [value]
    rw [←List.append_assoc,h.order]
  · intro hne
    rcases CondVar.notifyOne_cases hc with ⟨-,hnone,rfl⟩ | ⟨u,-,hmem,-,hlist⟩
    · exact absurd hnone hne
    · obtain ⟨hopen,hlen⟩ := h.asleep (List.ne_nil_of_mem hmem)
      refine ⟨hopen,?_⟩
      simp only [hlist,List.length_cons,List.length_append,List.length_nil]
      omega

/-- The thread of a section is not inside wait any more. -/
theorem Served.resumed (h : Served s) (ht : t ∉ s.emptyData.asleep) (u : T)
    (hu : u ∈ (s.emptyData.resume t).asleep ++ (s.emptyData.resume t).notified) :
    u ≠ t ∧ s.thread u = .waiting := by
  have hnodup := (List.nodup_append.mp s.emptyData.nodup).2.1
  simp only [CondVar.resume,List.mem_append] at hu
  refine ⟨?_,h.waiting u ?_⟩
  · rintro rfl
    rcases hu with hu | hu
    · exact ht hu
    · exact (List.Nodup.mem_erase_iff hnodup).mp hu |>.1 rfl
  · exact List.mem_append.mpr (hu.imp_right List.mem_of_mem_erase)

/-- A section of Take. -/
theorem Served.check (h : Served s) (ht : t ∉ s.emptyData.asleep) : Served (s.check t) := by
  have hresumed := h.resumed ht
  have hnotified : s.emptyData.notified.length ≤ (s.emptyData.resume t).notified.length + 1 := by
    simp only [CondVar.resume,List.length_erase]
    split <;> omega
  have hgoto : ∀ u pc, u ∈ (s.emptyData.resume t).asleep ++ (s.emptyData.resume t).notified →
      Function.update s.thread t pc u = .waiting := by
    intro u pc hu
    exact (Function.update_of_ne (hresumed u hu).1 ..).trans (hresumed u hu).2
  simp only [State.check]
  split
  next hdata hopen =>
    refine ⟨h.order,?_,?_⟩
    · intro u hu
      simp only [State.goto]
      rcases eq_or_ne u t with rfl | hne
      · exact Function.update_self ..
      · refine hgoto u _ ?_
        simp only [State.goto,CondVar.wait_notified,List.mem_append] at hu ⊢
        rcases hu with hu | hu
        · exact Or.inl ((CondVar.mem_wait_asleep hu).resolve_left hne)
        · exact Or.inr hu
    · intro _
      simp only [State.goto,hdata,hopen]
      exact ⟨trivial,Nat.zero_le _⟩
  next hdata hclosed =>
    refine ⟨?_,fun u hu => hgoto u _ hu,?_⟩
    · have horder := h.order
      rw [hdata] at horder
      simpa [State.unlock,State.goto,State.taken] using horder
    · intro hne
      have hopen := (h.asleep hne).1
      rw [hclosed] at hopen
      cases hopen
  next value rest hdata =>
    refine ⟨?_,fun u hu => hgoto u _ hu,?_⟩
    · have horder := h.order
      rw [hdata] at horder
      simpa [State.unlock,State.goto,State.taken] using horder
    · intro hne
      obtain ⟨hopen,hlen⟩ := h.asleep hne
      rw [hdata,List.length_cons] at hlen
      refine ⟨hopen,?_⟩
      simp only [State.unlock,State.goto]
      omega

omit [DecidableEq T] in
/-- Close leaves no sleeper. -/
theorem Served.close (h : Served s) :
    Served { s with close := true, emptyData := s.emptyData.notifyAll } :=
  ⟨h.order,h.waiting,fun hne => absurd rfl hne⟩

/-- A wake-up without a notification. -/
theorem Served.wake (h : Served s) : Served { s with emptyData := s.emptyData.wake t } := by
  refine { h with waiting := ?_, asleep := ?_ }
  · intro u hu
    refine h.waiting u ?_
    simp only [CondVar.wake,List.mem_append] at hu ⊢
    exact hu.imp_left List.mem_of_mem_erase
  · intro hne
    refine h.asleep ?_
    intro hnil
    simp only [CondVar.wake,hnil] at hne
    exact hne rfl

/-- Each step serves the sleepers. -/
theorem Served.step {a : Action T V} (h : Served s) (hs : step s a = some s') : Served s' := by
  cases a with
  | callPut t value =>
    simp only [BlockingQueue.step] at hs
    split at hs <;> cases hs
    next ht => exact h.goto (by rw [ht]; rintro ⟨⟩)
  | loadClose t =>
    simp only [BlockingQueue.step] at hs
    split at hs <;> cases hs
    next ht => exact h.goto (by rw [ht]; rintro ⟨⟩)
  | push t woken =>
    simp only [BlockingQueue.step] at hs
    split at hs
    next ht =>
      obtain ⟨c,hc,rfl⟩ := Option.map_eq_some_iff.mp hs
      exact h.put ht hc
    next => cases hs
  | callTake t =>
    simp only [BlockingQueue.step] at hs
    split at hs <;> cases hs
    next ht => exact h.goto (by rw [ht]; rintro ⟨⟩)
  | check t =>
    simp only [BlockingQueue.step] at hs
    split at hs
    next ht =>
      cases hs
      refine h.check fun hmem => ?_
      have hwait := h.waiting t (List.mem_append_left _ hmem)
      rw [ht] at hwait
      cases hwait
    next =>
      split at hs <;> cases hs
      next hmem => exact h.check hmem
    next => cases hs
  | notify t woken =>
    simp only [BlockingQueue.step] at hs
    split at hs
    next ht =>
      obtain ⟨c,hc,rfl⟩ := Option.map_eq_some_iff.mp hs
      have hnotified := h.notified hc
      refine Served.goto ⟨hnotified.order,hnotified.waiting,hnotified.asleep⟩ ?_
      simp only [ht]
      rintro ⟨⟩
    next => cases hs
  | close t =>
    simp only [BlockingQueue.step] at hs
    split at hs <;> cases hs
    exact h.close
  | wake t =>
    simp only [BlockingQueue.step] at hs
    split at hs <;> cases hs
    exact h.wake

/-- The sleepers are served in every run. -/
theorem served_reachable (hr : (system T V).Reachable s) : Served s := by
  refine System.Reachable.invariant served_initial ?_ hr
  exact fun s a s' hi hs => hi.step hs

/-- Every thread returns the results of its calls. -/
def Delivered (s : State T V) : Prop :=
  ∀ t, s.resultsOf t = s.returned t ++ (s.thread t).result

/-- A thread moves on without a result. -/
theorem Delivered.goto (h : Delivered s) (ht : (s.thread t).result = []) (hpc : pc.result = []) :
    Delivered (s.goto t pc) := by
  intro u
  rcases eq_or_ne u t with rfl | hne
  · simp only [State.goto,Function.update_self,hpc]
    exact ht ▸ h u
  · simp only [State.goto,Function.update_of_ne hne]
    exact h u

/-- Take unlocks with a result, and has it to return. -/
theorem Delivered.unlock {result : Option V} {rest : List V} (h : Delivered s)
    (ht : (s.thread t).result = []) : Delivered (s.unlock t result rest) := by
  intro u
  have hu := h u
  simp only [State.resultsOf,State.unlock,State.goto,List.filter_append,List.map_append] at hu ⊢
  rcases eq_or_ne u t with rfl | hne
  · rw [hu,ht]
    simp [Pc.result]
  · rw [hu,Function.update_of_ne hne]
    simp [hne.symm]

/-- A section of Take. -/
theorem Delivered.check (h : Delivered s) (ht : (s.thread t).result = []) :
    Delivered (s.check t) := by
  simp only [State.check]
  split
  next => exact Delivered.goto h ht rfl
  next => exact h.unlock ht
  next => exact h.unlock ht

/-- Take returns its result. -/
theorem Delivered.notify {result : Option V} {ended : Bool} (h : Delivered s)
    (ht : s.thread t = .notifying result) :
    Delivered ({ s with
      emptyData := c
      returned := Function.update s.returned t (s.returned t ++ [result])
      ended := ended }.goto t .idle) := by
  intro u
  have hu : s.resultsOf u = s.returned u ++ (s.thread u).result := h u
  show s.resultsOf u = _
  simp only [State.goto]
  rcases eq_or_ne u t with rfl | hne
  · rw [ht] at hu
    simpa [Pc.result] using hu
  · simpa only [Function.update_of_ne hne] using hu

/-- Each step delivers what was taken. -/
theorem Delivered.step {a : Action T V} (h : Delivered s) (hs : step s a = some s') :
    Delivered s' := by
  cases a with
  | callPut t value =>
    simp only [BlockingQueue.step] at hs
    split at hs <;> cases hs
    next ht => exact h.goto (by rw [ht]; rfl) rfl
  | loadClose t =>
    simp only [BlockingQueue.step] at hs
    split at hs <;> cases hs
    next ht =>
      refine h.goto (by rw [ht]; rfl) ?_
      split <;> rfl
  | push t woken =>
    simp only [BlockingQueue.step] at hs
    split at hs
    next ht =>
      obtain ⟨c,hc,rfl⟩ := Option.map_eq_some_iff.mp hs
      exact Delivered.goto h (by rw [ht]; rfl) rfl
    next => cases hs
  | callTake t =>
    simp only [BlockingQueue.step] at hs
    split at hs <;> cases hs
    next ht => exact h.goto (by rw [ht]; rfl) rfl
  | check t =>
    simp only [BlockingQueue.step] at hs
    split at hs
    next ht =>
      cases hs
      exact h.check (by rw [ht]; rfl)
    next ht =>
      split at hs <;> cases hs
      exact h.check (by rw [ht]; rfl)
    next => cases hs
  | notify t woken =>
    simp only [BlockingQueue.step] at hs
    split at hs
    next ht =>
      obtain ⟨c,hc,rfl⟩ := Option.map_eq_some_iff.mp hs
      exact h.notify ht
    next => cases hs
  | close t =>
    simp only [BlockingQueue.step] at hs
    split at hs <;> cases hs
    exact h
  | wake t =>
    simp only [BlockingQueue.step] at hs
    split at hs <;> cases hs
    exact h

/-- Every run delivers what was taken. -/
theorem delivered_reachable (hr : (system T V).Reachable s) : Delivered s := by
  refine System.Reachable.invariant (fun _ => rfl) ?_ hr
  exact fun s a s' hi hs => hi.step hs

end Steps

/-- In every run, what was taken and what is queued make up what was pushed, in
order, and what was taken is what the calls of Take return: the results of each
thread are those that its calls have returned and the one that it is about to
return. While a consumer sleeps and is not notified, the queue is open, and no
more values are queued than consumers that were notified and have not run
their check since; all of these stand in wait. -/
theorem sleepers_have_nothing_to_do {s : State T V} (hr : (system T V).Reachable s) :
    s.taken ++ s.data = s.pushed ∧
    (∀ t, s.resultsOf t = s.returned t ++ (s.thread t).result) ∧
    (∀ t ∈ s.emptyData.asleep ++ s.emptyData.notified, s.thread t = .waiting) ∧
    (s.emptyData.asleep ≠ [] →
      s.close = false ∧ s.data.length ≤ s.emptyData.notified.length) := by
  have h := served_reachable hr
  exact ⟨h.order,delivered_reachable hr,h.waiting,h.asleep⟩

/-- Four consumers sleep and two values are put. The first consumer returns the first
value, the second one is notified and has not run, the third one is notified by the first,
and the fourth sleeps on beside the second value. -/
def notifiedSchedule : List (Action ℕ ℕ) :=
  [.callTake 0,.check 0,.callTake 1,.check 1,.callTake 2,.check 2,.callTake 3,.check 3,
    .callPut 4 7,.loadClose 4,.push 4 (some 0),.callPut 4 8,.loadClose 4,.push 4 (some 1),
    .check 0,.notify 0 (some 2)]

theorem sleepers_have_nothing_to_do_notified : ∃ s, (system ℕ ℕ).Reachable s ∧
    s.emptyData.asleep = [3] ∧ s.data = [8] ∧ s.returned 0 = [some 7] ∧ s.taken ++ [8] = s.pushed ∧
    s.resultsOf 0 = [some 7] ∧ s.data.length ≤ s.emptyData.notified.length := by
  have hends : (system ℕ ℕ).Ends (initial ℕ ℕ) notifiedSchedule fun s =>
      s.emptyData.asleep = [3] ∧ s.data = [8] ∧ s.returned 0 = [some 7] ∧ s.thread 0 = .idle := by
    decide
  obtain ⟨s,hr,hasleep,hdata,hreturned,hidle⟩ := System.Ends.reachable hends
  obtain ⟨horder,hresults,-,hserved⟩ := sleepers_have_nothing_to_do hr
  refine ⟨s,hr,hasleep,hdata,hreturned,hdata ▸ horder,?_,(hserved ?_).2⟩
  · rw [hresults 0,hreturned,hidle]
    rfl
  · rw [hasleep]
    rintro ⟨⟩

/-- Once some Take has returned nullopt the queue is empty, and no Put has
pushed and returned true since. -/
def Barrier (s : State T V) : Prop := s.ended = true → s.data = [] ∧ s.late = []

/-- A Put runs its section on an open queue, or on one that is not drained. -/
def PutsBeforeDrained (s : State T V) : Action T V → Prop
  | .push _ _ => s.close = true → s.data ≠ []
  | _ => True

instance [DecidableEq V] (s : State T V) : ∀ a, Decidable (PutsBeforeDrained s a)
  | .push _ _ => inferInstanceAs (Decidable (s.close = true → s.data ≠ []))
  | .callPut .. | .loadClose _ | .callTake _ | .check _ | .notify .. | .close _ | .wake _ =>
    isTrue trivial

/-- A Take that is over with nullopt saw the end of the queue. -/
structure Drained (s : State T V) : Prop where
  ended : s.ended = true → s.close = true ∧ s.data = []
  result : ∀ t, s.thread t = .notifying none → s.close = true ∧ s.data = []
  late : s.late = []

section Barrier

variable {s s' : State T V} {t : T} {pc : Pc V}

/-- A thread moves on, and not to the end of a Take. -/
theorem Drained.goto (h : Drained s) (hpc : pc ≠ .notifying none) : Drained (s.goto t pc) := by
  refine { h with result := ?_ }
  intro u hu
  rcases eq_or_ne u t with rfl | hne
  · simp only [State.goto,Function.update_self] at hu
    exact absurd hu hpc
  · exact h.result u ((Function.update_of_ne hne ..).symm.trans hu)

/-- The section of Put. -/
theorem Drained.put {value : V} {c : CondVar T} (h : Drained s)
    (hfull : s.close = true → s.data ≠ []) :
    Drained (s.put t value c) := by
  have hrunning : s.ended = false := by
    rw [←Bool.not_eq_true]
    intro hended
    exact hfull (h.ended hended).1 (h.ended hended).2
  refine Drained.goto ⟨?_,?_,?_⟩ (by rintro ⟨⟩)
  · intro hended
    rw [hrunning] at hended
    cases hended
  · intro u hu
    exact absurd (h.result u hu).2 (hfull (h.result u hu).1)
  · simp only [hrunning,Bool.false_eq_true,if_false]
    exact h.late

/-- A section of Take. -/
theorem Drained.check (h : Drained s) : Drained (s.check t) := by
  simp only [State.check]
  split
  next => exact Drained.goto ⟨h.ended,h.result,h.late⟩ (by rintro ⟨⟩)
  next hdata hclosed => exact ⟨fun _ => ⟨hclosed,rfl⟩,fun _ _ => ⟨hclosed,rfl⟩,h.late⟩
  next value rest hdata =>
    refine Drained.goto ⟨?_,?_,h.late⟩ (by rintro ⟨⟩)
    · intro hended
      have hnil := (h.ended hended).2
      rw [hdata] at hnil
      cases hnil
    · intro u hu
      have hnil := (h.result u hu).2
      rw [hdata] at hnil
      cases hnil

/-- Each step that puts before the queue is drained keeps the end. -/
theorem Drained.step {a : Action T V} (h : Drained s) (ha : PutsBeforeDrained s a)
    (hs : step s a = some s') : Drained s' := by
  cases a with
  | callPut t value =>
    simp only [BlockingQueue.step] at hs
    split at hs <;> cases hs
    exact h.goto (by rintro ⟨⟩)
  | loadClose t =>
    simp only [BlockingQueue.step] at hs
    split at hs <;> cases hs
    refine h.goto ?_
    split <;> rintro ⟨⟩
  | push t woken =>
    simp only [BlockingQueue.step] at hs
    split at hs
    next =>
      obtain ⟨c,-,rfl⟩ := Option.map_eq_some_iff.mp hs
      exact h.put ha
    next => cases hs
  | callTake t =>
    simp only [BlockingQueue.step] at hs
    split at hs <;> cases hs
    exact h.goto (by rintro ⟨⟩)
  | check t =>
    simp only [BlockingQueue.step] at hs
    split at hs
    next =>
      cases hs
      exact h.check
    next =>
      split at hs <;> cases hs
      exact h.check
    next => cases hs
  | notify t woken =>
    simp only [BlockingQueue.step] at hs
    split at hs
    next result ht =>
      obtain ⟨c,-,rfl⟩ := Option.map_eq_some_iff.mp hs
      refine Drained.goto ⟨?_,h.result,h.late⟩ (by rintro ⟨⟩)
      simp only [Bool.or_eq_true,Option.isNone_iff_eq_none]
      rintro (hended | rfl)
      · exact h.ended hended
      · exact h.result t ht
    next => cases hs
  | close t =>
    simp only [BlockingQueue.step] at hs
    split at hs <;> cases hs
    refine ⟨fun hended => ⟨rfl,(h.ended hended).2⟩,fun u hu => ⟨rfl,(h.result u hu).2⟩,h.late⟩
  | wake t =>
    simp only [BlockingQueue.step] at hs
    split at hs <;> cases hs
    exact ⟨h.ended,h.result,h.late⟩

end Barrier

/-- In every run in which no Put runs its section on a queue that is closed and
empty, Close is a barrier. -/
theorem close_is_barrier {s : State T V}
    (hr : (system T V).ReachableUnder PutsBeforeDrained s) : Barrier s := by
  have h : Drained s := by
    refine System.ReachableUnder.invariant ?_ ?_ hr
    · exact ⟨by rintro ⟨⟩,by rintro _ ⟨⟩,rfl⟩
    · exact fun s a s' _ hi ha hs => hi.step ha hs
  exact fun hended => ⟨(h.ended hended).2,h.late⟩

/-- A value is put, the queue is closed, the value is taken and the next Take
returns nullopt. -/
def drainSchedule : List (Action ℕ ℕ) :=
  [.callPut 0 7,.loadClose 0,.push 0 none,.close 0,.callTake 1,.check 1,.notify 1 none,
    .callTake 1,.check 1,.notify 1 none]

theorem close_is_barrier_drain : ∃ s, (system ℕ ℕ).ReachableUnder PutsBeforeDrained s ∧
    s.ended = true ∧ s.pushed = [7] ∧ Barrier s := by
  have hends : (system ℕ ℕ).Ends (initial ℕ ℕ) drainSchedule fun s =>
      s.ended = true ∧ s.pushed = [7] := by
    decide
  have hmeets : (system ℕ ℕ).Meets PutsBeforeDrained (initial ℕ ℕ) drainSchedule := by decide
  obtain ⟨s,hr,hended,hpushed⟩ := System.Ends.reachableUnder hends hmeets
  exact ⟨s,hr,hended,hpushed,close_is_barrier hr⟩

/-- Put reads the flag, Close runs, a Take returns nullopt, and Put pushes. -/
def straddleSchedule : List (Action ℕ ℕ) :=
  [.callPut 0 7,.loadClose 0,.close 1,.callTake 1,.check 1,.notify 1 none,.push 0 none]

theorem put_straddles_close : ∃ s, (system ℕ ℕ).Reachable s ∧ s.ended = true ∧
    s.data = [7] ∧ s.late = [7] ∧ ¬ Barrier s := by
  have hends : (system ℕ ℕ).Ends (initial ℕ ℕ) straddleSchedule fun s =>
      s.ended = true ∧ s.data = [7] ∧ s.late = [7] := by
    decide
  obtain ⟨s,hr,hended,hdata,hlate⟩ := System.Ends.reachable hends
  refine ⟨s,hr,hended,hdata,hlate,fun hbarrier => ?_⟩
  have hnil := (hbarrier hended).1
  rw [hdata] at hnil
  cases hnil

/-- Where a Put stands before its section on a closed and empty queue and another
thread is free to call Take, the run can go on to a state where Close was no
barrier. -/
theorem drained_put_breaks_barrier {s : State T V} {t u : T} {value : V}
    (hr : (system T V).Reachable s) (ht : s.thread t = .putting value) (hu : s.thread u = .idle)
    (hclosed : s.close = true) (hdata : s.data = []) :
    ∃ acts s', (system T V).run s acts = some s' ∧ ¬ Barrier s' := by
  have hserved := served_reachable hr
  have hasleep : s.emptyData.asleep = [] := by
    by_contra hne
    have hopen := (hserved.asleep hne).1
    rw [hclosed] at hopen
    cases hopen
  have hne : t ≠ u := by
    rintro rfl
    rw [hu] at ht
    cases ht
  refine ⟨[.callTake u,.check u,.notify u none,.push t none],
    (({ s with
        results := s.results ++ [(u,none)]
        returned := Function.update s.returned u (s.returned u ++ [none])
        emptyData := s.emptyData.resume u
        ended := true }.goto u .idle).put t value (s.emptyData.resume u)),?_,?_⟩
  · simp [System.run,system,BlockingQueue.step,hu,State.goto,State.check,State.unlock,hdata,hclosed,
      CondVar.notifyOne,hasleep,Function.update_of_ne hne,ht,State.put]
  · intro hbarrier
    have hnil := (hbarrier rfl).1
    simp [State.put,State.goto] at hnil

end ConcurrencyRuntime.BlockingQueue
