import ConcurrencyRuntime.DistributedPoolSignals

/-!
# The sleep of a worker

A worker that has found its queue empty goes to sleep without looking again. Every Push
that reaches the queue after that releases the semaphore after that, and nobody but the
worker takes the token; so a worker that sleeps without a token has an empty queue. The
semaphores are binary: a release of a token that is available has no effect.
-/

namespace ConcurrencyRuntime.DistributedPool

open TransitionSystem

variable {n : ℕ} {K O Q : Type*}

/-- Semaphores hold one token at most. -/
def Pool.saturate (s : Pool n K O Q) : Pool n K O Q :=
  { s with smph := fun w => min (s.smph w) 1 }

/-- The pool with binary semaphores. -/
def binarySystem (n : ℕ) (K O Q : Type*) [DecidableEq K] [DecidableEq O] [DecidableEq Q]
    (fiber : K → Bool) : System (Pool n K O Q) (Action n K O Q) :=
  ⟨initial n K O Q,fun s a => (step fiber s a).map Pool.saturate⟩

/-- The worker looks into its queue before it sleeps, or never sleeps. -/
def Spot.attends : Spot → Bool
  | .absent | .busy | .popLocal | .gone => true
  | _ => false

/-- Where there is work in the queue of a worker, there is a token, a Push that brings one,
or the worker itself comes to the queue. -/
def Attended (s : Pool n K O Q) (w : Fin n) : Prop :=
  s.signals.localTasks w = [] ∨ 0 < s.signals.smph w ∨ (∃ t, s.due t = some w) ∨
    (s.spot w).attends = true

section Attendance

variable {s s' : Pool n K O Q} {a : Action n K O Q} {w : Fin n}

/-- What the attendance of a worker reads. -/
theorem Attended.congr (h : Attended s w)
    (hlocal : s'.signals.localTasks w = s.signals.localTasks w)
    (hsmph : s'.signals.smph w = s.signals.smph w) (hdue : s'.due = s.due)
    (hspot : (s.spot w).attends = true → (s'.spot w).attends = true) : Attended s' w := by
  rw [Attended,hlocal,hsmph,hdue]
  exact h.imp id (Or.imp id (Or.imp id hspot))

/-- A turn of the worker itself. -/
theorem WorkerTurn.attends {g g' : Signals n K} {spot spot' : Spot}
    (h : WorkerTurn g w spot g' spot') (hspot : spot'.attends = false) :
    g'.smph w = g.smph w ∧ (g'.localTasks w = [] ∨
      g'.localTasks w = g.localTasks w ∧ spot.attends = false) := by
  cases h with
  | busy | ready | pop | found | stay | flagged | finish | acquire | timeout => cases hspot
  | empty hempty => exact ⟨rfl,Or.inl hempty⟩
  | look | poll | exit | emptySub | check | suspend | addSuspended | leave | doze =>
    exact ⟨rfl,Or.inr ⟨rfl,rfl⟩⟩

/-- A turn of another worker. -/
theorem WorkerTurn.others {g g' : Signals n K} {v : Fin n} {spot spot' : Spot}
    (h : WorkerTurn g v spot g' spot') (hne : w ≠ v) :
    g'.localTasks w = g.localTasks w ∧ g'.smph w = g.smph w := by
  cases h with
  | pop => exact ⟨Function.update_of_ne hne ..,rfl⟩
  | acquire => exact ⟨rfl,Function.update_of_ne hne ..⟩
  | busy | ready | empty | look | found | poll | exit | emptySub | check | stay | suspend
  | addSuspended | leave | flagged | doze | finish | timeout => exact ⟨rfl,rfl⟩

/-- A step of a call: the queue is empty as before, or there is a token, or a Push is due. -/
theorem SubmitPc.attended {g : Signals n K} {call : SubmitPc n K}
    (h : g.localTasks w = [] ∨ 0 < g.smph w ∨ call.due = some w) :
    (g.submit call).localTasks w = [] ∨ 0 < (g.submit call).smph w ∨ call.dueNext = some w := by
  cases call with
  | state | add | progress | route | global =>
    exact h.imp id (Or.imp id (by rintro ⟨⟩))
  | enqueue v task =>
    rcases eq_or_ne w v with rfl | hne
    · exact Or.inr (Or.inr rfl)
    · have hlocal : (g.submit (.enqueue v task)).localTasks w = g.localTasks w :=
        Function.update_of_ne hne ..
      rw [hlocal]
      exact h.imp id (Or.imp id (by rintro ⟨⟩))
  | reset v | wakeUp v => exact h
  | release v =>
    obtain ⟨hlocal,hsmph⟩ := submit_release g v w
    rw [hlocal]
    rcases h with hempty | htoken | hdue
    · exact Or.inl hempty
    · exact Or.inr (Or.inl (hsmph (Or.inl htoken)))
    · exact Or.inr (Or.inl (hsmph (Or.inr (Option.some.inj hdue))))

variable [DecidableEq K] [DecidableEq O] [DecidableEq Q]

omit [DecidableEq K] [DecidableEq Q] in
/-- Every step keeps the work of every worker attended. -/
theorem Signalled.attended (h : Signalled s a s') (hi : ∀ w, Attended s w) (w : Fin n) :
    Attended s' w := by
  cases h with
  | @call t call _ hcall hsignals hdue hspot _ =>
    rw [Attended,hsignals,hspot,hdue]
    have hown : s.due t = call.due := by rw [Pool.due,hcall]; rfl
    -- another thread whose Push is due stays where it is; the one of t is the step itself
    have hcases : (s.signals.localTasks w = [] ∨ 0 < s.signals.smph w ∨ call.due = some w) ∨
        (∃ u, u ≠ t ∧ s.due u = some w) ∨ (s.spot w).attends = true := by
      rcases hi w with hempty | htoken | ⟨u,hu⟩ | hattends
      · exact Or.inl (Or.inl hempty)
      · exact Or.inl (Or.inr (Or.inl htoken))
      · rcases eq_or_ne u t with rfl | hne
        · exact Or.inl (Or.inr (Or.inr (hown.symm.trans hu)))
        · exact Or.inr (Or.inl ⟨u,hne,hu⟩)
      · exact Or.inr (Or.inr hattends)
    rcases hcases with hself | ⟨u,hne,hu⟩ | hattends
    · rcases SubmitPc.attended hself with hempty | htoken | hnext
      · exact Or.inl hempty
      · exact Or.inr (Or.inl htoken)
      · exact Or.inr (Or.inr (Or.inl ⟨t,(Function.update_self ..).trans hnext⟩))
    · exact Or.inr (Or.inr (Or.inl ⟨u,(Function.update_of_ne hne ..).trans hu⟩))
    · exact Or.inr (Or.inr (Or.inr hattends))
  | @worker v spot' _ hturn hdue hspot _ =>
    rcases eq_or_ne w v with rfl | hne
    · have hspot' : s'.spot w = spot' := by rw [hspot,Function.update_self]
      by_cases hattends : spot'.attends = true
      · rw [←hspot'] at hattends
        exact Or.inr (Or.inr (Or.inr hattends))
      obtain ⟨hsmph,hempty | ⟨hlocal,hbefore⟩⟩ := hturn.attends (Bool.eq_false_iff.mpr hattends)
      · exact Or.inl hempty
      · exact (hi w).congr hlocal hsmph hdue fun htrue => absurd htrue (by simp [hbefore])
    · obtain ⟨hlocal,hsmph⟩ := hturn.others hne
      refine (hi w).congr hlocal hsmph hdue fun hattends => ?_
      rwa [hspot,Function.update_of_ne hne]
  | @create v hsignals hdue hspot _ =>
    refine (hi w).congr (by rw [hsignals]) (by rw [hsignals]) hdue fun hattends => ?_
    rw [hspot,Function.update_apply]
    split
    next => rfl
    next => exact hattends
  | @release v _ hsignals hdue hspot _ =>
    obtain ⟨hlocal,hsmph⟩ := submit_release s.signals v w
    rw [Attended,hsignals,hdue,hspot,hlocal]
    exact (hi w).imp id (Or.imp (fun htoken => hsmph (Or.inl htoken)) id)
  | other hsignals hdue hspot _ =>
    exact (hi w).congr (by rw [hsignals]) (by rw [hsignals]) hdue (by rw [hspot]; exact id)

omit [DecidableEq K] [DecidableEq O] [DecidableEq Q] in
/-- A token is a token, however many there are. -/
theorem attended_saturate (h : Attended s w) : Attended s.saturate w := by
  have htoken : 0 < s.signals.smph w → 0 < s.saturate.signals.smph w := fun h =>
    Nat.lt_min.mpr ⟨h,Nat.one_pos⟩
  exact h.imp id (Or.imp htoken id)

/-- In every reachable state all work is attended. -/
theorem attended {fiber : K → Bool} (hr : (binarySystem n K O Q fiber).Reachable s) :
    Unstarted s ∧ ∀ w, Attended s w := by
  refine System.Reachable.invariant ?_ ?_ hr
  · exact ⟨fun _ _ => rfl,fun _ => Or.inl rfl⟩
  · rintro s a s' ⟨hunstarted,hi⟩ hstep
    obtain ⟨t,ht,rfl⟩ := Option.map_eq_some_iff.mp hstep
    have hnext : Unstarted t := step_unstarted hunstarted ht
    refine ⟨hnext,fun w => ?_⟩
    exact attended_saturate ((step_signalled hunstarted ht).attended hi w)

/-- A worker that is blocked on its semaphore without a token, while no Push is between its
push to the queue and its release, has an empty queue. -/
theorem asleep_without_work {fiber : K → Bool} (hr : (binarySystem n K O Q fiber).Reachable s)
    (hsleep : s.worker w = .sleep) (hzero : s.smph w = 0) (hpush : ∀ t, s.due t ≠ some w) :
    s.localTasks w = [] := by
  have hspot : s.spot w = .sleep := congrArg WorkerPc.spot hsleep
  rcases (attended hr).2 w with hempty | htoken | ⟨t,ht⟩ | hattends
  · exact hempty
  · exact absurd hzero (Nat.ne_of_gt htoken)
  · exact absurd ht (hpush t)
  · rw [hspot] at hattends
    cases hattends

/-- A task comes through the global queue and completes. The worker takes the token of its own
Push when it has no more work, and sleeps for the second time without one. -/
def sleepRun : List (Action 1 (Fin 1) (Fin 1) (Fin 1)) :=
  List.flatten [[.start,.owner,.owner,.go 0 0],List.replicate 5 (.outside 0),
    List.replicate 11 (.worker 0),[.op 0 .finish],List.replicate 25 (.worker 0)]

theorem sleepRun_ends : (binarySystem 1 (Fin 1) (Fin 1) (Fin 1) fun _ => false).Ends
    (initial 1 (Fin 1) (Fin 1) (Fin 1)) sleepRun
    fun s => s.worker 0 = .sleep ∧ s.smph 0 = 0 ∧ s.runs 0 = [0] ∧ s.due (.worker 0) = none ∧
      s.due (.outside 0) = none := by
  decide +kernel

theorem asleep_without_work_again :
    ∃ s, (binarySystem 1 (Fin 1) (Fin 1) (Fin 1) fun _ => false).Reachable s ∧
      s.worker 0 = .sleep ∧ s.smph 0 = 0 ∧ s.runs 0 = [0] ∧ s.localTasks 0 = [] := by
  obtain ⟨s,hr,hsleep,hzero,hruns,hworker,houtside⟩ := sleepRun_ends.reachable
  refine ⟨s,hr,hsleep,hzero,hruns,asleep_without_work hr hsleep hzero fun t ht => ?_⟩
  match t with
  | .worker 0 => cases hworker.symm.trans ht
  | .outside 0 => cases houtside.symm.trans ht

end Attendance

end ConcurrencyRuntime.DistributedPool
