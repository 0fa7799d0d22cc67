import ConcurrencyRuntime.FiberSyncPlaces

/-!
# When each guard is released once

The worker that suspended a fiber hands the spinlock on first and clears the
flag of the guard afterwards, so a fiber that is resumed in between finds the
flag set in the destructor of its guard and releases it again. In the runs in
which every such destructor comes after the flag is cleared, the parties that
use a guard follow each other, and the queue of every spinlock is intact.
-/

namespace ConcurrencyRuntime.FiberSync

open TransitionSystem QueueSpinLock

/-- The spinlock on which a fiber uses its guard, and how far it is. -/
@[grind =]
def FiberPc.phase {ι κ γ : Type*} : FiberPc ι κ γ → Option ((κ ⊕ γ) × Phase (ι × ℕ))
  | .acquire op pc => some (op.host,pc.phase)
  | .body op | .destroy op _ => some (op.host,.holding)
  | .release op _ pc => some (op.host,pc.phase)
  | _ => none

/-- The program points at which a worker may have the guard of the fiber. -/
@[grind =]
def FiberPc.away {ι κ γ : Type*} : FiberPc ι κ γ → Bool
  | .suspended _ | .resumed _ => true
  | _ => false

/-- The workers that have no guard to release. -/
@[grind =]
def WorkerPc.free {ι κ γ : Type*} : WorkerPc ι κ γ → Bool
  | .idle | .running _ => true
  | _ => false

/-- The program points at which the fiber itself releases its guard. -/
@[grind =]
def FiberPc.releasing {ι κ γ : Type*} : FiberPc ι κ γ → Bool
  | .release .. => true
  | _ => false

/-- The program points other than an Acquire that has not begun and a Release
that has failed. -/
@[grind =]
def FiberPc.plain {ι κ γ : Type*} : FiberPc ι κ γ → Bool
  | .acquire _ .exchange | .release _ _ .fault => false
  | _ => true

/-- The fiber goes on to a program point with the same use of its guard. -/
structure FiberPc.Keeps {ι κ γ : Type*} (r q : FiberPc ι κ γ) : Prop where
  phase : q.phase = r.phase
  away : q.away = r.away
  releasing : q.releasing = r.releasing
  plain : q.plain = true

theorem FiberPc.Keeps.afterwards {ι κ γ : Type*} {popped : List ι} (rest : List ι) :
    (FiberPc.schedule (κ := κ) (γ := γ) popped).Keeps (FiberSync.afterwards rest) := by
  cases rest with
  | nil => exact ⟨rfl,rfl,rfl,rfl⟩
  | cons w rest => exact ⟨rfl,rfl,rfl,rfl⟩

theorem FiberPc.not_parked_of_here {ι κ γ : Type*} {q : FiberPc ι κ γ} (h : q.away = false) :
    q.parked = false := by
  cases q <;> first | rfl | cases h

theorem FiberPc.phase_of_away {ι κ γ : Type*} {q : FiberPc ι κ γ} (h : q.away = true) :
    q.phase = none := by
  cases q <;> first | rfl | cases h

/-- The guard that a worker releases in AwaitSuspend, on which spinlock, and
how far it is. -/
@[grind =]
def WorkerPc.phase {ι κ γ : Type*} (guards : ι → ℕ) :
    WorkerPc ι κ γ → Option ((κ ⊕ γ) × (ι × ℕ) × Phase (ι × ℕ))
  | .parking f op => some (op.host,(f,guards f),.holding)
  | .releasing h g pc => some (h,g,pc.phase)
  | _ => none

/-- No worker gets or gives up a guard. -/
structure Undisturbed {ω ι κ γ : Type*} (s s' : Runtime ω ι κ γ) : Prop where
  phase : ∀ u, (s'.worker u).phase s.guards = (s.worker u).phase s.guards
  releasing : ∀ u k g pc, s'.worker u = .releasing k g pc → s.worker u = .releasing k g pc
  parks : ∀ u x, (s'.worker u).parks = some x ↔ (s.worker u).parks = some x

theorem Undisturbed.same {ω ι κ γ : Type*} {s s' : Runtime ω ι κ γ}
    (hworker : s'.worker = s.worker) :
    Undisturbed s s' := by
  constructor <;> simp [hworker]

/-- Some party is at that phase with the guard. -/
def Claims {ω ι κ γ : Type*} (s : Runtime ω ι κ γ) (h : κ ⊕ γ) (g : ι × ℕ) (p : Phase (ι × ℕ)) :
    Prop :=
  ((s.fiber g.1).phase = some (h,p) ∧ g.2 = s.guards g.1) ∨
    ∃ v, (s.worker v).phase s.guards = some (h,g,p)

/-- The phases of the guards are those of the parties that use them, one party
for each guard, and describe the queue of every spinlock. -/
structure Shared {ω ι κ γ : Type*} (s : Runtime ω ι κ γ)
    (phase : κ ⊕ γ → ι × ℕ → Phase (ι × ℕ)) : Prop where
  queued : ∀ h, ∃ q, Queued (s.lock h) (phase h) q
  view : ∀ h g p, p ≠ .out → (phase h g = p ↔ Claims s h g p)
  current : ∀ v h g pc, s.worker v = .releasing h g pc → g.2 = s.guards g.1
  away : ∀ v h g pc, s.worker v = .releasing h g pc → (s.fiber g.1).away = true
  noFault : ∀ v h g pc, s.worker v = .releasing h g pc → pc ≠ .fault
  noPark : ∀ v h g pc, s.worker v = .releasing h g pc → ∀ u, (s.worker u).parks ≠ some g.1
  unique : ∀ u v h k g pc pc', s.worker u = .releasing h g pc →
    s.worker v = .releasing k g pc' → u = v
  constructed : ∀ f op, s.fiber f = .acquire op .exchange → (s.lock op.host).next (s.guard f) = none
  release : ∀ f op popped, s.fiber f ≠ .release op popped .fault

/-- The calls of Release of each guard, and the writes to destroyed ones. -/
structure Counted {ω ι κ γ : Type*} (s : Runtime ω ι κ γ) : Prop where
  past : ∀ g, g.2 < s.guards g.1 → s.releases g = 1
  future : ∀ g, s.guards g.1 < g.2 → s.releases g = 0
  before : ∀ f, (s.fiber f).away = false → (s.fiber f).releasing = false →
    s.releases (s.guard f) = 0
  during : ∀ f, (s.fiber f).releasing = true → s.releases (s.guard f) = 1
  parking : ∀ v f, (s.worker v).parks = some f → s.releases (s.guard f) = 0
  after : ∀ f, (s.fiber f).away = true → (∀ v, (s.worker v).parks ≠ some f) →
    s.releases (s.guard f) = 1
  stale : s.staleWrites = 0

variable {ω ι κ γ : Type*} [DecidableEq ω] [DecidableEq ι] [DecidableEq κ] [DecidableEq γ]

section Steps

variable {s s' : Runtime ω ι κ γ} {phase : κ ⊕ γ → ι × ℕ → Phase (ι × ℕ)}
  {place : ι → Place ω ι κ γ} {f : ι} {v : ω} {h : κ ⊕ γ} {g : ι × ℕ} {q : FiberPc ι κ γ}
  {r : FiberPc ι κ γ} {op : Op κ γ} {p : Phase (ι × ℕ)}

omit [DecidableEq ω] [DecidableEq ι] [DecidableEq κ] [DecidableEq γ] in
/-- A guard in use is not destroyed. -/
theorem Shared.alive (hS : Shared s phase) (hg : phase h g ≠ .out) : g.2 = s.guards g.1 := by
  rcases (hS.view h g _ hg).mp rfl with hf | ⟨v,hv⟩
  · exact hf.2
  · cases hw : s.worker v with
    | idle => simp [hw,WorkerPc.phase] at hv
    | running f => simp [hw,WorkerPc.phase] at hv
    | parking f op =>
      simp only [hw,WorkerPc.phase,Option.some.injEq,Prod.mk.injEq] at hv
      rw [←hv.2.1]
    | releasing k g' pc =>
      simp only [hw,WorkerPc.phase,Option.some.injEq,Prod.mk.injEq] at hv
      rw [←hv.2.1]
      exact hS.current v k g' pc hw

omit [DecidableEq ω] [DecidableEq ι] [DecidableEq κ] [DecidableEq γ] in
/-- No worker has the guard of a fiber that is not suspended, unless the fiber
was resumed before the worker was done. -/
theorem Shared.no_claim (hS : Shared s phase) (hp : Placed s place)
    (hrun : (s.fiber f).parked = false)
    (hfree : (s.fiber f).away = true → ∀ u k pc, s.worker u ≠ .releasing k (s.guard f) pc) (u : ω) :
    (s.worker u).phase s.guards ≠ some (h,s.guard f,p) := by
  intro hu
  cases hw : s.worker u with
  | idle => simp [hw,WorkerPc.phase] at hu
  | running f => simp [hw,WorkerPc.phase] at hu
  | parking f' op =>
    simp only [hw,WorkerPc.phase,Runtime.guard,Option.some.injEq,Prod.mk.injEq] at hu
    rw [←hu.2.1.1,hp.op u f' op hw] at hrun
    cases hrun
  | releasing k g' pc =>
    simp only [hw,WorkerPc.phase,Option.some.injEq,Prod.mk.injEq] at hu
    obtain ⟨-,rfl,-⟩ := hu
    exact hfree (hS.away u k _ pc hw) u k pc hw

omit [DecidableEq ω] [DecidableEq ι] [DecidableEq κ] [DecidableEq γ] in
/-- A guard that no party uses is out of the queues. -/
theorem Shared.out (hS : Shared s phase) (hno : ∀ r, r ≠ .out → ¬Claims s h g r) :
    phase h g = .out := by
  by_contra hne
  exact hno _ hne ((hS.view h g _ hne).mp rfl)

/-- The phases after a step that concerns one guard on one spinlock. -/
def setPhase (phase : κ ⊕ γ → ι × ℕ → Phase (ι × ℕ)) (h : κ ⊕ γ) (g : ι × ℕ) (p : Phase (ι × ℕ)) :
    κ ⊕ γ → ι × ℕ → Phase (ι × ℕ) :=
  Function.update phase h (Function.update (phase h) g p)

omit [DecidableEq ω] in
/-- The view after such a step, from what became of the claims. -/
theorem Shared.view_set (hS : Shared s phase)
    (hothers : ∀ k g' r, r ≠ .out → ¬(k = h ∧ g' = g) → (Claims s' k g' r ↔ Claims s k g' r))
    (hthis : ∀ r, r ≠ .out → (Claims s' h g r ↔ r = p)) (k : κ ⊕ γ) (g' : ι × ℕ) (r : Phase (ι × ℕ))
    (hr : r ≠ .out) : setPhase phase h g p k g' = r ↔ Claims s' k g' r := by
  by_cases hk : k = h
  · subst hk
    by_cases hg : g' = g
    · subst hg
      rw [hthis r hr]
      simp only [setPhase,Function.update_self]
      exact eq_comm
    · rw [hothers k g' r hr (by simp [hg]),←hS.view k g' r hr]
      simp [setPhase,hg]
  · rw [hothers k g' r hr (by simp [hk]),←hS.view k g' r hr]
    simp [setPhase,hk]

omit [DecidableEq ω] in
/-- The queues after such a step. -/
theorem Shared.queued_set (hS : Shared s phase) {l : Lock (ι × ℕ)}
    (hq : ∃ q, Queued l (Function.update (phase h) g p) q) (k : κ ⊕ γ) :
    ∃ q, Queued (Function.update s.lock h l k) (setPhase phase h g p k) q := by
  by_cases hk : k = h
  · subst hk
    simpa only [setPhase,Function.update_self] using hq
  · simpa only [setPhase,Function.update_of_ne hk] using hS.queued k

omit [DecidableEq ω] [DecidableEq ι] [DecidableEq κ] [DecidableEq γ] in
/-- No worker has the guard of a fiber that is in its section or outside. -/
theorem Shared.no_claim_of_here (hS : Shared s phase) (hp : Placed s place)
    (hhere : (s.fiber f).away = false) (u : ω) :
    (s.worker u).phase s.guards ≠ some (h,s.guard f,p) := by
  refine hS.no_claim hp (FiberPc.not_parked_of_here hhere) (fun ha => ?_) u
  rw [ha] at hhere
  cases hhere

omit [DecidableEq ω] [DecidableEq ι] [DecidableEq κ] [DecidableEq γ] in
/-- A guard is out of the queues while its fiber is at none of its phases. -/
theorem Shared.out_of_here (hS : Shared s phase) (hp : Placed s place)
    (hhere : (s.fiber f).away = false) (hf : ∀ k r, (s.fiber f).phase = some (k,r) → r = .out) :
    phase h (s.guard f) = .out := by
  refine hS.out fun r hr hclaim => ?_
  rcases hclaim with hc | ⟨u,hu⟩
  · exact hr (hf h r hc.1)
  · exact hS.no_claim_of_here hp hhere u hu

omit [DecidableEq ω] [DecidableEq ι] in
/-- The new guards are still linked to nothing when only guards in the queue
are linked. -/
theorem Shared.constructed_set {l : Lock (ι × ℕ)} (hS : Shared s phase) (hp : Placed s place)
    (hnext : ∀ g', phase h g' = .out → l.next g' = (s.lock h).next g')
    (hf : s.fiber f = .acquire op .exchange) :
    (Function.update s.lock h l op.host).next (s.guard f) = none := by
  have hold := hS.constructed f op hf
  by_cases hh : op.host = h
  · have hout : phase h (s.guard f) = .out := by
      refine hS.out_of_here hp (by rw [hf]; rfl) fun k r hr => ?_
      rw [hf] at hr
      cases hr
      rfl
    rw [hh,Function.update_self,hnext _ hout,←hh]
    exact hold
  · rw [Function.update_of_ne hh]
    exact hold

omit [DecidableEq ω] in
/-- A fiber takes a step of its guard on a spinlock. -/
theorem Shared.fiberLock {l : Lock (ι × ℕ)} {r : Phase (ι × ℕ)} (hS : Shared s phase)
    (hp : Placed s place) (hhere : (s.fiber f).away = false) (hf : (s.fiber f).phase = some (h,r))
    (hq : q.phase = some (h,p)) (hexchange : ∀ op, q ≠ .acquire op .exchange)
    (hfault : ∀ op popped, q ≠ .release op popped .fault)
    (hfiber : s'.fiber = Function.update s.fiber f q) (hworker : s'.worker = s.worker)
    (hguards : s'.guards = s.guards) (hlock : s'.lock = Function.update s.lock h l)
    (hnext : ∀ g', phase h g' = .out → l.next g' = (s.lock h).next g')
    (hqueue : ∃ qs, Queued l (Function.update (phase h) (s.guard f) p) qs) :
    Shared s' (setPhase phase h (s.guard f) p) := by
  have hno : ∀ k r u, (s.worker u).phase s.guards ≠ some (k,s.guard f,r) :=
    fun k r u => hS.no_claim_of_here hp hhere u
  have haway := hS.away
  have hguard : ∀ g' : ι × ℕ, g'.1 = f → g'.2 = s.guards f → g' = s.guard f := by
    intro g' h1 h2
    exact Prod.ext h1 h2
  refine ⟨?_,hS.view_set ?_ ?_,?_,?_,?_,?_,?_,?_,?_⟩
  · rw [hlock]
    exact hS.queued_set hqueue
  · intro k g' r hr hne
    simp only [Claims,hfiber,hworker,hguards,Function.update_apply]
    grind
  · intro r hr
    simp only [Claims,hfiber,hworker,hguards,Function.update_apply]
    grind [Runtime.guard]
  all_goals simp only [hfiber,hworker,hguards,hlock,Function.update_apply]
  · exact hS.current
  · grind
  · exact hS.noFault
  · exact hS.noPark
  · exact hS.unique
  · intro f' op' hf'
    have hne : f' ≠ f := by
      rintro rfl
      rw [if_pos rfl] at hf'
      exact hexchange op' hf'
    rw [if_neg hne] at hf'
    have hold := hS.constructed_set hp hnext hf'
    simpa only [Runtime.guard,hguards,Function.update_apply] using hold
  · grind [hS.release]

omit [DecidableEq ω] in
/-- A fiber is done with its guard, which nobody else has. -/
theorem Shared.drop {l : Lock (ι × ℕ)} (hS : Shared s phase) (hp : Placed s place)
    (hparked : (s.fiber f).parked = false)
    (hno : ∀ k r u, (s.worker u).phase s.guards ≠ some (k,s.guard f,r))
    (hf : ∀ k r, (s.fiber f).phase = some (k,r) → k = h) (hq : q.phase = none)
    (hfiber : s'.fiber = Function.update s.fiber f q) (hworker : s'.worker = s.worker)
    (hguards : s'.guards = Function.update s.guards f (s.guards f + 1))
    (hlock : s'.lock = Function.update s.lock h l) (hnext : l.next = (s.lock h).next)
    (hqueue : ∃ qs, Queued l (Function.update (phase h) (s.guard f) .out) qs) :
    Shared s' (setPhase phase h (s.guard f) .out) := by
  have hpark : ∀ u op, s.worker u ≠ .parking f op := by
    intro u op hu
    rw [hp.op u f op hu] at hparked
    cases hparked
  have hsame : ∀ u, (s.worker u).phase (Function.update s.guards f (s.guards f + 1)) =
      (s.worker u).phase s.guards := by
    intro u
    cases hw : s.worker u with
    | parking f' op =>
      have hne : f' ≠ f := by
        rintro rfl
        exact hpark u op hw
      simp only [WorkerPc.phase,Function.update_of_ne hne]
    | idle | running f' | releasing k g' pc => rfl
  have hcurrent := hS.current
  have hrel : ∀ u k g' pc, s.worker u = .releasing k g' pc → g'.1 ≠ f := by
    rintro u k ⟨f',n⟩ pc hu rfl
    have hn : n = s.guards f' := hcurrent u k _ pc hu
    refine hno k pc.phase u ?_
    rw [hu,hn]
    rfl
  have hguard : ∀ g' : ι × ℕ, g'.1 = f → g'.2 = s.guards f → g' = s.guard f := by
    intro g' h1 h2
    exact Prod.ext h1 h2
  refine ⟨?_,hS.view_set ?_ ?_,?_,?_,?_,?_,?_,?_,?_⟩
  · rw [hlock]
    exact hS.queued_set hqueue
  · intro k g' r hr hne
    simp only [Claims,hfiber,hworker,hguards,hsame,Function.update_apply]
    by_cases hg : g'.1 = f
    · have hold : ¬((s.fiber f).phase = some (k,r) ∧ g'.2 = s.guards f) := by
        rintro ⟨hk,hn⟩
        exact hne ⟨hf k r hk,hguard g' hg hn⟩
      simp [hg,hq,hold]
    · simp [hg]
  · intro r hr
    refine ⟨?_,fun he => absurd he hr⟩
    rintro (⟨hc,-⟩ | ⟨u,hu⟩)
    · simp [hfiber,Runtime.guard,hq] at hc
    · rw [hworker,hguards,hsame] at hu
      exact absurd hu (hno h r u)
  all_goals simp only [hfiber,hworker,hguards,hlock,Function.update_apply]
  · intro u k g' pc hu
    rw [if_neg (hrel u k g' pc hu)]
    exact hcurrent u k g' pc hu
  · intro u k g' pc hu
    rw [if_neg (hrel u k g' pc hu)]
    exact hS.away u k g' pc hu
  · exact hS.noFault
  · exact hS.noPark
  · exact hS.unique
  · intro f' op' hf'
    have hne : f' ≠ f := by
      rintro rfl
      rw [if_pos rfl] at hf'
      rw [hf'] at hq
      cases hq
    rw [if_neg hne] at hf'
    have hold := hS.constructed_set (h := h) (l := l) hp (fun g' _ => congrFun hnext g') hf'
    simpa only [Runtime.guard,hguards,Function.update_of_ne hne,Function.update_apply] using hold
  · have hrelease := hS.release
    have hqr : ∀ op popped pc, q ≠ .release op popped pc := by
      rintro op popped pc rfl
      cases hq
    grind

omit [DecidableEq ω] [DecidableEq ι] [DecidableEq κ] [DecidableEq γ] in
/-- Only one worker has a guard. -/
theorem Shared.only_worker {pc : ReleasePc (ι × ℕ)} (hS : Shared s phase)
    (hv : s.worker v = .releasing h g pc) (u : ω) (k : κ ⊕ γ) (r : Phase (ι × ℕ)) (hne : u ≠ v) :
    (s.worker u).phase s.guards ≠ some (k,g,r) := by
  intro hu
  cases hwu : s.worker u with
  | idle => simp [hwu,WorkerPc.phase] at hu
  | running f => simp [hwu,WorkerPc.phase] at hu
  | parking f' op =>
    simp only [hwu,WorkerPc.phase,Option.some.injEq,Prod.mk.injEq] at hu
    refine hS.noPark v h g pc hv u ?_
    rw [hwu,←hu.2.1]
    rfl
  | releasing k' g' pc' =>
    simp only [hwu,WorkerPc.phase,Option.some.injEq,Prod.mk.injEq] at hu
    rw [hu.2.1] at hwu
    exact hne (hS.unique u v k' h g pc' pc hwu hv)

omit [DecidableEq ω] [DecidableEq ι] [DecidableEq κ] [DecidableEq γ] in
/-- The phase of a guard is that of the worker that releases it. -/
theorem Shared.phase_of_worker {pc : ReleasePc (ι × ℕ)} (hS : Shared s phase)
    (hv : s.worker v = .releasing h g pc) : phase h g = pc.phase := by
  by_cases hr : pc.phase = .out
  · rw [hr]
    refine hS.out fun r hne hclaim => ?_
    rcases hclaim with ⟨hc,-⟩ | ⟨u,hu⟩
    · rw [FiberPc.phase_of_away (hS.away v h g pc hv)] at hc
      cases hc
    · by_cases huv : u = v
      · rw [huv,hv] at hu
        simp only [WorkerPc.phase,Option.some.injEq,Prod.mk.injEq] at hu
        exact hne (hu.2.2.symm.trans hr)
      · exact hS.only_worker hv u h r huv hu
  · exact (hS.view h g _ hr).mpr (.inr ⟨v,by rw [hv]; rfl⟩)

/-- A worker takes a step of the guard that it releases. -/
theorem Shared.workerLock {l : Lock (ι × ℕ)} {pc : ReleasePc (ι × ℕ)} {w : WorkerPc ι κ γ}
    (hS : Shared s phase) (hp : Placed s place) (hv : s.worker v = .releasing h g pc)
    (hw : w = .idle ∧ p = .out ∨ ∃ pc', w = .releasing h g pc' ∧ p = pc'.phase ∧ pc' ≠ .fault)
    (hfiber : s'.fiber = s.fiber) (hworker : s'.worker = Function.update s.worker v w)
    (hguards : s'.guards = s.guards) (hlock : s'.lock = Function.update s.lock h l)
    (hnext : l.next = (s.lock h).next)
    (hqueue : ∃ qs, Queued l (Function.update (phase h) g p) qs) :
    Shared s' (setPhase phase h g p) := by
  have haway := hS.away v h g pc hv
  have hfphase := FiberPc.phase_of_away haway
  have hother := hS.only_worker hv
  have hwphase : ∀ k g' r, r ≠ .out →
      (w.phase s.guards = some (k,g',r) ↔ k = h ∧ g' = g ∧ r = p) := by
    intro k g' r hr
    rcases hw with ⟨rfl,rfl⟩ | ⟨pc',rfl,rfl,-⟩
    · simp [WorkerPc.phase,hr]
    · simp only [WorkerPc.phase,Option.some.injEq,Prod.mk.injEq]
      grind
  have hback : ∀ u k g' pc', Function.update s.worker v w u = .releasing k g' pc' →
      ∃ pc'', s.worker u = .releasing k g' pc'' := by
    intro u k g' pc' hu
    by_cases hne : u = v
    · subst hne
      rw [Function.update_self] at hu
      rcases hw with ⟨rfl,-⟩ | ⟨pc'',rfl,-⟩
      · cases hu
      · cases hu
        exact ⟨pc,hv⟩
    · rw [Function.update_of_ne hne] at hu
      exact ⟨pc',hu⟩
  have hparks : ∀ u x, (Function.update s.worker v w u).parks = some x →
    (s.worker u).parks = some x := by
    intro u x hu
    by_cases hne : u = v
    · subst hne
      rw [Function.update_self] at hu
      rcases hw with ⟨rfl,-⟩ | ⟨pc'',rfl,-⟩ <;> cases hu
    · rwa [Function.update_of_ne hne] at hu
  refine ⟨?_,hS.view_set ?_ ?_,?_,?_,?_,?_,?_,?_,?_⟩
  · rw [hlock]
    exact hS.queued_set hqueue
  · intro k g' r hr hne
    have hvold : (s.worker v).phase s.guards ≠ some (k,g',r) := by
      rw [hv]
      rintro ⟨⟩
      exact hne ⟨rfl,rfl⟩
    have hvnew : w.phase s.guards ≠ some (k,g',r) := by
      rw [Ne,hwphase k g' r hr]
      exact fun hc => hne ⟨hc.1,hc.2.1⟩
    simp only [Claims,hfiber,hworker,hguards,Function.update_apply]
    grind
  · intro r hr
    simp only [Claims,hfiber,hworker,hguards,Function.update_apply]
    refine ⟨?_,?_⟩
    · rintro (⟨hc,-⟩ | ⟨u,hu⟩)
      · rw [hfphase] at hc
        cases hc
      · split at hu
        · exact ((hwphase h g r hr).mp hu).2.2
        next hne => exact absurd hu (hother u h r hne)
    · rintro rfl
      exact .inr ⟨v,by rw [if_pos rfl]; exact (hwphase h g r hr).mpr ⟨rfl,rfl,rfl⟩⟩
  all_goals simp only [hfiber,hworker,hguards,hlock]
  · intro u k g' pc' hu
    obtain ⟨pc'',hu⟩ := hback u k g' pc' hu
    exact hS.current u k g' pc'' hu
  · intro u k g' pc' hu
    obtain ⟨pc'',hu⟩ := hback u k g' pc' hu
    exact hS.away u k g' pc'' hu
  · intro u k g' pc' hu
    by_cases hne : u = v
    · subst hne
      rw [Function.update_self] at hu
      rcases hw with ⟨rfl,-⟩ | ⟨pc'',rfl,-,hfault⟩
      · cases hu
      · cases hu
        exact hfault
    · rw [Function.update_of_ne hne] at hu
      exact hS.noFault u k g' pc' hu
  · intro u k g' pc' hu x hx
    obtain ⟨pc'',hu⟩ := hback u k g' pc' hu
    exact hS.noPark u k g' pc'' hu x (hparks x _ hx)
  · intro u u' k k' g' pc₁ pc₂ hu hu'
    obtain ⟨pc₁,hu⟩ := hback u k g' pc₁ hu
    obtain ⟨pc₂,hu'⟩ := hback u' k' g' pc₂ hu'
    exact hS.unique u u' k k' g' pc₁ pc₂ hu hu'
  · intro f' op' hf'
    have hold := hS.constructed_set (h := h) (l := l) hp (fun g' _ => congrFun hnext g') hf'
    simpa only [Runtime.guard,hguards] using hold
  · exact hS.release

omit [DecidableEq ω] [DecidableEq κ] [DecidableEq γ] in
/-- A fiber moves within its phase, and no worker gets or gives up a guard. -/
theorem Shared.move (hS : Shared s phase) (hfiber : s'.fiber = Function.update s.fiber f q)
    (hw : Undisturbed s s') (hguards : s'.guards = s.guards) (hlock : s'.lock = s.lock)
    (hq : q.phase = (s.fiber f).phase) (haway : q.away = (s.fiber f).away)
    (hplain : q.plain = true) : Shared s' phase := by
  have hcurrent := hS.current
  refine ⟨?_,?_,?_,?_,?_,?_,?_,?_,?_⟩
  · rw [hlock]
    exact hS.queued
  · intro k g' r hr
    rw [hS.view k g' r hr]
    simp only [Claims,hfiber,hguards,hw.phase,Function.update_apply]
    split
    next hg => rw [hq,hg]
    next => rfl
  · intro u k g' pc hu
    rw [hguards]
    exact hcurrent u k g' pc (hw.releasing u k g' pc hu)
  · intro u k g' pc hu
    have hold := hS.away u k g' pc (hw.releasing u k g' pc hu)
    rw [hfiber,Function.update_apply]
    split
    next hg =>
      rw [hg] at hold
      exact haway.trans hold
    next => exact hold
  · exact fun u k g' pc hu => hS.noFault u k g' pc (hw.releasing u k g' pc hu)
  · intro u k g' pc hu x hx
    exact hS.noPark u k g' pc (hw.releasing u k g' pc hu) x ((hw.parks x _).mp hx)
  · intro u u' k k' g' pc pc' hu hu'
    exact hS.unique u u' k k' g' pc pc' (hw.releasing u k g' pc hu) (hw.releasing u' k' g' pc' hu')
  · intro f' op' hf'
    rw [hfiber,Function.update_apply] at hf'
    rw [hlock,Runtime.guard,hguards]
    split at hf'
    · rw [hf'] at hplain
      cases hplain
    · exact hS.constructed f' op' hf'
  · intro f' op' popped hf'
    rw [hfiber,Function.update_apply] at hf'
    split at hf'
    · rw [hf'] at hplain
      cases hplain
    · exact hS.release f' op' popped hf'

omit [DecidableEq κ] [DecidableEq γ] in
/-- A fiber is suspended with its guard, which its worker is to release. -/
theorem Shared.suspend (hS : Shared s phase) (hv : s.worker v = .running f)
    (hf : s.fiber f = .body op) : Shared (suspend s v f op) phase := by
  have haway := hS.away
  have hhere : ∀ u k g' pc, s.worker u = .releasing k g' pc → g'.1 ≠ f := by
    intro u k g' pc hu hg
    have ha := haway u k g' pc hu
    rw [hg,hf] at ha
    cases ha
  have hback : ∀ u k g' pc, Function.update s.worker v (.parking f op) u = .releasing k g' pc →
      s.worker u = .releasing k g' pc := by
    intro u k g' pc hu
    rw [Function.update_apply] at hu
    split at hu
    · cases hu
    · exact hu
  refine ⟨hS.queued,?_,?_,?_,?_,?_,?_,?_,?_⟩
  · intro k g' r hr
    rw [hS.view k g' r hr]
    simp only [Claims,FiberSync.suspend,Runtime.setWorker,Runtime.goto,Function.update_apply]
    constructor
    · rintro (⟨hc,hn⟩ | ⟨u,hu⟩)
      · by_cases hg : g'.1 = f
        · rw [hg,hf] at hc
          cases hc
          refine .inr ⟨v,?_⟩
          rw [if_pos rfl,WorkerPc.phase,←hg,←hn]
        · exact .inl ⟨by rwa [if_neg hg],hn⟩
      · refine .inr ⟨u,?_⟩
        rw [if_neg]
        · exact hu
        · rintro rfl
          rw [hv] at hu
          cases hu
    · rintro (⟨hc,hn⟩ | ⟨u,hu⟩)
      · split at hc
        · cases hc
        · exact .inl ⟨hc,hn⟩
      · split at hu
        · cases hu
          exact .inl ⟨by rw [hf]; rfl,rfl⟩
        · exact .inr ⟨u,hu⟩
  all_goals simp only [FiberSync.suspend,Runtime.setWorker,Runtime.goto]
  · exact fun u k g' pc hu => hS.current u k g' pc (hback u k g' pc hu)
  · intro u k g' pc hu
    have hu := hback u k g' pc hu
    rw [Function.update_of_ne (hhere u k g' pc hu)]
    exact haway u k g' pc hu
  · exact fun u k g' pc hu => hS.noFault u k g' pc (hback u k g' pc hu)
  · intro u k g' pc hnew x hx
    have hu := hback u k g' pc hnew
    clear hnew
    rw [Function.update_apply] at hx
    split at hx
    · cases hx
      exact hhere u k g' pc ‹_› rfl
    · exact hS.noPark u k g' pc hu x hx
  · intro u u' k k' g' pc pc' hu hu'
    exact hS.unique u u' k k' g' pc pc' (hback u k g' pc hu) (hback u' k' g' pc' hu')
  · intro f' op' hf'
    rw [Function.update_apply] at hf'
    split at hf'
    · cases hf'
    · exact hS.constructed f' op' hf'
  · intro f' op' popped hf'
    rw [Function.update_apply] at hf'
    split at hf'
    · cases hf'
    · exact hS.release f' op' popped hf'

omit [DecidableEq ι] [DecidableEq κ] [DecidableEq γ] in
/-- The worker has parked the fiber and calls Release. -/
theorem Shared.park (hS : Shared s phase) (hp : Placed s place) (hv : s.worker v = .parking f op)
    (hfiber : s'.fiber = s.fiber) (hguards : s'.guards = s.guards) (hlock : s'.lock = s.lock)
    (hworker : s'.worker = Function.update s.worker v (.releasing op.host (s.guard f) .hasNext)) :
    Shared s' phase := by
  have hsusp := hp.op v f op hv
  have hparks : (s.worker v).parks = some f := by rw [hv]; rfl
  have honly : ∀ u, (s.worker u).parks = some f → u = v := by
    intro u hu
    have hplace := ((hp.parking u f).mp hu).symm.trans ((hp.parking v f).mp hparks)
    cases hplace
    rfl
  have hnone : ∀ u k pc, s.worker u ≠ .releasing k (s.guard f) pc :=
    fun u k pc hu => hS.noPark u k _ pc hu v hparks
  have hback : ∀ u k g' pc, s'.worker u = .releasing k g' pc →
      s.worker u = .releasing k g' pc ∨ u = v ∧ k = op.host ∧ g' = s.guard f ∧ pc = .hasNext := by
    intro u k g' pc hu
    rw [hworker,Function.update_apply] at hu
    split at hu
    next hne =>
      cases hu
      exact .inr ⟨hne,rfl,rfl,rfl⟩
    next => exact .inl hu
  have hparks' : ∀ u x, (s'.worker u).parks = some x → (s.worker u).parks = some x ∧ u ≠ v := by
    intro u x hu
    rw [hworker,Function.update_apply] at hu
    split at hu
    · cases hu
    next hne => exact ⟨hu,hne⟩
  refine ⟨by rw [hlock]; exact hS.queued,?_,?_,?_,?_,?_,?_,?_,?_⟩
  · intro k g' r hr
    rw [hS.view k g' r hr]
    have hsame : ∀ u, (s'.worker u).phase s.guards = (s.worker u).phase s.guards := by
      intro u
      rw [hworker,Function.update_apply]
      split
      next hu =>
        rw [hu,hv]
        rfl
      next => rfl
    simp only [Claims,hfiber,hguards,hsame]
  · intro u k g' pc hu
    rw [hguards]
    rcases hback u k g' pc hu with hu | ⟨-,-,rfl,-⟩
    · exact hS.current u k g' pc hu
    · rfl
  · intro u k g' pc hu
    rw [hfiber]
    rcases hback u k g' pc hu with hu | ⟨-,-,rfl,-⟩
    · exact hS.away u k g' pc hu
    · rw [Runtime.guard,hsusp]
      rfl
  · intro u k g' pc hu
    rcases hback u k g' pc hu with hu | ⟨-,-,-,rfl⟩
    · exact hS.noFault u k g' pc hu
    · rintro ⟨⟩
  · intro u k g' pc hu x hx
    obtain ⟨hx,hne⟩ := hparks' x _ hx
    rcases hback u k g' pc hu with hu | ⟨-,-,rfl,-⟩
    · exact hS.noPark u k g' pc hu x hx
    · exact hne (honly x hx)
  · intro u u' k k' g' pc pc' hu hu'
    rcases hback u k g' pc hu with hu | ⟨rfl,-,rfl,-⟩
    · rcases hback u' k' g' pc' hu' with hu' | ⟨rfl,-,rfl,-⟩
      · exact hS.unique u u' k k' g' pc pc' hu hu'
      · exact absurd hu (hnone u k pc)
    · rcases hback u' k' _ pc' hu' with hu' | ⟨rfl,-⟩
      · exact absurd hu' (hnone u' k' pc')
      · rfl
  · intro f' op' hf'
    rw [hfiber] at hf'
    rw [hlock,Runtime.guard,hguards]
    exact hS.constructed f' op' hf'
  · rw [hfiber]
    exact hS.release

omit [DecidableEq ω] in
/-- A fiber outside of the operations constructs a guard. -/
theorem Shared.call (hS : Shared s phase) (hp : Placed s place) (hf : s.fiber f = .running) :
    Shared ((s.setLock op.host ((s.lock op.host).construct (s.guard f))).goto f
      (.acquire op .exchange)) phase := by
  have hhere : (s.fiber f).away = false := by rw [hf]; rfl
  have hout : phase op.host (s.guard f) = .out := by
    refine hS.out_of_here hp hhere fun k r hr => ?_
    rw [hf] at hr
    cases hr
  have haway := hS.away
  refine ⟨?_,?_,hS.current,?_,hS.noFault,hS.noPark,hS.unique,?_,?_⟩
  · intro k
    obtain ⟨qs,hq⟩ := hS.queued op.host
    have hq' : ∃ qs, Queued ((s.lock op.host).construct (s.guard f))
        (Function.update (phase op.host) (s.guard f) .out) qs := by
      rw [←hout,Function.update_eq_self]
      exact ⟨qs,hq.construct hout⟩
    have hset := hS.queued_set hq' k
    have hsame : setPhase phase op.host (s.guard f) .out = phase := by
      rw [setPhase,←hout,Function.update_eq_self,Function.update_eq_self]
    rwa [hsame] at hset
  · intro k g' r hr
    rw [hS.view k g' r hr]
    simp only [Claims,Runtime.goto,Runtime.setLock,Function.update_apply]
    split
    next hg =>
      rw [hg,hf]
      simp only [FiberPc.phase,AcquirePc.phase]
      grind
    next => rfl
  · intro u k g' pc hu
    have ha := haway u k g' pc hu
    simp only [Runtime.goto,Runtime.setLock,Function.update_apply]
    split
    next hg =>
      rw [hg,hf] at ha
      cases ha
    next => exact ha
  · intro f' op' hf'
    simp only [Runtime.goto,Runtime.setLock,Function.update_apply] at hf' ⊢
    split at hf'
    next hne =>
      cases hf'
      simp [Lock.construct,Runtime.guard,hne]
    next hne =>
      have hold := hS.constructed f' op' hf'
      split
      next hh =>
        rw [hh] at hold
        simpa [Lock.construct,Runtime.guard,hne] using hold
      next => exact hold
  · intro f' op' popped
    simp only [Runtime.goto,Function.update_apply]
    split
    · rintro ⟨⟩
    · exact hS.release f' op' popped

omit [DecidableEq ω] [DecidableEq κ] [DecidableEq γ] in
/-- A fiber moves within its use of the guard. -/
theorem Counted.move (hC : Counted s) (hfiber : s'.fiber = Function.update s.fiber f q)
    (hparks : ∀ u x, (s'.worker u).parks = some x ↔ (s.worker u).parks = some x)
    (hguards : s'.guards = s.guards) (hreleases : s'.releases = s.releases)
    (hstale : s'.staleWrites = 0) (haway : q.away = (s.fiber f).away)
    (hreleasing : q.releasing = (s.fiber f).releasing) : Counted s' := by
  have hbefore := hC.before
  have hduring := hC.during
  have hafter := hC.after
  have hsame : ∀ f', (s'.fiber f').away = (s.fiber f').away ∧
      (s'.fiber f').releasing = (s.fiber f').releasing := by
    intro f'
    rw [hfiber,Function.update_apply]
    split
    next hf => rw [hf,haway,hreleasing]; exact ⟨rfl,rfl⟩
    next => exact ⟨rfl,rfl⟩
  refine ⟨?_,?_,?_,?_,?_,?_,hstale⟩
  all_goals simp only [Runtime.guard,hguards,hreleases,hparks,hsame,Ne]
  · exact hC.past
  · exact hC.future
  · exact hbefore
  · exact hduring
  · exact hC.parking
  · exact hafter

omit [DecidableEq ω] [DecidableEq ι] [DecidableEq κ] [DecidableEq γ] in
/-- No worker is about to park a fiber that is not suspended. -/
theorem Placed.no_parks (hp : Placed s place) (hparked : (s.fiber f).parked = false) (u : ω) :
    (s.worker u).parks ≠ some f := by
  intro hu
  have hfits := hp.fits f
  rw [(hp.parking u f).mp hu] at hfits
  rw [hfits] at hparked
  cases hparked

omit [DecidableEq ω] [DecidableEq κ] [DecidableEq γ] in
/-- The destructor of a guard calls Release. -/
theorem Counted.release (hC : Counted s) (hp : Placed s place) (hhere : (s.fiber f).away = false)
    (hbefore : (s.fiber f).releasing = false) (hq : q.releasing = true) (hqa : q.away = false) :
    Counted ((s.noteRelease (s.guard f)).goto f q) := by
  have hzero := hC.before f hhere hbefore
  have hnopark := hp.no_parks (FiberPc.not_parked_of_here hhere)
  have hold := hC.before
  have hduring := hC.during
  have hparking := hC.parking
  have hafter := hC.after
  simp only [Runtime.guard] at hzero hold hduring hparking hafter
  refine ⟨?_,?_,?_,?_,?_,?_,hC.stale⟩
  all_goals simp only [Runtime.noteRelease,Runtime.goto,Runtime.guard,Function.update_apply]
  · grind [hC.past]
  · grind [hC.future]
  · grind
  · grind
  · grind
  · grind

omit [DecidableEq ω] [DecidableEq κ] [DecidableEq γ] in
/-- The destructor of a guard ends, after one Release. -/
theorem Counted.drop (hC : Counted s) (hparked : ∀ u, (s.worker u).parks ≠ some f)
    (hone : s.releases (s.guard f) = 1) (hfiber : s'.fiber = Function.update s.fiber f q)
    (hworker : s'.worker = s.worker)
    (hguards : s'.guards = Function.update s.guards f (s.guards f + 1))
    (hreleases : s'.releases = s.releases) (hstale : s'.staleWrites = 0) (hq : q.away = false)
    (hqr : q.releasing = false) : Counted s' := by
  have hpast := hC.past
  have hfuture := hC.future
  have hparking := hC.parking
  have hone : s.releases (f,s.guards f) = 1 := hone
  simp only [Runtime.guard] at hparking
  refine ⟨?_,?_,?_,?_,?_,?_,hstale⟩
  all_goals simp only [Runtime.guard,hfiber,hworker,hguards,hreleases,Function.update_apply]
  · intro g hg
    split at hg
    next hgf =>
      by_cases hlt : g.2 < s.guards g.1
      · exact hpast g hlt
      · have he : g = (f,s.guards f) := Prod.ext hgf (by rw [hgf] at hlt; omega)
        rw [he,hone]
    next => exact hpast g hg
  · intro g hg
    split at hg
    next hgf => exact hfuture g (by rw [hgf]; omega)
    next => exact hfuture g hg
  · intro f' ha hr
    split
    next hf =>
      subst hf
      exact hfuture (f',s.guards f' + 1) (Nat.lt_succ_self _)
    next hf => exact hC.before f' (by simpa [hf] using ha) (by simpa [hf] using hr)
  · intro f' hr
    split
    next hf =>
      subst hf
      rw [if_pos rfl,hqr] at hr
      cases hr
    next hf => exact hC.during f' (by simpa [hf] using hr)
  · intro u f' hu
    have hne : f' ≠ f := by
      rintro rfl
      exact hparked u hu
    rw [if_neg hne]
    exact hparking u f' hu
  · intro f' ha hno
    split
    next hf =>
      subst hf
      rw [if_pos rfl,hq] at ha
      cases ha
    next hf => exact hC.after f' (by simpa [hf] using ha) hno

omit [DecidableEq κ] [DecidableEq γ] in
/-- A fiber is suspended before its guard is released. -/
theorem Counted.suspend (hC : Counted s) (hv : s.worker v = .running f)
    (hf : s.fiber f = .body op) :
    Counted (suspend s v f op) := by
  have hzero := hC.before f (by rw [hf]; rfl) (by rw [hf]; rfl)
  refine ⟨hC.past,hC.future,?_,?_,?_,?_,hC.stale⟩
  all_goals simp only [FiberSync.suspend,Runtime.setWorker,Runtime.goto,Function.update_apply]
  · intro f' ha hr
    split at ha
    · cases ha
    next hne => exact hC.before f' ha (by simpa [hne] using hr)
  · intro f' hr
    split at hr
    · cases hr
    · exact hC.during f' hr
  · intro u f' hu
    split at hu
    · cases hu
      exact hzero
    · exact hC.parking u f' hu
  · intro f' ha hno
    have hne : f' ≠ f := by
      rintro rfl
      exact hno v (by rw [if_pos rfl]; rfl)
    rw [if_neg hne] at ha
    refine hC.after f' ha fun u hu => hno u ?_
    rw [if_neg]
    · exact hu
    · rintro rfl
      rw [hv] at hu
      cases hu

omit [DecidableEq κ] [DecidableEq γ] in
/-- The worker parks the fiber and calls Release. -/
theorem Counted.park {w : WorkerPc ι κ γ} (hC : Counted s) (hp : Placed s place)
    (hv : s.worker v = .parking f op) (hfiber : s'.fiber = s.fiber)
    (hworker : s'.worker = Function.update s.worker v w) (hguards : s'.guards = s.guards)
    (hreleases : s'.releases = (s.noteRelease (s.guard f)).releases)
    (hstale : s'.staleWrites = s.staleWrites) (hw : w.parks = none) : Counted s' := by
  have hparks : (s.worker v).parks = some f := by rw [hv]; rfl
  have hzero := hC.parking v f hparks
  have hsusp := hp.op v f op hv
  have honly : ∀ u, (s.worker u).parks = some f → u = v := by
    intro u hu
    have hplace := ((hp.parking u f).mp hu).symm.trans ((hp.parking v f).mp hparks)
    cases hplace
    rfl
  have hne : ∀ f', f' ≠ f → s'.releases (s.guard f') = s.releases (s.guard f') := by
    intro f' hf'
    have hng : s.guard f' ≠ s.guard f := fun he => hf' (congrArg Prod.fst he)
    rw [hreleases]
    exact Function.update_of_ne hng ..
  have hself : s'.releases (s.guard f) = 1 := by
    rw [hreleases]
    simp only [Runtime.noteRelease,Function.update_self,hzero]
  have hother : ∀ g, g ≠ s.guard f → s'.releases g = s.releases g := by
    intro g hg
    rw [hreleases]
    exact Function.update_of_ne hg ..
  have hguard : ∀ f', s'.guard f' = s.guard f' := by
    intro f'
    rw [Runtime.guard,hguards,Runtime.guard]
  refine ⟨?_,?_,?_,?_,?_,?_,hstale.trans hC.stale⟩
  · intro g hg
    rw [hguards] at hg
    rw [hother g (by rintro rfl; exact absurd hg (Nat.lt_irrefl _))]
    exact hC.past g hg
  · intro g hg
    rw [hguards] at hg
    rw [hother g (by rintro rfl; exact absurd hg (Nat.lt_irrefl _))]
    exact hC.future g hg
  · intro f' ha hr
    rw [hfiber] at ha hr
    have hff : f' ≠ f := by
      rintro rfl
      rw [hsusp] at ha
      cases ha
    rw [hguard,hne f' hff]
    exact hC.before f' ha hr
  · intro f' hr
    rw [hfiber] at hr
    have hff : f' ≠ f := by
      rintro rfl
      rw [hsusp] at hr
      cases hr
    rw [hguard,hne f' hff]
    exact hC.during f' hr
  · intro u f' hu
    rw [hworker,Function.update_apply] at hu
    split at hu
    · rw [hw] at hu
      cases hu
    next huv =>
      have hff : f' ≠ f := by
        rintro rfl
        exact huv (honly u hu)
      rw [hguard,hne f' hff]
      exact hC.parking u f' hu
  · intro f' ha hno
    rw [hfiber] at ha
    rw [hguard]
    by_cases hff : f' = f
    · rw [hff]
      exact hself
    · rw [hne f' hff]
      refine hC.after f' ha fun u hu => hno u ?_
      have huv : u ≠ v := by
        rintro rfl
        rw [hparks] at hu
        cases hu
        exact hff rfl
      rw [hworker,Function.update_of_ne huv]
      exact hu

omit [DecidableEq ω] [DecidableEq ι] [DecidableEq κ] [DecidableEq γ] in
/-- The phase of a guard is that of its fiber. -/
theorem Shared.phase_of (hS : Shared s phase) (hp : Placed s place)
    (hhere : (s.fiber f).away = false) (hf : (s.fiber f).phase = some (h,p)) :
    phase h (s.guard f) = p := by
  by_cases hr : p = .out
  · rw [hr]
    refine hS.out_of_here hp hhere fun k r' hk => ?_
    rw [hf,hr] at hk
    cases hk
    rfl
  · exact (hS.view h _ p hr).mpr (.inl ⟨hf,rfl⟩)

omit [DecidableEq ω] [DecidableEq ι] [DecidableEq κ] [DecidableEq γ] in
/-- A write to a guard that is not destroyed is not stale. -/
theorem Counted.write {written : Option (ι × ℕ)} (hC : Counted s)
    (halive : ∀ g', written = some g' → g'.2 = s.guards g'.1) :
    (s.noteWrite written).staleWrites = 0 := by
  cases written with
  | none => exact hC.stale
  | some g =>
    simp only [Runtime.noteWrite]
    rw [if_neg]
    · exact hC.stale
    · rw [halive g rfl]
      exact Nat.lt_irrefl _

omit [DecidableEq ω] [DecidableEq ι] [DecidableEq κ] [DecidableEq γ] in
/-- A step of Release writes guards that are in use. -/
theorem Shared.release_alive {pc : ReleasePc (ι × ℕ)} (hS : Shared s phase)
    (hg : phase h g = pc.phase) (g' : ι × ℕ) (hw : pc.writes g = some g') :
    g'.2 = s.guards g'.1 := by
  obtain ⟨qs,hq⟩ := hS.queued h
  cases pc with
  | setOwner n =>
    cases hw
    refine hS.alive (h := h) ?_
    rw [hq.next_waiting hg]
    rintro ⟨⟩
  | clear =>
    cases hw
    refine hS.alive (h := h) ?_
    rw [hg]
    rintro ⟨⟩
  | hasNext | cas | hasNextAgain | loadNext | returned | fault => cases hw

omit [DecidableEq ω] in
/-- A step of Acquire. -/
theorem steady_acquire {pc : AcquirePc (ι × ℕ)} (hp : Placed s place) (hS : Shared s phase)
    (hC : Counted s) (hf : s.fiber f = .acquire op pc)
    (hq : q = match ((s.lock op.host).acquire (s.guard f) pc).2 with
      | .returned => .body op
      | pc' => .acquire op pc') :
    ∃ phase', Shared (((s.noteWrite (pc.writes (s.guard f))).setLock op.host
      ((s.lock op.host).acquire (s.guard f) pc).1).goto f q) phase' ∧
      Counted (((s.noteWrite (pc.writes (s.guard f))).setLock op.host
      ((s.lock op.host).acquire (s.guard f) pc).1).goto f q) := by
  have hhere : (s.fiber f).away = false := by rw [hf]; rfl
  have hfphase : (s.fiber f).phase = some (op.host,pc.phase) := by rw [hf]; rfl
  have hphase := hS.phase_of hp hhere hfphase
  obtain ⟨qs,hqs⟩ := hS.queued op.host
  have hqueue := hqs.acquire hphase fun he => hS.constructed f op (by rw [hf,he])
  have hqphase : q.phase = some (op.host,((s.lock op.host).acquire (s.guard f) pc).2.phase) := by
    rw [hq]
    split
    next he => rw [he]; rfl
    next => rfl
  have hqaway : q.away = false := by
    rw [hq]
    split <;> rfl
  have hqrel : q.releasing = false := by
    rw [hq]
    split <;> rfl
  have hexchange : ∀ op', q ≠ .acquire op' .exchange := by
    intro op' he
    have hne := acquire_ne_exchange (s.lock op.host) (s.guard f) pc
    rw [hq] at he
    split at he
    · cases he
    · exact hne (FiberPc.acquire.inj he).2
  refine ⟨_,hS.fiberLock hp hhere hfphase hqphase hexchange ?_ rfl rfl rfl rfl ?_ ⟨_,hqueue⟩,?_⟩
  · rintro op' popped rfl
    cases hqrel
  · exact fun g' hg' => hqs.acquire_next hphase hg'
  · refine hC.move rfl (fun _ _ => Iff.rfl) rfl rfl (hC.write ?_) (by rw [hqaway,hhere])
      (by rw [hqrel,hf]; rfl)
    intro g' hw
    cases pc with
    | setOwner =>
      cases hw
      rfl
    | setNext ancestor =>
      cases hw
      refine hS.alive (h := op.host) ?_
      have hqueued := hqs.ancestor_queued hphase
      intro hout
      rw [hout] at hqueued
      cases hqueued
    | exchange | spin | returned => cases hw

/-- A step of Release in the destructor of a guard. -/
theorem steady_release {pc : ReleasePc (ι × ℕ)} {popped : List ι} {spurious : Bool}
    (hp : Placed s place) (hS : Shared s phase) (hC : Counted s)
    (hf : s.fiber f = .release op popped pc)
    (hs : fiberStep s v f spurious = some s') : ∃ phase', Shared s' phase' ∧ Counted s' := by
  have hhere : (s.fiber f).away = false := by rw [hf]; rfl
  have hfphase : (s.fiber f).phase = some (op.host,pc.phase) := by rw [hf]; rfl
  have hphase := hS.phase_of hp hhere hfphase
  have hpc : pc ≠ .fault := by
    rintro rfl
    exact hS.release f op popped hf
  obtain ⟨qs,hqs⟩ := hS.queued op.host
  obtain ⟨hfault,hqueue⟩ := hqs.release spurious hphase hpc
  have hnext := release_next (s.lock op.host) (s.guard f) spurious pc
  have hstale := hC.write (hS.release_alive hphase)
  simp only [fiberStep,hf] at hs
  split at hs <;> cases hs
  next hret =>
    rw [hret] at hqueue
    have hno : ∀ k r u, (s.worker u).phase s.guards ≠ some (k,s.guard f,r) :=
      fun k r u => hS.no_claim_of_here hp hhere u
    have hparked := FiberPc.not_parked_of_here hhere
    refine ⟨_,hS.drop hp hparked hno ?_ ?_ rfl rfl rfl rfl hnext ⟨_,hqueue⟩,?_⟩
    · intro k r hk
      rw [hfphase] at hk
      cases hk
      rfl
    · cases popped <;> rfl
    · refine hC.drop (hp.no_parks hparked) (hC.during f (by rw [hf]; rfl)) rfl rfl rfl
        rfl hstale ?_ ?_
      · cases popped <;> rfl
      · cases popped <;> rfl
  next pc' hne =>
    refine ⟨_,hS.fiberLock hp hhere hfphase rfl ?_ ?_ rfl rfl rfl rfl ?_ ⟨_,hqueue⟩,?_⟩
    · rintro _ ⟨⟩
    · intro op' popped' he
      exact hfault (FiberPc.release.inj he).2.2
    · exact fun g' _ => congrFun hnext g'
    · exact hC.move rfl (fun _ _ => Iff.rfl) rfl rfl hstale (by rw [hf]; rfl) (by rw [hf]; rfl)

omit [DecidableEq ω] in
/-- The destructor of a guard loads is_owner: it is set after a section, and
cleared after AwaitSuspend. -/
theorem steady_destroy (hp : Placed s place) (hS : Shared s phase) (hC : Counted s)
    {popped : List ι}
    (hf : s.fiber f = .destroy op popped ∨ s.fiber f = .resumed op ∧ popped = [] ∧
      ∀ u k pc, s.worker u ≠ .releasing k (s.guard f) pc) :
    ∃ phase', Shared (destroyGuard s f op popped) phase' ∧
    Counted (destroyGuard s f op popped) := by
  obtain ⟨qs,hqs⟩ := hS.queued op.host
  rcases hf with hf | ⟨hf,rfl,hfree⟩
  · have hhere : (s.fiber f).away = false := by rw [hf]; rfl
    have hphase := hS.phase_of (h := op.host) (p := .holding) hp hhere (by rw [hf]; rfl)
    have hown : (s.lock op.host).isOwner (s.guard f) = true := by
      have hhead := hqs.head_of (g := s.guard f) (by rw [hphase]; rfl) (by rw [hphase]; rfl)
      exact (hqs.owner _).mpr (.inr ⟨hhead,by rw [hphase]; rintro ⟨⟩⟩)
    rw [destroyGuard,if_pos hown]
    refine ⟨phase,?_,hC.release hp hhere (by rw [hf]; rfl) rfl rfl⟩
    exact hS.move rfl (.same rfl) rfl rfl (by rw [hf]; rfl) (by rw [hf]; rfl) rfl
  · have hparked : (s.fiber f).parked = false := by rw [hf]; rfl
    have hno : ∀ k r u, (s.worker u).phase s.guards ≠ some (k,s.guard f,r) :=
      fun k r u => hS.no_claim hp hparked (fun _ => hfree) u
    have hphase : phase op.host (s.guard f) = .out := by
      refine hS.out fun r hr hclaim => ?_
      rcases hclaim with ⟨hc,-⟩ | ⟨u,hu⟩
      · rw [show (s.guard f).1 = f from rfl,hf] at hc
        cases hc
      · exact hno _ _ u hu
    have hown : ¬(s.lock op.host).isOwner (s.guard f) = true := by
      rw [hqs.owner,hphase]
      rintro (hc | ⟨hc,-⟩)
      · cases hc
      · have hmem := (hqs.mem _).mp (List.mem_of_getElem? hc)
        rw [hphase] at hmem
        cases hmem
    rw [destroyGuard,if_neg hown]
    refine ⟨_,hS.drop (h := op.host) (l := s.lock op.host) hp hparked hno ?_ rfl rfl rfl
      rfl ?_ rfl ?_,?_⟩
    · intro k r hk
      rw [hf] at hk
      cases hk
    · exact (Function.update_eq_self ..).symm
    · rw [←hphase,Function.update_eq_self]
      exact ⟨qs,hqs⟩
    · exact hC.drop (hp.no_parks hparked)
        (hC.after f (by rw [hf]; rfl) (hp.no_parks hparked)) rfl rfl
        rfl rfl hC.stale rfl rfl

omit [DecidableEq ι] [DecidableEq κ] [DecidableEq γ] in
/-- A worker without a guard moves on without one. -/
theorem Undisturbed.update {w : WorkerPc ι κ γ} (hworker : s'.worker = Function.update s.worker v w)
    (hv : (s.worker v).free = true) (hw : w.free = true) : Undisturbed s s' := by
  have hnone : ∀ w : WorkerPc ι κ γ, w.free = true → w.phase s.guards = none ∧ w.parks = none ∧
      ∀ k g' pc, w ≠ .releasing k g' pc := by
    intro w hw
    cases w with
    | idle | running f => exact ⟨rfl,rfl,by rintro _ _ _ ⟨⟩⟩
    | parking f op | releasing h g pc => cases hw
  constructor
  · intro u
    rw [hworker,Function.update_apply]
    split
    next hu => rw [hu,(hnone _ hv).1,(hnone _ hw).1]
    next => rfl
  · intro u k g' pc hu
    rw [hworker,Function.update_apply] at hu
    split at hu
    · exact absurd hu ((hnone _ hw).2.2 k g' pc)
    · exact hu
  · intro u x
    rw [hworker,Function.update_apply]
    split
    next hu => rw [hu,(hnone _ hv).2.1,(hnone _ hw).2.1]
    next => rfl

omit [DecidableEq ω] [DecidableEq κ] [DecidableEq γ] in
/-- A fiber moves within its use of the guard. -/
theorem steady_move (hS : Shared s phase) (hC : Counted s) (hf : s.fiber f = r)
    (hfiber : s'.fiber = Function.update s.fiber f q) (hq : r.Keeps q) (hw : Undisturbed s s')
    (hframe : (s'.guards,s'.lock,s'.releases,s'.staleWrites) =
      (s.guards,s.lock,s.releases,s.staleWrites)) : Shared s' phase ∧ Counted s' := by
  simp only [Prod.mk.injEq] at hframe
  obtain ⟨hguards,hlock,hreleases,hstale⟩ := hframe
  subst hf
  constructor
  · exact hS.move hfiber hw hguards hlock hq.phase hq.away hq.plain
  · exact hC.move hfiber hw.parks hguards hreleases (hstale.trans hC.stale) hq.away hq.releasing

/-- The sections under the spinlock. -/
theorem steady_runBody (hS : Shared s phase) (hC : Counted s) (hv : s.worker v = .running f)
    (hf : s.fiber f = .body op) : Shared (runBody s v f op) phase ∧ Counted (runBody s v f op) := by
  have hdestroy : ∀ (s' : Runtime ω ι κ γ) popped,
      s'.fiber = Function.update s.fiber f (.destroy op popped) → s'.worker = s.worker →
      (s'.guards,s'.lock,s'.releases,s'.staleWrites) =
        (s.guards,s.lock,s.releases,s.staleWrites) → Shared s' phase ∧ Counted s' := by
    intro s' popped hfiber hworker hframe
    exact steady_move hS hC hf hfiber ⟨rfl,rfl,rfl,rfl⟩ (.same hworker) hframe
  unfold runBody
  cases op with
  | lock m =>
    simp only
    split
    · exact ⟨hS.suspend hv hf,hC.suspend hv hf⟩
    · exact hdestroy _ _ rfl rfl rfl
  | unlock m =>
    simp only
    split
    · exact hdestroy _ _ rfl rfl rfl
    · exact hdestroy _ _ rfl rfl rfl
  | add w amount => exact hdestroy _ _ rfl rfl rfl
  | done w =>
    simp only
    split
    · exact hdestroy _ _ rfl rfl rfl
    · exact hdestroy _ _ rfl rfl rfl
  | wait w =>
    simp only
    split
    · exact ⟨hS.suspend hv hf,hC.suspend hv hf⟩
    · exact hdestroy _ _ rfl rfl rfl

/-- The steps of a fiber. -/
theorem steady_fiberStep {spurious : Bool} (hp : Placed s place) (hS : Shared s phase)
    (hC : Counted s) (hv : s.worker v = .running f)
    (hcleared : ∀ op, s.fiber f = .resumed op → ∀ u k pc, s.worker u ≠ .releasing k (s.guard f) pc)
    (hs : fiberStep s v f spurious = some s') : ∃ phase', Shared s' phase' ∧ Counted s' := by
  cases hf : s.fiber f with
  | fresh | ready | running | suspended op | done => simp [fiberStep,hf] at hs
  | acquire op pc =>
    simp only [fiberStep,hf,Option.some.injEq] at hs
    subst hs
    exact steady_acquire hp hS hC hf rfl
  | body op =>
    simp only [fiberStep,hf,Option.some.injEq] at hs
    subst hs
    exact ⟨phase,steady_runBody hS hC hv hf⟩
  | resumed op =>
    simp only [fiberStep,hf,Option.some.injEq] at hs
    subst hs
    exact steady_destroy hp hS hC (.inr ⟨hf,rfl,hcleared op hf⟩)
  | destroy op popped =>
    simp only [fiberStep,hf,Option.some.injEq] at hs
    subst hs
    exact steady_destroy hp hS hC (.inl hf)
  | release op popped pc => exact steady_release hp hS hC hf hs
  | schedule popped =>
    cases popped with
    | nil =>
      simp only [fiberStep,hf,Option.some.injEq] at hs
      subst hs
      exact ⟨phase,steady_move hS hC hf rfl ⟨rfl,rfl,rfl,rfl⟩ (.same rfl) rfl⟩
    | cons w rest =>
      simp only [fiberStep,hf,Option.some.injEq] at hs
      subst hs
      exact ⟨phase,steady_move hS hC hf rfl (.afterwards rest) (.same rfl) rfl⟩

/-- A step of Release in AwaitSuspend. -/
theorem steady_releasing {pc : ReleasePc (ι × ℕ)} {spurious : Bool} {w : WorkerPc ι κ γ}
    (hp : Placed s place) (hS : Shared s phase) (hC : Counted s)
    (hv : s.worker v = .releasing h g pc)
    (hw : w = match ((s.lock h).release g spurious pc).2 with
      | .returned => .idle
      | pc' => .releasing h g pc') :
    ∃ phase', Shared (((s.noteWrite (pc.writes g)).setLock h
      ((s.lock h).release g spurious pc).1).setWorker v w) phase' ∧
      Counted (((s.noteWrite (pc.writes g)).setLock h
        ((s.lock h).release g spurious pc).1).setWorker v w) := by
  have hphase := hS.phase_of_worker hv
  obtain ⟨qs,hqs⟩ := hS.queued h
  obtain ⟨hfault,hqueue⟩ := hqs.release spurious hphase (hS.noFault v h g pc hv)
  have hstale := hC.write (hS.release_alive hphase)
  have hparks : w.parks = none := by
    rw [hw]
    split <;> rfl
  have hcases : w = .idle ∧ ((s.lock h).release g spurious pc).2.phase = .out ∨
      ∃ pc', w = .releasing h g pc' ∧ ((s.lock h).release g spurious pc).2.phase = pc'.phase ∧
        pc' ≠ .fault := by
    split at hw
    next he => exact .inl ⟨hw,by rw [he]; rfl⟩
    next => exact .inr ⟨_,hw,rfl,hfault⟩
  refine ⟨_,hS.workerLock hp hv hcases rfl rfl rfl rfl (release_next ..) ⟨_,hqueue⟩,?_⟩
  refine hC.move (f := g.1) (q := s.fiber g.1) (Function.update_eq_self ..).symm ?_ rfl
    rfl hstale rfl rfl
  intro u x
  simp only [Runtime.setWorker,Runtime.setLock,Runtime.noteWrite,Function.update_apply]
  split
  next hu =>
    rw [hparks,hu,hv]
    rfl
  next => rfl

/-- Every step that meets the condition keeps the queues and the counts. -/
theorem steady_step {a : Action ω ι κ γ} (hp : Placed s place) (hS : Shared s phase)
    (hC : Counted s) (ha : Cleared s a) (hs : step s a = some s') :
    ∃ phase', Shared s' phase' ∧ Counted s' := by
  cases a with
  | submit f =>
    simp only [step] at hs
    split at hs <;> cases hs
    next hf =>
      exact ⟨phase,steady_move hS hC hf rfl ⟨rfl,rfl,rfl,rfl⟩ (.same rfl) rfl⟩
  | take v =>
    simp only [step] at hs
    split at hs
    next f rest hv ht =>
      split at hs <;> cases hs
      next hf =>
        exact ⟨phase,steady_move hS hC hf rfl ⟨rfl,rfl,rfl,rfl⟩
          (.update rfl (by rw [hv]; rfl) rfl) rfl⟩
      next op hf =>
        exact ⟨phase,steady_move hS hC hf rfl ⟨rfl,rfl,rfl,rfl⟩
          (.update rfl (by rw [hv]; rfl) rfl) rfl⟩
    next => cases hs
  | call v op =>
    simp only [step] at hs
    split at hs
    next f hv =>
      split at hs <;> cases hs
      next hf =>
        exact ⟨phase,hS.call hp hf.1,hC.move rfl (fun _ _ => Iff.rfl) rfl rfl hC.stale
          (by rw [hf.1]; rfl) (by rw [hf.1]; rfl)⟩
    next => cases hs
  | step v spurious =>
    simp only [step,workerStep] at hs
    split at hs
    next => cases hs
    next f hv =>
      refine steady_fiberStep hp hS hC hv (fun op hf u k pc hu => ?_) hs
      refine ha f hv (by rw [hf]; rfl) u ?_
      rw [hu]
      rfl
    next f op hv =>
      cases hs
      exact ⟨phase,hS.park hp hv rfl rfl rfl rfl,hC.park hp hv rfl rfl rfl rfl rfl rfl⟩
    next h g pc hv =>
      cases hs
      exact steady_releasing hp hS hC hv rfl
  | finish v =>
    simp only [step] at hs
    split at hs
    next f hv =>
      split at hs <;> cases hs
      next hf =>
        exact ⟨phase,steady_move hS hC hf rfl ⟨rfl,rfl,rfl,rfl⟩
          (.update rfl (by rw [hv]; rfl) rfl) rfl⟩
    next => cases hs

end Steps

section Runs

variable {s : Runtime ω ι κ γ}

/-- Every state of a run whose destructors come after the flag is cleared has
intact queues and counts. -/
theorem steady_reachable (hr : (fibers ω ι κ γ).ReachableUnder Cleared s) :
    (∃ place, Placed s place) ∧ ∃ phase, Shared s phase ∧ Counted s := by
  refine System.ReachableUnder.invariant ?_ ?_ hr
  · refine ⟨placed_reachable .start,fun _ _ => .out,?_,?_⟩
    · constructor
      case queued => exact fun _ => ⟨[],queued_new⟩
      case view =>
        intro h g p hp
        simp [Claims,fibers,initial,FiberPc.phase,WorkerPc.phase,hp.symm]
      all_goals simp [fibers,initial]
    · constructor <;> simp [fibers,initial,FiberPc.releasing,FiberPc.away,WorkerPc.parks]
  · rintro s a s' _ ⟨⟨place,hp⟩,phase,hS,hC⟩ ha hs
    exact ⟨placed_step hp hs,steady_step hp hS hC ha hs⟩

omit [DecidableEq ω] [DecidableEq ι] [DecidableEq κ] [DecidableEq γ] in
/-- The current guard of a fiber was released at most once. -/
theorem Counted.current_le (hC : Counted s) (f : ι) : s.releases (s.guard f) ≤ 1 := by
  by_cases hpark : ∃ v, (s.worker v).parks = some f
  · obtain ⟨v,hv⟩ := hpark
    have hzero := hC.parking v f hv
    omega
  · rw [not_exists] at hpark
    cases ha : (s.fiber f).away with
    | true => exact Nat.le_of_eq (hC.after f ha hpark)
    | false =>
      cases hr : (s.fiber f).releasing with
      | true => exact Nat.le_of_eq (hC.during f hr)
      | false =>
        have hzero := hC.before f ha hr
        omega

/-- In every run in which a resumed fiber destroys its guard only after the
worker that suspended it is done with the guard, every guard is released once
and not written after its destructor. -/
theorem guards_released_once (hr : (fibers ω ι κ γ).ReachableUnder Cleared s) : ReleasedOnce s := by
  obtain ⟨⟨place,hp⟩,phase,hS,hC⟩ := steady_reachable hr
  refine ⟨?_,hC.past,?_,hC.stale⟩
  · intro g
    rcases Nat.lt_trichotomy g.2 (s.guards g.1) with hlt | heq | hgt
    · exact Nat.le_of_eq (hC.past g hlt)
    · have hg : g = s.guard g.1 := Prod.ext rfl heq
      rw [hg]
      exact hC.current_le g.1
    · rw [hC.future g hgt]
      exact Nat.zero_le 1
  · intro f op hf
    exact hC.after f (by rw [hf]; rfl) (hp.no_parks (by rw [hf]; rfl))

end Runs

instance [Fintype ω] [Fintype ι] (s : Runtime ω ι κ γ) : ∀ a, Decidable (Cleared s a)
  | .step v _ => inferInstanceAs (Decidable (∀ f, s.worker v = .running f →
      (s.fiber f).returning = true → ∀ u, (s.worker u).guard ≠ some (s.guard f)))
  | .submit _ | .take _ | .call .. | .finish _ => isTrue trivial

/-- A worker takes a number of steps. -/
def steps {ω ι κ γ : Type*} (v : ω) (n : ℕ) : List (Action ω ι κ γ) :=
  List.replicate n (.step v false)

/-- Fiber 1 locks the mutex, fiber 0 parks in Lock on worker 0, and fiber 1
unlocks it and schedules fiber 0; worker 0 has handed the spinlock on and not
cleared the flag. -/
def handOff : List (Action (Fin 3) (Fin 2) (Fin 1) (Fin 1)) :=
  [[.submit 0,.submit 1,.take 0,.take 1,.call 1 (.lock 0)],steps 1 7,[.call 0 (.lock 0)],steps 0 6,
    [.call 1 (.unlock 0)],steps 1 8,[.take 2]].flatten

/-- Worker 0 clears the flag and fiber 0 leaves its Lock on worker 2. -/
theorem handOff_clears :
    (fibers (Fin 3) (Fin 2) (Fin 1) (Fin 1)).Ends (initial (Fin 3) (Fin 2) (Fin 1) (Fin 1))
      (handOff ++ [.step 0 false,.step 2 false])
      fun s => s.fiber 0 = .running ∧ s.guards 0 = 1 ∧ s.releases (0,0) = 1 := by
  decide +kernel

theorem handOff_cleared :
    (fibers (Fin 3) (Fin 2) (Fin 1) (Fin 1)).Meets Cleared (initial (Fin 3) (Fin 2) (Fin 1) (Fin 1))
      (handOff ++ [.step 0 false,.step 2 false]) := by
  decide +kernel

theorem guards_released_once_handOff :
    ∃ s, (fibers (Fin 3) (Fin 2) (Fin 1) (Fin 1)).ReachableUnder Cleared s ∧
      (s.fiber 0 = .running ∧ s.guards 0 = 1 ∧ s.releases (0,0) = 1) ∧ ReleasedOnce s := by
  obtain ⟨s,hr,hend⟩ := handOff_clears.reachableUnder handOff_cleared
  exact ⟨s,hr,hend,guards_released_once hr⟩

/-- Fiber 0 destroys its guard before worker 0 clears the flag, and releases
it a second time. -/
theorem handOff_destroys :
    (fibers (Fin 3) (Fin 2) (Fin 1) (Fin 1)).Ends (initial (Fin 3) (Fin 2) (Fin 1) (Fin 1))
      (handOff ++ [.step 2 false]) fun s => s.releases (0,0) = 2 := by
  decide +kernel

theorem guard_released_twice :
    ¬∀ s, (fibers (Fin 3) (Fin 2) (Fin 1) (Fin 1)).Reachable s → ReleasedOnce s := by
  intro hall
  obtain ⟨s,hr,htwo⟩ := handOff_destroys.reachable
  have honce := (hall s hr).once (0,0)
  omega

/-- The condition leaves out nothing harmless: a resumed fiber that destroys
its guard while the worker is about to clear the flag releases it again. -/
theorem early_destructor_releases {s : Runtime ω ι κ γ} {u v : ω} {f : ι} {op : Op κ γ}
    (hr : (fibers ω ι κ γ).ReachableUnder Cleared s)
    (hu : s.worker u = .releasing op.host (s.guard f) .clear) (hv : s.worker v = .running f)
    (hf : s.fiber f = .resumed op) :
    ∃ s', (fibers ω ι κ γ).step s (.step v false) = some s' ∧ ¬ReleasedOnce s' := by
  obtain ⟨⟨place,hp⟩,phase,hS,hC⟩ := steady_reachable hr
  obtain ⟨qs,hqs⟩ := hS.queued op.host
  have hown : (s.lock op.host).isOwner (s.guard f) = true :=
    (hqs.owner _).mpr (.inl (hS.phase_of_worker hu))
  have hone := hC.after f (by rw [hf]; rfl) (hp.no_parks (by rw [hf]; rfl))
  refine ⟨(s.noteRelease (s.guard f)).goto f (.release op [] .hasNext),?_,fun h => ?_⟩
  · simp [fibers,step,workerStep,fiberStep,destroyGuard,hv,hf,hown]
  · have honce := h.once (s.guard f)
    simp [Runtime.goto,Runtime.noteRelease,hone] at honce

end ConcurrencyRuntime.FiberSync
