import ConcurrencyRuntime.TransitionSystem

/-!
# Counting the steps of a run

A weight charges every step by the state before it and the action taken. What a
run costs is bounded by what it is credited with, when each step pays its cost out
of its credit and of what a potential of the state goes down by.
-/

namespace ConcurrencyRuntime.TransitionSystem

variable {State Action : Type*}

/-- The weight of the steps that a schedule executes. -/
def System.total (M : System State Action) (weight : State → Action → ℕ) :
    State → List Action → ℕ
  | _,[] => 0
  | s,a :: rest =>
    match M.step s a with
    | some s' => weight s a + M.total weight s' rest
    | none => 0

/-- Two weights charged together. -/
theorem System.total_add (M : System State Action) (f g : State → Action → ℕ) (s : State)
    (acts : List Action) :
    M.total (fun s a => f s a + g s a) s acts = M.total f s acts + M.total g s acts := by
  induction acts generalizing s with
  | nil => rfl
  | cons a rest ih =>
    cases hs : M.step s a with
    | none => simp [System.total,hs]
    | some t =>
      simp only [System.total,hs,ih]
      omega

/-- A weight charged several times. -/
theorem System.total_mul (M : System State Action) (n : ℕ) (f : State → Action → ℕ) (s : State)
    (acts : List Action) :
    M.total (fun s a => n * f s a) s acts = n * M.total f s acts := by
  induction acts generalizing s with
  | nil => rfl
  | cons a rest ih =>
    cases hs : M.step s a with
    | none => simp [System.total,hs]
    | some t => simp only [System.total,hs,ih,Nat.mul_add]

/-- The potential rule: each admitted step pays its cost out of its credit and of
the potential that it uses up. -/
theorem System.total_le {M : System State Action} {Allowed : State → Action → Prop}
    {Inv : State → Prop} {cost credit : State → Action → ℕ} (potential : State → ℕ)
    (hinv : ∀ s a s', Inv s → Allowed s a → M.step s a = some s' → Inv s')
    (hpay : ∀ s a s', Inv s → Allowed s a → M.step s a = some s' →
      cost s a + potential s' ≤ potential s + credit s a)
    {acts : List Action} {s s' : State} (hi : Inv s) (hm : M.Meets Allowed s acts)
    (hr : M.run s acts = some s') :
    M.total cost s acts + potential s' ≤ potential s + M.total credit s acts := by
  induction acts generalizing s with
  | nil =>
    cases hr
    simp [System.total]
  | cons a rest ih =>
    cases hs : M.step s a with
    | none => simp [System.run,hs] at hr
    | some t =>
      rw [System.run,hs] at hr
      rw [System.Meets,hs] at hm
      have hone := hpay s a t hi hm.1 hs
      have hrest := ih (hinv s a t hi hm.1 hs) hm.2 hr
      simp only [System.total,hs]
      omega

/-- The potential rule for steps that pay in any state. -/
theorem System.total_le_of_forall {M : System State Action} {cost credit : State → Action → ℕ}
    (potential : State → ℕ)
    (hpay : ∀ s a s', M.step s a = some s' → cost s a + potential s' ≤ potential s + credit s a)
    {acts : List Action} {s s' : State} (hr : M.run s acts = some s') :
    M.total cost s acts + potential s' ≤ potential s + M.total credit s acts := by
  have hinv : ∀ s a s', True → True → M.step s a = some s' → True := fun _ _ _ _ _ _ => trivial
  have hmeets : M.Meets (fun _ _ => True) s acts :=
    System.meets_of_forall (fun _ _ => trivial) s acts
  exact System.total_le potential hinv (fun s a s' _ _ hs => hpay s a s' hs) trivial hmeets hr

end ConcurrencyRuntime.TransitionSystem
