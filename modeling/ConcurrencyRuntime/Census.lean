import Mathlib

/-!
# A census over any number of keys

How many keys of a table are in a condition. There may be infinitely many keys, of
which one changes at a time, and the count goes up or down by one, or stays.
-/

namespace ConcurrencyRuntime.Census

variable {κ α : Type*} {P : α → Prop} {f : κ → α} {k : κ} {a : α}

/-- The number of keys whose entry is in the condition. -/
noncomputable def census (P : α → Prop) (f : κ → α) : ℕ∞ := Set.encard {k | P (f k)}

/-- Nobody is counted when nobody is in the condition. -/
theorem census_eq_zero : census P f = 0 ↔ ∀ k, ¬P (f k) := by
  rw [census,Set.encard_eq_zero,Set.eq_empty_iff_forall_notMem]
  rfl

/-- When one is counted, it is one key. -/
theorem census_eq_one (h : census P f = 1) : ∃ k, P (f k) ∧ ∀ k', P (f k') → k' = k := by
  obtain ⟨k,hk⟩ := Set.encard_eq_one.mp h
  have hmem : ∀ k', P (f k') ↔ k' = k := fun k' => Set.ext_iff.mp hk k'
  exact ⟨k,(hmem k).mpr rfl,fun k' => (hmem k').mp⟩

/-- Fewer are in a stronger condition. -/
theorem census_le {β : Type*} {Q : β → Prop} {g : κ → β} (h : ∀ k, P (f k) → Q (g k)) :
    census P f ≤ census Q g :=
  Set.encard_le_encard fun k hk => h k hk

variable [DecidableEq κ]

/-- A key comes into the condition. -/
theorem census_enter (hk : ¬P (f k)) (ha : P a) :
    census P (Function.update f k a) = census P f + 1 := by
  have hset : {j | P (Function.update f k a j)} = insert k {j | P (f j)} := by
    ext j
    by_cases hj : j = k
    · subst hj
      simp [ha]
    · simp [hj]
  have hout : k ∉ {j | P (f j)} := hk
  rw [census,hset,Set.encard_insert_of_notMem hout]
  rfl

/-- A key stays in the condition, or outside of it. -/
theorem census_stay (h : P a ↔ P (f k)) : census P (Function.update f k a) = census P f := by
  refine congrArg Set.encard (Set.ext ?_)
  intro j
  by_cases hj : j = k
  · subst hj
    simp [h]
  · simp [hj]

/-- One entry changes, and at most one more is counted. -/
theorem census_update_le (P : α → Prop) (f : κ → α) (k : κ) (a : α) :
    census P (Function.update f k a) ≤ census P f + 1 := by
  refine le_trans (Set.encard_le_encard ?_) (Set.encard_insert_le {j | P (f j)} k)
  intro j hj
  by_cases he : j = k
  · exact Or.inl he
  · refine Or.inr ?_
    simpa [he] using hj

/-- A key leaves the condition. -/
theorem census_leave (hk : P (f k)) (ha : ¬P a) :
    census P f = census P (Function.update f k a) + 1 := by
  have henter := census_enter (f := Function.update f k a) (k := k) (P := P) (a := f k)
    (by rwa [Function.update_self]) hk
  rwa [Function.update_idem,Function.update_eq_self] at henter

variable {V : Type*} [DecidableEq V] {g : κ → Option V} {w : V}

/-- A key that had no value gets one. -/
theorem census_put (hk : g k = none) (w v : V) :
    census (fun x => x = some v) (Function.update g k (some w)) =
      census (fun x => x = some v) g + if w = v then 1 else 0 := by
  split
  next he => exact census_enter (by rw [hk]; rintro ⟨⟩) (congrArg some he)
  next he =>
    rw [add_zero]
    refine census_stay ⟨fun h => absurd (Option.some.inj h) he,fun h => ?_⟩
    rw [hk] at h
    cases h

/-- A key loses its value. -/
theorem census_drop (hk : g k = some w) (v : V) :
    census (fun x => x = some v) g =
      (census (fun x => x = some v) (Function.update g k none) + if w = v then 1 else 0) := by
  have hput := census_put (g := Function.update g k none) (k := k) (Function.update_self ..) w v
  rwa [Function.update_idem,←hk,Function.update_eq_self] at hput

end ConcurrencyRuntime.Census
