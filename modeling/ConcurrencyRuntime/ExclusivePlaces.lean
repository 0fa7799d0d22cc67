import Mathlib

/-!
# Tokens in exclusive places

Places hold lists of tokens. The places are exclusive when no token is in two
places or twice in one. Steps of a system take a token away, put a new one
somewhere, carry one from a place to another, or carry all of them.
-/

namespace ConcurrencyRuntime.ExclusivePlaces

/-- Every token is in at most one place, and at most once. -/
structure Exclusive {P T : Type*} (c : P → List T) : Prop where
  nodup : ∀ p, (c p).Nodup
  unique : ∀ p q t, t ∈ c p → t ∈ c q → p = q

variable {P T : Type*} [DecidableEq P] {c : P → List T} {p q : P} {t : T} {rest : List T}

omit [DecidableEq P] in
/-- Nothing is anywhere. -/
theorem exclusive_empty : Exclusive fun _ : P => ([] : List T) :=
  ⟨fun _ => List.nodup_nil,by rintro _ _ _ ⟨⟩⟩

/-- A place keeps some of its tokens. -/
theorem Exclusive.keep (h : Exclusive c) (hsub : rest.Subperm (c p)) :
    Exclusive (Function.update c p rest) := by
  have hmem : ∀ r u, u ∈ Function.update c p rest r → u ∈ c r := by
    intro r u hu
    rcases eq_or_ne r p with rfl | hne
    · rw [Function.update_self] at hu
      exact hsub.subset hu
    · rwa [Function.update_of_ne hne] at hu
  refine ⟨?_,fun a b u ha hb => h.unique a b u (hmem a u ha) (hmem b u hb)⟩
  intro r
  rcases eq_or_ne r p with rfl | hne
  · rw [Function.update_self]
    obtain ⟨kept,hperm,hkept⟩ := hsub
    exact hperm.nodup_iff.mp ((h.nodup r).sublist hkept)
  · rw [Function.update_of_ne hne]
    exact h.nodup r

/-- A token that is nowhere is put at the end of a place. -/
theorem Exclusive.insert (h : Exclusive c) (hnew : ∀ r, t ∉ c r) :
    Exclusive (Function.update c q (c q ++ [t])) := by
  have hmem : ∀ r u, u ∈ Function.update c q (c q ++ [t]) r → u ∈ c r ∨ u = t ∧ r = q := by
    intro r u hu
    rcases eq_or_ne r q with rfl | hne
    · rw [Function.update_self,List.mem_append,List.mem_singleton] at hu
      exact hu.imp_right fun he => ⟨he,rfl⟩
    · rw [Function.update_of_ne hne] at hu
      exact Or.inl hu
  refine ⟨?_,?_⟩
  · intro r
    rcases eq_or_ne r q with rfl | hne
    · rw [Function.update_self,List.nodup_append]
      refine ⟨h.nodup r,List.nodup_singleton t,?_⟩
      rintro a ha b hb rfl
      exact hnew r (List.mem_singleton.mp hb ▸ ha)
    · rw [Function.update_of_ne hne]
      exact h.nodup r
  · intro a b u ha hb
    rcases hmem a u ha with ha' | ⟨hut,haq⟩
    · rcases hmem b u hb with hb' | ⟨hut,-⟩
      · exact h.unique a b u ha' hb'
      · exact absurd (hut ▸ ha') (hnew a)
    · rcases hmem b u hb with hb' | ⟨-,hbq⟩
      · exact absurd (hut ▸ hb') (hnew b)
      · exact haq.trans hbq.symm

/-- A token of a place is taken away, and is nowhere then. -/
theorem Exclusive.gone (h : Exclusive c) (hp : (c p).Perm (t :: rest)) (r : P) :
    t ∉ Function.update c p rest r := by
  have hnodup := hp.nodup_iff.mp (h.nodup p)
  rcases eq_or_ne r p with rfl | hne
  · rw [Function.update_self]
    exact (List.nodup_cons.mp hnodup).1
  · rw [Function.update_of_ne hne]
    intro hr
    exact hne (h.unique r p t hr (hp.mem_iff.mpr List.mem_cons_self))

/-- A token of a place is carried to the end of another place. -/
theorem Exclusive.move (h : Exclusive c) (hp : (c p).Perm (t :: rest)) (hpq : q ≠ p) :
    Exclusive (Function.update (Function.update c p rest) q (c q ++ [t])) := by
  have hsub : rest.Subperm (c p) :=
    (List.sublist_cons_self t rest).subperm.trans hp.symm.subperm
  have hmoved := (h.keep hsub).insert (h.gone hp) (q := q)
  rwa [Function.update_of_ne hpq] at hmoved

/-- All tokens of a place take the place of those of another. -/
theorem Exclusive.moveAll (h : Exclusive c) :
    Exclusive (Function.update (Function.update c p []) q (c p)) := by
  have hmem : ∀ r u, u ∈ Function.update (Function.update c p []) q (c p) r →
      u ∈ c p ∧ r = q ∨ u ∈ c r ∧ r ≠ p ∧ r ≠ q := by
    intro r u hu
    simp only [Function.update_apply] at hu
    split at hu
    next hr => exact Or.inl ⟨hu,hr⟩
    next hr =>
      split at hu
      next => cases hu
      next hrp => exact Or.inr ⟨hu,hrp,hr⟩
  refine ⟨?_,?_⟩
  · intro r
    simp only [Function.update_apply]
    split
    · exact h.nodup p
    · split
      · exact List.nodup_nil
      · exact h.nodup r
  · intro a b u ha hb
    rcases hmem a u ha with ⟨hap,haq⟩ | ⟨ha',hne,-⟩
    · rcases hmem b u hb with ⟨-,hbq⟩ | ⟨hb',hne,-⟩
      · exact haq.trans hbq.symm
      · exact absurd (h.unique b p u hb' hap) hne
    · rcases hmem b u hb with ⟨hbp,-⟩ | ⟨hb',-⟩
      · exact absurd (h.unique a p u ha' hbp) hne
      · exact h.unique a b u ha' hb'

/-- Every token but the lost ones is still somewhere. -/
def Covers {P T : Type*} (c c' : P → List T) (lost : T → Prop) : Prop :=
  ∀ p t, t ∈ c p → lost t ∨ ∃ q, t ∈ c' q

omit [DecidableEq P] in
theorem covers_self (c : P → List T) (lost : T → Prop) : Covers c c lost :=
  fun p _ ht => Or.inr ⟨p,ht⟩

/-- A token carried to another place is not lost. -/
theorem covers_move (lost : T → Prop) (hp : (c p).Perm (t :: rest)) (hpq : q ≠ p) :
    Covers c (Function.update (Function.update c p rest) q (c q ++ [t])) lost := by
  intro r u hu
  refine Or.inr ?_
  rcases eq_or_ne r q with rfl | hrq
  · exact ⟨r,by rw [Function.update_self]; exact List.mem_append_left _ hu⟩
  rcases eq_or_ne r p with rfl | hrp
  · rcases List.mem_cons.mp (hp.mem_iff.mp hu) with rfl | hu
    · refine ⟨q,?_⟩
      rw [Function.update_self]
      exact List.mem_append_right _ (List.mem_singleton_self u)
    · exact ⟨r,by rw [Function.update_of_ne hpq.symm,Function.update_self]; exact hu⟩
  · exact ⟨r,by rw [Function.update_of_ne hrq,Function.update_of_ne hrp]; exact hu⟩

/-- Tokens carried together to an empty place are not lost. -/
theorem covers_moveAll (lost : T → Prop) (hpq : q ≠ p) (hq : c q = []) :
    Covers c (Function.update (Function.update c p []) q (c p)) lost := by
  intro r u hu
  refine Or.inr ?_
  rcases eq_or_ne r q with rfl | hrq
  · rw [hq] at hu
    cases hu
  rcases eq_or_ne r p with rfl | hrp
  · exact ⟨q,by rw [Function.update_self]; exact hu⟩
  · exact ⟨r,by rw [Function.update_of_ne hrq,Function.update_of_ne hrp]; exact hu⟩

/-- Only the token that is taken away can be lost. -/
theorem covers_keep {lost : T → Prop} (hp : (c p).Perm (t :: rest)) (hlost : lost t) :
    Covers c (Function.update c p rest) lost := by
  intro r u hu
  rcases eq_or_ne r p with rfl | hrp
  · rcases List.mem_cons.mp (hp.mem_iff.mp hu) with rfl | hu
    · exact Or.inl hlost
    · exact Or.inr ⟨r,by rw [Function.update_self]; exact hu⟩
  · exact Or.inr ⟨r,by rw [Function.update_of_ne hrp]; exact hu⟩

/-- A new token does not take the others away. -/
theorem covers_insert (lost : T → Prop) :
    Covers c (Function.update c q (c q ++ [t])) lost := by
  intro r u hu
  refine Or.inr ⟨r,?_⟩
  rcases eq_or_ne r q with rfl | hrq
  · rw [Function.update_self]
    exact List.mem_append_left _ hu
  · rw [Function.update_of_ne hrq]
    exact hu

end ConcurrencyRuntime.ExclusivePlaces
