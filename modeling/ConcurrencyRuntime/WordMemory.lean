import Mathlib

/-!
# Words that lie one after the other in memory

Memory maps the address of each word to the word. A stack grows downwards by
eight bytes a word, and addresses wrap around.
-/

namespace ConcurrencyRuntime.WordMemory

/-- A machine word, and the address of one. -/
abbrev Word := BitVec 64

/-- The addresses of consecutive words, from the lowest up. -/
def span : Word → ℕ → List Word
  | _,0 => []
  | p,n+1 => p :: span (p + 8) n

/-- The words lie one after the other from the address up. -/
def Holds (mem : Word → Word) : Word → List Word → Prop
  | _,[] => True
  | p,w :: ws => mem p = w ∧ Holds mem (p + 8) ws

variable {mem mem' : Word → Word} {p a w : Word} {ws : List Word} {n : ℕ}

/-- The addresses are eight bytes apart. -/
theorem mem_span : a ∈ span p n ↔ ∃ i < n, a = p + BitVec.ofNat 64 (8 * i) := by
  induction n generalizing p with
  | zero => simp [span]
  | succ n ih =>
    rw [span,List.mem_cons,ih]
    have hshift : ∀ i, p + 8 + BitVec.ofNat 64 (8 * i) = p + BitVec.ofNat 64 (8 * (i + 1)) := by
      intro i
      rw [Nat.mul_add,BitVec.ofNat_add,BitVec.add_assoc,BitVec.add_comm 8]
      rfl
    constructor
    · rintro (rfl | ⟨i,hi,rfl⟩)
      · exact ⟨0,by omega,by simp⟩
      · exact ⟨i + 1,by omega,hshift i⟩
    · rintro ⟨i,hi,rfl⟩
      cases i with
      | zero => exact .inl (by simp)
      | succ i => exact .inr ⟨i,by omega,(hshift i).symm⟩

/-- Fewer words than fill the memory do not reach around to the word below. -/
theorem below_not_mem_span (hn : n < 2 ^ 61) : p - 8 ∉ span p n := by
  intro hmem
  obtain ⟨i,hi,he⟩ := mem_span.mp hmem
  have hnat : (p - 8).toNat = (p + BitVec.ofNat 64 (8 * i)).toNat := congrArg BitVec.toNat he
  have hp := p.isLt
  have height : (8 : Word).toNat = 8 := rfl
  simp only [BitVec.toNat_sub,BitVec.toNat_add,BitVec.toNat_ofNat,height] at hnat
  omega

/-- Memory that agrees on their addresses holds the same words. -/
theorem Holds.congr (h : Holds mem p ws) (hsame : ∀ a ∈ span p ws.length, mem' a = mem a) :
    Holds mem' p ws := by
  induction ws generalizing p with
  | nil => trivial
  | cons w ws ih =>
    refine ⟨(hsame p List.mem_cons_self).trans h.1,ih h.2 ?_⟩
    exact fun a ha => hsame a (List.mem_cons_of_mem _ ha)

/-- A word written below the others. -/
theorem Holds.push (h : Holds mem p ws) (hlen : ws.length < 2 ^ 61) (w : Word) :
    Holds (Function.update mem (p - 8) w) (p - 8) (w :: ws) := by
  refine ⟨Function.update_self ..,?_⟩
  rw [BitVec.sub_add_cancel]
  refine h.congr fun a ha => Function.update_of_ne ?_ ..
  rintro rfl
  exact below_not_mem_span hlen ha

end ConcurrencyRuntime.WordMemory
