import ConcurrencyRuntime.WordMemory

/-!
# Words in a memory of bytes

A word takes eight bytes, the lowest first, at any address. A store changes these
bytes only, and a load composes them. The words that a load finds are a memory of
words in which neighbouring addresses overlap.
-/

namespace ConcurrencyRuntime.ByteMemory

open WordMemory

/-- The byte at each address. -/
abbrev Bytes := Word → BitVec 8

/-- Write a word at an address. -/
def store (mem : Bytes) (a w : Word) : Bytes :=
  fun x => if (x - a).toNat < 8 then w.extractLsb' (8 * (x - a).toNat) 8 else mem x

/-- The word at an address. -/
def load (mem : Bytes) (a : Word) : Word :=
  mem (a + 7) ++ mem (a + 6) ++ mem (a + 5) ++ mem (a + 4) ++ mem (a + 3) ++ mem (a + 2) ++
    mem (a + 1) ++ mem a

variable {mem mem' start : Bytes} {a p w x : Word} {ws : List Word}

/-- Bytes that a store does not reach. -/
theorem store_of_far (h : 8 ≤ (x - a).toNat) : store mem a w x = mem x :=
  if_neg (by omega)

/-- The bytes of the word that was stored. -/
theorem store_byte (mem : Bytes) (a w : Word) {k : ℕ} (hk : k < 8) :
    store mem a w (a + BitVec.ofNat 64 k) = w.extractLsb' (8 * k) 8 := by
  have hoffset : (a + BitVec.ofNat 64 k - a).toNat = k := by
    rw [BitVec.add_comm,BitVec.add_sub_cancel,BitVec.toNat_ofNat]
    omega
  rw [store,hoffset,if_pos hk]

/-- The word that was stored. -/
theorem load_store (mem : Bytes) (a w : Word) : load (store mem a w) a = w := by
  have hbyte := fun k hk => store_byte mem a w (k := k) hk
  have h0 : store mem a w a = w.extractLsb' 0 8 := by simpa using hbyte 0 (by omega)
  have h1 : store mem a w (a + 1) = w.extractLsb' 8 8 := hbyte 1 (by omega)
  have h2 : store mem a w (a + 2) = w.extractLsb' 16 8 := hbyte 2 (by omega)
  have h3 : store mem a w (a + 3) = w.extractLsb' 24 8 := hbyte 3 (by omega)
  have h4 : store mem a w (a + 4) = w.extractLsb' 32 8 := hbyte 4 (by omega)
  have h5 : store mem a w (a + 5) = w.extractLsb' 40 8 := hbyte 5 (by omega)
  have h6 : store mem a w (a + 6) = w.extractLsb' 48 8 := hbyte 6 (by omega)
  have h7 : store mem a w (a + 7) = w.extractLsb' 56 8 := hbyte 7 (by omega)
  rw [load,h0,h1,h2,h3,h4,h5,h6,h7]
  simp only [BitVec.extractLsb'_append_extractLsb'_eq_extractLsb']
  simp

/-- The eight bytes decide the word. -/
theorem load_congr (h : ∀ k < 8, mem' (a + BitVec.ofNat 64 k) = mem (a + BitVec.ofNat 64 k)) :
    load mem' a = load mem a := by
  have h0 : mem' a = mem a := by simpa using h 0 (by omega)
  have h1 : mem' (a + 1) = mem (a + 1) := h 1 (by omega)
  have h2 : mem' (a + 2) = mem (a + 2) := h 2 (by omega)
  have h3 : mem' (a + 3) = mem (a + 3) := h 3 (by omega)
  have h4 : mem' (a + 4) = mem (a + 4) := h 4 (by omega)
  have h5 : mem' (a + 5) = mem (a + 5) := h 5 (by omega)
  have h6 : mem' (a + 6) = mem (a + 6) := h 6 (by omega)
  have h7 : mem' (a + 7) = mem (a + 7) := h 7 (by omega)
  rw [load,load,h0,h1,h2,h3,h4,h5,h6,h7]

/-- Words one after the other are decided by their bytes. -/
theorem holds_congr (h : Holds (load mem) p ws) (hlen : ws.length < 2 ^ 61)
    (hsame : ∀ x, (x - p).toNat < 8 * ws.length → mem' x = mem x) : Holds (load mem') p ws := by
  refine h.congr fun a ha => load_congr fun k hk => hsame _ ?_
  obtain ⟨i,hi,rfl⟩ := mem_span.mp ha
  have hoffset : p + BitVec.ofNat 64 (8 * i) + BitVec.ofNat 64 k - p =
      BitVec.ofNat 64 (8 * i + k) := by
    rw [BitVec.add_assoc,BitVec.add_comm p,BitVec.add_sub_cancel,BitVec.ofNat_add]
  rw [hoffset,BitVec.toNat_ofNat]
  omega

/-- Words were written one below the other; only their bytes differ from the start. -/
structure Stacked (start mem : Bytes) (p : Word) (ws : List Word) : Prop where
  holds : Holds (load mem) p ws
  frame : ∀ x, 8 * ws.length ≤ (x - p).toNat → mem x = start x

theorem Stacked.nil (mem : Bytes) (p : Word) : Stacked mem mem p [] := ⟨trivial,fun _ _ => rfl⟩

/-- One more word below. -/
theorem Stacked.push (h : Stacked start mem p ws) (hlen : ws.length < 2 ^ 60) (w : Word) :
    Stacked start (store mem (p - 8) w) (p - 8) (w :: ws) := by
  have hshift : ∀ x : Word, (x - (p - 8)).toNat = ((x - p).toNat + 8) % 2 ^ 64 := by
    intro x
    rw [show x - (p - 8) = x - p + 8 by bv_omega,BitVec.toNat_add]
    rfl
  refine ⟨⟨load_store ..,?_⟩,?_⟩
  · rw [BitVec.sub_add_cancel]
    refine holds_congr h.holds (by omega) fun x hx => store_of_far ?_
    rw [hshift]
    omega
  · intro x hx
    have hlt := (x - p).isLt
    rw [List.length_cons,hshift] at hx
    rw [store_of_far (by rw [hshift]; omega)]
    refine h.frame x ?_
    omega

end ConcurrencyRuntime.ByteMemory
