import ConcurrencyRuntime.ByteMemory
import ConcurrencyRuntime.ContextSwitch

/-!
# The entry into a prepared context

The two functions once more, on a machine whose memory has bytes: a buffer may begin
at any address, and its bounds are bounds of bytes. What PrepareContextInBuffer leaves
in a buffer is nine words, and SwitchBufferContext enters CallRunner with them.
-/

namespace ConcurrencyRuntime.ContextEntry

open WordMemory ByteMemory
open ContextSwitch (Reg Instr prepareContextInBuffer switchBufferContext entryStack
  restoreRegs)

/-- Registers, memory, and where execution continues. -/
structure Machine where
  /-- The contents of each register. -/
  regs : Reg → Word
  /-- The byte at each address. -/
  mem : Bytes
  /-- The instruction pointer, once the function under way has returned. -/
  rip : Word

/-- Write a register. -/
def Machine.set (m : Machine) (r : Reg) (w : Word) : Machine :=
  { m with regs := Function.update m.regs r w }

/-- Write a word of memory. -/
def Machine.write (m : Machine) (a w : Word) : Machine :=
  { m with mem := store m.mem a w }

/-- Put a word on the stack. -/
def Machine.push (m : Machine) (w : Word) : Machine :=
  (m.write (m.regs .rsp - 8) w).set .rsp (m.regs .rsp - 8)

variable (m : Machine) (r : Reg) (w : Word)

@[simp] theorem Machine.set_self : (m.set r w).regs r = w := Function.update_self ..

@[simp] theorem Machine.set_of_ne {r r' : Reg} (h : r' ≠ r) : (m.set r w).regs r' = m.regs r' :=
  Function.update_of_ne h ..

@[simp] theorem Machine.set_mem : (m.set r w).mem = m.mem := rfl

/-- One instruction. -/
def exec (m : Machine) : Instr → Machine
  | .push src => m.push (m.regs src)
  | .pushImm w => m.push w
  | .pop dst => (m.set .rsp (m.regs .rsp + 8)).set dst (load m.mem (m.regs .rsp))
  | .mov src dst => m.set dst (m.regs src)
  | .store src base offset => m.write (m.regs base + offset) (m.regs src)
  | .load base dst => m.set dst (load m.mem (m.regs base))
  | .sub w dst => m.set dst (m.regs dst - w)
  | .and w dst => m.set dst (m.regs dst &&& w)
  | .add w dst => m.set dst (m.regs dst + w)
  | .ret => { m.set .rsp (m.regs .rsp + 8) with rip := load m.mem (m.regs .rsp) }

/-- Instructions one after the other. -/
def execAll (m : Machine) (code : List Instr) : Machine :=
  code.foldl exec m

/-- The bytes of a buffer. -/
def InBuffer (start : Word) (size : ℕ) (a : Word) : Prop :=
  start.toNat ≤ a.toNat ∧ a.toNat < start.toNat + size

/-- The bytes that SwitchBufferContext writes: the saved registers on the stack and the
slot of the source. -/
def Saved (m : Machine) (a : Word) : Prop :=
  (a - (m.regs .rsp - 48)).toNat < 48 ∨ (a - m.regs .rdi).toNat < 8

/-- The machine at the entry of a function: where it begins, the registers that its
caller expects back, the stack pointer and the memory. -/
structure Entered (m : Machine) (mem : Bytes) (rsp rip rbx rbp r12 r13 r14 r15 : Word) : Prop where
  rip : m.rip = rip
  rbx : m.regs .rbx = rbx
  rbp : m.regs .rbp = rbp
  r12 : m.regs .r12 = r12
  r13 : m.regs .r13 = r13
  r14 : m.regs .r14 = r14
  r15 : m.regs .r15 = r15
  rsp : m.regs .rsp = rsp
  mem : m.mem = mem

section Alignment

variable {start : Word} {size : ℕ}

/-- The mask clears the last four bits. -/
theorem toNat_mask (x : Word) : (x &&& -16).toNat = x.toNat / 16 * 16 := by
  have hbit : ∀ i : Fin 64, (-16 : Word).getLsbD i = decide (4 ≤ i.val) := by decide
  have hshift : x &&& (-16 : Word) = x >>> 4 <<< 4 := by
    refine BitVec.eq_of_getLsbD_eq fun i hi => ?_
    have hmask : (-16 : Word).getLsbD i = decide (4 ≤ i) := hbit ⟨i,hi⟩
    rw [BitVec.getLsbD_and,hmask,BitVec.getLsbD_shiftLeft,BitVec.getLsbD_ushiftRight]
    by_cases h4 : 4 ≤ i
    · have hback : 4 + (i - 4) = i := by omega
      simp [hi,h4,hback]
    · simp [h4]
  have hx := x.isLt
  rw [hshift,BitVec.toNat_shiftLeft,BitVec.toNat_ushiftRight,Nat.shiftRight_eq_div_pow,
    Nat.shiftLeft_eq]
  omega

/-- The stack pointer of the entry, in a buffer with room for it. -/
theorem entryStack_toNat (hsize : 128 ≤ size) (hwrap : start.toNat + size ≤ 2 ^ 64) :
    (entryStack (start + BitVec.ofNat 64 size - 1)).toNat =
      (start.toNat + size - 65) / 16 * 16 + 8 := by
  have hlast : (start + BitVec.ofNat 64 size - 1 - 64).toNat = start.toNat + size - 65 := by
    have hstart := start.isLt
    have hone : (1 : Word).toNat = 1 := rfl
    have hsafe : (64 : Word).toNat = 64 := rfl
    simp only [BitVec.toNat_sub,BitVec.toNat_add,BitVec.toNat_ofNat,hone,hsafe]
    omega
  rw [entryStack,BitVec.toNat_add,toNat_mask,hlast]
  have height : (8 : Word).toNat = 8 := rfl
  omega

end Alignment

section Entry

variable {m : Machine}

/-- The argument of CallRunner above the word that stands for its return address. -/
theorem stacked_argument (mem : Bytes) (p w : Word) :
    Stacked mem (store mem (p + 8) w) p [load mem p,w] := by
  have hshift : ∀ x : Word, (x - (p + 8)).toNat = ((x - p).toNat + (2 ^ 64 - 8)) % 2 ^ 64 := by
    intro x
    rw [show x - (p + 8) = x - p - 8 by bv_omega,BitVec.toNat_sub,Nat.add_comm]
    rfl
  refine ⟨⟨load_congr fun k hk => store_of_far ?_,load_store ..,trivial⟩,?_⟩
  · have hoffset : p + BitVec.ofNat 64 k - p = BitVec.ofNat 64 k := by
      rw [BitVec.add_comm,BitVec.add_sub_cancel]
    rw [hshift,hoffset,BitVec.toNat_ofNat]
    omega
  · intro x hx
    have hlt := (x - p).isLt
    simp only [List.length_cons,List.length_nil] at hx
    refine store_of_far ?_
    rw [hshift]
    omega

/-- What PrepareContextInBuffer leaves behind: the frame of a function that was switched
away, with CallRunner to return to and the runner above. -/
theorem prepared (m : Machine) :
    Stacked m.mem (execAll m prepareContextInBuffer).mem (entryStack (m.regs .rdi) - 56)
      [0,0,0,0,0,0,m.regs .rsi,load m.mem (entryStack (m.regs .rdi)),m.regs .rdx] := by
  have harg := stacked_argument m.mem (entryStack (m.regs .rdi)) (m.regs .rdx)
  have hrunner := harg.push (by simp) (m.regs .rsi)
  have hregs := (((((hrunner.push (by simp) 0).push (by simp) 0).push (by simp) 0).push (by simp)
    0).push (by simp) 0).push (by simp) 0
  have hrsp : entryStack (m.regs .rdi) - 56 =
      entryStack (m.regs .rdi) - 8 - 8 - 8 - 8 - 8 - 8 - 8 := by bv_omega
  rw [hrsp]
  exact hregs

/-- The registers after PrepareContextInBuffer. -/
theorem prepared_regs (m : Machine) :
    (execAll m prepareContextInBuffer).regs .rsp = m.regs .rsp + 8 ∧
    (execAll m prepareContextInBuffer).regs .rax = entryStack (m.regs .rdi) - 56 ∧
    (execAll m prepareContextInBuffer).rip =
      load (execAll m prepareContextInBuffer).mem (m.regs .rsp) := by
  have hrsp : entryStack (m.regs .rdi) - 56 =
      entryStack (m.regs .rdi) - 8 - 8 - 8 - 8 - 8 - 8 - 8 := by bv_omega
  rw [hrsp]
  exact ⟨rfl,rfl,rfl⟩

/-- The memory from which SwitchBufferContext restores the registers. -/
def savedMem (m : Machine) : Bytes :=
  (execAll m (switchBufferContext.take 7)).mem

/-- SwitchBufferContext writes the saved registers and the slot of the source only. -/
theorem savedMem_of_not_saved {a : Word} (ha : ¬Saved m a) : savedMem m a = m.mem a := by
  have hregs := ((((((Stacked.nil m.mem (m.regs .rsp)).push (by simp) (m.regs .r15)).push (by simp)
    (m.regs .r14)).push (by simp) (m.regs .r13)).push (by simp) (m.regs .r12)).push (by simp)
    (m.regs .rbx)).push (by simp) (m.regs .rbp)
  have hrsp : m.regs .rsp - 8 - 8 - 8 - 8 - 8 - 8 = m.regs .rsp - 48 := by bv_omega
  simp only [Saved,not_or,not_lt] at ha
  have hslot : savedMem m = store (execAll m (switchBufferContext.take 6)).mem (m.regs .rdi + 0)
      (m.regs .rsp - 8 - 8 - 8 - 8 - 8 - 8) := rfl
  rw [hslot,store_of_far (by simpa using ha.2)]
  refine hregs.frame a ?_
  rw [hrsp]
  exact ha.1

/-- What the instructions that restore the registers find on the stack. -/
theorem restored {r12 r13 r14 r15 rbx rbp rip : Word} {ws : List Word}
    (h : Holds (load m.mem) (m.regs .rsp) (rbp :: rbx :: r12 :: r13 :: r14 :: r15 :: rip :: ws)) :
    Entered (execAll m restoreRegs) m.mem (m.regs .rsp + 56) rip rbx rbp r12 r13 r14 r15 := by
  obtain ⟨hrbp,hrbx,hr12,hr13,hr14,hr15,hrip,-⟩ := h
  have hrsp : m.regs .rsp + 56 = m.regs .rsp + 8 + 8 + 8 + 8 + 8 + 8 + 8 := by bv_omega
  rw [hrsp]
  constructor
  · simpa [execAll,restoreRegs,exec] using hrip
  · simpa [execAll,restoreRegs,exec] using hrbx
  · simpa [execAll,restoreRegs,exec] using hrbp
  · simpa [execAll,restoreRegs,exec] using hr12
  · simpa [execAll,restoreRegs,exec] using hr13
  · simpa [execAll,restoreRegs,exec] using hr14
  · simpa [execAll,restoreRegs,exec] using hr15
  · simp [execAll,restoreRegs,exec]
  · simp [execAll,restoreRegs,exec]

/-- What SwitchBufferContext restores, given the words at the stack pointer that it loads. -/
theorem switched {p r12 r13 r14 r15 rbx rbp rip : Word} {ws : List Word}
    (hp : load (savedMem m) (m.regs .rsi) = p)
    (hwords : Holds (load (savedMem m)) p (rbp :: rbx :: r12 :: r13 :: r14 :: r15 :: rip :: ws)) :
    Entered (execAll m switchBufferContext) (savedMem m) (p + 56) rip rbx rbp r12 r13 r14 r15 := by
  have hcode : switchBufferContext =
      switchBufferContext.take 7 ++ (.load .rsi .rsp :: restoreRegs) :=
    rfl
  have hrsi : (execAll m (switchBufferContext.take 7)).regs .rsi = m.regs .rsi := rfl
  rw [hcode,execAll,List.foldl_append,List.foldl_cons]
  generalize hm' : exec (List.foldl exec m (switchBufferContext.take 7)) (.load .rsi .rsp) = m'
  have hmem : m'.mem = savedMem m := by rw [←hm']; rfl
  have hrsp : m'.regs .rsp = p := by
    rw [←hm',←hp,←hrsi]
    exact Machine.set_self ..
  rw [←hmem,←hrsp] at hwords
  rw [←hmem,←hrsp]
  exact restored hwords

variable {start : Word} {size : ℕ}

/-- The nine words lie in the buffer. -/
theorem inBuffer_words (hsize : 128 ≤ size) (hwrap : start.toNat + size ≤ 2 ^ 64) {x : Word}
    (hx : (x - (entryStack (start + BitVec.ofNat 64 size - 1) - 56)).toNat < 72) :
    InBuffer start size x := by
  have hentry := entryStack_toNat hsize hwrap
  have hroom := (entryStack (start + BitVec.ofNat 64 size - 1)).isLt
  generalize entryStack (start + BitVec.ofNat 64 size - 1) = entry at hx hentry hroom
  have hlow : (entry - 56).toNat = entry.toNat - 56 := BitVec.toNat_sub_of_le (by bv_omega)
  rw [BitVec.toNat_sub,hlow] at hx
  have hlt := x.isLt
  unfold InBuffer
  omega

/-- For every address of a buffer and every size from 128 bytes on: PrepareContextInBuffer,
called with the address of the last byte, writes in the buffer only and restores the stack
pointer, less the return address. The first SwitchBufferContext to the stack pointer that it
returned, from any machine with the same bytes in the buffer and another stack, enters CallRunner
with zeros in the registers that a function keeps, an aligned stack pointer in the buffer and
the runner in the slot of the seventh argument. -/
theorem callRunner_entered (m : Machine) (start : Word) (size : ℕ) (hsize : 128 ≤ size)
    (hwrap : start.toNat + size ≤ 2 ^ 64)
    (hlast : m.regs .rdi = start + BitVec.ofNat 64 size - 1) :
    (∀ a, ¬InBuffer start size a → (execAll m prepareContextInBuffer).mem a = m.mem a) ∧
    (execAll m prepareContextInBuffer).regs .rsp = m.regs .rsp + 8 ∧
    ∀ m₂ : Machine,
      (∀ a, InBuffer start size a → m₂.mem a = (execAll m prepareContextInBuffer).mem a) →
      load m₂.mem (m₂.regs .rsi) = (execAll m prepareContextInBuffer).regs .rax →
      (∀ a, Saved m₂ a → ¬InBuffer start size a ∧ 8 ≤ (a - m₂.regs .rsi).toNat) →
      ((execAll m₂ switchBufferContext).rip = m.regs .rsi ∧
        (execAll m₂ switchBufferContext).regs .rbx = 0 ∧
        (execAll m₂ switchBufferContext).regs .rbp = 0 ∧
        (execAll m₂ switchBufferContext).regs .r12 = 0 ∧
        (execAll m₂ switchBufferContext).regs .r13 = 0 ∧
        (execAll m₂ switchBufferContext).regs .r14 = 0 ∧
        (execAll m₂ switchBufferContext).regs .r15 = 0 ∧
        InBuffer start size ((execAll m₂ switchBufferContext).regs .rsp) ∧
        ((execAll m₂ switchBufferContext).regs .rsp).toNat % 16 = 8 ∧
        load (execAll m₂ switchBufferContext).mem ((execAll m₂ switchBufferContext).regs .rsp + 8) =
          m.regs .rdx) := by
  have hprepared := prepared m
  obtain ⟨hrsp,hrax,-⟩ := prepared_regs m
  rw [hlast] at hprepared hrax
  have hentry := entryStack_toNat hsize hwrap
  have hwords : ∀ x : Word, (x - (entryStack (start + BitVec.ofNat 64 size - 1) - 56)).toNat < 72 →
      InBuffer start size x := fun x hx => inBuffer_words hsize hwrap hx
  generalize entryStack (start + BitVec.ofNat 64 size - 1) = entry at *
  refine ⟨fun a ha => hprepared.frame a ?_,hrsp,?_⟩
  · by_contra hnear
    exact ha (hwords a (by simpa using hnear))
  intro m₂ hsame hslot hsaved
  -- the switch reads back what it has not written: the slot of the target and the nine words
  have hload : load (savedMem m₂) (m₂.regs .rsi) = entry - 56 := by
    rw [←hrax,←hslot]
    refine load_congr fun k hk => savedMem_of_not_saved fun ha => ?_
    have hfar := (hsaved _ ha).2
    rw [BitVec.add_comm,BitVec.add_sub_cancel,BitVec.toNat_ofNat] at hfar
    omega
  have hkept : ∀ x, InBuffer start size x →
      savedMem m₂ x = (execAll m prepareContextInBuffer).mem x := by
    intro x hin
    rw [savedMem_of_not_saved fun ha => (hsaved x ha).1 hin,hsame x hin]
  have hholds := holds_congr hprepared.holds (by simp) fun x hx => hkept x
    (hwords x (by simpa using hx))
  have hentered := switched hload hholds
  have hback : entry - 56 + 56 = entry := BitVec.sub_add_cancel ..
  obtain ⟨-,-,-,-,-,-,-,-,hrunner,-⟩ := hholds
  have hrunner' : load (savedMem m₂) (entry + 8) = m.regs .rdx := by
    rw [←hrunner,show entry - 56 + 8 + 8 + 8 + 8 + 8 + 8 + 8 + 8 = entry + 8 by bv_omega]
  rw [hback] at hentered
  refine ⟨hentered.rip,hentered.rbx,hentered.rbp,hentered.r12,hentered.r13,hentered.r14,
    hentered.r15,?_,?_,?_⟩
  · rw [hentered.rsp]
    unfold InBuffer
    omega
  · rw [hentered.rsp]
    omega
  · rw [hentered.rsp,hentered.mem]
    exact hrunner'

/-- The call for a buffer of 128 bytes at an odd address. -/
def sampleCall : Machine where
  regs
    | .rdi => 4226
    | .rsi => 1280
    | .rdx => 1536
    | .rsp => 36864
    | _ => 7
  mem := fun _ => 255
  rip := 0

/-- The first switch, with the saved stack pointer at address 1792. -/
def sampleSwitch : Machine where
  regs
    | .rdi => 1800
    | .rsi => 1792
    | .rsp => 36864
    | _ => 7
  mem := store (execAll sampleCall prepareContextInBuffer).mem 1792
    ((execAll sampleCall prepareContextInBuffer).regs .rax)
  rip := 0

theorem callRunner_entered_odd :
    (execAll sampleSwitch switchBufferContext).rip = 1280 ∧
    InBuffer 4099 128 ((execAll sampleSwitch switchBufferContext).regs .rsp) ∧
    ((execAll sampleSwitch switchBufferContext).regs .rsp).toNat % 16 = 8 ∧
    load (execAll sampleSwitch switchBufferContext).mem
      ((execAll sampleSwitch switchBufferContext).regs .rsp + 8) = 1536 := by
  obtain ⟨-,-,hswitch⟩ := callRunner_entered sampleCall 4099 128 (by decide) (by decide) (by decide)
  have hbuffer : ∀ a, InBuffer 4099 128 a →
      sampleSwitch.mem a = (execAll sampleCall prepareContextInBuffer).mem a := by
    intro a ⟨hlow,hhigh⟩
    refine store_of_far ?_
    have hstart : (4099 : Word).toNat = 4099 := rfl
    have hslot : (1792 : Word).toNat = 1792 := rfl
    rw [BitVec.toNat_sub]
    omega
  have hsaved : ∀ a, Saved sampleSwitch a →
      ¬InBuffer 4099 128 a ∧ 8 ≤ (a - sampleSwitch.regs .rsi).toNat := by
    have hstart : (4099 : Word).toNat = 4099 := rfl
    have hstack : (36864 - 48 : Word).toNat = 36816 := rfl
    have hsource : (1800 : Word).toNat = 1800 := rfl
    have hslot : (1792 : Word).toNat = 1792 := rfl
    intro a ha
    simp only [Saved,sampleSwitch,BitVec.toNat_sub,hstack,hsource] at ha
    simp only [InBuffer,sampleSwitch,BitVec.toNat_sub,hslot,hstart]
    omega
  obtain ⟨hrip,-,-,-,-,-,-,hin,halign,hrunner⟩ :=
    hswitch sampleSwitch hbuffer (load_store ..) hsaved
  exact ⟨hrip,hin,halign,hrunner⟩

end Entry

end ConcurrencyRuntime.ContextEntry
