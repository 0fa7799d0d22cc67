import ConcurrencyRuntime.TransitionSystem
import ConcurrencyRuntime.WordMemory

/-!
# Switching between contexts

PrepareContextInBuffer and SwitchBufferContext as lists of instructions on a
machine of registers and words. Each context has a stack of its own and a slot
that holds its saved stack pointer. Between two calls the running context does
as it likes with the registers and with its own stack.
-/

namespace ConcurrencyRuntime.ContextSwitch

open TransitionSystem WordMemory

/-- The registers that the two functions mention. -/
inductive Reg where
  | rsp | rbx | rbp | r12 | r13 | r14 | r15 | rax | rdx | rdi | rsi | r11
  deriving DecidableEq

/-- The instructions that the two functions are made of. -/
inductive Instr where
  /-- pushq of a register. -/
  | push (src : Reg)
  /-- pushq of a constant. -/
  | pushImm (w : Word)
  /-- pop into a register. -/
  | pop (dst : Reg)
  /-- movq from a register to a register. -/
  | mov (src dst : Reg)
  /-- movq from a register to memory. -/
  | store (src base : Reg) (offset : Word)
  /-- movq from memory to a register. -/
  | load (base dst : Reg)
  /-- subq of a constant. -/
  | sub (w : Word) (dst : Reg)
  /-- andq with a constant. -/
  | and (w : Word) (dst : Reg)
  /-- addq of a constant. -/
  | add (w : Word) (dst : Reg)
  /-- retq. -/
  | ret

/-- Registers, memory, and where execution continues. -/
structure Machine where
  /-- The contents of each register. -/
  regs : Reg → Word
  /-- The word at each address. -/
  mem : Word → Word
  /-- The instruction pointer, once the function under way has returned. -/
  rip : Word

/-- Write a register. -/
def Machine.set (m : Machine) (r : Reg) (w : Word) : Machine :=
  { m with regs := Function.update m.regs r w }

/-- Write a word of memory. -/
def Machine.write (m : Machine) (a w : Word) : Machine :=
  { m with mem := Function.update m.mem a w }

/-- Put a word on the stack. -/
def Machine.push (m : Machine) (w : Word) : Machine :=
  (m.write (m.regs .rsp - 8) w).set .rsp (m.regs .rsp - 8)

/-- One instruction. -/
def exec (m : Machine) : Instr → Machine
  | .push src => m.push (m.regs src)
  | .pushImm w => m.push w
  | .pop dst => (m.set .rsp (m.regs .rsp + 8)).set dst (m.mem (m.regs .rsp))
  | .mov src dst => m.set dst (m.regs src)
  | .store src base offset => m.write (m.regs base + offset) (m.regs src)
  | .load base dst => m.set dst (m.mem (m.regs base))
  | .sub w dst => m.set dst (m.regs dst - w)
  | .and w dst => m.set dst (m.regs dst &&& w)
  | .add w dst => m.set dst (m.regs dst + w)
  | .ret => { m.set .rsp (m.regs .rsp + 8) with rip := m.mem (m.regs .rsp) }

/-- Instructions one after the other. -/
def execAll (m : Machine) (code : List Instr) : Machine :=
  code.foldl exec m

/-- The call of a function: the return address goes on the stack. -/
def call (m : Machine) (code : List Instr) (ret : Word) : Machine :=
  execAll (m.push ret) code

/-- PrepareContextInBuffer(buffer, CallRunner, runner). -/
def prepareContextInBuffer : List Instr :=
  [.mov .rsp .r11,.mov .rdi .rsp,.sub 64 .rsp,.and (-16) .rsp,.add 8 .rsp,.store .rdx .rsp 8,
    .push .rsi,.pushImm 0,.pushImm 0,.pushImm 0,.pushImm 0,.pushImm 0,.pushImm 0,
    .mov .rsp .rax,.mov .r11 .rsp,.ret]

/-- SwitchBufferContext(source, destination). -/
def switchBufferContext : List Instr :=
  [.push .r15,.push .r14,.push .r13,.push .r12,.push .rbx,.push .rbp,.store .rsp .rdi 0,
    .load .rsi .rsp,.pop .rbp,.pop .rbx,.pop .r12,.pop .r13,.pop .r14,.pop .r15,.ret]

/-- The stacks of the contexts and the slots of their saved stack pointers. -/
structure Layout (κ : Type*) where
  /-- The addresses of the words of each stack. -/
  region : κ → Set Word
  /-- The address of rsp_ in each BufferContext. -/
  slot : κ → Word
  /-- The address of CallRunner. -/
  callRunner : Word
  disjoint : ∀ c d, c ≠ d → ∀ a ∈ region c, a ∉ region d
  slots : ∀ c d, slot c = slot d → c = d
  apart : ∀ c d, slot c ∉ region d

/-- Registers and where execution continues, as a function finds them that has
just returned. -/
structure Frame where
  /-- The contents of each register. -/
  regs : Reg → Word
  /-- Where execution continues. -/
  rip : Word

/-- The machine and the context that runs on it. -/
structure World (κ : Type*) where
  /-- The machine. -/
  machine : Machine
  /-- The context that runs. -/
  current : κ
  /-- History: what each context that is set up or switched away is to find
  when it runs, none for the others. -/
  expected : κ → Option Frame

/-- What the contexts do. -/
inductive Action (κ : Type*) where
  /-- The running context executes code of its own, up to this machine. -/
  | execute (m : Machine)
  /-- The running context sets up another one in a buffer, for a runner. -/
  | setup (c : κ) (buffer runner ret : Word)
  /-- The running context calls SwitchBufferContext and is to return here. -/
  | switchTo (c : κ) (ret : Word)

variable {κ : Type*} [DecidableEq κ]

/-- The stack pointer with which CallRunner starts in a buffer. -/
def entryStack (buffer : Word) : Word := ((buffer - 64) &&& -16) + 8

/-- BufferContext::Setup: rsp_ is what PrepareContextInBuffer returns. -/
def setup (L : Layout κ) (m : Machine) (c : κ) (buffer runner ret : Word) : Machine :=
  let prepared := call (((m.set .rdi buffer).set .rsi L.callRunner).set .rdx runner)
    prepareContextInBuffer ret
  prepared.write (L.slot c) (prepared.regs .rax)

/-- BufferContext::SwitchTo of a context. -/
def switchTo (L : Layout κ) (m : Machine) (source target : κ) (ret : Word) : Machine :=
  call ((m.set .rdi (L.slot source)).set .rsi (L.slot target)) switchBufferContext ret

/-- One action. Only a context that does not run is set up, and only once;
only one that was set up or switched away is switched to. -/
def step (L : Layout κ) (w : World κ) : Action κ → Option (World κ)
  | .execute m => some { w with machine := m }
  | .setup c buffer runner ret =>
    if c ≠ w.current ∧ w.expected c = none then
      some { w with
        machine := setup L w.machine c buffer runner ret
        expected := Function.update w.expected c (some ⟨Function.update (fun _ => 0) .rsp
          (entryStack buffer),L.callRunner⟩) }
    else none
  | .switchTo c ret =>
    if c ≠ w.current ∧ w.expected c ≠ none then
      some {
        machine := switchTo L w.machine w.current c ret
        current := c
        expected := Function.update (Function.update w.expected w.current
          (some ⟨w.machine.regs,ret⟩)) c none }
    else none

/-- One context runs and no other is set up. -/
def contexts (L : Layout κ) (m : Machine) (main : κ) : System (World κ) (Action κ) :=
  ⟨⟨m,main,fun _ => none⟩,step L⟩

/-- There is room on the stack for a return address and the saved registers. -/
def Room (stack : Set Word) (rsp : Word) : Prop := ∀ a ∈ span (rsp - 56) 7, a ∈ stack

/-- Code between two calls writes its own stack only, a function is called
with room on the stack, and a buffer has room for what is prepared in it. -/
def Confined (L : Layout κ) (w : World κ) : Action κ → Prop
  | .execute m => ∀ a ∉ L.region w.current, m.mem a = w.machine.mem a
  | .setup c buffer _ _ => Room (L.region w.current) (w.machine.regs .rsp) ∧
      Room (L.region c) (entryStack buffer) ∧ entryStack buffer + 8 ∈ L.region c
  | .switchTo _ _ => Room (L.region w.current) (w.machine.regs .rsp)

section Machine

variable {m m' : Machine} {ws : List Word}

@[simp]
theorem set_regs (m : Machine) (r : Reg) (w : Word) :
    (m.set r w).regs = Function.update m.regs r w :=
  rfl

@[simp]
theorem set_mem (m : Machine) (r : Reg) (w : Word) : (m.set r w).mem = m.mem :=
  rfl

@[simp]
theorem write_regs (m : Machine) (a w : Word) : (m.write a w).regs = m.regs :=
  rfl

@[simp]
theorem write_mem (m : Machine) (a w : Word) : (m.write a w).mem = Function.update m.mem a w :=
  rfl

@[simp]
theorem push_regs (m : Machine) (w : Word) :
    (m.push w).regs = Function.update m.regs .rsp (m.regs .rsp - 8) :=
  rfl

@[simp]
theorem push_mem (m : Machine) (w : Word) :
    (m.push w).mem = Function.update m.mem (m.regs .rsp - 8) w :=
  rfl

/-- The words were pushed on the stack of the first machine, the last of them
on top, and nothing else was changed. -/
structure Pushed (m m' : Machine) (ws : List Word) : Prop where
  regs : ∀ r, r ≠ .rsp → m'.regs r = m.regs r
  rsp : m'.regs .rsp = m.regs .rsp - BitVec.ofNat 64 (8 * ws.length)
  holds : Holds m'.mem (m'.regs .rsp) ws
  frame : ∀ a ∉ span (m'.regs .rsp) ws.length, m'.mem a = m.mem a

theorem Pushed.refl (m : Machine) : Pushed m m [] :=
  ⟨fun _ _ => rfl,by simp,trivial,fun _ _ => rfl⟩

/-- One more word. -/
theorem Pushed.push (h : Pushed m m' ws) (hlen : ws.length < 2 ^ 61) (w : Word) :
    Pushed m (m'.push w) (w :: ws) := by
  refine ⟨?_,?_,?_,?_⟩
  · intro r hr
    rw [push_regs,Function.update_of_ne hr]
    exact h.regs r hr
  · rw [push_regs,Function.update_self,h.rsp,List.length_cons,Nat.mul_add,BitVec.ofNat_add,
      BitVec.sub_sub]
    rfl
  · simp only [push_regs,push_mem,Function.update_self]
    exact h.holds.push hlen w
  · intro a ha
    simp only [push_regs,Function.update_self,List.length_cons,span,List.mem_cons,not_or,
      BitVec.sub_add_cancel] at ha
    rw [push_mem,Function.update_of_ne ha.1]
    exact h.frame a ha.2

/-- A constant pushed several times. -/
theorem Pushed.pushImm (n : ℕ) (w : Word) (h : Pushed m m' ws) (hlen : ws.length + n < 2 ^ 61) :
    Pushed m (execAll m' (List.replicate n (.pushImm w))) (List.replicate n w ++ ws) := by
  induction n generalizing m' ws with
  | zero => exact h
  | succ n ih =>
    have hall := ih (h.push (by omega) w) (by rw [List.length_cons]; omega)
    rw [List.replicate_succ' (n := n) (a := w),List.append_assoc]
    exact hall

/-- SwitchBufferContext up to the last push. -/
def saveRegs : List Instr :=
  [.push .r15,.push .r14,.push .r13,.push .r12,.push .rbx,.push .rbp]

/-- SwitchBufferContext from the first pop on. -/
def restoreRegs : List Instr :=
  [.pop .rbp,.pop .rbx,.pop .r12,.pop .r13,.pop .r14,.pop .r15,.ret]

/-- Instructions in two parts. -/
theorem execAll_append (m : Machine) (front back : List Instr) :
    execAll m (front ++ back) = execAll (execAll m front) back :=
  List.foldl_append

/-- SwitchBufferContext saves, exchanges the stack pointers and restores. -/
theorem execAll_switchBufferContext (m : Machine) :
    execAll m switchBufferContext =
      execAll (exec (exec (execAll m saveRegs) (.store .rsp .rdi 0)) (.load .rsi .rsp))
        restoreRegs := by
  have hcode : switchBufferContext =
      saveRegs ++ ([.store .rsp .rdi 0,.load .rsi .rsp] ++ restoreRegs) := rfl
  rw [hcode,execAll_append,execAll_append]
  rfl

/-- The words that SwitchBufferContext leaves on the stack, from the top. -/
def Frame.words (f : Frame) : List Word :=
  [f.regs .rbp,f.regs .rbx,f.regs .r12,f.regs .r13,f.regs .r14,f.regs .r15,f.rip]

/-- The registers that a function keeps, the stack pointer and the place of
execution are those of the frame. -/
structure Frame.Restored (f : Frame) (m : Machine) : Prop where
  rbx : m.regs .rbx = f.regs .rbx
  rbp : m.regs .rbp = f.regs .rbp
  r12 : m.regs .r12 = f.regs .r12
  r13 : m.regs .r13 = f.regs .r13
  r14 : m.regs .r14 = f.regs .r14
  r15 : m.regs .r15 = f.regs .r15
  rsp : m.regs .rsp = f.regs .rsp
  rip : m.rip = f.rip

/-- Registers pushed one after the other. -/
theorem Pushed.pushAll (rs : List Reg) (hrs : .rsp ∉ rs) (h : Pushed m m' ws)
    (hlen : ws.length + rs.length < 2 ^ 61) :
    Pushed m (execAll m' (rs.map .push)) ((rs.map m.regs).reverse ++ ws) := by
  induction rs generalizing m' ws with
  | nil => exact h
  | cons r rs ih =>
    rw [List.length_cons] at hlen
    obtain ⟨hr,hrest⟩ := not_or.mp (mt List.mem_cons.mpr hrs)
    have hone := h.push (by omega) (m'.regs r)
    rw [h.regs r (Ne.symm hr)] at hone
    have hall := ih hrest hone (by rw [List.length_cons]; omega)
    simp only [List.map_cons,List.reverse_cons,List.append_assoc,List.singleton_append]
    rw [←h.regs r (Ne.symm hr)] at hall ⊢
    exact hall

/-- The first half of SwitchBufferContext saves the registers. -/
theorem pushed_saved (m : Machine) (ret : Word) :
    Pushed m (execAll (m.push ret) saveRegs) (Frame.words ⟨m.regs,ret⟩) :=
  ((Pushed.refl m).push (by simp) ret).pushAll [.r15,.r14,.r13,.r12,.rbx,.rbp] (by decide) (by simp)

/-- The second half loads them again and returns. -/
theorem restored_popped {f : Frame} (h : Holds m.mem (m.regs .rsp) f.words)
    (hrsp : m.regs .rsp = f.regs .rsp - 56) :
    f.Restored (execAll m restoreRegs) := by
  obtain ⟨h1,h2,h3,h4,h5,h6,h7,-⟩ := h
  have hback : f.regs .rsp - 56 + 8 + 8 + 8 + 8 + 8 + 8 + 8 = f.regs .rsp := by
    simp only [BitVec.add_assoc]
    exact BitVec.sub_add_cancel ..
  constructor
  · simpa [execAll,restoreRegs,exec] using h2
  · simpa [execAll,restoreRegs,exec] using h1
  · simpa [execAll,restoreRegs,exec] using h3
  · simpa [execAll,restoreRegs,exec] using h4
  · simpa [execAll,restoreRegs,exec] using h5
  · simpa [execAll,restoreRegs,exec] using h6
  · simpa [execAll,restoreRegs,exec,hrsp] using hback
  · simpa [execAll,restoreRegs,exec] using h7

end Machine

section Switches

variable {L : Layout κ} {m m' : Machine} {c d : κ} {f : Frame}

/-- The slot of a context leads to a stack frame in its region that holds the
saved registers. -/
structure Kept (L : Layout κ) (m : Machine) (c : κ) (f : Frame) : Prop where
  rsp : m.mem (L.slot c) = f.regs .rsp - 56
  words : Holds m.mem (f.regs .rsp - 56) f.words
  room : Room (L.region c) (f.regs .rsp)

omit [DecidableEq κ] in
/-- A frame is kept while nobody writes the stack and the slot. -/
theorem Kept.congr (h : Kept L m c f) (hslot : m'.mem (L.slot c) = m.mem (L.slot c))
    (hstack : ∀ a ∈ L.region c, m'.mem a = m.mem a) : Kept L m' c f :=
  ⟨hslot.trans h.rsp,h.words.congr fun a ha => hstack a (h.room a ha),h.room⟩

/-- What a switch leaves of the memory: the frame of the caller is new, on its
stack, and its slot leads there. -/
structure Left (L : Layout κ) (m m' : Machine) (source : κ) (ret : Word) : Prop where
  rsp : m'.mem (L.slot source) = m.regs .rsp - 56
  words : Holds m'.mem (m.regs .rsp - 56) (Frame.words ⟨m.regs,ret⟩)
  frame : ∀ a ∉ L.region source, a ≠ L.slot source → m'.mem a = m.mem a

omit [DecidableEq κ] in
/-- SwitchBufferContext up to the store of the stack pointer. -/
theorem left_saved (hroom : Room (L.region c) (m.regs .rsp)) (hslot : m.regs .rdi = L.slot c)
    (ret : Word) :
    Left L m (exec (execAll (m.push ret) saveRegs) (.store .rsp .rdi 0)) c ret := by
  obtain ⟨hregs,hrsp,hholds,hframe⟩ := pushed_saved m ret
  replace hslot : (execAll (m.push ret) saveRegs).regs .rdi + 0 = L.slot c :=
    (BitVec.add_zero _).trans ((hregs .rdi (by decide)).trans hslot)
  replace hrsp : (execAll (m.push ret) saveRegs).regs .rsp = m.regs .rsp - 56 := hrsp
  rw [hrsp] at hholds hframe
  simp only [exec,hslot,hrsp]
  refine ⟨Function.update_self ..,?_,?_⟩
  · refine hholds.congr fun a ha => Function.update_of_ne ?_ ..
    rintro rfl
    exact L.apart c c (hroom _ ha)
  · intro a ha hne
    exact (Function.update_of_ne hne ..).trans (hframe a fun hmem => ha (hroom a hmem))

omit [DecidableEq κ] in
/-- The frames of the other contexts survive. -/
theorem Left.kept {ret : Word} (h : Left L m m' c ret) (hne : d ≠ c) (hk : Kept L m d f) :
    Kept L m' d f := by
  refine hk.congr (h.frame _ (L.apart d c) fun he => hne (L.slots d c he)) ?_
  intro a ha
  refine h.frame a (L.disjoint d c hne a ha) ?_
  rintro rfl
  exact L.apart c d ha

omit [DecidableEq κ] in
/-- A switch leaves the frame of the caller and restores that of the target. -/
theorem switchTo_spec (hne : d ≠ c) (hroom : Room (L.region c) (m.regs .rsp)) (hk : Kept L m d f)
    (ret : Word) :
    Left L m (switchTo L m c d ret) c ret ∧ f.Restored (switchTo L m c d ret) := by
  have hargs : Kept L ((m.set .rdi (L.slot c)).set .rsi (L.slot d)) d f := ⟨hk.rsp,hk.words,hk.room⟩
  have hleft := left_saved (m := (m.set .rdi (L.slot c)).set .rsi (L.slot d)) hroom rfl ret
  have hkept := hleft.kept hne hargs
  rw [switchTo,call,execAll_switchBufferContext]
  have hrsi : (exec (execAll (((m.set .rdi (L.slot c)).set .rsi (L.slot d)).push ret) saveRegs)
      (.store .rsp .rdi 0)).regs .rsi = L.slot d :=
    (pushed_saved ((m.set .rdi (L.slot c)).set .rsi (L.slot d)) ret).regs .rsi (by decide)
  generalize exec (execAll (((m.set .rdi (L.slot c)).set .rsi (L.slot d)).push ret) saveRegs)
    (.store .rsp .rdi 0) = m₁ at *
  have hrsp : (exec m₁ (.load .rsi .rsp)).regs .rsp = f.regs .rsp - 56 := by
    simp only [exec,set_regs,Function.update_self,hrsi]
    exact hkept.rsp
  refine ⟨⟨hleft.rsp,hleft.words,hleft.frame⟩,restored_popped ?_ hrsp⟩
  rw [hrsp]
  exact hkept.words

omit [DecidableEq κ] in
/-- Setup prepares a frame from which CallRunner starts, and writes nothing
but the two stacks and the slot. -/
theorem setup_spec {buffer : Word} (runner ret : Word) (hroom : Room (L.region c) (m.regs .rsp))
    (hbuffer : Room (L.region d) (entryStack buffer)) (harg : entryStack buffer + 8 ∈ L.region d) :
    Kept L (setup L m d buffer runner ret) d
        ⟨Function.update (fun _ => 0) .rsp (entryStack buffer),L.callRunner⟩ ∧
      ∀ a ∉ L.region c, a ∉ L.region d → a ≠ L.slot d →
        (setup L m d buffer runner ret).mem a = m.mem a := by
  -- the stack of the buffer just before the first push
  let prologue : List Instr :=
    [.mov .rsp .r11,.mov .rdi .rsp,.sub 64 .rsp,.and (-16) .rsp,.add 8 .rsp,.store .rdx .rsp 8]
  have hcode : prepareContextInBuffer = prologue ++ ([.push .rsi] ++
      (List.replicate 6 (.pushImm 0) ++ [.mov .rsp .rax,.mov .r11 .rsp,.ret])) := rfl
  rw [setup,call,hcode,execAll_append,execAll_append,execAll_append]
  generalize hm₁ : execAll ((((m.set .rdi buffer).set .rsi L.callRunner).set .rdx runner).push ret)
    prologue = m₁
  have hrsp : m₁.regs .rsp = entryStack buffer := by rw [←hm₁]; rfl
  have hrsi : m₁.regs .rsi = L.callRunner := by rw [←hm₁]; rfl
  have hmem : m₁.mem = Function.update (Function.update m.mem (m.regs .rsp - 8) ret)
      (entryStack buffer + 8) runner := by rw [←hm₁]; rfl
  have hpushed : Pushed m₁ (execAll (execAll m₁ [.push .rsi]) (List.replicate 6 (.pushImm 0)))
      [0,0,0,0,0,0,m₁.regs .rsi] :=
    ((Pushed.refl m₁).pushAll [.rsi] (by decide) (by simp)).pushImm 6 0 (by simp)
  generalize execAll (execAll m₁ [.push .rsi]) (List.replicate 6 (.pushImm 0)) = m₂ at *
  obtain ⟨-,hsp,hholds,hframe⟩ := hpushed
  rw [hrsp] at hsp
  replace hsp : m₂.regs .rsp = entryStack buffer - 56 := hsp
  rw [hsp] at hholds hframe
  rw [hrsi] at hholds
  have hrax : (execAll m₂ [.mov .rsp .rax,.mov .r11 .rsp,.ret]).regs .rax =
      entryStack buffer - 56 :=
    hsp
  have hkeep : (execAll m₂ [.mov .rsp .rax,.mov .r11 .rsp,.ret]).mem = m₂.mem := rfl
  generalize execAll m₂ [.mov .rsp .rax,.mov .r11 .rsp,.ret] = m₃ at *
  rw [hrax]
  refine ⟨⟨Function.update_self ..,?_,hbuffer⟩,?_⟩
  · refine hholds.congr fun a ha => ?_
    rw [write_mem,Function.update_of_ne,hkeep]
    rintro rfl
    exact L.apart d d (hbuffer _ ha)
  · intro a hc hd hne
    have hsource : a ≠ m.regs .rsp - 8 := by
      rintro rfl
      exact hc (hroom _ (mem_span.mpr ⟨6,by decide,by bv_omega⟩))
    have htarget : a ≠ entryStack buffer + 8 := by
      rintro rfl
      exact hd harg
    rw [write_mem,Function.update_of_ne hne,hkeep,hframe a fun hmem => hd (hbuffer a hmem),hmem,
      Function.update_of_ne htarget,Function.update_of_ne hsource]

end Switches

section Runs

variable {L : Layout κ} {w w' : World κ} {a : Action κ}

/-- Whatever a context is to find is kept on its stack while others run. -/
def Sound (L : Layout κ) (w : World κ) : Prop :=
  ∀ c f, w.expected c = some f → c ≠ w.current ∧ Kept L w.machine c f

/-- One action keeps every frame. -/
theorem sound_step (h : Sound L w) (ha : Confined L w a) (hs : step L w a = some w') :
    Sound L w' := by
  cases a with
  | execute m =>
    cases hs
    intro c f hf
    obtain ⟨hne,hk⟩ := h c f hf
    refine ⟨hne,hk.congr (ha _ (L.apart c w.current)) ?_⟩
    exact fun a hmem => ha a (L.disjoint c w.current hne a hmem)
  | setup d buffer runner ret =>
    simp only [step] at hs
    split at hs <;> cases hs
    next hd =>
    obtain ⟨hroom,hbuffer,harg⟩ := ha
    obtain ⟨hnew,hframe⟩ := setup_spec runner ret hroom hbuffer harg
    intro c f hf
    by_cases hc : c = d
    · subst hc
      simp only [Function.update_self,Option.some.injEq] at hf
      subst hf
      exact ⟨hd.1,hnew⟩
    · simp only [Function.update_of_ne hc] at hf
      obtain ⟨hne,hk⟩ := h c f hf
      refine ⟨hne,hk.congr (hframe _ (L.apart c _) (L.apart c d) fun he => hc (L.slots c d he)) ?_⟩
      intro a hmem
      refine hframe a (L.disjoint c _ hne a hmem) (L.disjoint c d hc a hmem) ?_
      rintro rfl
      exact L.apart d c hmem
  | switchTo d ret =>
    simp only [step] at hs
    split at hs <;> cases hs
    next hd =>
    obtain ⟨g,hg⟩ := Option.ne_none_iff_exists'.mp hd.2
    obtain ⟨hleft,-⟩ := switchTo_spec hd.1 ha (h d g hg).2 ret
    intro c f hf
    by_cases hc : c = d
    · subst hc
      simp at hf
    refine ⟨hc,?_⟩
    simp only [Function.update_of_ne hc] at hf
    by_cases hcur : c = w.current
    · subst hcur
      simp only [Function.update_self,Option.some.injEq] at hf
      subst hf
      exact ⟨hleft.rsp,hleft.words,ha⟩
    · simp only [Function.update_of_ne hcur] at hf
      exact hleft.kept hcur (h c f hf).2

/-- In every run the frames of all contexts are kept. -/
theorem sound_reachable {m : Machine} {main : κ}
    (hr : (contexts L m main).ReachableUnder (Confined L) w) : Sound L w := by
  refine hr.invariant ?_ ?_
  · intro c f hf
    cases hf
  · exact fun _ _ _ _ h ha hs => sound_step h ha hs

/-- What a context is to find stays the same until it is switched to. -/
theorem expected_step {c : κ} {f : Frame} (hf : w.expected c = some f)
    (hne : c ≠ w.current) (ha : ∀ ret, a ≠ .switchTo c ret) (hs : step L w a = some w') :
    w'.expected c = some f ∧ c ≠ w'.current := by
  cases a with
  | execute m =>
    cases hs
    exact ⟨hf,hne⟩
  | setup d buffer runner ret =>
    simp only [step] at hs
    split at hs <;> cases hs
    next hd =>
    have hc : c ≠ d := by
      rintro rfl
      cases hd.2.symm.trans hf
    exact ⟨(Function.update_of_ne hc ..).trans hf,hne⟩
  | switchTo d ret =>
    simp only [step] at hs
    split at hs <;> cases hs
    have hc : c ≠ d := fun he => ha ret (he ▸ rfl)
    exact ⟨(Function.update_of_ne hc ..).trans ((Function.update_of_ne hne ..).trans hf),hc⟩

/-- A run in which a context is not switched to. -/
theorem expected_run {m : Machine} {main c : κ} {f : Frame} {acts : List (Action κ)}
    (hf : w.expected c = some f) (hne : c ≠ w.current) (ha : ∀ ret, .switchTo c ret ∉ acts)
    (hr : (contexts L m main).run w acts = some w') : w'.expected c = some f := by
  induction acts generalizing w with
  | nil =>
    cases hr
    exact hf
  | cons a rest ih =>
    cases hs : step L w a with
    | none => simp [System.run,contexts,hs] at hr
    | some v =>
      have hrun : (contexts L m main).run v rest = some w' := by
        simpa [System.run,contexts,hs] using hr
      obtain ⟨hv,hcur⟩ := expected_step hf hne (fun ret he => ha ret (he ▸ List.mem_cons_self)) hs
      exact ih hv hcur (fun ret hmem => ha ret (List.mem_cons_of_mem _ hmem)) hrun

/-- A context calls SwitchBufferContext; any number of switches among the
others later, with any code run between them, one of them switches back. The
context finds the registers, the stack pointer and the place of execution that
its own call would have left on returning. -/
theorem switch_back_restores {m : Machine} {main c d : κ} {ret ret' : Word}
    {acts : List (Action κ)} (hr : (contexts L m main).ReachableUnder (Confined L) w)
    (hc : w.current = c) (hback : ∀ r, .switchTo c r ∉ acts)
    (hm : (contexts L m main).Meets (Confined L) w (.switchTo d ret :: acts ++ [.switchTo c ret']))
    (hrun : (contexts L m main).run w (.switchTo d ret :: acts ++ [.switchTo c ret']) = some w') :
    w'.current = c ∧ Frame.Restored ⟨w.machine.regs,ret⟩ w'.machine := by
  obtain ⟨v,hv,hlast⟩ := System.run_snoc hrun
  have hreach := hr.run hm.front hv
  -- the call itself records what the context is to find
  obtain ⟨u,hu,hrest⟩ : ∃ u, step L w (.switchTo d ret) = some u ∧
      (contexts L m main).run u acts = some v := by
    cases hs : step L w (.switchTo d ret) with
    | none => simp [System.run,contexts,hs] at hv
    | some u => exact ⟨u,rfl,by simpa [System.run,contexts,hs] using hv⟩
  have hcalled : u.expected c = some ⟨w.machine.regs,ret⟩ ∧ c ≠ u.current := by
    simp only [step] at hu
    split at hu <;> cases hu
    next hd =>
    subst hc
    exact ⟨(Function.update_of_ne hd.1.symm ..).trans (Function.update_self ..),hd.1.symm⟩
  have hexpected := expected_run hcalled.1 hcalled.2 hback hrest
  have hconfined : Confined L v (.switchTo c ret') := hm.last hv
  obtain ⟨hne,hk⟩ := sound_reachable hreach c _ hexpected
  replace hlast : step L v (.switchTo c ret') = some w' := hlast
  simp only [step] at hlast
  split at hlast <;> cases hlast
  exact ⟨rfl,(switchTo_spec hne hconfined hk ret').2⟩

end Runs

/-- Two stacks of 64 KiB and two slots below them. -/
def twoStacks : Layout (Fin 2) where
  region c := { a | a.toNat / 65536 = c.val + 1 }
  slot c := BitVec.ofNat 64 (8 * c.val)
  callRunner := 4096
  disjoint c d hne a hc hd := hne (Fin.ext (Nat.succ.inj (hc.symm.trans hd)))
  slots := by decide
  apart := by decide

/-- The main context, with something in its registers. -/
def twoMain : Machine := ⟨fun r => if r = .rsp then 98304 else 5,fun _ => 0,0⟩

/-- The main context sets up the other one and has just called Setup. -/
def twoSetup : World (Fin 2) where
  machine := setup twoStacks twoMain 1 196607 1 8192
  current := 0
  expected := Function.update (fun _ => none) 1
    (some ⟨Function.update (fun _ => 0) .rsp (entryStack 196607),4096⟩)

/-- The other context overwrites the registers and a word of its stack. -/
def scribble : Machine where
  regs r := if r = .rsp then 163840 else 7
  mem := Function.update (switchTo twoStacks twoSetup.machine 0 1 8200).mem 163840 7
  rip := 4100

theorem switch_back_restores_scribble :
    ∃ w, (contexts twoStacks twoMain 0).run twoSetup
        (.switchTo 1 8200 :: [.execute scribble] ++ [.switchTo 0 4104]) = some w ∧
      w.current = 0 ∧ Frame.Restored ⟨twoSetup.machine.regs,8200⟩ w.machine := by
  have hsetup : (contexts twoStacks twoMain 0).ReachableUnder (Confined twoStacks) twoSetup := by
    refine .step (a := .setup 1 196607 1 8192) .start ⟨?_,?_,?_⟩ rfl
    · change ∀ a ∈ span (98304 - 56) 7, a.toNat / 65536 = 1
      simp [span]
    · change ∀ a ∈ span (196536 - 56) 7, a.toNat / 65536 = 2
      simp [span]
    · change (entryStack 196607 + 8).toNat / 65536 = 2
      decide +kernel
  have hsource : Room (twoStacks.region 0) (twoSetup.machine.regs .rsp) := by
    change ∀ a ∈ span (98304 - 56) 7, a.toNat / 65536 = 1
    simp [span]
  have htarget : Room (twoStacks.region 1) (scribble.regs .rsp) := by
    change ∀ a ∈ span (163840 - 56) 7, a.toNat / 65536 = 2
    simp [span]
  have hscribble : ∀ a ∉ twoStacks.region 1,
      scribble.mem a = (switchTo twoStacks twoSetup.machine 0 1 8200).mem a := by
    intro a ha
    refine Function.update_of_ne ?_ ..
    rintro rfl
    exact ha (by change (163840#64).toNat / 65536 = 2; decide)
  have hback : ∀ r, .switchTo 0 r ∉ [(.execute scribble : Action (Fin 2))] := by simp
  exact ⟨_,rfl,switch_back_restores (d := 1) hsetup rfl hback
    ⟨hsource,hscribble,htarget,trivial⟩ rfl⟩

end ConcurrencyRuntime.ContextSwitch
