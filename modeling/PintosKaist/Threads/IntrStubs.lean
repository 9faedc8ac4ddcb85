/-
`struct intr_frame` (`include/threads/interrupt.h`) and the code that saves and
restores registers in one: the interrupt stubs and `intr_entry`
(`threads/intr-stubs.S`) and `do_iret` (`threads/thread.c`).

The frame a handler gets holds the registers that were interrupted
(`deliver_read`), and what it holds when the handler returns is what the
processor goes on with (`intrExit_eq`).
-/
import PintosKaist.Lib.X86

namespace PintosKaist.Intr

open X86 ByteMem

def selKcseg : BitVec 16 := 0x08
def selKdseg : BitVec 16 := 0x10
def selUdseg : BitVec 16 := 0x1b
def selUcseg : BitVec 16 := 0x23

/-- `struct intr_frame`, its padding left out; `reg` is `R` and `rsp`. -/
structure IntrFrame where
  reg : Reg → Word
  es : BitVec 16
  ds : BitVec 16
  vecNo : Word
  errorCode : Word
  rip : Word
  cs : BitVec 16
  eflags : Word
  ss : BitVec 16

/-- `struct gp_registers`: its members and where they are in the frame. -/
def gpRegisters : List (Reg × Nat) :=
  [(.r15, 0), (.r14, 8), (.r13, 16), (.r12, 24), (.r11, 32), (.r10, 40), (.r9, 48), (.r8, 56), (.rsi, 64), (.rdi, 72),
    (.rbp, 80), (.rdx, 88), (.rcx, 96), (.rbx, 104), (.rax, 112)]

/-- Where a register is in the frame. -/
def regOffset : Reg → Nat
  | .r15 => 0
  | .r14 => 8
  | .r13 => 16
  | .r12 => 24
  | .r11 => 32
  | .r10 => 40
  | .r9 => 48
  | .r8 => 56
  | .rsi => 64
  | .rdi => 72
  | .rbp => 80
  | .rdx => 88
  | .rcx => 96
  | .rbx => 104
  | .rax => 112
  | .rsp => 176

def frameSize : Nat := 192

def word (m : Mem) (a : Addr) (off : Nat) : Word := BitVec.ofNat 64 (load m (a + BitVec.ofNat 64 off) 8)

def half (m : Mem) (a : Addr) (off : Nat) : BitVec 16 := BitVec.ofNat 16 (load m (a + BitVec.ofNat 64 off) 2)

/-- The frame at an address. -/
def IntrFrame.read (m : Mem) (a : Addr) : IntrFrame where
  reg r := word m a (regOffset r)
  es := half m a 120
  ds := half m a 128
  vecNo := word m a 136
  errorCode := word m a 144
  rip := word m a 152
  cs := half m a 160
  eflags := word m a 168
  ss := half m a 184

/-- The stores that make a frame, in the order of `intr_entry`. -/
def IntrFrame.slots (f : IntrFrame) : List Slot :=
  [⟨184, 8, (f.ss.setWidth 64).toNat⟩, ⟨176, 8, (f.reg .rsp).toNat⟩, ⟨168, 8, f.eflags.toNat⟩,
    ⟨160, 8, (f.cs.setWidth 64).toNat⟩, ⟨152, 8, f.rip.toNat⟩, ⟨144, 8, f.errorCode.toNat⟩, ⟨136, 8, f.vecNo.toNat⟩,
    ⟨128, 2, f.ds.toNat⟩, ⟨120, 2, f.es.toNat⟩] ++
    gpRegisters.reverse.map fun p => ⟨p.2, 8, (f.reg p.1).toNat⟩

/-- What the processor goes on with after the frame. -/
def IntrFrame.resume (f : IntrFrame) (s : State) : State where
  reg := f.reg
  seg
    | .cs => f.cs
    | .ds => f.ds
    | .es => f.es
    | .ss => f.ss
    | .fs => s.seg .fs
    | .gs => s.seg .gs
  rip := f.rip
  rflags := f.eflags
  mem := s.mem

/-! ## The code -/

/-- `intr_entry` as far as the handler; `ret` is the address it returns to. -/
def intrEntry (ret : Word) : List Instr :=
  [Instr.sub .rsp 16, .storeSeg .ds 8 .rsp, .storeSeg .es 0 .rsp, .sub .rsp 120] ++ saveAll .rsp gpRegisters.reverse ++
    [Instr.cld, .movImm .rax (selKdseg.setWidth 64), .movSeg .ds .rax, .movSeg .es .rax, .movSeg .ss .rax,
      .movSeg .fs .rax, .movSeg .gs .rax, .mov .rdi .rsp, .call ret]

/-- The rest of `intr_entry`, and all of `do_iret` but its first instruction; an
`iretq` follows. -/
def intrExit : List Instr :=
  loadAll .rsp gpRegisters ++ [Instr.add .rsp 120, .loadSeg .ds 8 .rsp, .loadSeg .es 0 .rsp, .add .rsp 32]

/-- `do_iret` -/
def doIret (alu : Alu) (s : State) (tf : Word) : State := iretq (run alu (s.setReg .rsp tf) intrExit)

/-- The vectors whose stub takes the error code that is already there. -/
def stubReal (vec : Nat) : Bool := vec ∈ [0x08, 0x0a, 0x0b, 0x0d, 0x0e, 0x11, 0x18, 0x1a, 0x1b, 0x1d, 0x1e]

/-- `STUB(vec, …)` -/
def stub (vec : Nat) : List Instr :=
  (if stubReal vec then [] else [Instr.pushImm 0]) ++ [Instr.pushImm (BitVec.ofNat 64 vec)]

/-- The processor takes an interrupt and comes as far as the handler. -/
def enter (alu : Alu) (g : Gate) (vec : Nat) (ret : Word) (s : State) : State :=
  run alu (g.deliver s) (stub vec ++ intrEntry ret)

variable {alu : Alu} {g : Gate} {vec : Nat} {ret tf : Word} {s s' : State} {m : Mem} {a : Addr} {f : IntrFrame}
  {l : List Slot}

/-! ## Images of frames -/

theorem slots_separate (f : IntrFrame) : Separate (f.slots.map Slot.extent) := by
  have h : f.slots.map Slot.extent =
      [(184, 8), (176, 8), (168, 8), (160, 8), (152, 8), (144, 8), (136, 8), (128, 2), (120, 2)] ++
        gpRegisters.reverse.map fun p => (p.2, 8) := rfl
  rw [h]
  decide

theorem word_fill {off : Nat} {v : Word} (hl : Separate (l.map Slot.extent)) (h : ⟨off, 8, v.toNat⟩ ∈ l) :
    word (fill m a l) a off = v := by
  have hload := load_fill (m := m) (b := a) (s := ⟨off, 8, v.toNat⟩) hl h (Nat.le_refl 8)
  have hv : v.toNat % 256 ^ 8 = v.toNat := Nat.mod_eq_of_lt (by have := v.isLt; omega)
  simp only [hv] at hload
  rw [word, hload, BitVec.ofNat_toNat, BitVec.setWidth_eq]

/-- A slot of two bytes or more, the value in the low two. -/
theorem half_fill {off : Nat} {v : BitVec 16} (size n : Nat) (hl : Separate (l.map Slot.extent)) (h : ⟨off, size, n⟩ ∈ l)
    (hs : 2 ≤ size) (hn : n % 2 ^ 16 = v.toNat) : half (fill m a l) a off = v := by
  have hload := load_fill (m := m) (b := a) (s := ⟨off, size, n⟩) hl h hs
  have hv : n % 256 ^ 2 = v.toNat := hn
  simp only [hv] at hload
  rw [half, hload, BitVec.ofNat_toNat, BitVec.setWidth_eq]

theorem toNat_mod (v : BitVec 16) : v.toNat % 2 ^ 16 = v.toNat := Nat.mod_eq_of_lt v.isLt

theorem toNat_setWidth_64 (v : BitVec 16) : (v.setWidth 64).toNat % 2 ^ 16 = v.toNat := by
  have := v.isLt
  rw [BitVec.toNat_setWidth]
  omega

theorem reg_mem_slots (f : IntrFrame) (r : Reg) : ⟨regOffset r, 8, (f.reg r).toNat⟩ ∈ f.slots := by
  cases r <;> simp [IntrFrame.slots, regOffset, gpRegisters]

/-- The image of a frame reads as the frame. -/
theorem read_fill_slots (f : IntrFrame) (m : Mem) (a : Addr) : IntrFrame.read (fill m a f.slots) a = f := by
  obtain ⟨reg, es, ds, vecNo, errorCode, rip, cs, eflags, ss⟩ := f
  simp only [IntrFrame.read, IntrFrame.mk.injEq]
  have hsep := slots_separate ⟨reg, es, ds, vecNo, errorCode, rip, cs, eflags, ss⟩
  refine ⟨funext fun r => word_fill hsep (reg_mem_slots _ r), half_fill 2 es.toNat hsep ?_ ?_ (toNat_mod es),
    half_fill 2 ds.toNat hsep ?_ ?_ (toNat_mod ds), word_fill hsep ?_, word_fill hsep ?_, word_fill hsep ?_,
    half_fill 8 _ hsep ?_ ?_ (toNat_setWidth_64 cs), word_fill hsep ?_, half_fill 8 _ hsep ?_ ?_ (toNat_setWidth_64 ss)⟩
  all_goals simp [IntrFrame.slots]

/-! ## The way out -/

theorem gpRegisters_rsp : Reg.rsp ∉ gpRegisters.map Prod.fst := by decide

theorem gpRegisters_nodup : (gpRegisters.map Prod.fst).Nodup := by decide

theorem mem_gpRegisters (r : Reg) (h : r ≠ .rsp) : (r, regOffset r) ∈ gpRegisters := by
  cases r with
  | rsp => exact absurd rfl h
  | _ => decide

/-- The way out of `intr_entry` goes on with what the frame holds. -/
theorem intrExit_eq (alu : Alu) (s : State) :
    iretq (run alu s intrExit) = (IntrFrame.read s.mem (s.reg .rsp)).resume s := by
  rw [intrExit, run_append, run_loadAll]
  have hreg : ∀ r, r ≠ .rsp → (run alu s (loadAll .rsp gpRegisters)).reg r = word s.mem (s.reg .rsp) (regOffset r) :=
    fun r hr => loadAll_mem gpRegisters_rsp gpRegisters_nodup (mem_gpRegisters r hr)
  have hrsp : (run alu s (loadAll .rsp gpRegisters)).reg .rsp = s.reg .rsp := loadAll_other alu .rsp s gpRegisters_rsp
  generalize (run alu s (loadAll .rsp gpRegisters)).reg = reg at hreg hrsp
  simp only [run_cons, run_nil, exec, State.setReg, State.setArith, State.setSeg, State.addr, State.half, State.word,
    iretq, IntrFrame.resume, IntrFrame.read, Function.update_self, Function.update_idem, hrsp, State.mk.injEq]
  simp only [BitVec.add_assoc, BitVec.reduceAdd]
  refine ⟨funext fun r => ?_, funext fun r => ?_, rfl, rfl, trivial⟩
  · by_cases hr : r = .rsp
    · subst hr
      rw [Function.update_self]
      rfl
    · rw [Function.update_of_ne hr, hreg r hr]
  · cases r <;> rfl

/-- `do_iret` goes on with what the frame holds. -/
theorem doIret_eq (alu : Alu) (s : State) (tf : Word) : doIret alu s tf = (IntrFrame.read s.mem tf).resume s := by
  rw [doIret, intrExit_eq]
  simp only [State.setReg, Function.update_self, IntrFrame.resume]

/-! ## The way in -/

/-- The words that the processor and the stub push. -/
def pushedWords (g : Gate) (vec : Nat) (s : State) : List Word :=
  [(s.seg .ss).setWidth 64, s.reg .rsp, s.rflags, (s.seg .cs).setWidth 64, s.rip] ++ g.errorCode.toList ++
    (if stubReal vec then [] else [0]) ++ [BitVec.ofNat 64 vec]

/-- The stores of `intr_entry`. -/
def entrySlots (s : State) : List Slot :=
  [⟨128, 2, (s.seg .ds).toNat⟩, ⟨120, 2, (s.seg .es).toNat⟩] ++
    gpRegisters.reverse.map fun p => ⟨p.2, 8, (s.reg p.1).toNat⟩

/-- What the handler finds when `intr_entry` has been run. -/
theorem run_intrEntry (alu : Alu) (s : State) (ret : Word) :
    let a := s.reg .rsp - BitVec.ofNat 64 136
    (run alu s (intrEntry ret)).mem = store (fill s.mem a (entrySlots s)) (a - 8) 8 ret.toNat ∧
      (run alu s (intrEntry ret)).reg .rdi = a ∧ (run alu s (intrEntry ret)).reg .rsp = a - 8 ∧
      (run alu s (intrEntry ret)).seg .cs = s.seg .cs ∧
      ∀ r, r ≠ .cs → (run alu s (intrEntry ret)).seg r = selKdseg := by
  intro a
  have ha : s.reg .rsp - 16#64 - 120#64 = a := by
    rw [BitVec.sub_sub]
    rfl
  have hds : s.reg .rsp - 16#64 + 8#64 = a + BitVec.ofNat 64 128 := by
    have hring : ∀ x : Word, x - 16 + 8 = x - 136 + 128 := fun x => by ring
    exact hring _
  have hes : s.reg .rsp - 16#64 + 0#64 = a + BitVec.ofNat 64 120 := by
    have hring : ∀ x : Word, x - 16 + 0 = x - 136 + 120 := fun x => by ring
    exact hring _
  have hmap : ∀ v, (gpRegisters.reverse.map fun p => Slot.mk p.2 8 (Function.update s.reg .rsp v p.1).toNat) =
      gpRegisters.reverse.map fun p => ⟨p.2, 8, (s.reg p.1).toNat⟩ := fun v => List.map_congr_left fun p hp => by
    rw [Function.update_of_ne]
    intro h
    exact gpRegisters_rsp (h ▸ List.mem_map_of_mem (List.mem_reverse.mp hp))
  have h₁ : Reg.rsp ≠ .rdi := by decide
  have h₂ : Reg.rsp ≠ .rax := by decide
  simp only [intrEntry, run_append, run_cons, run_nil, exec, run_saveAll, State.setReg, State.setArith, State.addr,
    State.setSeg, State.pushVal, Function.update_self, Function.update_idem, ha, hds, hes, hmap,
    Function.update_of_ne h₁, Function.update_of_ne h₁.symm, Function.update_of_ne h₂]
  refine ⟨?_, trivial, trivial, ?_, fun r hr => ?_⟩
  · rw [entrySlots, fill_append]
    rfl
  · rfl
  · cases r with
    | cs => exact absurd rfl hr
    | _ => rfl

/-- What the stub finds and leaves: the words are on the stack that the
processor chose, and the registers but the stack pointer are as they were. -/
theorem run_stub (alu : Alu) (g : Gate) (vec : Nat) (s : State) :
    let b := g.stack s - BitVec.ofNat 64 (8 * (pushedWords g vec s).length)
    (run alu (g.deliver s) (stub vec)).mem = fill s.mem b (pushSlots (pushedWords g vec s)) ∧
      (run alu (g.deliver s) (stub vec)).reg = Function.update s.reg .rsp b ∧
      (run alu (g.deliver s) (stub vec)).seg .ds = s.seg .ds ∧ (run alu (g.deliver s) (stub vec)).seg .es = s.seg .es := by
  intro b
  have hrun : run alu (g.deliver s) (stub vec) =
      { (pushedWords g vec s).foldl State.pushVal (s.setReg .rsp (g.stack s)) with
        seg := (g.deliver s).seg
        rip := (g.deliver s).rip
        rflags := (g.deliver s).rflags } := by
    unfold Gate.deliver pushedWords stub
    cases g.errorCode <;> cases stubReal vec <;> rfl
  have hseg : (g.deliver s).seg .ds = s.seg .ds ∧ (g.deliver s).seg .es = s.seg .es := by
    simp only [Gate.deliver]
    by_cases hc : s.cpl = 0
    · rw [if_pos hc]
      exact ⟨rfl, rfl⟩
    · rw [if_neg hc]
      exact ⟨rfl, rfl⟩
  rw [hrun, foldl_pushVal]
  refine ⟨?_, ?_, hseg.1, hseg.2⟩
  · simp only [State.setReg, Function.update_self]
    rfl
  · simp only [State.setReg, Function.update_self, Function.update_idem]
    rfl

/-- The registers that were interrupted, as the handler should find them. -/
def interrupted (g : Gate) (vec : Nat) (s : State) : IntrFrame where
  reg := s.reg
  es := s.seg .es
  ds := s.seg .ds
  vecNo := BitVec.ofNat 64 vec
  errorCode := g.errorCode.getD 0
  rip := s.rip
  cs := s.seg .cs
  eflags := s.rflags
  ss := s.seg .ss

/-- What the handler finds in memory: the words pushed and the registers saved,
from the address it is given, and below it where it returns to. -/
theorem enter_mem (alu : Alu) (g : Gate) (vec : Nat) (ret : Word) (s : State) :
    let a := g.stack s - BitVec.ofNat 64 (8 * (pushedWords g vec s).length + 136)
    (enter alu g vec ret s).mem =
        store (fill s.mem a ((pushSlots (pushedWords g vec s)).map (Slot.shift 136) ++ entrySlots s)) (a - 8) 8 ret.toNat ∧
      (enter alu g vec ret s).reg .rdi = a ∧ (enter alu g vec ret s).reg .rsp = a - 8 := by
  intro a
  obtain ⟨hmem, hreg, hds, hes⟩ := run_stub alu g vec s
  obtain ⟨hmem', hrdi, hrsp, -, -⟩ := run_intrEntry alu (run alu (g.deliver s) (stub vec)) ret
  have hb : g.stack s - BitVec.ofNat 64 (8 * (pushedWords g vec s).length) = a + BitVec.ofNat 64 136 := by
    have hring : ∀ x y : Word, x - y = x - (y + 136) + 136 := fun x y => by ring
    simp only [a, BitVec.ofNat_add]
    exact hring _ _
  have ha : (run alu (g.deliver s) (stub vec)).reg .rsp - BitVec.ofNat 64 136 = a := by
    rw [hreg, Function.update_self, hb]
    exact BitVec.add_sub_cancel _ _
  have hslots : entrySlots (run alu (g.deliver s) (stub vec)) = entrySlots s := by
    simp only [entrySlots, hds, hes]
    congr 1
    refine List.map_congr_left fun p hp => ?_
    rw [hreg, Function.update_of_ne]
    intro h
    exact gpRegisters_rsp (h ▸ List.mem_map_of_mem (List.mem_reverse.mp hp))
  rw [ha] at hmem' hrdi hrsp
  rw [enter, run_append]
  refine ⟨?_, hrdi, hrsp⟩
  rw [hmem', hslots, hmem, hb, fill_shift, fill_append]

theorem load_below {off n v : Nat} (h : off + n < 2 ^ 63) :
    load (store m (a - 8) 8 v) (a + BitVec.ofNat 64 off) n = load m (a + BitVec.ofNat 64 off) n := by
  have hsub : (a + BitVec.ofNat 64 off - (a - 8)).toNat = off + 8 := by
    have hring : ∀ x y : Word, x + y - (x - 8) = y + 8 := fun x y => by ring
    rw [hring, BitVec.toNat_add, BitVec.toNat_ofNat, Nat.mod_eq_of_lt (by omega : off < 2 ^ 64)]
    exact Nat.mod_eq_of_lt (show off + 8 < 2 ^ 64 by omega)
  exact load_store_apart ⟨by omega, by omega⟩

/-- What is pushed below a frame is nothing to it. -/
theorem read_store_below {v : Nat} : IntrFrame.read (store m (a - 8) 8 v) a = IntrFrame.read m a := by
  have hw : ∀ off, off < 2 ^ 62 → word (store m (a - 8) 8 v) a off = word m a off := fun off h => by
    rw [word, word, load_below (by omega)]
  have hh : ∀ off, off < 2 ^ 62 → half (store m (a - 8) 8 v) a off = half m a off := fun off h => by
    rw [half, half, load_below (by omega)]
  have hr : ∀ r, regOffset r < 2 ^ 62 := fun r => by cases r <;> decide
  simp (disch := decide) only [IntrFrame.read, hw _ (hr _), hw, hh]

/-- A frame is made of its bytes, wherever they are. -/
theorem read_congr {m' : Mem} {b : Addr} (h : ∀ i < frameSize, m' (b + BitVec.ofNat 64 i) = m (a + BitVec.ofNat 64 i)) :
    IntrFrame.read m' b = IntrFrame.read m a := by
  have hl : ∀ off n, off + n ≤ frameSize →
      load m' (b + BitVec.ofNat 64 off) n = load m (a + BitVec.ofNat 64 off) n := fun off n hn =>
    load_congr fun i hi => by
      rw [BitVec.add_assoc, BitVec.add_assoc, ← BitVec.ofNat_add]
      exact h (off + i) (by omega)
  have hw : ∀ off, off + 8 ≤ frameSize → word m' b off = word m a off := fun off hn => by rw [word, word, hl off 8 hn]
  have hh : ∀ off, off + 2 ≤ frameSize → half m' b off = half m a off := fun off hn => by rw [half, half, hl off 2 hn]
  have hr : ∀ r, regOffset r + 8 ≤ frameSize := fun r => by cases r <;> decide
  simp (disch := decide) only [IntrFrame.read, hw _ (hr _), hw, hh]

/-- The stub for the interrupt expects an error code just when there is one. -/
theorem slots_eq (h : stubReal vec = g.errorCode.isSome) :
    (pushSlots (pushedWords g vec s)).map (Slot.shift 136) ++ entrySlots s = (interrupted g vec s).slots := by
  unfold pushedWords
  rw [h]
  cases hc : g.errorCode with
  | none => simp [pushSlots, Slot.shift, entrySlots, interrupted, IntrFrame.slots, hc]
  | some code => simp [pushSlots, Slot.shift, entrySlots, interrupted, IntrFrame.slots, hc]

theorem pushedWords_length (h : stubReal vec = g.errorCode.isSome) : (pushedWords g vec s).length = 7 := by
  unfold pushedWords
  rw [h]
  cases g.errorCode <;> rfl

/-- **The handler of an interrupt gets the interrupted registers.** -/
theorem enter_read (alu : Alu) (ret : Word) (s : State) (h : stubReal vec = g.errorCode.isSome) :
    IntrFrame.read (enter alu g vec ret s).mem ((enter alu g vec ret s).reg .rdi) = interrupted g vec s := by
  obtain ⟨hmem, hrdi, -⟩ := enter_mem alu g vec ret s
  rw [hmem, hrdi, read_store_below, slots_eq h]
  exact read_fill_slots _ _ _

/-- The way in writes to the 200 bytes of the stack from its pointer on. -/
theorem enter_off {x : Addr} (alu : Alu) (ret : Word) (s : State) (h : stubReal vec = g.errorCode.isSome)
    (hx : 200 ≤ (x - (enter alu g vec ret s).reg .rsp).toNat) : (enter alu g vec ret s).mem x = s.mem x := by
  obtain ⟨hmem, -, hrsp⟩ := enter_mem alu g vec ret s
  rw [hrsp] at hx
  rw [hmem, slots_eq h, store_off (by omega)]
  generalize g.stack s - BitVec.ofNat 64 (8 * (pushedWords g vec s).length + 136) = a at hx
  have hxa : frameSize ≤ (x - a).toNat := by
    have hring : ∀ x a : Word, x - (a - 8) = x - a + 8 := fun x a => by ring
    have h8 : ((8 : Word)).toNat = 8 := rfl
    rw [hring, BitVec.toNat_add, h8] at hx
    simp only [frameSize]
    by_contra hlt
    rw [Nat.mod_eq_of_lt (by omega)] at hx
    omega
  have hext : ∀ e ∈ (interrupted g vec s).slots.map Slot.extent, e.1 + e.2 ≤ frameSize := by
    have he : (interrupted g vec s).slots.map Slot.extent =
        [(184, 8), (176, 8), (168, 8), (160, 8), (152, 8), (144, 8), (136, 8), (128, 2), (120, 2)] ++
          gpRegisters.reverse.map fun p => (p.2, 8) := rfl
    rw [he]
    decide
  refine fill_off (fun e he hc => ?_) fun e he => (slots_separate _).fit _ (List.mem_map_of_mem he)
  have hfit : e.off + e.size ≤ frameSize := hext _ (List.mem_map_of_mem he)
  have := hc.2
  omega

/-- **An interrupt is transparent.** Its handler gets the registers that were
interrupted, and the way to it writes to the stack only. When the handler comes
back with its stack and the frame as they were, the processor goes on as if
nothing had happened, but with the memory as the handler left it and with FS
and GS, which are not saved. -/
theorem interrupt_transparent (alu : Alu) (g : Gate) (vec : Nat) (ret : Word) (s : State)
    (h : stubReal vec = g.errorCode.isSome) :
    IntrFrame.read (enter alu g vec ret s).mem ((enter alu g vec ret s).reg .rdi) = interrupted g vec s ∧
    (∀ x, 200 ≤ (x - (enter alu g vec ret s).reg .rsp).toNat → (enter alu g vec ret s).mem x = s.mem x) ∧
    ∀ s₂ : State, s₂.reg .rsp = (enter alu g vec ret s).reg .rdi →
      (∀ i < frameSize, s₂.mem (s₂.reg .rsp + BitVec.ofNat 64 i) =
        (enter alu g vec ret s).mem (s₂.reg .rsp + BitVec.ofNat 64 i)) →
      iretq (run alu s₂ intrExit) =
        { s with
          mem := s₂.mem
          seg := Function.update (Function.update s.seg .fs (s₂.seg .fs)) .gs (s₂.seg .gs) } := by
  refine ⟨enter_read alu ret s h, fun x hx => enter_off alu ret s h hx, fun s₂ hsp hmem => ?_⟩
  rw [intrExit_eq, read_congr hmem, hsp, enter_read alu ret s h]
  simp only [IntrFrame.resume, interrupted, State.mk.injEq, true_and, and_true]
  funext r
  cases r <;> rfl

/-- A user program at an instruction, its registers and memory zero. -/
def userAt (rip : Word) : State where
  reg _ := 0
  seg
    | .cs => selUcseg
    | _ => selUdseg
  rip := rip
  rflags := 0x200
  mem _ := 0

/-- A gate to the kernel, with a stack of its own. -/
def kernelGate (errorCode : Option Word) : Gate where
  rsp0 := 0x8004246000
  cs := selKcseg
  entry := 0x8004207000
  intrOff := true
  errorCode

theorem interrupt_transparent_timer :
    IntrFrame.read (enter (fun _ _ => 0) (kernelGate none) 0x20 0x8004208000 (userAt 0x400000)).mem
        ((enter (fun _ _ => 0) (kernelGate none) 0x20 0x8004208000 (userAt 0x400000)).reg .rdi) =
      interrupted (kernelGate none) 0x20 (userAt 0x400000) ∧
    (∀ x, 200 ≤ (x - (enter (fun _ _ => 0) (kernelGate none) 0x20 0x8004208000 (userAt 0x400000)).reg .rsp).toNat →
      (enter (fun _ _ => 0) (kernelGate none) 0x20 0x8004208000 (userAt 0x400000)).mem x = 0) ∧
    ∀ s₂ : State,
      s₂.reg .rsp = (enter (fun _ _ => 0) (kernelGate none) 0x20 0x8004208000 (userAt 0x400000)).reg .rdi →
      (∀ i < frameSize, s₂.mem (s₂.reg .rsp + BitVec.ofNat 64 i) =
        (enter (fun _ _ => 0) (kernelGate none) 0x20 0x8004208000 (userAt 0x400000)).mem
          (s₂.reg .rsp + BitVec.ofNat 64 i)) →
      iretq (run (fun _ _ => 0) s₂ intrExit) =
        { userAt 0x400000 with
          mem := s₂.mem
          seg := Function.update (Function.update (userAt 0x400000).seg .fs (s₂.seg .fs)) .gs (s₂.seg .gs) } :=
  interrupt_transparent _ _ _ _ _ (by decide)

end PintosKaist.Intr
