/-
The part of the x86-64 that code which saves and restores registers uses:
moves, pushes and pops, and the ways in and out of an interrupt and a system
call. Straight-line code is a list of instructions.

Of the arithmetic flags only that `add`, `sub` and `bts` change them is said:
`alu` is what they become. Bit 1 of the flags, which is always set, is left
out, and so are the checks of `iretq` and `sysretq`, which fault on a frame that
is not in order.
-/
import PintosKaist.Lib.ByteMem

namespace X86

open ByteMem

abbrev Word := BitVec 64

inductive Reg where
  | rax
  | rbx
  | rcx
  | rdx
  | rsi
  | rdi
  | rbp
  | rsp
  | r8
  | r9
  | r10
  | r11
  | r12
  | r13
  | r14
  | r15
deriving DecidableEq

inductive Seg where
  | cs
  | ds
  | es
  | ss
  | fs
  | gs
deriving DecidableEq

structure State where
  reg : Reg → Word
  seg : Seg → BitVec 16
  rip : Word
  rflags : Word
  mem : Mem

/-- CF, PF, AF, ZF, SF and OF. -/
def arithFlags : Word := 0x8d5

def flagTF : Word := 0x100
def flagIF : Word := 0x200
def flagDF : Word := 0x400
def flagNT : Word := 0x4000
def flagRF : Word := 0x10000
def flagVM : Word := 0x20000

inductive Instr where
  | mov (dst src : Reg)
  | movImm (dst : Reg) (v : Word)
  | load (dst : Reg) (off : Nat) (base : Reg)
  | store (src : Reg) (off : Nat) (base : Reg)
  /-- from and to a fixed address -/
  | loadAt (dst : Reg) (a : Word)
  | storeAt (src : Reg) (a : Word)
  /-- 16-bit moves of segment registers -/
  | loadSeg (dst : Seg) (off : Nat) (base : Reg)
  | storeSeg (src : Seg) (off : Nat) (base : Reg)
  | movSeg (dst : Seg) (src : Reg)
  | push (src : Reg)
  | pushImm (v : Word)
  | pop (dst : Reg)
  | add (dst : Reg) (v : Nat)
  | sub (dst : Reg) (v : Nat)
  /-- a call of the code that follows in the list, which returns to `ret` -/
  | call (ret : Word)
  | pushf
  | bts (dst : Reg) (bit : Nat)
  | sti
  | cld

namespace State

variable (s : State)

def setReg (r : Reg) (v : Word) : State := { s with reg := Function.update s.reg r v }

def setSeg (r : Seg) (v : BitVec 16) : State := { s with seg := Function.update s.seg r v }

def word (a : Word) : Word := BitVec.ofNat 64 (load s.mem a 8)

def half (a : Word) : BitVec 16 := BitVec.ofNat 16 (load s.mem a 2)

def addr (base : Reg) (off : Nat) : Word := s.reg base + BitVec.ofNat 64 off

/-- The stack pointer goes down by 8 and the value is put there. -/
def pushVal (v : Word) : State :=
  { s with
    reg := Function.update s.reg .rsp (s.reg .rsp - 8)
    mem := store s.mem (s.reg .rsp - 8) 8 v.toNat }

def setArith (flags : Word) : State := { s with rflags := s.rflags &&& ~~~arithFlags ||| flags &&& arithFlags }

end State

/-- The arithmetic flags after an operation with these operands. -/
abbrev Alu := Instr → Word → Word

def exec (alu : Alu) (s : State) : Instr → State
  | .mov dst src => s.setReg dst (s.reg src)
  | .movImm dst v => s.setReg dst v
  | .load dst off base => s.setReg dst (s.word (s.addr base off))
  | .store src off base => { s with mem := store s.mem (s.addr base off) 8 (s.reg src).toNat }
  | .loadAt dst a => s.setReg dst (s.word a)
  | .storeAt src a => { s with mem := store s.mem a 8 (s.reg src).toNat }
  | .loadSeg dst off base => s.setSeg dst (s.half (s.addr base off))
  | .storeSeg src off base => { s with mem := store s.mem (s.addr base off) 2 (s.seg src).toNat }
  | .movSeg dst src => s.setSeg dst ((s.reg src).setWidth 16)
  | .push src => s.pushVal (s.reg src)
  | .pushImm v => s.pushVal v
  | .pop dst => (s.setReg .rsp (s.reg .rsp + 8)).setReg dst (s.word (s.reg .rsp))
  | .add dst v => (s.setArith (alu (.add dst v) (s.reg dst))).setReg dst (s.reg dst + BitVec.ofNat 64 v)
  | .sub dst v => (s.setArith (alu (.sub dst v) (s.reg dst))).setReg dst (s.reg dst - BitVec.ofNat 64 v)
  | .call ret => s.pushVal ret
  | .pushf => s.pushVal s.rflags
  | .bts dst bit => (s.setArith (alu (.bts dst bit) (s.reg dst))).setReg dst (s.reg dst ||| BitVec.twoPow 64 bit)
  | .sti => { s with rflags := s.rflags ||| flagIF }
  | .cld => { s with rflags := s.rflags &&& ~~~flagDF }

def run (alu : Alu) (s : State) (code : List Instr) : State := code.foldl (exec alu) s

/-- `iretq` -/
def iretq (s : State) : State where
  reg := Function.update s.reg .rsp (s.word (s.addr .rsp 24))
  seg := Function.update (Function.update s.seg .cs (s.half (s.addr .rsp 8))) .ss (s.half (s.addr .rsp 32))
  rip := s.word (s.reg .rsp)
  rflags := s.word (s.addr .rsp 16)
  mem := s.mem

/-- What the processor is told about an interrupt: the stack for one from user
mode, where its gate leads, whether the gate turns interrupts off, and the error
code of one that has it. -/
structure Gate where
  rsp0 : Word
  cs : BitVec 16
  entry : Word
  intrOff : Bool
  errorCode : Option Word

/-- The processor's privilege level. -/
def State.cpl (s : State) : BitVec 16 := s.seg .cs &&& 3

/-- The stack an interrupt goes on. -/
def Gate.stack (g : Gate) (s : State) : Word := (if s.cpl = 0 then s.reg .rsp else g.rsp0) &&& ~~~0xf

/-- The processor takes an interrupt between two instructions. -/
def Gate.deliver (g : Gate) (s : State) : State :=
  let pushed :=
    ((((s.setReg .rsp (g.stack s)).pushVal ((s.seg .ss).setWidth 64)).pushVal (s.reg .rsp)).pushVal s.rflags).pushVal
      ((s.seg .cs).setWidth 64) |>.pushVal s.rip
  let pushed := match g.errorCode with
    | some code => pushed.pushVal code
    | none => pushed
  { pushed with
    seg := Function.update (if s.cpl = 0 then s.seg else Function.update s.seg .ss 0) .cs g.cs
    rip := g.entry
    rflags := s.rflags &&& ~~~(flagTF ||| flagNT ||| flagRF ||| flagVM ||| if g.intrOff then flagIF else 0) }

/-- The registers that the system-call instructions read. -/
structure Msrs where
  star : Word
  lstar : Word
  syscallMask : Word

/-- `syscall`; `rip` is that of the instruction after it. -/
def Msrs.syscall (c : Msrs) (s : State) : State where
  reg := Function.update (Function.update s.reg .rcx s.rip) .r11 s.rflags
  seg := Function.update (Function.update s.seg .cs ((c.star >>> 32).setWidth 16 &&& 0xfffc)) .ss
    ((c.star >>> 32).setWidth 16 + 8)
  rip := c.lstar
  rflags := s.rflags &&& ~~~c.syscallMask
  mem := s.mem

/-- The flags that `sysretq` sets. -/
def sysretFlags : Word := 0x3c7fd5

/-- `sysretq` -/
def Msrs.sysretq (c : Msrs) (s : State) : State where
  reg := s.reg
  seg := Function.update (Function.update s.seg .cs ((c.star >>> 48).setWidth 16 + 16 ||| 3)) .ss
    ((c.star >>> 48).setWidth 16 + 8 ||| 3)
  rip := s.reg .rcx
  rflags := s.reg .r11 &&& sysretFlags
  mem := s.mem

/-! ## Blocks of code -/

variable {alu : Alu} {s : State} {base r : Reg} {l : List (Reg × Nat)} {rs : List Reg} {o : Nat}

/-- `movq %r, off(base)` for each register and its offset. -/
def saveAll (base : Reg) (l : List (Reg × Nat)) : List Instr := l.map fun p => .store p.1 p.2 base

/-- `movq off(base), %r` for each register and its offset. -/
def loadAll (base : Reg) (l : List (Reg × Nat)) : List Instr := l.map fun p => .load p.1 p.2 base

theorem run_append {xs ys : List Instr} : run alu s (xs ++ ys) = run alu (run alu s xs) ys := List.foldl_append

@[simp] theorem run_nil : run alu s [] = s := rfl

@[simp] theorem run_cons {i : Instr} {xs : List Instr} : run alu s (i :: xs) = run alu (exec alu s i) xs := rfl

theorem setArith_other (s : State) (flags : Word) :
    (s.setArith flags).rflags &&& ~~~arithFlags = s.rflags &&& ~~~arithFlags := by
  have hbits : ∀ x y a : Word, (x &&& ~~~a ||| y &&& a) &&& ~~~a = x &&& ~~~a := fun x y a => by
    ext i hi
    simp only [BitVec.getElem_and, BitVec.getElem_or, BitVec.getElem_not]
    cases x[i] <;> cases y[i] <;> cases a[i] <;> rfl
  exact hbits _ _ _

/-- The instruction changes arithmetic flags at most. -/
def Instr.keepsFlags : Instr → Bool
  | .sti => false
  | .cld => false
  | _ => true

theorem run_flags {code : List Instr} (h : ∀ i ∈ code, i.keepsFlags) :
    (run alu s code).rflags &&& ~~~arithFlags = s.rflags &&& ~~~arithFlags := by
  induction code generalizing s with
  | nil => rfl
  | cons i code ih =>
    rw [run_cons, ih fun j hj => h j (List.mem_cons_of_mem _ hj)]
    have hi := h i List.mem_cons_self
    cases i with
    | sti => cases hi
    | cld => cases hi
    | add => exact setArith_other _ _
    | sub => exact setArith_other _ _
    | bts => exact setArith_other _ _
    | _ => rfl

/-- A word is its bits under a mask and the others. -/
theorem and_not_add_and (x m : Word) : (x &&& ~~~m) + (x &&& m) = x := by
  rw [BitVec.add_eq_or_of_and_eq_zero, ← BitVec.and_or_distrib_left]
  · ext i hi
    simp only [BitVec.getElem_and, BitVec.getElem_or, BitVec.getElem_not]
    cases x[i] <;> cases m[i] <;> rfl
  · ext i hi
    simp only [BitVec.getElem_and, BitVec.getElem_not, BitVec.getElem_zero]
    cases x[i] <;> cases m[i] <;> rfl

theorem flagIF_other (x : Word) : x &&& ~~~arithFlags &&& flagIF = x &&& flagIF := by
  rw [BitVec.and_assoc]
  congr 1

/-- Interrupts are on or off as they were. -/
theorem run_flagIF {code : List Instr} (h : ∀ i ∈ code, i.keepsFlags) :
    (run alu s code).rflags &&& flagIF = s.rflags &&& flagIF := by
  rw [← flagIF_other, run_flags h, flagIF_other]

theorem and_flagIF (x : Word) : x &&& flagIF = 0 ∨ x &&& flagIF = flagIF := by
  have hbit : flagIF = BitVec.twoPow 64 9 := by decide
  rw [hbit, BitVec.and_twoPow]
  split
  · exact .inr rfl
  · exact .inl rfl

/-- The instruction takes something off the stack. -/
def Instr.drops : Instr → Bool
  | .pop dst => dst ≠ .rsp
  | .add dst _ => dst = .rsp
  | _ => false

/-- How far the stack pointer goes up. -/
def Instr.rise : Instr → Nat
  | .add _ v => v
  | _ => 8

/-- Code that takes things off the stack changes registers and flags only. -/
theorem run_drops {code : List Instr} (alu : Alu) (s : State) (h : ∀ i ∈ code, i.drops) :
    (run alu s code).reg .rsp = s.reg .rsp + BitVec.ofNat 64 (code.map Instr.rise).sum ∧
      (run alu s code).mem = s.mem ∧ (run alu s code).seg = s.seg := by
  induction code generalizing s with
  | nil => exact ⟨(BitVec.add_zero _).symm, rfl, rfl⟩
  | cons i code ih =>
    obtain ⟨hrsp, hmem, hseg⟩ := ih (exec alu s i) fun j hj => h j (List.mem_cons_of_mem _ hj)
    have hi := h i List.mem_cons_self
    rw [run_cons, hrsp, hmem, hseg, List.map_cons, List.sum_cons, BitVec.ofNat_add, ← BitVec.add_assoc]
    cases i with
    | pop dst =>
      have hne : Reg.rsp ≠ dst := fun h => by simp [Instr.drops, h] at hi
      simp only [exec, State.setReg, Function.update_of_ne hne, Function.update_self, Instr.rise]
      exact ⟨rfl, trivial, trivial⟩
    | add dst v =>
      obtain rfl : dst = .rsp := by simpa [Instr.drops] using hi
      simp only [exec, State.setReg, State.setArith, Function.update_self, Instr.rise]
      exact ⟨trivial, trivial, trivial⟩
    | _ => cases hi

/-- A block of saves leaves an image. -/
theorem run_saveAll : run alu s (saveAll base l) =
    { s with mem := fill s.mem (s.reg base) (l.map fun p => ⟨p.2, 8, (s.reg p.1).toNat⟩) } := by
  induction l generalizing s with
  | nil => rfl
  | cons p l ih =>
    simp only [saveAll, List.map_cons, run_cons, exec] at ih ⊢
    rw [ih]
    rfl

/-- What a block of loads leaves as it was. -/
theorem run_loadAll : run alu s (loadAll base l) = { s with reg := (run alu s (loadAll base l)).reg } := by
  induction l generalizing s with
  | nil => rfl
  | cons p l ih =>
    simp only [loadAll, List.map_cons, run_cons, exec] at ih ⊢
    rw [ih]
    rfl

theorem loadAll_other (alu : Alu) (base : Reg) (s : State) (h : r ∉ l.map Prod.fst) : (run alu s (loadAll base l)).reg r = s.reg r := by
  induction l generalizing s with
  | nil => rfl
  | cons p l ih =>
    simp only [List.map_cons, List.mem_cons, not_or] at h
    simp only [loadAll, List.map_cons, run_cons, exec] at ih ⊢
    rw [ih _ h.2]
    simp only [State.setReg, Function.update_of_ne h.1]

/-- A block of loads fills the registers, none of them the base or twice. -/
theorem loadAll_mem (hb : base ∉ l.map Prod.fst) (hn : (l.map Prod.fst).Nodup) (h : (r, o) ∈ l) :
    (run alu s (loadAll base l)).reg r = s.word (s.addr base o) := by
  induction l generalizing s with
  | nil => cases h
  | cons p l ih =>
    simp only [List.map_cons, List.mem_cons, not_or] at hb
    obtain ⟨hp, hn⟩ := List.nodup_cons.mp hn
    obtain h | h := List.mem_cons.mp h
    · subst h
      have hother := loadAll_other alu base (exec alu s (.load r o base)) hp
      simp only [loadAll, List.map_cons, run_cons] at hother ⊢
      rw [hother]
      simp only [exec, State.setReg, Function.update_self]
    · have hrest := ih (s := exec alu s (.load p.1 p.2 base)) hb.2 hn h
      simp only [loadAll, List.map_cons, run_cons] at hrest ⊢
      rw [hrest]
      simp only [exec, State.setReg, State.addr, State.word, Function.update_of_ne hb.1]

/-- Pops into each of the registers. -/
def popAll (rs : List Reg) : List Instr := rs.map .pop

theorem run_popAll : run alu s (popAll rs) = { s with reg := (run alu s (popAll rs)).reg } := by
  induction rs generalizing s with
  | nil => rfl
  | cons r rs ih =>
    simp only [popAll, List.map_cons, run_cons, exec] at ih ⊢
    rw [ih]
    rfl

theorem popAll_rsp (h : Reg.rsp ∉ rs) :
    (run alu s (popAll rs)).reg .rsp = s.reg .rsp + BitVec.ofNat 64 (8 * rs.length) := by
  induction rs generalizing s with
  | nil => simp [popAll]
  | cons r rs ih =>
    simp only [List.mem_cons, not_or] at h
    simp only [popAll, List.map_cons, run_cons] at ih ⊢
    rw [ih h.2]
    simp only [exec, State.setReg, Function.update_of_ne h.1, Function.update_self, List.length_cons]
    rw [Nat.mul_add, BitVec.ofNat_add, BitVec.add_assoc, BitVec.add_comm (8 : BitVec 64)]
    rfl

theorem popAll_other (alu : Alu) (s : State) (h : r ∉ rs) (hr : r ≠ .rsp) : (run alu s (popAll rs)).reg r = s.reg r := by
  induction rs generalizing s with
  | nil => rfl
  | cons p rs ih =>
    simp only [List.mem_cons, not_or] at h
    simp only [popAll, List.map_cons, run_cons, exec] at ih ⊢
    rw [ih _ h.2]
    simp only [State.setReg, Function.update_of_ne h.1, Function.update_of_ne hr]

/-- A block of pops fills the registers, none of them the stack pointer or
twice. -/
theorem popAll_mem {i : Nat} (alu : Alu) (s : State) (hb : Reg.rsp ∉ rs) (hn : rs.Nodup) (h : rs[i]? = some r) :
    (run alu s (popAll rs)).reg r = s.word (s.addr .rsp (8 * i)) := by
  induction rs generalizing s i with
  | nil => simp at h
  | cons p rs ih =>
    simp only [List.mem_cons, not_or] at hb
    obtain ⟨hp, hn⟩ := List.nodup_cons.mp hn
    cases i with
    | zero =>
      obtain rfl : p = r := by simpa using h
      have hother := popAll_other alu (exec alu s (.pop p)) hp (Ne.symm hb.1)
      simp only [popAll, List.map_cons, run_cons] at hother ⊢
      rw [hother]
      have h0 : s.reg .rsp + BitVec.ofNat 64 (8 * 0) = s.reg .rsp := BitVec.add_zero _
      simp only [exec, State.setReg, Function.update_self, State.addr, h0]
    | succ i =>
      have hrest := ih (s := exec alu s (.pop p)) hb.2 hn (by simpa using h)
      simp only [popAll, List.map_cons, run_cons] at hrest ⊢
      rw [hrest]
      simp only [exec, State.setReg, State.addr, State.word, Function.update_of_ne hb.1, Function.update_self]
      rw [Nat.mul_add, Nat.add_comm, BitVec.ofNat_add, BitVec.add_assoc]
      rfl

/-- The slots that values pushed one after the other are in, from the stack
pointer that they leave. -/
def pushSlots : List Word → List Slot
  | [] => []
  | v :: vs => ⟨8 * vs.length, 8, v.toNat⟩ :: pushSlots vs

/-- A block of pushes leaves an image. -/
theorem foldl_pushVal (vs : List Word) : vs.foldl State.pushVal s =
    { s with
      reg := Function.update s.reg .rsp (s.reg .rsp - BitVec.ofNat 64 (8 * vs.length))
      mem := fill s.mem (s.reg .rsp - BitVec.ofNat 64 (8 * vs.length)) (pushSlots vs) } := by
  induction vs generalizing s with
  | nil => simp [pushSlots, fill]
  | cons v vs ih =>
    rw [List.foldl_cons, ih]
    have hb : s.reg .rsp - 8 - BitVec.ofNat 64 (8 * vs.length) =
        s.reg .rsp - BitVec.ofNat 64 (8 * (v :: vs).length) := by
      have hring : ∀ a x : Word, a - 8 - x = a - (x + 8) := fun a x => by ring
      rw [List.length_cons, Nat.mul_succ, BitVec.ofNat_add]
      exact hring _ _
    have ho : s.reg .rsp - BitVec.ofNat 64 (8 * (v :: vs).length) + BitVec.ofNat 64 (8 * vs.length) =
        s.reg .rsp - 8 := by
      rw [← hb]
      ring
    simp only [State.pushVal, Function.update_self, Function.update_idem, hb, pushSlots, fill, ho]

end X86
