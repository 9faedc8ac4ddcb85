/-
The way of a system call into the kernel and back (`syscall_entry`,
`userprog/syscall-entry.S`), from `syscall` to `sysretq`.

On the way in interrupts are off until the registers are in the frame. On the
way out they are as the handler left them, also when the stack pointer is the
user program's again.
-/
import PintosKaist.Threads.SwitchRuns

namespace PintosKaist.Userprog

open X86 ByteMem Intr

/-- `syscall_init` -/
def syscallMsrs (entry : Word) : Msrs where
  star := (selUcseg.setWidth 64 - 0x10) <<< 48 ||| selKcseg.setWidth 64 <<< 32
  lstar := entry
  -- FLAG_IF, FLAG_TF, FLAG_DF, FLAG_IOPL, FLAG_AC, FLAG_NT
  syscallMask := flagIF ||| flagTF ||| flagDF ||| 0x3000 ||| 0x40000 ||| flagNT

/-- The addresses in `syscall_entry`. -/
structure SyscallLabels where
  temp1 : Word
  temp2 : Word
  /-- of the variable `tss` -/
  tss : Word
  handler : Word
  /-- of the instruction after the call -/
  ret : Word

/-- The user program's `rbx` and `r12` are put by, and the kernel stack is found. -/
def findStack (c : SyscallLabels) : List Instr :=
  [.storeAt .rbx c.temp1, .storeAt .r12 c.temp2, .mov .rbx .rsp, .movImm .r12 c.tss, .load .r12 0 .r12,
    .load .rsp 4 .r12]

/-- The frame is pushed. -/
def pushFrame (c : SyscallLabels) : List Instr :=
  [Instr.pushImm (selUdseg.setWidth 64), .push .rbx, .push .r11, .pushImm (selUcseg.setWidth 64), .push .rcx] ++
    [Instr.sub .rsp 16, .pushImm (selUdseg.setWidth 64), .pushImm (selUdseg.setWidth 64), .push .rax] ++
    [Instr.loadAt .rbx c.temp1, .push .rbx, .pushImm 0, .push .rdx, .push .rbp, .push .rdi, .push .rsi, .push .r8,
      .push .r9, .push .r10, .pushImm 0] ++
    [Instr.loadAt .r12 c.temp2, .push .r12, .push .r13, .push .r14, .push .r15, .mov .rdi .rsp]

/-- `check_intr`: interrupts are on again when the user program had them on. -/
def checkIntr (r11 : Word) : List Instr := .bts .r11 9 :: if r11 &&& flagIF = 0 then [] else [.sti]

/-- `syscall_entry` as far as the handler. -/
def syscallEntry (alu : Alu) (c : SyscallLabels) (s : State) : State :=
  let s := run alu s (findStack c ++ pushFrame c)
  run alu s (checkIntr (s.reg .r11) ++ [Instr.movImm .r12 c.handler, .call c.ret])

/-- The rest of `syscall_entry`; a `sysretq` follows. -/
def syscallExit : List Instr :=
  popAll (gpRegisters.map Prod.fst) ++ [Instr.add .rsp 32, .pop .rcx, .add .rsp 8, .pop .r11, .pop .rsp]

variable {alu : Alu} {c : SyscallLabels} {s t : State} {a v x : Word} {m : Mem} {k : Nat}

/-- The kernel stack: `rsp0` in the task-state segment. -/
def rsp0 (c : SyscallLabels) (s : State) : Word := s.word (s.word c.tss + 4)

/-- The variables, the task-state segment and the part of the kernel stack that
is used are at different places. -/
structure Placed (c : SyscallLabels) (s : State) : Prop where
  temps : Apart c.temp1 8 c.temp2 8
  tss₁ : Apart c.temp1 8 c.tss 8
  tss₂ : Apart c.temp2 8 c.tss 8
  rsp0₁ : Apart c.temp1 8 (s.word c.tss + 4) 8
  rsp0₂ : Apart c.temp2 8 (s.word c.tss + 4) 8
  stack₁ : Apart (rsp0 c s - 200) 200 c.temp1 8
  stack₂ : Apart (rsp0 c s - 200) 200 c.temp2 8

/-! ## The way in -/

/-- The variables hold the two registers. -/
def tempMem (c : SyscallLabels) (s : State) : Mem :=
  store (store s.mem c.temp1 8 (s.reg .rbx).toNat) c.temp2 8 (s.reg .r12).toNat

theorem run_findStack (alu : Alu) (h : Placed c s) :
    run alu s (findStack c) =
      { s with
        reg := Function.update (Function.update (Function.update s.reg .rbx (s.reg .rsp)) .r12 (s.word c.tss)) .rsp
          (rsp0 c s)
        mem := tempMem c s } := by
  have htss : load (tempMem c s) c.tss 8 = load s.mem c.tss 8 :=
    (load_store_apart h.tss₂).trans (load_store_apart h.tss₁)
  have hrsp0 : load (tempMem c s) (s.word c.tss + 4) 8 = load s.mem (s.word c.tss + 4) 8 :=
    (load_store_apart h.rsp0₂).trans (load_store_apart h.rsp0₁)
  have hzero : c.tss + BitVec.ofNat 64 0 = c.tss := BitVec.add_zero _
  have hfour : ∀ w : Word, w + BitVec.ofNat 64 4 = w + 4 := fun _ => rfl
  simp only [tempMem, State.word] at htss hrsp0
  simp only [findStack, run_cons, run_nil, exec, State.setReg, State.addr, State.word, Function.update_self,
    Function.update_idem, hzero, hfour]
  have h12 : Function.update s.reg .rbx (s.reg .rsp) .r12 = s.reg .r12 := rfl
  simp only [htss, hrsp0]
  rfl

/-- What is pushed, from the frame on. -/
def frameSlots (c : SyscallLabels) (t : State) : List Slot :=
  (pushSlots [selUdseg.setWidth 64, t.reg .rbx, t.reg .r11, selUcseg.setWidth 64, t.reg .rcx]).map (Slot.shift 152) ++
    ((pushSlots [selUdseg.setWidth 64, selUdseg.setWidth 64, t.reg .rax]).map (Slot.shift 112) ++
      ((pushSlots [t.word c.temp1, 0, t.reg .rdx, t.reg .rbp, t.reg .rdi, t.reg .rsi, t.reg .r8, t.reg .r9, t.reg .r10,
          0]).map (Slot.shift 32) ++
        pushSlots [t.word c.temp2, t.reg .r13, t.reg .r14, t.reg .r15]))

/-- Where the slots are. -/
def slotExtents : List (Nat × Nat) :=
  [(184, 8), (176, 8), (168, 8), (160, 8), (152, 8), (128, 8), (120, 8)] ++ gpRegisters.reverse.map fun p => (p.2, 8)

theorem frameSlots_le (c : SyscallLabels) (t : State) : ∀ e ∈ frameSlots c t, e.off + e.size ≤ frameSize := by
  have hext : (frameSlots c t).map Slot.extent = slotExtents := rfl
  have hall : ∀ e ∈ slotExtents, e.1 + e.2 ≤ frameSize := by decide
  intro e he
  exact hall e.extent (hext ▸ List.mem_map_of_mem he)

/-- A variable keeps its value while the frame is pushed. -/
theorem load_apart {b : Addr} {l : List Slot} (h : Apart a frameSize b 8) (hl : ∀ e ∈ l, e.off + e.size ≤ frameSize) :
    load (fill m a l) b 8 = load m b 8 :=
  load_fill_off (fun _ hi e he => h.not_covers hi (hl e he)) fun e he => by
    have := hl e he
    simp only [frameSize] at this
    omega

/-- The frame has been pushed down to its byte `k`: the slots are in the memory,
and the registers but those of `ch` are as they were. -/
structure Pushed (t : State) (k : Nat) (ch : List Reg) (l : List Slot) (u : State) : Prop where
  rsp : u.reg .rsp = t.reg .rsp - 192 + BitVec.ofNat 64 k
  mem : u.mem = fill t.mem (t.reg .rsp - 192) l
  reg : ∀ r, r ≠ .rsp → r ∉ ch → u.reg r = t.reg r
  seg : u.seg = t.seg

section
variable {u : State} {ch : List Reg} {l : List Slot} {r : Reg}

theorem Pushed.start (t : State) : Pushed t 192 [] [] t where
  rsp := by
    have hring : ∀ x : Word, x = x - 192 + 192 := fun x => by ring
    exact hring _
  mem := rfl
  reg _ _ _ := rfl
  seg := rfl

theorem Pushed.push (vs : List Word) (h : Pushed t (k + 8 * vs.length) ch l u) :
    Pushed t k ch (l ++ (pushSlots vs).map (Slot.shift k)) (vs.foldl State.pushVal u) := by
  have hb : u.reg .rsp - BitVec.ofNat 64 (8 * vs.length) = t.reg .rsp - 192 + BitVec.ofNat 64 k := by
    rw [h.rsp, BitVec.ofNat_add, ← BitVec.add_assoc]
    exact BitVec.add_sub_cancel _ _
  rw [foldl_pushVal, hb]
  have hmem : fill u.mem (t.reg .rsp - 192 + BitVec.ofNat 64 k) (pushSlots vs) =
      fill t.mem (t.reg .rsp - 192) (l ++ (pushSlots vs).map (Slot.shift k)) := by
    rw [h.mem, fill_shift, ← fill_append]
  exact {
    rsp := Function.update_self Reg.rsp _ u.reg
    mem := hmem
    reg := fun r hr hch => (Function.update_of_ne hr _ _).trans (h.reg r hr hch)
    seg := h.seg }

/-- A part of the frame is passed over. -/
theorem Pushed.sub {n : Nat} (alu : Alu) (h : Pushed t (k + n) ch l u) : Pushed t k ch l (exec alu u (.sub .rsp n)) where
  rsp := by
    simp only [exec, State.setReg, State.setArith, Function.update_self]
    rw [h.rsp, BitVec.ofNat_add, ← BitVec.add_assoc]
    exact BitVec.add_sub_cancel _ _
  mem := h.mem
  reg r hr hch := (Function.update_of_ne hr _ _).trans (h.reg r hr hch)
  seg := h.seg

theorem Pushed.setReg (v : Word) (h : Pushed t k ch l u) (hr : r ≠ .rsp) : Pushed t k (r :: ch) l (u.setReg r v) where
  rsp := (Function.update_of_ne hr.symm _ _).trans h.rsp
  mem := h.mem
  reg r' hr' hch := by
    simp only [List.mem_cons, not_or] at hch
    exact (Function.update_of_ne hch.1 _ _).trans (h.reg r' hr' hch.2)
  seg := h.seg

/-- A variable off the frame is as it was. -/
theorem Pushed.word {b : Addr} (h : Pushed t k ch l u) (hb : Apart (t.reg .rsp - 192) frameSize b 8)
    (hl : ∀ e ∈ l, e ∈ frameSlots c t) : u.word b = t.word b := by
  rw [State.word, h.mem, load_apart hb fun e he => frameSlots_le c t e (hl e he)]
  rfl

end

theorem run_pushFrame (alu : Alu) (c : SyscallLabels) (t : State) (h₁ : Apart (t.reg .rsp - 192) frameSize c.temp1 8)
    (h₂ : Apart (t.reg .rsp - 192) frameSize c.temp2 8) :
    Pushed t 0 [.rdi, .r12, .rbx] (frameSlots c t) (run alu t (pushFrame c)) ∧
      (run alu t (pushFrame c)).reg .rdi = (run alu t (pushFrame c)).reg .rsp := by
  rw [pushFrame, run_append, run_append, run_append]
  have p₁ : Pushed t 152 [] _ (run alu t [.pushImm (selUdseg.setWidth 64), .push .rbx, .push .r11,
      .pushImm (selUcseg.setWidth 64), .push .rcx]) :=
    (Pushed.start t).push (k := 152)
      [selUdseg.setWidth 64, t.reg .rbx, t.reg .r11, selUcseg.setWidth 64, t.reg .rcx]
  generalize run alu t [.pushImm (selUdseg.setWidth 64), .push .rbx, .push .r11, .pushImm (selUcseg.setWidth 64),
    .push .rcx] = u₁ at p₁ ⊢
  have p₂ : Pushed t 112 [] _ (run alu u₁ [.sub .rsp 16, .pushImm (selUdseg.setWidth 64),
      .pushImm (selUdseg.setWidth 64), .push .rax]) :=
    (p₁.sub (n := 16) alu).push (k := 112) [selUdseg.setWidth 64, selUdseg.setWidth 64, u₁.reg .rax]
  rw [p₁.reg .rax (by decide) (by decide)] at p₂
  generalize run alu u₁ [.sub .rsp 16, .pushImm (selUdseg.setWidth 64), .pushImm (selUdseg.setWidth 64), .push .rax] =
    u₂ at p₂ ⊢
  have p₃ : Pushed t 32 [.rbx] _ (run alu u₂ [.loadAt .rbx c.temp1, .push .rbx, .pushImm 0, .push .rdx, .push .rbp,
      .push .rdi, .push .rsi, .push .r8, .push .r9, .push .r10, .pushImm 0]) :=
    (p₂.setReg (u₂.word c.temp1) (by decide : Reg.rbx ≠ .rsp)).push (k := 32)
      [u₂.word c.temp1, 0, u₂.reg .rdx, u₂.reg .rbp, u₂.reg .rdi, u₂.reg .rsi, u₂.reg .r8, u₂.reg .r9, u₂.reg .r10, 0]
  have hreg₂ : ∀ r, r ≠ .rsp → u₂.reg r = t.reg r := fun r hr => p₂.reg r hr (by simp)
  rw [p₂.word (c := c) h₁ (by simp only [frameSlots, List.mem_append]; tauto)] at p₃
  simp (disch := decide) only [hreg₂] at p₃
  generalize run alu u₂ [.loadAt .rbx c.temp1, .push .rbx, .pushImm 0, .push .rdx, .push .rbp, .push .rdi, .push .rsi,
    .push .r8, .push .r9, .push .r10, .pushImm 0] = u₃ at p₃ ⊢
  have p₄ : Pushed t 0 [.r12, .rbx] _ (run alu u₃ [.loadAt .r12 c.temp2, .push .r12, .push .r13, .push .r14,
      .push .r15]) :=
    (p₃.setReg (u₃.word c.temp2) (by decide : Reg.r12 ≠ .rsp)).push (k := 0)
      [u₃.word c.temp2, u₃.reg .r13, u₃.reg .r14, u₃.reg .r15]
  rw [p₃.word (c := c) h₂ (by simp only [frameSlots, List.mem_append]; tauto), p₃.reg .r13 (by decide) (by decide),
    p₃.reg .r14 (by decide) (by decide), p₃.reg .r15 (by decide) (by decide)] at p₄
  have hsplit : run alu u₃ [.loadAt .r12 c.temp2, .push .r12, .push .r13, .push .r14, .push .r15, .mov .rdi .rsp] =
      exec alu (run alu u₃ [.loadAt .r12 c.temp2, .push .r12, .push .r13, .push .r14, .push .r15]) (.mov .rdi .rsp) := rfl
  rw [hsplit]
  generalize run alu u₃ [.loadAt .r12 c.temp2, .push .r12, .push .r13, .push .r14, .push .r15] = u₄ at p₄ ⊢
  have p₅ := p₄.setReg (u₄.reg .rsp) (by decide : Reg.rdi ≠ .rsp)
  simp only [List.append_assoc, List.nil_append] at p₅
  exact ⟨p₅, rfl⟩

/-- The variables are read back. -/
theorem word_tempMem (h : Placed c s) : load (tempMem c s) c.temp1 8 = (s.reg .rbx).toNat ∧
    load (tempMem c s) c.temp2 8 = (s.reg .r12).toNat := by
  have hmod : ∀ v : Word, v.toNat % 256 ^ 8 = v.toNat := fun v => Nat.mod_eq_of_lt (by have := v.isLt; omega)
  refine ⟨?_, ?_⟩
  · rw [tempMem, load_store_apart (h.temps.symm (by decide)), load_store (Nat.le_refl 8) (by decide), hmod]
  · rw [tempMem, load_store (Nat.le_refl 8) (by decide), hmod]

/-- What is pushed, told by the registers after `syscall`. -/
def userSlots (s : State) : List Slot :=
  (pushSlots [selUdseg.setWidth 64, s.reg .rsp, s.reg .r11, selUcseg.setWidth 64, s.reg .rcx]).map (Slot.shift 152) ++
    ((pushSlots [selUdseg.setWidth 64, selUdseg.setWidth 64, s.reg .rax]).map (Slot.shift 112) ++
      ((pushSlots [s.reg .rbx, 0, s.reg .rdx, s.reg .rbp, s.reg .rdi, s.reg .rsi, s.reg .r8, s.reg .r9, s.reg .r10,
          0]).map (Slot.shift 32) ++
        pushSlots [s.reg .r12, s.reg .r13, s.reg .r14, s.reg .r15]))

/-- The frame that the handler of a system call gets. -/
def syscallFrame (c : SyscallLabels) (s : State) : IntrFrame where
  reg := Function.update (Function.update s.reg .rcx 0) .r11 0
  es := selUdseg
  ds := selUdseg
  -- not set: what the stack holds there
  vecNo := Intr.word s.mem (rsp0 c s - 192) 136
  errorCode := Intr.word s.mem (rsp0 c s - 192) 144
  rip := s.reg .rcx
  cs := selUcseg
  eflags := s.reg .r11
  ss := selUdseg

theorem userSlots_separate : Separate ((userSlots s).map Slot.extent) := by
  have hext : (userSlots s).map Slot.extent = slotExtents := rfl
  rw [hext]
  decide

theorem userSlots_gap : ∀ e ∈ userSlots s, e.off + e.size ≤ 136 ∨ 152 ≤ e.off := by
  have hext : (userSlots s).map Slot.extent = slotExtents := rfl
  have hall : ∀ e ∈ slotExtents, e.1 + e.2 ≤ 136 ∨ 152 ≤ e.1 := by decide
  intro e he
  exact hall e.extent (hext ▸ List.mem_map_of_mem he)

/-- A word of the frame that is not set keeps its value. -/
theorem word_unset {off : Nat} (h : Placed c s) (hoff : off = 136 ∨ off = 144) :
    Intr.word (fill (tempMem c s) (rsp0 c s - 192) (userSlots s)) (rsp0 c s - 192) off =
      Intr.word s.mem (rsp0 c s - 192) off := by
  have hfill : load (fill (tempMem c s) (rsp0 c s - 192) (userSlots s)) (rsp0 c s - 192 + BitVec.ofNat 64 off) 8 =
      load (tempMem c s) (rsp0 c s - 192 + BitVec.ofNat 64 off) 8 := by
    refine load_fill_off (fun i hi e he hc => ?_) fun e he => userSlots_separate.fit _ (List.mem_map_of_mem he)
    have hgap := userSlots_gap e he
    obtain ⟨hlo, hhi⟩ := hc
    rw [toNat_off_sub (by omega)] at hlo hhi
    omega
  have hb : rsp0 c s - 192 + BitVec.ofNat 64 off = rsp0 c s - 200 + BitVec.ofNat 64 (off + 8) := by
    have hring : ∀ x y : Word, x - 192 + y = x - 200 + (y + 8) := fun x y => by ring
    rw [hring, BitVec.ofNat_add]
    rfl
  have hpart : ∀ t, Apart (rsp0 c s - 200) 200 t 8 → Apart t 8 (rsp0 c s - 192 + BitVec.ofNat 64 off) 8 := fun t ht => by
    rw [hb]
    have hp := (ht.symm (by decide)).part (off + 8) 0 8 8 (by decide) (by omega) (by decide)
    rwa [BitVec.add_zero] at hp
  rw [Intr.word, hfill, tempMem, load_store_apart (hpart c.temp2 h.stack₂), load_store_apart (hpart c.temp1 h.stack₁)]
  rfl

theorem read_userSlots (h : Placed c s) :
    IntrFrame.read (fill (tempMem c s) (rsp0 c s - 192) (userSlots s)) (rsp0 c s - 192) = syscallFrame c s := by
  have hsep : Separate ((userSlots s).map Slot.extent) := userSlots_separate
  simp only [IntrFrame.read, syscallFrame, IntrFrame.mk.injEq]
  refine ⟨funext fun r => ?_, half_fill 8 _ hsep ?_ (by decide) (toNat_setWidth_64 _),
    half_fill 8 _ hsep ?_ (by decide) (toNat_setWidth_64 _), word_unset h (.inl rfl), word_unset h (.inr rfl),
    word_fill hsep ?_, half_fill 8 _ hsep ?_ (by decide) (toNat_setWidth_64 _), word_fill hsep ?_,
    half_fill 8 _ hsep ?_ (by decide) (toNat_setWidth_64 _)⟩
  · cases r with
    | rcx => exact word_fill hsep (by simp [userSlots, pushSlots, Slot.shift, regOffset])
    | r11 => exact word_fill hsep (by simp [userSlots, pushSlots, Slot.shift, regOffset])
    | _ => exact word_fill hsep (by simp [userSlots, pushSlots, Slot.shift, regOffset])
  all_goals simp [userSlots, pushSlots, Slot.shift]

/-- `check_intr` changes `r11` and the flags only. -/
theorem run_checkIntr (alu : Alu) (r11 : Word) (u : State) :
    (∀ r, r ≠ .r11 → (run alu u (checkIntr r11)).reg r = u.reg r) ∧ (run alu u (checkIntr r11)).seg = u.seg ∧
      (run alu u (checkIntr r11)).mem = u.mem := by
  unfold checkIntr
  split <;> exact ⟨fun r hr => Function.update_of_ne hr _ _, rfl, rfl⟩

/-- The frame is pushed on the kernel stack. -/
theorem run_pushFrame_at (alu : Alu) (h : Placed c s) :
    Pushed (run alu s (findStack c)) 0 [.rdi, .r12, .rbx] (userSlots s) (run alu (run alu s (findStack c)) (pushFrame c)) ∧
      (run alu (run alu s (findStack c)) (pushFrame c)).reg .rdi =
        (run alu (run alu s (findStack c)) (pushFrame c)).reg .rsp := by
  have h192 : ∀ x, Apart (rsp0 c s - 200) 200 x 8 → Apart (rsp0 c s - 192) frameSize x 8 := fun x hx => by
    have hb : rsp0 c s - 192 = rsp0 c s - 200 + BitVec.ofNat 64 8 := by
      have hring : ∀ x : Word, x - 192 = x - 200 + 8 := fun x => by ring
      exact hring _
    have hp := hx.part 0 8 8 frameSize (by decide) (by decide) (by decide)
    rwa [BitVec.add_zero, ← hb] at hp
  obtain ⟨h₁, h₂⟩ := word_tempMem h
  have hslots : frameSlots c (run alu s (findStack c)) = userSlots s := by
    rw [run_findStack alu h]
    simp only [frameSlots, State.word, h₁, h₂, BitVec.ofNat_toNat, BitVec.setWidth_eq]
    rfl
  rw [← hslots]
  exact run_pushFrame alu c (run alu s (findStack c)) (by rw [run_findStack alu h]; exact h192 _ h.stack₁)
    (by rw [run_findStack alu h]; exact h192 _ h.stack₂)

/-- What the handler of a system call finds. -/
theorem syscallEntry_spec (alu : Alu) (h : Placed c s) :
    (syscallEntry alu c s).mem =
        store (fill (tempMem c s) (rsp0 c s - 192) (userSlots s)) (rsp0 c s - 200) 8 c.ret.toNat ∧
      (syscallEntry alu c s).reg .rdi = rsp0 c s - 192 ∧ (syscallEntry alu c s).reg .rsp = rsp0 c s - 200 ∧
      (syscallEntry alu c s).seg = s.seg := by
  obtain ⟨hp, hdi⟩ := run_pushFrame_at alu h
  have hrsp : (run alu s (findStack c)).reg .rsp = rsp0 c s := by
    rw [run_findStack alu h]
    rfl
  have hmem : (run alu s (findStack c)).mem = tempMem c s := by rw [run_findStack alu h]
  have hseg : (run alu s (findStack c)).seg = s.seg := by rw [run_findStack alu h]
  have hcode : run alu s (findStack c ++ pushFrame c) = run alu (run alu s (findStack c)) (pushFrame c) := run_append
  simp only [syscallEntry, hcode]
  generalize run alu (run alu s (findStack c)) (pushFrame c) = u at hp hdi ⊢
  have husp : u.reg .rsp = rsp0 c s - 192 := by rw [hp.rsp, hrsp]; exact BitVec.add_zero _
  have hbelow : rsp0 c s - 192 - 8 = rsp0 c s - 200 := by
    have hring : ∀ x : Word, x - 192 - 8 = x - 200 := fun x => by ring
    exact hring _
  obtain ⟨hregs, hsegs, hmems⟩ := run_checkIntr alu (u.reg .r11) u
  rw [run_append]
  generalize run alu u (checkIntr (u.reg .r11)) = w at hregs hsegs hmems ⊢
  simp only [run_cons, run_nil, exec, State.setReg, State.pushVal, hmems, hsegs]
  have hw : w.reg .rsp = rsp0 c s - 192 := (hregs .rsp (by decide)).trans husp
  have hwdi : w.reg .rdi = rsp0 c s - 192 := (hregs .rdi (by decide)).trans (hdi.trans husp)
  have h₁₂ : ∀ x : Word, Function.update w.reg .r12 x .rsp = w.reg .rsp := fun _ => rfl
  refine ⟨?_, hwdi, ?_, hp.seg.trans hseg⟩
  · rw [h₁₂, hw, hbelow, hp.mem, hrsp, hmem]
  · rw [Function.update_self, h₁₂, hw, hbelow]

/-! ## The way out -/

theorem popped_index (r : Reg) (h : r ≠ .rsp) : (gpRegisters.map Prod.fst)[regOffset r / 8]? = some r := by
  cases r with
  | rsp => exact absurd rfl h
  | _ => rfl

/-- The user program goes on with the frame. -/
theorem syscallExit_eq (alu : Alu) (entry : Word) (s : State) :
    let f := IntrFrame.read s.mem (s.reg .rsp)
    (syscallMsrs entry).sysretq (run alu s syscallExit) =
      { reg := Function.update (Function.update f.reg .rcx f.rip) .r11 f.eflags
        seg := Function.update (Function.update s.seg .cs selUcseg) .ss selUdseg
        rip := f.rip
        rflags := f.eflags &&& sysretFlags
        mem := s.mem } := by
  intro f
  have hreg : ∀ r, r ≠ .rsp → (run alu s (popAll (gpRegisters.map Prod.fst))).reg r = f.reg r := fun r hr => by
    have hpop := popAll_mem alu s gpRegisters_rsp gpRegisters_nodup (popped_index r hr)
    rw [hpop]
    cases r <;> rfl
  have hrsp : (run alu s (popAll (gpRegisters.map Prod.fst))).reg .rsp = s.reg .rsp + 120 := popAll_rsp gpRegisters_rsp
  have hcs : ((syscallMsrs entry).star >>> 48).setWidth 16 + 16 ||| 3 = selUcseg := by
    simp only [syscallMsrs]
    decide
  have hss : ((syscallMsrs entry).star >>> 48).setWidth 16 + 8 ||| 3 = selUdseg := by
    simp only [syscallMsrs]
    decide
  rw [syscallExit, run_append, run_popAll]
  generalize (run alu s (popAll (gpRegisters.map Prod.fst))).reg = reg at hreg hrsp
  have h₁ : ∀ (g : Reg → Word) (v w : Word), Function.update (Function.update g .rsp v) .rcx w .rsp = v := fun _ _ _ => rfl
  have h₂ : ∀ (g : Reg → Word) (v w : Word), Function.update (Function.update g .rsp v) .r11 w .rsp = v := fun _ _ _ => rfl
  simp only [run_cons, run_nil, exec, State.setReg, State.setArith, State.word, Msrs.sysretq, Function.update_self, hrsp,
    hcs, hss, h₁, h₂]
  have hrip : BitVec.ofNat 64 (load s.mem (s.reg .rsp + 120 + BitVec.ofNat 64 32) 8) = f.rip := by
    rw [BitVec.add_assoc]
    rfl
  have hfl : BitVec.ofNat 64 (load s.mem (s.reg .rsp + 120 + BitVec.ofNat 64 32 + 8 + BitVec.ofNat 64 8) 8) =
      f.eflags := by
    rw [BitVec.add_assoc, BitVec.add_assoc, BitVec.add_assoc]
    rfl
  have hsp : BitVec.ofNat 64 (load s.mem (s.reg .rsp + 120 + BitVec.ofNat 64 32 + 8 + BitVec.ofNat 64 8 + 8) 8) =
      f.reg .rsp := by
    rw [BitVec.add_assoc, BitVec.add_assoc, BitVec.add_assoc, BitVec.add_assoc]
    rfl
  simp only [hrip, hfl, hsp, State.mk.injEq, and_true, true_and]
  clear_value f
  generalize s.reg .rsp + 120 = p
  refine ⟨funext fun r => ?_, rfl, rfl⟩
  cases r with
  | rcx => rfl
  | r11 => rfl
  | rsp => rfl
  | _ =>
    simp only [Function.update_apply, reduceCtorEq, if_false]
    exact hreg _ (by decide)

/-! ## A system call -/

theorem entry_keepsFlags (c : SyscallLabels) : ∀ i ∈ findStack c ++ pushFrame c, i.keepsFlags :=
  List.all_eq_true.mp rfl

/-- The handler runs with interrupts as the user program had them. -/
theorem syscallEntry_flagIF (alu : Alu) (h : Placed c s) (hoff : s.rflags &&& flagIF = 0) :
    (syscallEntry alu c s).rflags &&& flagIF = s.reg .r11 &&& flagIF := by
  have hflags : (run alu s (findStack c ++ pushFrame c)).rflags &&& flagIF = 0 :=
    (run_flagIF (entry_keepsFlags c)).trans hoff
  have hr11 : (run alu s (findStack c ++ pushFrame c)).reg .r11 = s.reg .r11 := by
    rw [run_append, (run_pushFrame_at alu h).1.reg .r11 (by decide) (by decide), run_findStack alu h]
    rfl
  simp only [syscallEntry, hr11]
  generalize run alu s (findStack c ++ pushFrame c) = u at hflags ⊢
  have htail : ∀ w, (run alu w [.movImm .r12 c.handler, .call c.ret]).rflags = w.rflags := fun _ => rfl
  rw [run_append, htail, checkIntr]
  by_cases hif : s.reg .r11 &&& flagIF = 0
  · rw [if_pos hif, hif, run_flagIF (List.all_eq_true.mp rfl), hflags]
  · have hon := (and_flagIF (s.reg .r11)).resolve_left hif
    have hself : ∀ x : Word, (x ||| flagIF) &&& flagIF = flagIF := fun x => by
      ext i hi
      simp only [BitVec.getElem_and, BitVec.getElem_or]
      cases x[i] <;> cases flagIF[i] <;> rfl
    rw [if_neg hif, hon]
    exact hself _

theorem userSlots_le : ∀ e ∈ userSlots s, e.off + e.size ≤ frameSize := by
  have hext : (userSlots s).map Slot.extent = slotExtents := rfl
  have hall : ∀ e ∈ slotExtents, e.1 + e.2 ≤ frameSize := by decide
  intro e he
  exact hall e.extent (hext ▸ List.mem_map_of_mem he)

/-- The way in writes to the variables and the kernel stack. -/
theorem syscallEntry_off (alu : Alu) (h : Placed c s) (h₁ : 8 ≤ (x - c.temp1).toNat) (h₂ : 8 ≤ (x - c.temp2).toNat)
    (h₃ : 200 ≤ (x - (rsp0 c s - 200)).toNat) : (syscallEntry alu c s).mem x = s.mem x := by
  obtain ⟨hmem, -, -, -⟩ := syscallEntry_spec alu h
  have hframe : frameSize ≤ (x - (rsp0 c s - 192)).toNat := by
    have hring : ∀ x y : Word, x - (y - 192) = x - (y - 200) - 8 := fun x y => by ring
    have h8 : (8 : Word).toNat = 8 := rfl
    have := (x - (rsp0 c s - 200)).isLt
    simp only [frameSize]
    rw [hring, BitVec.toNat_sub, h8]
    omega
  rw [hmem, store_off (by omega), fill_off (fun e he hc => ?_) fun e he =>
    userSlots_separate.fit _ (List.mem_map_of_mem he)]
  · rw [tempMem, store_off (by omega), store_off (by omega)]
  · have := userSlots_le e he
    have := hc.2
    omega

/-- The handler gets the frame. -/
theorem syscallEntry_read (alu : Alu) (h : Placed c s) :
    IntrFrame.read (syscallEntry alu c s).mem ((syscallEntry alu c s).reg .rdi) = syscallFrame c s := by
  obtain ⟨hmem, hdi, -, -⟩ := syscallEntry_spec alu h
  have hbelow : rsp0 c s - 200 = rsp0 c s - 192 - 8 := by
    have hring : ∀ x : Word, x - 200 = x - 192 - 8 := fun x => by ring
    exact hring _
  rw [hdi, hmem, hbelow, read_store_below]
  exact read_userSlots h

/-- The registers of the user program in the frame. -/
theorem syscallFrame_reg (c : SyscallLabels) (entry : Word) (s : State) :
    (syscallFrame c ((syscallMsrs entry).syscall s)).reg = Function.update (Function.update s.reg .rcx 0) .r11 0 := by
  funext r
  cases r <;> rfl

/-- With the frame but for the value that is returned, the user program goes on
after the `syscall`. -/
theorem sysretq_frame (alu : Alu) (c : SyscallLabels) (entry v : Word) (s s₂ : State)
    (h : IntrFrame.read s₂.mem (s₂.reg .rsp) = { syscallFrame c ((syscallMsrs entry).syscall s) with
      reg := Function.update (syscallFrame c ((syscallMsrs entry).syscall s)).reg .rax v }) :
    (syscallMsrs entry).sysretq (run alu s₂ syscallExit) =
      { reg := Function.update (Function.update (Function.update s.reg .rax v) .rcx s.rip) .r11 s.rflags
        seg := Function.update (Function.update s₂.seg .cs selUcseg) .ss selUdseg
        rip := s.rip
        rflags := s.rflags &&& sysretFlags
        mem := s₂.mem } := by
  rw [syscallExit_eq, h]
  simp only [syscallFrame_reg, State.mk.injEq, and_true, true_and]
  refine ⟨funext fun r => ?_, rfl, rfl⟩
  cases r <;> rfl

/-- `syscall` turns interrupts off and goes to the kernel's segments. -/
theorem syscall_kernel (entry : Word) (s : State) :
    ((syscallMsrs entry).syscall s).rflags &&& flagIF = 0 ∧ ((syscallMsrs entry).syscall s).seg .cs = selKcseg := by
  have hmask : ~~~(syscallMsrs entry).syscallMask &&& flagIF = 0 := by
    simp only [syscallMsrs]
    decide
  have hstar : ((syscallMsrs entry).star >>> 32).setWidth 16 &&& 0xfffc = selKcseg := by
    simp only [syscallMsrs]
    decide
  refine ⟨?_, hstar⟩
  simp only [Msrs.syscall]
  rw [BitVec.and_assoc, hmask]
  exact BitVec.and_zero

/-- **A system call.** Its handler gets the user program's registers, but for
`rcx` and `r11`, on the kernel stack, with interrupts as the user program had
them; the way to it writes to the two variables and the kernel stack only. When
the handler comes back with its stack as it was and the frame but for the value
it returns, the user program goes on after the `syscall` with all its registers
but `rax`, `rcx` and `r11`. -/
theorem syscall_transparent (alu : Alu) (c : SyscallLabels) (entry : Word) (s : State)
    (h : Placed c ((syscallMsrs entry).syscall s)) :
    let s₁ := syscallEntry alu c ((syscallMsrs entry).syscall s)
    let f := syscallFrame c ((syscallMsrs entry).syscall s)
    IntrFrame.read s₁.mem (s₁.reg .rdi) = f ∧
    f.reg = Function.update (Function.update s.reg .rcx 0) .r11 0 ∧ f.rip = s.rip ∧ f.eflags = s.rflags ∧
    s₁.reg .rdi = rsp0 c s - 192 ∧ s₁.reg .rsp = rsp0 c s - 200 ∧ s₁.seg .cs = selKcseg ∧
    s₁.rflags &&& flagIF = s.rflags &&& flagIF ∧
    (∀ x, 8 ≤ (x - c.temp1).toNat → 8 ≤ (x - c.temp2).toNat → 200 ≤ (x - (rsp0 c s - 200)).toNat →
      s₁.mem x = s.mem x) ∧
    ∀ (s₂ : State) (v : Word), s₂.reg .rsp = s₁.reg .rdi →
      IntrFrame.read s₂.mem (s₂.reg .rsp) = { f with reg := Function.update f.reg .rax v } →
      (syscallMsrs entry).sysretq (run alu s₂ syscallExit) =
        { reg := Function.update (Function.update (Function.update s.reg .rax v) .rcx s.rip) .r11 s.rflags
          seg := Function.update (Function.update s₂.seg .cs selUcseg) .ss selUdseg
          rip := s.rip
          rflags := s.rflags &&& sysretFlags
          mem := s₂.mem } := by
  intro s₁ f
  obtain ⟨-, hdi, hsp, hseg⟩ := syscallEntry_spec alu h
  obtain ⟨hoff, hcs⟩ := syscall_kernel entry s
  exact ⟨syscallEntry_read alu h, syscallFrame_reg c entry s, rfl, rfl, hdi, hsp, (congrFun hseg _).trans hcs,
    syscallEntry_flagIF alu h hoff, fun x h₁ h₂ h₃ => syscallEntry_off alu h h₁ h₂ h₃,
    fun s₂ v _ hread => sysretq_frame alu c entry v s s₂ hread⟩

def exampleLabels : SyscallLabels where
  temp1 := 0x8004250000
  temp2 := 0x8004250008
  tss := 0x8004250100
  handler := 0x8004210000
  ret := 0x8004211000

/-- The variable `tss`, and `rsp0` in the segment it points to. -/
def tssMem : Mem := store (store (fun _ => 0) 0x8004250100 8 0x8004260000) 0x8004260004 8 0x8004002000

/-- A user program at a `syscall`. -/
def atSyscall : State := { userAt 0x400010 with mem := tssMem }

theorem atSyscall_tss : atSyscall.word exampleLabels.tss = 0x8004260000 := by
  have hload : load tssMem 0x8004250100 8 = 0x8004260000 := by
    rw [tssMem, load_store_apart (by unfold Apart; decide), load_store (by decide) (by decide)]
    rfl
  rw [State.word, atSyscall]
  exact congrArg (BitVec.ofNat 64) hload

theorem atSyscall_rsp0 : rsp0 exampleLabels atSyscall = 0x8004002000 := by
  have hload : load tssMem 0x8004260004 8 = 0x8004002000 := by
    rw [tssMem, load_store (by decide) (by decide)]
    rfl
  rw [rsp0, atSyscall_tss]
  exact congrArg (BitVec.ofNat 64) hload

theorem atSyscall_placed : Placed exampleLabels ((syscallMsrs 0x8004211000).syscall atSyscall) := by
  have htss : ((syscallMsrs 0x8004211000).syscall atSyscall).word exampleLabels.tss = 0x8004260000 := atSyscall_tss
  have hrsp0 : rsp0 exampleLabels ((syscallMsrs 0x8004211000).syscall atSyscall) = 0x8004002000 := atSyscall_rsp0
  refine ⟨?_, ?_, ?_, ?_, ?_, ?_, ?_⟩
  all_goals
    unfold Apart
    first | rw [htss] | rw [hrsp0] | skip
    decide

theorem syscall_transparent_exit :
    let s₁ := syscallEntry Switch.noFlags exampleLabels ((syscallMsrs 0x8004211000).syscall atSyscall)
    let f := syscallFrame exampleLabels ((syscallMsrs 0x8004211000).syscall atSyscall)
    IntrFrame.read s₁.mem (s₁.reg .rdi) = f ∧
    f.reg = Function.update (Function.update atSyscall.reg .rcx 0) .r11 0 ∧ f.rip = atSyscall.rip ∧
    f.eflags = atSyscall.rflags ∧ s₁.reg .rdi = rsp0 exampleLabels atSyscall - 192 ∧
    s₁.reg .rsp = rsp0 exampleLabels atSyscall - 200 ∧ s₁.seg .cs = selKcseg ∧
    s₁.rflags &&& flagIF = atSyscall.rflags &&& flagIF ∧
    (∀ x, 8 ≤ (x - exampleLabels.temp1).toNat → 8 ≤ (x - exampleLabels.temp2).toNat →
      200 ≤ (x - (rsp0 exampleLabels atSyscall - 200)).toNat → s₁.mem x = atSyscall.mem x) ∧
    ∀ (s₂ : State) (v : Word), s₂.reg .rsp = s₁.reg .rdi →
      IntrFrame.read s₂.mem (s₂.reg .rsp) = { f with reg := Function.update f.reg .rax v } →
      (syscallMsrs 0x8004211000).sysretq (run Switch.noFlags s₂ syscallExit) =
        { reg := Function.update (Function.update (Function.update atSyscall.reg .rax v) .rcx atSyscall.rip) .r11
            atSyscall.rflags
          seg := Function.update (Function.update s₂.seg .cs selUcseg) .ss selUdseg
          rip := atSyscall.rip
          rflags := atSyscall.rflags &&& sysretFlags
          mem := s₂.mem } :=
  syscall_transparent _ _ _ _ atSyscall_placed

/-! ## Interrupts on the way out -/

/-- The way out as far as the stack is the kernel's. -/
def exitDrops : List Instr :=
  popAll (gpRegisters.map Prod.fst) ++ [Instr.add .rsp 32, .pop .rcx, .add .rsp 8, .pop .r11]

theorem syscallExit_drops : syscallExit = exitDrops ++ [.pop .rsp] := rfl

theorem exitDrops_drops : ∀ i ∈ exitDrops, i.drops := List.all_eq_true.mp rfl

/-- At the end the stack pointer is the user program's. -/
theorem run_syscallExit (alu : Alu) (s : State) :
    (run alu s syscallExit).reg .rsp = (IntrFrame.read s.mem (s.reg .rsp)).reg .rsp ∧
      (run alu s syscallExit).seg = s.seg := by
  have hreg : ∀ u, ((syscallMsrs 0).sysretq u).reg = u.reg := fun _ => rfl
  have hseg : ∀ u, (run alu u [.pop .rsp]).seg = u.seg := fun _ => rfl
  refine ⟨?_, ?_⟩
  · rw [← hreg, syscallExit_eq]
    rfl
  · rw [syscallExit_drops, run_append, hseg]
    exact (run_drops alu _ exitDrops_drops).2.2

theorem exitDrops_rise : ∀ k < 20, ((exitDrops.take k).map Instr.rise).sum ≤ 176 := by decide

/-- The handler of an interrupt in the kernel has its stack below the one that
was in use. -/
theorem enter_rsp {g : Gate} {vec : Nat} (alu : Alu) (ret : Word) (h : stubReal vec = g.errorCode.isSome)
    (hcs : s.seg .cs = selKcseg) :
    (s.reg .rsp).toNat < (((enter alu g vec ret s).reg .rsp) + 200).toNat + 16 ∧
      (((enter alu g vec ret s).reg .rsp) + 200).toNat ≤ (s.reg .rsp).toNat := by
  obtain ⟨-, -, hrsp⟩ := enter_mem alu g vec ret s
  have hcpl : s.cpl = 0 := by
    rw [State.cpl, hcs]
    decide
  have hstack : (enter alu g vec ret s).reg .rsp + 200 = s.reg .rsp &&& ~~~0xf := by
    have hring : ∀ x : Word, x - 192 - 8 + 200 = x := fun x => by ring
    rw [hrsp, pushedWords_length h, Gate.stack, if_pos hcpl]
    exact hring _
  have hlow : (s.reg .rsp &&& 0xf).toNat < 16 := by
    rw [BitVec.toNat_and]
    exact Nat.lt_of_le_of_lt Nat.and_le_right (by decide)
  have hsum := congrArg BitVec.toNat (and_not_add_and (s.reg .rsp) 0xf)
  have hle : (s.reg .rsp &&& ~~~0xf).toNat ≤ (s.reg .rsp).toNat := by
    rw [BitVec.toNat_and]
    exact Nat.and_le_left
  have := (s.reg .rsp).isLt
  rw [BitVec.toNat_add] at hsum
  rw [hstack]
  omega

/-- **Interrupts on the way out of a system call.** They are on at every
instruction when they are on as the handler comes back. A handler of one finds
its thread from the stack but between `popq %rsp` and `sysretq`, where it runs
on the user program's stack. -/
theorem interrupt_in_exit (alu : Alu) (g : Gate) (vec : Nat) (ret : Word) (s : State) (t : Word)
    (ht : Switch.Aligned t) (hvec : stubReal vec = g.errorCode.isSome) (hcs : s.seg .cs = selKcseg)
    (hsp : s.reg .rsp = t + 4096 - 192) (hkern : Pte.kernBase.toNat ≤ t.toNat) (hcanon : t.toNat < 2 ^ 63)
    (huser : Pte.isUserVaddr ((IntrFrame.read s.mem (s.reg .rsp)).reg .rsp)) :
    (∀ k, (run alu s (syscallExit.take k)).rflags &&& flagIF = s.rflags &&& flagIF) ∧
    ∀ k ≤ syscallExit.length,
      (Switch.runningThread (enter alu g vec ret (run alu s (syscallExit.take k))) = t ↔ k < syscallExit.length) := by
  have hlen : syscallExit.length = 20 := rfl
  have htop : (t + 4096 - 192).toNat = t.toNat + 3904 := by
    have hring : ∀ x : Word, x + 4096 - 192 = x + 3904 := fun x => by ring
    have hc : (3904 : Word).toNat = 3904 := rfl
    rw [hring, BitVec.toNat_add, hc]
    omega
  have hk₀ : Pte.kernBase.toNat = 0x8004000000 := rfl
  have h200 : (200 : Word).toNat = 200 := rfl
  simp only [Switch.Aligned] at ht
  refine ⟨fun k => run_flagIF fun i hi => List.all_eq_true.mp rfl i (List.mem_of_mem_take hi), fun k hk => ?_⟩
  rw [hlen] at hk ⊢
  by_cases hlt : k < 20
  · refine iff_of_true ?_ hlt
    have htake : syscallExit.take k = exitDrops.take k := by
      have hdrops : k ≤ exitDrops.length := Nat.le_of_lt_succ hlt
      rw [syscallExit_drops, List.take_append_of_le_length hdrops]
    obtain ⟨hrsp, -, hseg⟩ := run_drops alu s fun i hi =>
      exitDrops_drops i (List.mem_of_mem_take (i := k) hi)
    have hrise := exitDrops_rise k hlt
    rw [htake]
    obtain ⟨h₁, h₂⟩ := enter_rsp alu ret hvec ((congrFun hseg .cs).trans hcs)
    have hat : ((run alu s (exitDrops.take k)).reg .rsp).toNat =
        t.toNat + 3904 + ((exitDrops.take k).map Instr.rise).sum := by
      rw [hrsp, hsp, BitVec.toNat_add, htop, BitVec.toNat_ofNat]
      omega
    rw [BitVec.toNat_add, h200] at h₁ h₂
    refine BitVec.eq_of_toNat_eq ?_
    rw [Switch.runningThread, Mmu.pgRoundDown_toNat]
    omega
  · refine iff_of_false (fun h => ?_) hlt
    have htake : syscallExit.take k = syscallExit := List.take_of_length_le (by omega)
    obtain ⟨hrsp, hseg⟩ := run_syscallExit alu s
    rw [← hrsp] at huser
    have hat : ((run alu s syscallExit).reg .rsp).toNat < Pte.kernBase.toNat := huser
    rw [htake] at h
    obtain ⟨-, h₂⟩ := enter_rsp alu ret hvec ((congrFun hseg .cs).trans hcs)
    have hpage := congrArg BitVec.toNat h
    have := ((enter alu g vec ret (run alu s syscallExit)).reg .rsp).isLt
    rw [BitVec.toNat_add, h200] at h₂
    rw [Switch.runningThread, Mmu.pgRoundDown_toNat] at hpage
    omega

/-- The timer, on the way out of a system call of a program whose stack pointer
is zero. -/
theorem interrupt_in_exit_timer :
    let s : State := { Switch.kernelAt Switch.first 0 (fun _ => 0) with
      reg := fun _ => Switch.first + 4096 - 192, rflags := flagIF }
    (∀ k, (run Switch.noFlags s (syscallExit.take k)).rflags &&& flagIF = flagIF) ∧
    ∀ k ≤ syscallExit.length,
      (Switch.runningThread (enter Switch.noFlags (kernelGate none) 0x20 0x8004208000
        (run Switch.noFlags s (syscallExit.take k))) = Switch.first ↔ k < syscallExit.length) :=
  interrupt_in_exit _ _ _ _ _ _ (by decide) (by decide) rfl rfl (by decide) (by decide) (by decide)

end PintosKaist.Userprog
