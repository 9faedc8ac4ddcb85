/-
The context switch: `thread_launch` and `do_iret` (`threads/thread.c`),
instruction by instruction.

`thread_launch` saves the registers of the running thread in its `tf` and goes
on with those in the next one's. It uses 24 bytes of the stack on the way.
-/
import PintosKaist.Threads.IntrStubs
import PintosKaist.Lib.Run

namespace PintosKaist.Switch

open X86 ByteMem Intr

/-- The addresses of the labels in `thread_launch`. -/
structure Labels where
  next : Word
  outIret : Word

/-- `thread_launch`, up to the call of `do_iret`. -/
def threadLaunch (c : Labels) (tfCur tf : Word) : List Instr :=
  [Instr.push .rax, .push .rbx, .push .rcx, .movImm .rax tfCur, .movImm .rcx tf] ++
    saveAll .rax (gpRegisters.take 12) ++
    [Instr.pop .rbx, .store .rbx 96 .rax, .pop .rbx, .store .rbx 104 .rax, .pop .rbx, .store .rbx 112 .rax] ++
    [Instr.add .rax 120, .storeSeg .es 0 .rax, .storeSeg .ds 8 .rax, .add .rax 32] ++
    [Instr.call c.next, .pop .rbx, .add .rbx (c.outIret - c.next).toNat, .store .rbx 0 .rax, .storeSeg .cs 8 .rax] ++
    [Instr.pushf, .pop .rbx, .store .rbx 16 .rax, .store .rsp 24 .rax, .storeSeg .ss 32 .rax, .mov .rdi .rcx,
      .call c.outIret]

/-- The processor from the call of `thread_launch` to where the next thread
goes on. -/
def launch (alu : Alu) (c : Labels) (tfCur tf : Word) (s : State) : State :=
  let s := run alu s (threadLaunch c tfCur tf)
  doIret alu s (s.reg .rdi)

/-- The stack that `thread_launch` uses. -/
def scratch : Nat := 24

variable {alu : Alu} {c : Labels} {tfCur tf a b x : Word} {s t : State} {m m' : Mem} {k n v i : Nat}

/-! ## Memories that agree off the stack -/

/-- The memories are the same but for the `k` bytes from `b` on. -/
def EqOff (b : Addr) (k : Nat) (m m' : Mem) : Prop := ∀ x, k ≤ (x - b).toNat → m' x = m x

theorem EqOff.refl (m : Mem) : EqOff b k m m := fun _ _ => rfl

theorem EqOff.trans {m'' : Mem} (h : EqOff b k m m') (h' : EqOff b k m' m'') : EqOff b k m m'' := fun x hx =>
  (h' x hx).trans (h x hx)

theorem EqOff.store (h : EqOff b k m m') : EqOff b k (store m a n v) (store m' a n v) := fun x hx => by
  simp only [ByteMem.store]
  split
  · rfl
  · exact h x hx

theorem EqOff.fill {l : List Slot} (h : EqOff b k m m') : EqOff b k (fill m a l) (fill m' a l) := by
  induction l generalizing m m' with
  | nil => exact h
  | cons s l ih => exact ih h.store

/-- What is stored in those bytes does not matter. -/
theorem EqOff.scratch (h : EqOff b k m m') (hfit : i + n ≤ k) (hk : k < 2 ^ 64) :
    EqOff b k m (ByteMem.store m' (b + BitVec.ofNat 64 i) n v) := fun x hx => by
  rw [store_off, h x hx]
  have hlt := (x - b).isLt
  have he : (x - (b + BitVec.ofNat 64 i)).toNat = (x - b).toNat - i := by
    have hes : x - (b + BitVec.ofNat 64 i) = (x - b) - BitVec.ofNat 64 i := by ring
    rw [hes, BitVec.toNat_sub, BitVec.toNat_ofNat, Nat.mod_eq_of_lt (by omega : i < 2 ^ 64)]
    omega
  omega

/-! ## `thread_launch` in parts -/

/-- The slots of the registers that are saved directly. -/
def directSlots (s : State) : List Slot := (gpRegisters.take 12).map fun p => ⟨p.2, 8, (s.reg p.1).toNat⟩

/-- The registers are on the stack, or saved, and both operands are fetched. -/
theorem run_fetch (alu : Alu) (s : State) (tfCur tf : Word) :
    run alu s ([Instr.push .rax, .push .rbx, .push .rcx, .movImm .rax tfCur, .movImm .rcx tf] ++
        saveAll .rax (gpRegisters.take 12)) =
      { s with
        reg := Function.update (Function.update (Function.update s.reg .rsp (s.reg .rsp - 24)) .rax tfCur) .rcx tf
        mem := fill (fill s.mem (s.reg .rsp - 24) (pushSlots [s.reg .rax, s.reg .rbx, s.reg .rcx])) tfCur
          (directSlots s) } := by
  have hpush : run alu s [.push .rax, .push .rbx, .push .rcx, .movImm .rax tfCur, .movImm .rcx tf] =
      (([s.reg .rax, s.reg .rbx, s.reg .rcx].foldl State.pushVal s).setReg .rax tfCur).setReg .rcx tf := rfl
  rw [run_append, hpush, foldl_pushVal, run_saveAll]
  have h24 : BitVec.ofNat 64 (8 * [s.reg .rax, s.reg .rbx, s.reg .rcx].length) = (24 : Word) := rfl
  simp only [State.setReg, h24, State.mk.injEq, true_and]
  have hrax : Function.update (Function.update (Function.update s.reg .rsp (s.reg .rsp - 24)) .rax tfCur) .rcx tf .rax =
      tfCur := rfl
  rw [hrax]
  congr 1

/-- A saved register is taken off the stack and put in the frame. -/
theorem run_popStore (alu : Alu) (t : State) (off : Nat) :
    run alu t [.pop .rbx, .store .rbx off .rax] =
      { t with
        reg := Function.update (Function.update t.reg .rsp (t.reg .rsp + 8)) .rbx (t.word (t.reg .rsp))
        mem := store t.mem (t.reg .rax + BitVec.ofNat 64 off) 8 (t.word (t.reg .rsp)).toNat } := rfl

/-- The three registers on the stack come to the frame; the stack pointer is
back, and `rbx` is what `rax` was. -/
theorem run_popStores (alu : Alu) (t : State) {v₁ v₂ v₃ : Word} (h₁ : t.word (t.reg .rsp) = v₁)
    (h₂ : t.word (t.reg .rsp + 8) = v₂) (h₃ : t.word (t.reg .rsp + 16) = v₃)
    (h8 : ∀ off < 128, Apart (t.reg .rax + BitVec.ofNat 64 off) 8 (t.reg .rsp + 8) 8)
    (h16 : ∀ off < 128, Apart (t.reg .rax + BitVec.ofNat 64 off) 8 (t.reg .rsp + 16) 8) :
    run alu t [.pop .rbx, .store .rbx 96 .rax, .pop .rbx, .store .rbx 104 .rax, .pop .rbx, .store .rbx 112 .rax] =
      { t with
        reg := Function.update (Function.update t.reg .rsp (t.reg .rsp + 24)) .rbx v₃
        mem := fill t.mem (t.reg .rax) [⟨96, 8, v₁.toNat⟩, ⟨104, 8, v₂.toNat⟩, ⟨112, 8, v₃.toNat⟩] } := by
  have hsplit : [Instr.pop .rbx, .store .rbx 96 .rax, .pop .rbx, .store .rbx 104 .rax, .pop .rbx, .store .rbx 112 .rax] =
      [Instr.pop .rbx, .store .rbx 96 .rax] ++
        ([Instr.pop .rbx, .store .rbx 104 .rax] ++ [Instr.pop .rbx, .store .rbx 112 .rax]) := rfl
  have hsp₁ : ∀ (r : Reg → Word) (v w : Word), Function.update (Function.update r .rsp v) .rbx w .rsp = v :=
    fun _ _ _ => rfl
  have hax₁ : ∀ (r : Reg → Word) (v w : Word), Function.update (Function.update r .rsp v) .rbx w .rax = r .rax :=
    fun _ _ _ => rfl
  rw [hsplit, run_append, run_append, run_popStore alu t 96, h₁]
  have e₂ : load (store t.mem (t.reg .rax + BitVec.ofNat 64 96) 8 v₁.toNat) (t.reg .rsp + 8) 8 =
      load t.mem (t.reg .rsp + 8) 8 := load_store_apart (h8 96 (by decide))
  rw [run_popStore alu _ 104]
  simp only [State.word, hsp₁, hax₁, e₂]
  have h₂' : BitVec.ofNat 64 (load t.mem (t.reg .rsp + 8) 8) = v₂ := h₂
  rw [h₂', run_popStore alu _ 112]
  have hadd : t.reg .rsp + 8 + 8 = t.reg .rsp + 16 := by ring
  have e₃ : load (store (store t.mem (t.reg .rax + BitVec.ofNat 64 96) 8 v₁.toNat)
      (t.reg .rax + BitVec.ofNat 64 104) 8 v₂.toNat) (t.reg .rsp + 16) 8 = load t.mem (t.reg .rsp + 16) 8 :=
    (load_store_apart (h16 104 (by decide))).trans (load_store_apart (h16 96 (by decide)))
  have h24 : t.reg .rsp + 16 + 8 = t.reg .rsp + 24 := by ring
  simp only [State.word, hsp₁, hax₁, hadd, e₃, h24]
  have h₃' : BitVec.ofNat 64 (load t.mem (t.reg .rsp + 16) 8) = v₃ := h₃
  rw [h₃']
  simp only [State.mk.injEq, true_and]
  refine ⟨funext fun r => ?_, rfl⟩
  cases r <;> rfl

/-- A value goes through the stack to a register. -/
theorem pushVal_pop (alu : Alu) (t : State) (v : Word) : exec alu (t.pushVal v) (.pop .rbx) =
    { t with
      reg := Function.update t.reg .rbx v
      mem := store t.mem (t.reg .rsp - 8) 8 v.toNat } := by
  have hload : load (store t.mem (t.reg .rsp - 8) 8 v.toNat) (t.reg .rsp - 8) 8 = v.toNat := by
    rw [load_store (Nat.le_refl 8) (by decide)]
    exact Nat.mod_eq_of_lt (by have := v.isLt; omega)
  have hsp : t.reg .rsp - 8 + 8 = t.reg .rsp := by ring
  simp only [exec, State.pushVal, State.setReg, State.word, Function.update_self, Function.update_idem, hload, hsp,
    BitVec.ofNat_toNat, BitVec.setWidth_eq, Function.update_eq_self]

/-- The flags that are saved: the arithmetic ones are those of the additions
before. -/
def savedFlags (alu : Alu) (c : Labels) (tfCur : Word) (s : State) : Word :=
  (((s.setArith (alu (.add .rax 120) tfCur)).setArith (alu (.add .rax 32) (tfCur + 120))).setArith
    (alu (.add .rbx (c.outIret - c.next).toNat) c.next)).rflags

/-- What the second half of `thread_launch` stores in the frame. -/
def restSlots (alu : Alu) (c : Labels) (a : Word) (t : State) : List Slot :=
  [⟨120, 2, (t.seg .es).toNat⟩, ⟨128, 2, (t.seg .ds).toNat⟩, ⟨152, 8, c.outIret.toNat⟩, ⟨160, 2, (t.seg .cs).toNat⟩,
    ⟨168, 8, (savedFlags alu c a t).toNat⟩, ⟨176, 8, (t.reg .rsp).toNat⟩, ⟨184, 2, (t.seg .ss).toNat⟩]

theorem run_rest (alu : Alu) (c : Labels) (t : State) :
    let t' := run alu t ([Instr.add .rax 120, .storeSeg .es 0 .rax, .storeSeg .ds 8 .rax, .add .rax 32] ++
      [Instr.call c.next, .pop .rbx, .add .rbx (c.outIret - c.next).toNat, .store .rbx 0 .rax, .storeSeg .cs 8 .rax] ++
      [Instr.pushf, .pop .rbx, .store .rbx 16 .rax, .store .rsp 24 .rax, .storeSeg .ss 32 .rax, .mov .rdi .rcx,
        .call c.outIret])
    t'.reg .rdi = t.reg .rcx ∧ t'.seg = t.seg ∧
      EqOff (t.reg .rsp - 24) 24 (fill t.mem (t.reg .rax) (restSlots alu c (t.reg .rax) t)) t'.mem := by
  intro t'
  have ht' : t' = run alu t ([Instr.add .rax 120, .storeSeg .es 0 .rax, .storeSeg .ds 8 .rax, .add .rax 32] ++
      [Instr.call c.next, .pop .rbx] ++
      [Instr.add .rbx (c.outIret - c.next).toNat, .store .rbx 0 .rax, .storeSeg .cs 8 .rax] ++
      [Instr.pushf, .pop .rbx] ++
      [Instr.store .rbx 16 .rax, .store .rsp 24 .rax, .storeSeg .ss 32 .rax, .mov .rdi .rcx] ++
      [Instr.call c.outIret]) := rfl
  have hcall : ∀ u v, run alu u [Instr.call v, .pop .rbx] = exec alu (u.pushVal v) (.pop .rbx) := fun _ _ => rfl
  have hpushf : ∀ u, run alu u [.pushf, .pop .rbx] = exec alu (u.pushVal u.rflags) (.pop .rbx) := fun _ => rfl
  have hsp : ∀ (r : Reg → Word) (v w : Word), Function.update (Function.update r .rax v) .rbx w .rsp = r .rsp :=
    fun _ _ _ => rfl
  have hax : ∀ (r : Reg → Word) (v w : Word), Function.update (Function.update r .rax v) .rbx w .rax = v :=
    fun _ _ _ => rfl
  have hcx : ∀ (r : Reg → Word) (v w : Word), Function.update (Function.update r .rax v) .rbx w .rcx = r .rcx :=
    fun _ _ _ => rfl
  have hsp₁ : ∀ (r : Reg → Word) (v : Word), Function.update r .rax v .rsp = r .rsp := fun _ _ => rfl
  have hback : c.next + (c.outIret - c.next) = c.outIret := by ring
  rw [ht']
  simp only [run_append, hcall, hpushf, pushVal_pop]
  simp only [run_cons, run_nil, exec, State.setReg, State.setArith, State.addr, State.pushVal, Function.update_self,
    Function.update_idem, BitVec.ofNat_toNat, BitVec.setWidth_eq, hsp, hax, hcx, hsp₁, hback, BitVec.add_assoc,
    BitVec.reduceAdd]
  refine ⟨rfl, trivial, ?_⟩
  -- the three words that go through the stack
  have h8 : ∀ x : Word, x - 8 = x - 24 + BitVec.ofNat 64 16 := fun x => by
    have hring : ∀ x : Word, x - 8 = x - 24 + 16 := fun x => by ring
    exact hring x
  have hsp₂ : ∀ (r : Reg → Word) (v w u : Word),
      Function.update (Function.update (Function.update r .rax v) .rbx w) .rdi u .rsp = r .rsp := fun _ _ _ _ => rfl
  simp only [hsp₂, h8]
  have h₁ := ((EqOff.refl (b := t.reg .rsp - 24) (k := 24) t.mem).store (a := t.reg .rax + 120#64) (n := 2)
    (v := (t.seg .es).toNat)).store (a := t.reg .rax + 128#64) (n := 2) (v := (t.seg .ds).toNat)
  have h₂ := ((h₁.scratch (i := 16) (n := 8) (v := c.next.toNat) (by decide) (by decide)).store
    (a := t.reg .rax + 152#64) (n := 8) (v := c.outIret.toNat)).store (a := t.reg .rax + 160#64) (n := 2)
    (v := (t.seg .cs).toNat)
  have h₃ := (((h₂.scratch (i := 16) (n := 8) (v := (savedFlags alu c (t.reg .rax) t).toNat) (by decide)
    (by decide)).store (a := t.reg .rax + 168#64) (n := 8) (v := (savedFlags alu c (t.reg .rax) t).toNat)).store
    (a := t.reg .rax + 176#64) (n := 8) (v := (t.reg .rsp).toNat)).store (a := t.reg .rax + 184#64) (n := 2)
    (v := (t.seg .ss).toNat)
  exact h₃.scratch (i := 16) (n := 8) (by decide) (by decide)

/-! ## `thread_launch` -/

/-- What `thread_launch` stores in the frame of the thread that calls it. -/
def launchSlots (alu : Alu) (c : Labels) (tfCur : Word) (s : State) : List Slot :=
  directSlots s ++
    [⟨96, 8, (s.reg .rcx).toNat⟩, ⟨104, 8, (s.reg .rbx).toNat⟩, ⟨112, 8, (s.reg .rax).toNat⟩] ++
    restSlots alu c tfCur s

/-- The stack that `thread_launch` uses is not in the frame. -/
def Room (tf : Word) (s : State) : Prop := Apart tf frameSize (s.reg .rsp - 24) scratch

theorem directSlots_le (s : State) : ∀ e ∈ directSlots s, e.off + e.size ≤ frameSize := by
  have hext : (directSlots s).map Slot.extent = (gpRegisters.take 12).map fun p => (p.2, 8) := rfl
  have hall : ∀ e ∈ (gpRegisters.take 12).map fun p => (p.2, 8), e.1 + e.2 ≤ frameSize := by decide
  intro e he
  exact hall e.extent (hext ▸ List.mem_map_of_mem he)

/-- A register that was pushed is still on the stack when the others are in the
frame. -/
theorem pushed_word {x y z v : Word} (off : Nat) (h : Apart tfCur frameSize b scratch) (hoff : off ≤ 16)
    (hv : ⟨off, 8, v.toNat⟩ ∈ pushSlots [x, y, z]) :
    BitVec.ofNat 64 (load (fill (fill m b (pushSlots [x, y, z])) tfCur (directSlots s)) (b + BitVec.ofNat 64 off) 8) =
      v := by
  have hsep : Separate ((pushSlots [x, y, z]).map Slot.extent) := by
    have hext : (pushSlots [x, y, z]).map Slot.extent = [(16, 8), (8, 8), (0, 8)] := rfl
    rw [hext]
    decide
  have hl := load_fill (m := m) (b := b) (s := ⟨off, 8, v.toNat⟩) (n := 8) hsep hv (Nat.le_refl 8)
  have hmod : v.toNat % 256 ^ 8 = v.toNat := Nat.mod_eq_of_lt (by have := v.isLt; omega)
  have hframe : load (fill (fill m b (pushSlots [x, y, z])) tfCur (directSlots s)) (b + BitVec.ofNat 64 off) 8 =
      load (fill m b (pushSlots [x, y, z])) (b + BitVec.ofNat 64 off) 8 := by
    have hcov : ∀ i < 8, ∀ e ∈ directSlots s,
        ¬ e.Covers tfCur (b + BitVec.ofNat 64 off + BitVec.ofNat 64 i) := fun i hi e he => by
      rw [BitVec.add_assoc, ← BitVec.ofNat_add]
      exact h.not_covers (by simp only [scratch]; omega) (directSlots_le s e he)
    have hfit : ∀ e ∈ directSlots s, e.off + e.size ≤ 2 ^ 64 := fun e he => by
      have := directSlots_le s e he
      simp only [frameSize] at this
      omega
    exact load_fill_off hcov hfit
  simp only at hl
  rw [hframe, hl, hmod, BitVec.ofNat_toNat, BitVec.setWidth_eq]

/-- When it comes to `do_iret`, `thread_launch` has saved the registers. -/
theorem run_threadLaunch (alu : Alu) (c : Labels) (tfCur tf : Word) (s : State) (h : Room tfCur s) :
    (run alu s (threadLaunch c tfCur tf)).reg .rdi = tf ∧ (run alu s (threadLaunch c tfCur tf)).seg = s.seg ∧
      EqOff (s.reg .rsp - 24) scratch (fill s.mem tfCur (launchSlots alu c tfCur s))
        (run alu s (threadLaunch c tfCur tf)).mem := by
  have hsplit : threadLaunch c tfCur tf =
      ([Instr.push .rax, .push .rbx, .push .rcx, .movImm .rax tfCur, .movImm .rcx tf] ++
        saveAll .rax (gpRegisters.take 12)) ++
        ([Instr.pop .rbx, .store .rbx 96 .rax, .pop .rbx, .store .rbx 104 .rax, .pop .rbx, .store .rbx 112 .rax] ++
          ([Instr.add .rax 120, .storeSeg .es 0 .rax, .storeSeg .ds 8 .rax, .add .rax 32] ++
            [Instr.call c.next, .pop .rbx, .add .rbx (c.outIret - c.next).toNat, .store .rbx 0 .rax,
              .storeSeg .cs 8 .rax] ++
            [Instr.pushf, .pop .rbx, .store .rbx 16 .rax, .store .rsp 24 .rax, .storeSeg .ss 32 .rax, .mov .rdi .rcx,
              .call c.outIret])) := by
    simp only [threadLaunch, List.append_assoc]
  have hfetch := run_fetch alu s tfCur tf
  generalize hu : run alu s ([Instr.push .rax, .push .rbx, .push .rcx, .movImm .rax tfCur, .movImm .rcx tf] ++
    saveAll .rax (gpRegisters.take 12)) = u at hfetch
  have hsp : u.reg .rsp = s.reg .rsp - 24 := by rw [hfetch]; rfl
  have hax : u.reg .rax = tfCur := by rw [hfetch]; rfl
  have happ : ∀ i, i + 8 ≤ scratch → ∀ off < 128, Apart (u.reg .rax + BitVec.ofNat 64 off) 8
      (u.reg .rsp + BitVec.ofNat 64 i) 8 := fun i hi off hoff => by
    rw [hax, hsp]
    exact h.part _ _ _ _ (by simp only [frameSize]; omega) hi (by decide)
  have hword : ∀ off, off ≤ 16 → ∀ v : Word, ⟨off, 8, v.toNat⟩ ∈ pushSlots [s.reg .rax, s.reg .rbx, s.reg .rcx] →
      u.word (u.reg .rsp + BitVec.ofNat 64 off) = v := fun off hoff v hv => by
    rw [hsp, State.word, hfetch]
    exact pushed_word off h hoff hv
  have h₁ : u.word (u.reg .rsp) = s.reg .rcx := by
    have h0 := hword 0 (by decide) (s.reg .rcx) (by simp [pushSlots])
    rwa [BitVec.add_zero] at h0
  have hpops := run_popStores alu u h₁ (hword 8 (by decide) (s.reg .rbx) (by simp [pushSlots]))
    (hword 16 (by decide) (s.reg .rax) (by simp [pushSlots])) (happ 8 (by decide)) (happ 16 (by decide))
  generalize hw : run alu u [.pop .rbx, .store .rbx 96 .rax, .pop .rbx, .store .rbx 104 .rax, .pop .rbx,
    .store .rbx 112 .rax] = w at hpops
  obtain ⟨hdi, hseg, hmem⟩ := run_rest alu c w
  have hwsp : w.reg .rsp = s.reg .rsp := by
    have hring : ∀ x : Word, x - 24 + 24 = x := fun x => by ring
    have hup : w.reg .rsp = u.reg .rsp + 24 := by rw [hpops]; rfl
    rw [hup, hsp, hring]
  have hwseg : w.seg = s.seg := by rw [hpops, hfetch]
  have hwfl : w.rflags = s.rflags := by rw [hpops, hfetch]
  have hwax : w.reg .rax = tfCur := by rw [hpops, hfetch]; rfl
  have hwcx : w.reg .rcx = tf := by rw [hpops, hfetch]; rfl
  rw [hsplit, run_append, run_append, hu, hw]
  refine ⟨hdi.trans hwcx, hseg.trans hwseg, ?_⟩
  rw [hwsp, hwax] at hmem
  have hrest : restSlots alu c tfCur w = restSlots alu c tfCur s := by
    simp only [restSlots, savedFlags, State.setArith, hwseg, hwfl, hwsp]
  have hwmem : w.mem = fill (fill (fill s.mem (s.reg .rsp - 24) (pushSlots [s.reg .rax, s.reg .rbx, s.reg .rcx])) tfCur
      (directSlots s))
      tfCur [⟨96, 8, (s.reg .rcx).toNat⟩, ⟨104, 8, (s.reg .rbx).toNat⟩, ⟨112, 8, (s.reg .rax).toNat⟩] := by
    rw [hpops, hax, hfetch]
  have hstack : EqOff (s.reg .rsp - 24) scratch s.mem
      (fill s.mem (s.reg .rsp - 24) (pushSlots [s.reg .rax, s.reg .rbx, s.reg .rcx])) :=
    (((EqOff.refl s.mem).scratch (i := 16) (n := 8) (by decide) (by decide)).scratch (i := 8) (n := 8) (by decide)
      (by decide)).scratch (i := 0) (n := 8) (by decide) (by decide)
  rw [hrest, hwmem] at hmem
  simp only [launchSlots, fill_append]
  exact (hstack.fill.fill.fill).trans hmem

/-! ## The frame of the caller -/

/-- The registers that the caller goes on with when it is launched again. -/
def saved (alu : Alu) (c : Labels) (tfCur : Word) (s : State) : IntrFrame where
  reg := s.reg
  es := s.seg .es
  ds := s.seg .ds
  vecNo := Intr.word s.mem tfCur 136
  errorCode := Intr.word s.mem tfCur 144
  rip := c.outIret
  cs := s.seg .cs
  eflags := savedFlags alu c tfCur s
  ss := s.seg .ss

/-- Where the slots are. -/
def launchExtents : List (Nat × Nat) :=
  (gpRegisters.map fun p => (p.2, 8)) ++ [(120, 2), (128, 2), (152, 8), (160, 2), (168, 8), (176, 8), (184, 2)]

theorem launchSlots_extents (alu : Alu) (c : Labels) (tfCur : Word) (s : State) :
    (launchSlots alu c tfCur s).map Slot.extent = launchExtents := rfl

theorem launchSlots_separate : Separate ((launchSlots alu c tfCur s).map Slot.extent) := by
  rw [launchSlots_extents]
  decide

theorem launchSlots_le : ∀ e ∈ launchSlots alu c tfCur s, e.off + e.size ≤ frameSize := by
  have hall : ∀ e ∈ launchExtents, e.1 + e.2 ≤ frameSize := by decide
  intro e he
  exact hall e.extent (launchSlots_extents alu c tfCur s ▸ List.mem_map_of_mem he)

theorem launchSlots_reg (r : Reg) : ⟨regOffset r, 8, (s.reg r).toNat⟩ ∈ launchSlots alu c tfCur s := by
  cases r <;> simp [launchSlots, directSlots, restSlots, regOffset, gpRegisters]

/-- The vector and the error code are as they were. -/
theorem word_launchSlots {off : Nat} (hoff : off = 136 ∨ off = 144) :
    Intr.word (fill m a (launchSlots alu c tfCur s)) a off = Intr.word m a off := by
  have hgap : ∀ e ∈ launchExtents, e.1 + e.2 ≤ 136 ∨ 152 ≤ e.1 := by decide
  rw [Intr.word, Intr.word, load_fill_off (fun i hi e he hc => ?_) fun e he =>
    launchSlots_separate.fit _ (List.mem_map_of_mem he)]
  have hlt := hgap e.extent (launchSlots_extents alu c tfCur s ▸ List.mem_map_of_mem he)
  obtain ⟨hlo, hhi⟩ := hc
  rw [toNat_off_sub (by omega)] at hlo hhi
  simp only [Slot.extent] at hlt
  omega

theorem read_launchSlots (alu : Alu) (c : Labels) (tfCur : Word) (s : State) :
    IntrFrame.read (fill s.mem tfCur (launchSlots alu c tfCur s)) tfCur = saved alu c tfCur s := by
  simp only [IntrFrame.read, saved, IntrFrame.mk.injEq]
  have hsep : Separate ((launchSlots alu c tfCur s).map Slot.extent) := launchSlots_separate
  refine ⟨funext fun r => word_fill hsep (launchSlots_reg r), half_fill 2 _ hsep ?_ (Nat.le_refl 2) (toNat_mod _),
    half_fill 2 _ hsep ?_ (Nat.le_refl 2) (toNat_mod _), word_launchSlots (.inl rfl), word_launchSlots (.inr rfl),
    word_fill hsep ?_, half_fill 2 _ hsep ?_ (Nat.le_refl 2) (toNat_mod _), word_fill hsep ?_,
    half_fill 2 _ hsep ?_ (Nat.le_refl 2) (toNat_mod _)⟩
  all_goals simp [launchSlots, restSlots]

/-- **`thread_launch` and `do_iret`.** The processor goes on with the next
thread's frame as it was, the caller's frame holds its registers, and but for
that frame and the stack the memory is as it was. -/
theorem launch_spec (alu : Alu) (c : Labels) {tfCur tf : Word} {s : State} (h : Room tfCur s)
    (hne : Apart tfCur frameSize tf frameSize) (hsp : Apart (s.reg .rsp - 24) scratch tf frameSize) :
    launch alu c tfCur tf s = { (IntrFrame.read s.mem tf).resume s with mem := (launch alu c tfCur tf s).mem } ∧
      IntrFrame.read (launch alu c tfCur tf s).mem tfCur = saved alu c tfCur s ∧
      ∀ x, frameSize ≤ (x - tfCur).toNat → scratch ≤ (x - (s.reg .rsp - 24)).toNat →
        (launch alu c tfCur tf s).mem x = s.mem x := by
  obtain ⟨hdi, hseg, hmem⟩ := run_threadLaunch alu c tfCur tf s h
  have hlaunch : launch alu c tfCur tf s =
      (IntrFrame.read (run alu s (threadLaunch c tfCur tf)).mem tf).resume (run alu s (threadLaunch c tfCur tf)) := by
    rw [launch, hdi, doIret_eq]
  have hm : (launch alu c tfCur tf s).mem = (run alu s (threadLaunch c tfCur tf)).mem := by
    rw [hlaunch]
    rfl
  have hoff : ∀ x, frameSize ≤ (x - tfCur).toNat → scratch ≤ (x - (s.reg .rsp - 24)).toNat →
      (launch alu c tfCur tf s).mem x = s.mem x := fun x hx hx' => by
    rw [hm, hmem x hx']
    refine fill_off (fun e he hc => ?_) fun e he => launchSlots_separate.fit _ (List.mem_map_of_mem he)
    have hle := launchSlots_le e he
    have := hc.2
    omega
  refine ⟨?_, ?_, hoff⟩
  · have hread : IntrFrame.read (run alu s (threadLaunch c tfCur tf)).mem tf = IntrFrame.read s.mem tf := by
      rw [← hm]
      exact read_congr fun i hi => hoff _ (hne.le_sub hi) (hsp.le_sub hi)
    rw [hlaunch, hread]
    simp only [IntrFrame.resume, hseg]
  · rw [hm, ← read_launchSlots]
    exact read_congr fun i hi => hmem _ ((h.symm (by decide)).le_sub hi)

end PintosKaist.Switch
