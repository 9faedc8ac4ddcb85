/-
The context switch over runs: any number of threads, each with its `tf` in its
own page, and any order of launches, creations and work.

The frame of a thread that waits is written by nothing but its own launch
(`step_waits`), so what a thread that is launched again goes on with is what it
was launched away with (`context_switch`).
-/
import PintosKaist.Threads.Switch
import PintosKaist.Threads.MmuMap

namespace PintosKaist.Switch

open X86 ByteMem Intr

/-- The addresses in the kernel, and where `tf` is in `struct thread`. -/
structure Layout extends Labels where
  kernelThread : Word
  tfOff : Nat
  fits : tfOff + frameSize + scratch ≤ 4096

/-- `&t->tf`; a thread is its page. -/
def Layout.tf (L : Layout) (t : Word) : Word := t + BitVec.ofNat 64 L.tfOff

/-- `running_thread` -/
def runningThread (s : State) : Word := Mmu.pgRoundDown (s.reg .rsp)

structure System where
  cpu : State
  /-- the thread whose code this is -/
  current : Word
  /-- the threads that wait to be launched -/
  waiting : List Word

inductive Event where
  /-- the current thread comes to a state of the processor -/
  | work (s : State)
  /-- `thread_create` has got the page -/
  | create (t function aux : Word)
  /-- the page of a dead thread goes back -/
  | free (t : Word)
  /-- `thread_launch` -/
  | launch (t : Word)

def Aligned (t : Word) : Prop := t.toNat % 4096 = 0

instance (t : Word) : Decidable (Aligned t) := inferInstanceAs (Decidable (_ = _))

/-- The stack pointer is in the thread's page, with room above `tf`. -/
def OnStack (L : Layout) (t : Word) (s : State) : Prop :=
  L.tfOff + frameSize + scratch ≤ (s.reg .rsp - t).toNat ∧ (s.reg .rsp - t).toNat < 4096

instance (L : Layout) (t : Word) (s : State) : Decidable (OnStack L t s) := inferInstanceAs (Decidable (_ ∧ _))

/-- What the current thread does is nothing to the frame of another. -/
def Leaves (L : Layout) (t : Word) (m m' : Mem) : Prop :=
  ∀ i < frameSize, m' (L.tf t + BitVec.ofNat 64 i) = m (L.tf t + BitVec.ofNat 64 i)

instance (L : Layout) (t : Word) (m m' : Mem) : Decidable (Leaves L t m m') :=
  inferInstanceAs (Decidable (∀ i < frameSize, _))

/-- The stores of `init_thread` and `thread_create` to `tf`. -/
def createSlots (L : Layout) (t function aux : Word) : List Slot :=
  [⟨176, 8, (t + 4096 - 8).toNat⟩, ⟨152, 8, L.kernelThread.toNat⟩, ⟨72, 8, function.toNat⟩, ⟨64, 8, aux.toNat⟩,
    ⟨128, 2, selKdseg.toNat⟩, ⟨120, 2, selKdseg.toNat⟩, ⟨184, 2, selKdseg.toNat⟩, ⟨160, 2, selKcseg.toNat⟩,
    ⟨168, 8, flagIF.toNat⟩]

/-- The page of a new thread is cleared, and its `tf` filled in. -/
def createMem (L : Layout) (t function aux : Word) (m : Mem) : Mem :=
  fill (store m t 4096 0) (L.tf t) (createSlots L t function aux)

def step (alu : Alu) (L : Layout) (m : System) : Event → Option System
  | .work s => if ∀ t ∈ m.waiting, Leaves L t m.cpu.mem s.mem then some { m with cpu := s } else none
  | .create t function aux =>
    if Aligned t ∧ t ≠ m.current ∧ t ∉ m.waiting then
      some { m with
        cpu := { m.cpu with mem := createMem L t function aux m.cpu.mem }
        waiting := t :: m.waiting }
    else none
  | .free t => if t ∈ m.waiting then some { m with waiting := m.waiting.filter (· ≠ t) } else none
  | .launch t =>
    -- `ASSERT (intr_get_level () == INTR_OFF)`
    if m.cpu.rflags &&& flagIF = 0 ∧ t ∈ m.waiting ∧ OnStack L m.current m.cpu then
      some {
        cpu := launch alu L.toLabels (L.tf (runningThread m.cpu)) (L.tf t) m.cpu
        current := t
        waiting := m.current :: m.waiting.filter (· ≠ t) }
    else none

/-- What holds of the threads in every run. -/
structure System.Ok (m : System) : Prop where
  current : Aligned m.current
  waiting : ∀ t ∈ m.waiting, Aligned t
  other : m.current ∉ m.waiting

variable {alu : Alu} {L : Layout} {m m' : System} {t u x a b function aux : Word} {f : IntrFrame} {s : State} {e : Event}
  {es : List Event} {i j k n : Nat}

/-! ## Pages -/

/-- Parts of different pages have no byte in common. -/
theorem page_apart (ha : Aligned a) (hb : Aligned b) (hne : a ≠ b) (hj : j + k ≤ 4096) (hi : i + n ≤ 4096) (hn : 0 < n) :
    Apart (a + BitVec.ofNat 64 j) k (b + BitVec.ofNat 64 i) n := by
  have hpos : (b - a).toNat ≠ 0 := by
    intro h
    refine hne ?_
    have h0 : b - a = 0 := BitVec.eq_of_toNat_eq h
    have hb : b = (b - a) + a := by ring
    rw [hb, h0]
    ring
  have hpages : Apart a 4096 b 4096 := by
    have := a.isLt
    have := b.isLt
    simp only [Aligned] at ha hb
    rw [BitVec.toNat_sub] at hpos
    refine ⟨?_, ?_⟩ <;> rw [BitVec.toNat_sub] <;> omega
  exact hpages.part _ _ _ _ hj hi hn

/-- The page of a stack pointer in it. -/
theorem runningThread_eq (ht : Aligned t) (h : OnStack L t s) : runningThread s = t := by
  refine BitVec.eq_of_toNat_eq ?_
  have hlt := h.2
  have := t.isLt
  have := (s.reg .rsp).isLt
  simp only [Aligned] at ht
  rw [BitVec.toNat_sub] at hlt
  rw [runningThread, Mmu.pgRoundDown_toNat]
  omega

/-- The stack that `thread_launch` uses, from its thread's page. -/
theorem scratch_eq (t : Word) (h : scratch ≤ (s.reg .rsp - t).toNat) :
    s.reg .rsp - 24 = t + BitVec.ofNat 64 ((s.reg .rsp - t).toNat - scratch) := by
  have hring : ∀ x y : Word, x - 24 = y + ((x - y) - 24) := fun x y => by ring
  have hsub : s.reg .rsp - t - 24 = BitVec.ofNat 64 ((s.reg .rsp - t).toNat - scratch) := by
    refine BitVec.eq_of_toNat_eq ?_
    have := (s.reg .rsp - t).isLt
    have h24 : (24 : Word).toNat = 24 := rfl
    simp only [scratch] at h ⊢
    rw [BitVec.toNat_sub, BitVec.toNat_ofNat, h24]
    omega
  rw [hring _ t, hsub]

theorem OnStack.room (h : OnStack L t s) : Room (L.tf t) s := by
  obtain ⟨hlo, hhi⟩ := h
  rw [Room, scratch_eq t (by omega)]
  have hsub : (t + BitVec.ofNat 64 ((s.reg .rsp - t).toNat - scratch) - L.tf t).toNat =
      (s.reg .rsp - t).toNat - scratch - L.tfOff := by
    have hring : ∀ x y z : Word, x + y - (x + z) = y - z := fun x y z => by ring
    have hfits := L.fits
    simp only [scratch, frameSize] at hlo hfits ⊢
    rw [Layout.tf, hring, BitVec.toNat_sub, BitVec.toNat_ofNat, BitVec.toNat_ofNat]
    omega
  have hfits := L.fits
  simp only [scratch, frameSize] at hlo hsub ⊢
  exact ⟨by omega, by omega⟩

/-- The stack of a thread is not in the frame of another. -/
theorem OnStack.apart (h : OnStack L t s) (ht : Aligned t) (hu : Aligned u) (hne : t ≠ u) :
    Apart (s.reg .rsp - 24) scratch (L.tf u) frameSize := by
  obtain ⟨hlo, hhi⟩ := h
  have hfits := L.fits
  rw [scratch_eq t (by omega)]
  exact page_apart ht hu hne (by omega) (by omega) (by decide)

theorem tf_apart (L : Layout) (ht : Aligned t) (hu : Aligned u) (hne : t ≠ u) :
    Apart (L.tf t) frameSize (L.tf u) frameSize :=
  page_apart ht hu hne (by have := L.fits; omega) (by have := L.fits; omega) (by decide)

/-! ## Steps -/

/-- A launch, told by the frames. -/
theorem launch_step (hm : m.Ok) (h : step alu L m (.launch t) = some m') :
    m' = { cpu := launch alu L.toLabels (L.tf m.current) (L.tf t) m.cpu, current := t,
           waiting := m.current :: m.waiting.filter (· ≠ t) } ∧
      t ∈ m.waiting ∧ OnStack L m.current m.cpu := by
  simp only [step] at h
  split at h
  · rename_i hg
    obtain ⟨-, ht, hstack⟩ := hg
    rw [runningThread_eq hm.current hstack] at h
    exact ⟨(Option.some.inj h).symm, ht, hstack⟩
  · cases h

theorem System.Ok.ne (hm : m.Ok) (ht : t ∈ m.waiting) : m.current ≠ t := fun h => hm.other (h ▸ ht)

theorem step_ok (hm : m.Ok) (h : step alu L m e = some m') : m'.Ok := by
  cases e with
  | work s =>
    simp only [step] at h
    split at h
    · cases h
      exact ⟨hm.current, hm.waiting, hm.other⟩
    · cases h
  | create t function aux =>
    simp only [step] at h
    split at h
    · rename_i hg
      cases h
      refine ⟨hm.current, fun u hu => ?_, ?_⟩
      · obtain rfl | hu := List.mem_cons.mp hu
        · exact hg.1
        · exact hm.waiting u hu
      · simp only [List.mem_cons, not_or]
        exact ⟨fun h => hg.2.1 h.symm, hm.other⟩
    · cases h
  | free t =>
    simp only [step] at h
    split at h
    · cases h
      exact ⟨hm.current, fun u hu => hm.waiting u (List.mem_of_mem_filter hu), fun hc =>
        hm.other (List.mem_of_mem_filter hc)⟩
    · cases h
  | launch t =>
    obtain ⟨rfl, ht, -⟩ := launch_step hm h
    refine ⟨hm.waiting t ht, fun u hu => ?_, ?_⟩
    · obtain rfl | hu := List.mem_cons.mp hu
      · exact hm.current
      · exact hm.waiting u (List.mem_of_mem_filter hu)
    · simp [(hm.ne ht).symm]

theorem run_ok (hm : m.Ok) (h : Run.run (step alu L) m es = some m') : m'.Ok :=
  Run.run_invariant (G := fun _ _ => True) (fun _ _ _ hI _ h => step_ok hI h) hm h (Run.always_of_mem m fun _ _ _ => trivial)

/-- The thread waits, and will go on with the frame. -/
def Waits (L : Layout) (t : Word) (f : IntrFrame) (m : System) : Prop :=
  t ∈ m.waiting ∧ IntrFrame.read m.cpu.mem (L.tf t) = f

theorem createSlots_le : ∀ e ∈ createSlots L t function aux, e.off + e.size ≤ frameSize := by
  have hext : (createSlots L t function aux).map Slot.extent =
      [(176, 8), (152, 8), (72, 8), (64, 8), (128, 2), (120, 2), (184, 2), (160, 2), (168, 8)] := rfl
  have hall : ∀ e ∈ [(176, 8), (152, 8), (72, 8), (64, 8), (128, 2), (120, 2), (184, 2), (160, 2), (168, 8)],
      e.1 + e.2 ≤ frameSize := by decide
  intro e he
  exact hall e.extent (hext ▸ List.mem_map_of_mem he)

/-- A new thread's page is no other's. -/
theorem createMem_leaves (m : Mem) (ht : Aligned t) (hu : Aligned u) (hne : t ≠ u) :
    Leaves L u m (createMem L t function aux m) := fun i hi => by
  have hfits := L.fits
  have hpage : Apart t 4096 (L.tf u) frameSize := by
    have h := page_apart (j := 0) (k := 4096) ht hu hne (by decide) (by omega : L.tfOff + frameSize ≤ 4096) (by decide)
    rwa [BitVec.add_zero] at h
  have hstore : store m t 4096 0 (L.tf u + BitVec.ofNat 64 i) = m (L.tf u + BitVec.ofNat 64 i) :=
    store_off (by have := hpage.le_sub hi; omega)
  rw [createMem, fill_off (fun e he => (tf_apart L ht hu hne).not_covers hi (createSlots_le e he)) fun e he => ?_, hstore]
  have := createSlots_le e he
  simp only [frameSize] at this
  omega

/-- **A thread that waits keeps its frame**, whatever the others do. -/
theorem step_waits (hm : m.Ok) (hw : Waits L u f m) (he : e ≠ .launch u) (hf : e ≠ .free u)
    (h : step alu L m e = some m') : Waits L u f m' := by
  obtain ⟨hu, hread⟩ := hw
  cases e with
  | work s =>
    simp only [step] at h
    split at h
    · rename_i hg
      cases h
      exact ⟨hu, (read_congr (hg u hu)).trans hread⟩
    · cases h
  | create t function aux =>
    simp only [step] at h
    split at h
    · rename_i hg
      cases h
      have hne : t ≠ u := fun h => hg.2.2 (h ▸ hu)
      exact ⟨List.mem_cons_of_mem _ hu,
        (read_congr (createMem_leaves m.cpu.mem hg.1 (hm.waiting u hu) hne)).trans hread⟩
    · cases h
  | free t =>
    simp only [step] at h
    split at h
    · cases h
      have hne : u ≠ t := fun h => hf (h ▸ rfl)
      exact ⟨List.mem_filter.mpr ⟨hu, by simpa using hne⟩, hread⟩
    · cases h
  | launch t =>
    obtain ⟨rfl, ht, hstack⟩ := launch_step hm h
    have hne : u ≠ t := fun h => he (h ▸ rfl)
    obtain ⟨-, -, hoff⟩ := launch_spec alu L.toLabels hstack.room
      (tf_apart L hm.current (hm.waiting t ht) (hm.ne ht)) (hstack.apart hm.current (hm.waiting t ht) (hm.ne ht))
    refine ⟨List.mem_cons_of_mem _ (List.mem_filter.mpr ⟨hu, by simpa using hne⟩), ?_⟩
    refine (read_congr fun i hi => hoff _ ?_ ?_).trans hread
    · exact (tf_apart L hm.current (hm.waiting u hu) (hm.ne hu)).le_sub hi
    · exact (hstack.apart hm.current (hm.waiting u hu) (hm.ne hu)).le_sub hi

theorem run_waits (hm : m.Ok) (hw : Waits L u f m) (hes : ∀ e ∈ es, e ≠ .launch u ∧ e ≠ .free u)
    (h : Run.run (step alu L) m es = some m') : Waits L u f m' := by
  have hinv : m'.Ok ∧ Waits L u f m' :=
    Run.run_invariant (G := fun _ e => e ≠ .launch u ∧ e ≠ .free u) (I := fun m => m.Ok ∧ Waits L u f m)
      (fun m e m' hI he h => ⟨step_ok hI.1 h, step_waits hI.1 hI.2 he.1 he.2 h⟩) ⟨hm, hw⟩ h
      (Run.always_of_mem m fun e he _ => hes e he)
  exact hinv.2

/-! ## Two threads -/

/-- The initial thread, in the page where the loader has put its stack. -/
def first : Word := 0x8004000000

def second : Word := 0x8004001000

def twoLayout : Layout where
  next := 0x8004206000
  outIret := 0x8004206020
  kernelThread := 0x8004206100
  tfOff := 0x200
  fits := by decide

def noFlags : Alu := fun _ _ => 0

/-- Kernel code of a thread, with interrupts off. -/
def kernelAt (t v : Word) (m : Mem) : State where
  reg
    | .rsp => t + 0xf00
    | _ => v
  seg
    | .cs => selKcseg
    | _ => selKdseg
  rip := 0x8004206000
  rflags := 0
  mem := m

def alone : System := ⟨kernelAt first 7 fun _ => 0, first, []⟩

def created : System := ⟨kernelAt first 7 (createMem twoLayout second 1 2 fun _ => 0), first, [second]⟩

def away : System :=
  ⟨launch noFlags twoLayout.toLabels (twoLayout.tf first) (twoLayout.tf second) created.cpu, second, [first]⟩

/-- The second thread has changed every register. -/
def worked : System := ⟨kernelAt second 9 away.cpu.mem, second, [first]⟩

def back : System :=
  ⟨launch noFlags twoLayout.toLabels (twoLayout.tf second) (twoLayout.tf first) worked.cpu, first, [second]⟩

theorem alone_ok : alone.Ok := ⟨by decide, fun _ h => (List.not_mem_nil h).elim, by decide⟩

theorem alone_created : step noFlags twoLayout alone (.create second 1 2) = some created := by
  have hguard : Aligned second ∧ second ≠ alone.current ∧ second ∉ alone.waiting := by decide
  rw [step, if_pos hguard]
  rfl

theorem created_away : step noFlags twoLayout created (.launch second) = some away := by
  have hguard : created.cpu.rflags &&& flagIF = 0 ∧ second ∈ created.waiting ∧
      OnStack twoLayout created.current created.cpu := by decide
  have hrun : runningThread created.cpu = first := by decide
  have hrest : created.waiting.filter (· ≠ second) = [] := by decide
  rw [step, if_pos hguard, hrun, hrest]
  rfl

theorem away_worked : step noFlags twoLayout away (.work worked.cpu) = some worked := by
  have hguard : ∀ t ∈ away.waiting, Leaves twoLayout t away.cpu.mem worked.cpu.mem := fun _ _ _ _ => rfl
  rw [step, if_pos hguard]
  rfl

theorem worked_back : step noFlags twoLayout worked (.launch first) = some back := by
  have hguard : worked.cpu.rflags &&& flagIF = 0 ∧ first ∈ worked.waiting ∧
      OnStack twoLayout worked.current worked.cpu := by decide
  have hrun : runningThread worked.cpu = second := by decide
  have hrest : worked.waiting.filter (· ≠ first) = [] := by decide
  rw [step, if_pos hguard, hrun, hrest]
  rfl

/-! ## Away and back -/

/-- A thread that is launched goes on with its frame. -/
theorem launch_resumes (hm : m.Ok) (hw : Waits L t f m) (h : step alu L m (.launch t) = some m') :
    m'.current = t ∧ m'.cpu = { f.resume m.cpu with mem := m'.cpu.mem } ∧
      ∀ x, frameSize ≤ (x - L.tf m.current).toNat → scratch ≤ (x - (m.cpu.reg .rsp - 24)).toNat →
        m'.cpu.mem x = m.cpu.mem x := by
  obtain ⟨rfl, ht, hstack⟩ := launch_step hm h
  obtain ⟨hcpu, -, hoff⟩ := launch_spec alu L.toLabels hstack.room
    (tf_apart L hm.current (hm.waiting t ht) (hm.ne ht)) (hstack.apart hm.current (hm.waiting t ht) (hm.ne ht))
  rw [hw.2] at hcpu
  exact ⟨rfl, hcpu, hoff⟩

/-- The thread that is launched away waits with its registers in its frame. -/
theorem launch_waits (hm : m.Ok) (h : step alu L m (.launch t) = some m') :
    Waits L m.current (saved alu L.toLabels (L.tf m.current) m.cpu) m' := by
  obtain ⟨rfl, ht, hstack⟩ := launch_step hm h
  obtain ⟨-, hread, -⟩ := launch_spec alu L.toLabels hstack.room
    (tf_apart L hm.current (hm.waiting t ht) (hm.ne ht)) (hstack.apart hm.current (hm.waiting t ht) (hm.ne ht))
  exact ⟨List.mem_cons_self, hread⟩

theorem savedFlags_other (alu : Alu) (c : Labels) (tfCur : Word) (s : State) :
    savedFlags alu c tfCur s &&& ~~~arithFlags = s.rflags &&& ~~~arithFlags := by
  simp only [savedFlags, setArith_other]

/-- **The context switch.** A thread that is launched away in any run, and
launched again later, comes out of `thread_launch` with the registers, the
segments and the flags it went in with, the arithmetic flags apart, whatever the
other threads did. FS and GS are not saved. The launch that brings it back
writes to the frame and the stack of the thread that calls it only. -/
theorem context_switch (alu : Alu) (L : Layout) {m₀ m m₁ m₂ m₃ : System} {t : Word} {es₀ es : List Event} (h₀ : m₀.Ok)
    (hrun₀ : Run.run (step alu L) m₀ es₀ = some m) (haway : step alu L m (.launch t) = some m₁)
    (hrun : Run.run (step alu L) m₁ es = some m₂) (hes : ∀ e ∈ es, e ≠ .launch m.current ∧ e ≠ .free m.current)
    (hback : step alu L m₂ (.launch m.current) = some m₃) :
    m₃.current = m.current ∧ m₃.cpu.reg = m.cpu.reg ∧ m₃.cpu.rip = L.outIret ∧
      (∀ r, r = .fs ∨ r = .gs ∨ m₃.cpu.seg r = m.cpu.seg r) ∧
      m₃.cpu.rflags &&& ~~~arithFlags = m.cpu.rflags &&& ~~~arithFlags ∧
      ∀ x, frameSize ≤ (x - L.tf m₂.current).toNat → scratch ≤ (x - (m₂.cpu.reg .rsp - 24)).toNat →
        m₃.cpu.mem x = m₂.cpu.mem x := by
  have hm := run_ok h₀ hrun₀
  have hm₁ := step_ok hm haway
  have hw := run_waits hm₁ (launch_waits hm haway) hes hrun
  obtain ⟨hcur, hcpu, hoff⟩ := launch_resumes (run_ok hm₁ hrun) hw hback
  rw [hcpu]
  refine ⟨hcur, rfl, rfl, fun r => ?_, savedFlags_other _ _ _ _, hoff⟩
  cases r with
  | fs => exact .inl rfl
  | gs => exact .inr (.inl rfl)
  | _ => exact .inr (.inr rfl)

theorem context_switch_back :
    back.current = created.current ∧ back.cpu.reg = created.cpu.reg ∧ back.cpu.rip = twoLayout.outIret ∧
      (∀ r, r = .fs ∨ r = .gs ∨ back.cpu.seg r = created.cpu.seg r) ∧
      back.cpu.rflags &&& ~~~arithFlags = created.cpu.rflags &&& ~~~arithFlags ∧
      ∀ x, frameSize ≤ (x - twoLayout.tf worked.current).toNat → scratch ≤ (x - (worked.cpu.reg .rsp - 24)).toNat →
        back.cpu.mem x = worked.cpu.mem x :=
  have hes : ∀ e ∈ [Event.work worked.cpu], e ≠ .launch created.current ∧ e ≠ .free created.current := by simp
  context_switch noFlags twoLayout alone_ok (Run.run_cons.mpr ⟨created, alone_created, Run.run_nil⟩) created_away
    (Run.run_cons.mpr ⟨worked, away_worked, Run.run_nil⟩) hes worked_back

/-- What a new thread starts with. -/
def newFrame (L : Layout) (t function aux : Word) : IntrFrame where
  reg
    | .rdi => function
    | .rsi => aux
    | .rsp => t + 4096 - 8
    | _ => 0
  es := selKdseg
  ds := selKdseg
  vecNo := 0
  errorCode := 0
  rip := L.kernelThread
  cs := selKcseg
  eflags := flagIF
  ss := selKdseg

theorem createSlots_separate : Separate ((createSlots L t function aux).map Slot.extent) := by
  have hext : (createSlots L t function aux).map Slot.extent =
      [(176, 8), (152, 8), (72, 8), (64, 8), (128, 2), (120, 2), (184, 2), (160, 2), (168, 8)] := rfl
  rw [hext]
  decide

/-- A word of the frame that `thread_create` does not set is zero. -/
theorem word_createMem {off : Nat} (m : Mem) (hoff : off + 8 ≤ frameSize)
    (h : ∀ e ∈ createSlots L t function aux, e.off + e.size ≤ off ∨ off + 8 ≤ e.off) :
    Intr.word (createMem L t function aux m) (L.tf t) off = 0 := by
  have hfits := L.fits
  simp only [frameSize] at hoff hfits
  have hfill : load (createMem L t function aux m) (L.tf t + BitVec.ofNat 64 off) 8 =
      load (store m t 4096 0) (L.tf t + BitVec.ofNat 64 off) 8 := by
    refine load_fill_off (fun i hi e he hc => ?_) fun e he => createSlots_separate.fit _ (List.mem_map_of_mem he)
    have hgap := h e he
    obtain ⟨hlo, hhi⟩ := hc
    rw [toNat_off_sub (by omega)] at hlo hhi
    omega
  have hzero := load_store_from (m := m) (a := t) (k := 4096) (v := 0) (i := L.tfOff + off) (n := 8) (by omega) (by omega)
  rw [BitVec.ofNat_add, ← BitVec.add_assoc, Nat.zero_div, Nat.zero_mod] at hzero
  rw [Intr.word, hfill, Layout.tf, hzero]
  rfl

theorem read_createMem (L : Layout) (t function aux : Word) (m : Mem) :
    IntrFrame.read (createMem L t function aux m) (L.tf t) = newFrame L t function aux := by
  have hsep : Separate ((createSlots L t function aux).map Slot.extent) := createSlots_separate
  have hclear : ∀ off, off + 8 ≤ frameSize →
      (∀ e ∈ createSlots L t function aux, e.off + e.size ≤ off ∨ off + 8 ≤ e.off) →
      Intr.word (createMem L t function aux m) (L.tf t) off = 0 := fun off hoff h => word_createMem m hoff h
  simp only [IntrFrame.read, newFrame, IntrFrame.mk.injEq]
  refine ⟨funext fun r => ?_, half_fill 2 _ hsep ?_ (Nat.le_refl 2) (toNat_mod _),
    half_fill 2 _ hsep ?_ (Nat.le_refl 2) (toNat_mod _), hclear 136 (by decide) ?_, hclear 144 (by decide) ?_,
    word_fill hsep ?_, half_fill 2 _ hsep ?_ (Nat.le_refl 2) (toNat_mod _), word_fill hsep ?_,
    half_fill 2 _ hsep ?_ (Nat.le_refl 2) (toNat_mod _)⟩
  · cases r with
    | rdi => exact word_fill hsep (by simp [createSlots, regOffset])
    | rsi => exact word_fill hsep (by simp [createSlots, regOffset])
    | rsp => exact word_fill hsep (by simp [createSlots, regOffset])
    | _ => exact hclear _ (by decide) (by simp [createSlots, regOffset])
  all_goals simp [createSlots]

/-- **A new thread.** However long it has waited, it starts in `kernel_thread`
with its function and its argument, at the top of its own page, in the kernel's
segments and with interrupts on. -/
theorem create_starts (alu : Alu) (L : Layout) {m₀ m m₁ m₂ m₃ : System} {t function aux : Word} {es₀ es : List Event}
    (h₀ : m₀.Ok) (hrun₀ : Run.run (step alu L) m₀ es₀ = some m) (hnew : step alu L m (.create t function aux) = some m₁)
    (hrun : Run.run (step alu L) m₁ es = some m₂) (hes : ∀ e ∈ es, e ≠ .launch t ∧ e ≠ .free t)
    (hstart : step alu L m₂ (.launch t) = some m₃) :
    m₃.current = t ∧ m₃.cpu = { (newFrame L t function aux).resume m₂.cpu with mem := m₃.cpu.mem } ∧
      ∀ x, frameSize ≤ (x - L.tf m₂.current).toNat → scratch ≤ (x - (m₂.cpu.reg .rsp - 24)).toNat →
        m₃.cpu.mem x = m₂.cpu.mem x := by
  have hm := run_ok h₀ hrun₀
  have hm₁ := step_ok hm hnew
  have hw₁ : Waits L t (newFrame L t function aux) m₁ := by
    simp only [step] at hnew
    split at hnew
    · cases hnew
      exact ⟨List.mem_cons_self, read_createMem L t function aux m.cpu.mem⟩
    · cases hnew
  exact launch_resumes (run_ok hm₁ hrun) (run_waits hm₁ hw₁ hes hrun) hstart

theorem create_starts_second :
    away.current = second ∧ away.cpu = { (newFrame twoLayout second 1 2).resume created.cpu with mem := away.cpu.mem } ∧
      ∀ x, frameSize ≤ (x - twoLayout.tf first).toNat → scratch ≤ (x - (created.cpu.reg .rsp - 24)).toNat →
        away.cpu.mem x = created.cpu.mem x :=
  create_starts noFlags twoLayout alone_ok Run.run_nil alone_created Run.run_nil (fun e he => by cases he) created_away

end PintosKaist.Switch
