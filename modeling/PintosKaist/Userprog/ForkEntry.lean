/-
The frames of a fork (`process_fork` and `__do_fork`, `userprog/process.c`): the
frame of the system call is copied to `info->parent_if`, from there to the
child's stack, and the child goes to user mode with it.
-/
import PintosKaist.Userprog.SyscallEntry

namespace PintosKaist.Userprog

open X86 ByteMem Intr

variable {a p q : Addr} {m m' : Mem}

/-- `memcpy`, of ranges apart. -/
def memcpy (m : Mem) (dst src : Addr) (n : Nat) : Mem := fun x =>
  if (x - dst).toNat < n then m (src + (x - dst)) else m x

/-- `memcpy(&info->parent_if, if_, sizeof(struct intr_frame))` -/
def copyParentIf (info f : Addr) (m : Mem) : Mem := memcpy m info f frameSize

/-- `memcpy(&if_, parent_if, sizeof(struct intr_frame))` -/
def copyIf (if_ info : Addr) (m : Mem) : Mem := memcpy m if_ info frameSize

/-- `if_.R.rax = 0` -/
def clearRax (if_ : Addr) (m : Mem) : Mem := store m (if_ + 112) 8 0

/-- The bytes of the frame are the same. -/
def SameFrame (a : Addr) (m m' : Mem) : Prop := ∀ i < frameSize, m' (a + BitVec.ofNat 64 i) = m (a + BitVec.ofNat 64 i)

theorem SameFrame.read (h : SameFrame a m m') : IntrFrame.read m' a = IntrFrame.read m a := read_congr h

/-- A frame that is copied reads as it did. -/
theorem read_memcpy : IntrFrame.read (memcpy m p a frameSize) p = IntrFrame.read m a :=
  read_congr fun i hi => by
    have hsub : p + BitVec.ofNat 64 i - p = BitVec.ofNat 64 i := by ring
    have hlt : (BitVec.ofNat 64 i).toNat < frameSize := by
      rw [BitVec.toNat_ofNat]
      exact Nat.lt_of_le_of_lt (Nat.mod_le _ _) hi
    rw [memcpy, hsub, if_pos hlt]

theorem read_clearRax : IntrFrame.read (clearRax q m) q =
    { IntrFrame.read m q with reg := Function.update (IntrFrame.read m q).reg .rax 0 } := by
  have hoff : ∀ off n, off + n ≤ 112 ∨ 120 ≤ off → off + n < 2 ^ 64 → 0 < n →
      load (clearRax q m) (q + BitVec.ofNat 64 off) n = load m (q + BitVec.ofNat 64 off) n := fun off n h hfit hn =>
    load_store_apart (apart_offsets (j := 112) (by omega) hfit (by decide) hn)
  have hw : ∀ off, off + 8 ≤ 112 ∨ 120 ≤ off → off < 1000 → Intr.word (clearRax q m) q off = Intr.word m q off :=
    fun off h hn => by rw [Intr.word, Intr.word, hoff off 8 h (by omega) (by decide)]
  have hh : ∀ off, off + 2 ≤ 112 ∨ 120 ≤ off → off < 1000 → Intr.half (clearRax q m) q off = Intr.half m q off :=
    fun off h hn => by rw [Intr.half, Intr.half, hoff off 2 h (by omega) (by decide)]
  simp (disch := decide) only [IntrFrame.read, hw, hh, IntrFrame.mk.injEq, and_true]
  funext r
  cases r with
  | rax =>
    have hzero : load (clearRax q m) (q + 112) 8 = 0 := by
      rw [clearRax, load_store (Nat.le_refl 8) (by decide), Nat.zero_mod]
    exact congrArg (BitVec.ofNat 64) hzero
  | _ => exact hw _ (by decide) (by decide)

/-- **A fork returns twice.** The child goes to user mode after the `syscall`
of its parent, with its registers but for `rax`, which is 0, and `rcx` and
`r11`; the parent goes on there with the value that `process_fork` returns.
What runs between the copies, the scheduler and the parent with it, leaves the
copies alone. -/
theorem fork_returns_twice (alu : Alu) (c : SyscallLabels) (entry : Word) (s : State)
    (h : Placed c ((syscallMsrs entry).syscall s)) {info if_ : Addr} {m₁ m₂ m₃ : Mem} {t : State}
    (h₁ : SameFrame ((syscallEntry alu c ((syscallMsrs entry).syscall s)).reg .rdi)
      (syscallEntry alu c ((syscallMsrs entry).syscall s)).mem m₁)
    (h₂ : SameFrame info (copyParentIf info ((syscallEntry alu c ((syscallMsrs entry).syscall s)).reg .rdi) m₁) m₂)
    (h₃ : SameFrame if_ (copyIf if_ info m₂) m₃) (h₄ : SameFrame if_ (clearRax if_ m₃) t.mem) :
    doIret alu t if_ =
        { reg := Function.update (Function.update (Function.update s.reg .rax 0) .rcx 0) .r11 0
          seg := Function.update (Function.update (Function.update (Function.update t.seg .cs selUcseg) .ss selUdseg)
            .ds selUdseg) .es selUdseg
          rip := s.rip
          rflags := s.rflags
          mem := t.mem } ∧
      ∀ (s₂ : State) (tid : Word),
        IntrFrame.read s₂.mem (s₂.reg .rsp) = { syscallFrame c ((syscallMsrs entry).syscall s) with
          reg := Function.update (syscallFrame c ((syscallMsrs entry).syscall s)).reg .rax tid } →
        (syscallMsrs entry).sysretq (run alu s₂ syscallExit) =
          { reg := Function.update (Function.update (Function.update s.reg .rax tid) .rcx s.rip) .r11 s.rflags
            seg := Function.update (Function.update s₂.seg .cs selUcseg) .ss selUdseg
            rip := s.rip
            rflags := s.rflags &&& sysretFlags
            mem := s₂.mem } := by
  refine ⟨?_, fun s₂ tid hread => sysretq_frame alu c entry tid s s₂ hread⟩
  have hframe : IntrFrame.read t.mem if_ = { syscallFrame c ((syscallMsrs entry).syscall s) with
      reg := Function.update (syscallFrame c ((syscallMsrs entry).syscall s)).reg .rax 0 } := by
    rw [h₄.read, read_clearRax, h₃.read, copyIf, read_memcpy, h₂.read, copyParentIf, read_memcpy, h₁.read,
      syscallEntry_read alu h]
  rw [doIret_eq, hframe]
  simp only [IntrFrame.resume, syscallFrame_reg, State.mk.injEq, and_true]
  refine ⟨funext fun r => ?_, funext fun r => ?_, rfl, rfl⟩
  · cases r <;> rfl
  · cases r <;> rfl

/-- The handler's processor in a fork, and the child's with its copy of the
frame. -/
def forkEntry : State := syscallEntry Switch.noFlags exampleLabels ((syscallMsrs 0x8004211000).syscall atSyscall)

def childEntry : State :=
  Switch.kernelAt Switch.second 0
    (clearRax 0x8004001e00 (copyIf 0x8004001e00 0x8004300000 (copyParentIf 0x8004300000 (forkEntry.reg .rdi) forkEntry.mem)))

theorem fork_returns_twice_child :
    doIret Switch.noFlags childEntry 0x8004001e00 =
        { reg := Function.update (Function.update (Function.update atSyscall.reg .rax 0) .rcx 0) .r11 0
          seg := Function.update (Function.update (Function.update (Function.update childEntry.seg .cs selUcseg) .ss
            selUdseg) .ds selUdseg) .es selUdseg
          rip := atSyscall.rip
          rflags := atSyscall.rflags
          mem := childEntry.mem } ∧
      ∀ (s₂ : State) (tid : Word),
        IntrFrame.read s₂.mem (s₂.reg .rsp) = { syscallFrame exampleLabels ((syscallMsrs 0x8004211000).syscall atSyscall) with
          reg := Function.update (syscallFrame exampleLabels ((syscallMsrs 0x8004211000).syscall atSyscall)).reg .rax
            tid } →
        (syscallMsrs 0x8004211000).sysretq (run Switch.noFlags s₂ syscallExit) =
          { reg := Function.update (Function.update (Function.update atSyscall.reg .rax tid) .rcx atSyscall.rip) .r11
              atSyscall.rflags
            seg := Function.update (Function.update s₂.seg .cs selUcseg) .ss selUdseg
            rip := atSyscall.rip
            rflags := atSyscall.rflags &&& sysretFlags
            mem := s₂.mem } :=
  fork_returns_twice Switch.noFlags exampleLabels 0x8004211000 atSyscall atSyscall_placed (fun _ _ => rfl)
    (fun _ _ => rfl) (fun _ _ => rfl) fun _ _ => rfl

end PintosKaist.Userprog
