/-
The exceptions that end a process (`exception_init` and `kill`,
`userprog/exception.c`), from the interrupt on.

`kill` tells a user program's exception by the code segment in the frame. The
stub for vector 12 pushes an error code though the processor has pushed one, so
in its frame the code segment is what was the instruction pointer.
-/
import PintosKaist.Threads.IntrStubs

namespace PintosKaist.Userprog

open X86 ByteMem Intr

/-- The vectors that `exception_init` registers `kill` for. -/
def killVectors : List Nat := [3, 4, 5, 0, 1, 6, 7, 11, 12, 13, 16, 19]

/-- The exceptions the processor pushes an error code for. -/
def pushesErrorCode (vec : Nat) : Bool := vec ∈ [8, 10, 11, 12, 13, 14, 17, 21, 29, 30]

/-- What `kill` does: end the process with status -1, panic, or print that the
segment is unknown and end the process with the status it has. -/
inductive KillOutcome where
  | exitMinusOne
  | panic
  | unknownSegment
deriving DecidableEq

/-- The cases of `kill`, on the code segment. -/
def killCase (cs : BitVec 16) : KillOutcome :=
  if cs = selUcseg then .exitMinusOne else if cs = selKcseg then .panic else .unknownSegment

def kill (f : IntrFrame) : KillOutcome := killCase f.cs

variable {g : Gate} {vec : Nat} {s : State}

/-- Of the vectors registered for `kill`, one has a stub that does not fit. -/
theorem stubReal_iff : ∀ vec ∈ killVectors, (stubReal vec = pushesErrorCode vec ↔ vec ≠ 12) := by decide

/-- In the frame of a stack fault the code segment is the low half of the
instruction pointer. -/
theorem stackFault_cs (alu : Alu) (ret : Word) {code : Word} (hg : g.errorCode = some code) :
    (IntrFrame.read (enter alu g 12 ret s).mem ((enter alu g 12 ret s).reg .rdi)).cs = s.rip.setWidth 16 := by
  obtain ⟨hmem, hrdi, -⟩ := enter_mem alu g 12 ret s
  rw [hmem, hrdi, read_store_below]
  generalize g.stack s - BitVec.ofNat 64 (8 * (pushedWords g 12 s).length + 136) = a
  have hext : ((pushSlots (pushedWords g 12 s)).map (Slot.shift 136) ++ entrySlots s).map Slot.extent =
      [(192, 8), (184, 8), (176, 8), (168, 8), (160, 8), (152, 8), (144, 8), (136, 8), (128, 2), (120, 2)] ++
        gpRegisters.reverse.map fun p => (p.2, 8) := by
    unfold pushedWords
    rw [hg]
    rfl
  have hsep : Separate (((pushSlots (pushedWords g 12 s)).map (Slot.shift 136) ++ entrySlots s).map Slot.extent) := by
    rw [hext]
    decide
  have hmem : (⟨160, 8, s.rip.toNat⟩ : Slot) ∈ (pushSlots (pushedWords g 12 s)).map (Slot.shift 136) ++ entrySlots s := by
    unfold pushedWords
    rw [hg]
    simp [pushSlots, Slot.shift, stubReal]
  refine half_fill 8 _ hsep hmem (by decide) ?_
  rw [BitVec.toNat_setWidth]

/-- **The exceptions of user programs.** Each ends the process with status -1,
but for the stack fault: what that does goes by the address of the instruction,
and a program whose instruction ends in 0x0008 panics the kernel. -/
theorem user_exception (alu : Alu) (g : Gate) (vec : Nat) (ret : Word) (s : State) (hvec : vec ∈ killVectors)
    (hg : g.errorCode.isSome = pushesErrorCode vec) (hs : s.seg .cs = selUcseg) :
    kill (IntrFrame.read (enter alu g vec ret s).mem ((enter alu g vec ret s).reg .rdi)) =
      if vec = 12 then killCase (s.rip.setWidth 16) else .exitMinusOne := by
  by_cases h12 : vec = 12
  · subst h12
    rw [if_pos rfl]
    obtain ⟨code, hcode⟩ := Option.isSome_iff_exists.mp (hg.trans (by decide))
    rw [kill, stackFault_cs alu ret hcode]
  · rw [if_neg h12, enter_read alu ret s (((stubReal_iff vec hvec).mpr h12).trans hg.symm)]
    simp only [kill, interrupted, hs]
    decide

/-- A push through a bad stack pointer, at an address that ends in 0x0008. -/
theorem user_exception_panics :
    kill (IntrFrame.read (enter (fun _ _ => 0) (kernelGate (some 0)) 12 0x8004208000 (userAt 0x400008)).mem
      ((enter (fun _ _ => 0) (kernelGate (some 0)) 12 0x8004208000 (userAt 0x400008)).reg .rdi)) = .panic :=
  (user_exception _ (kernelGate (some 0)) 12 _ (userAt 0x400008) (by decide) (by decide) rfl).trans (by decide)

end PintosKaist.Userprog
