/-
File descriptors (`userprog/syscall.c`, the fd-table part of
`userprog/process.c`, `filesys/file.c`): each process has a table of `MAX_FD`
slots, a slot is empty, one of the two console sentinels, or the address of a
`struct file`, and `dup_count` is meant to say how many slots hold it.

A function is `none` where the C reads freed memory or writes outside the
table. An address is never handed out twice, so a slot left behind by
`file_close` is seen for what it is. The counts do not overflow.
-/
import Mathlib.Data.Finset.Prod
import Mathlib.Data.Finset.Range
import PintosKaist.Lib.Run
import PintosKaist.Lib.Count

namespace PintosKaist.FdTable

/-- `FDT_PAGES`. -/
def fdtPages : Nat := 3

/-- `MAX_FD`: the slots `FDT_PAGES` pages hold. -/
def maxFd : Nat := fdtPages * 2 ^ 9

/-- A slot of an fd table: NULL, `STDIN` (1), `STDOUT` (2), or a file. -/
inductive Slot where
  | null
  | stdin
  | stdout
  | file (f : Nat)
  deriving DecidableEq, Repr

/-- The slot holds a `struct file`. -/
def Slot.isFile : Slot → Bool
  | .file _ => true
  | _ => false

/-- The counters of an open `struct inode`. -/
structure Inode where
  openCnt : Int
  denyWriteCnt : Int
  deriving DecidableEq, Repr

/-- `struct file`. -/
structure File where
  inode : Nat
  pos : Int
  denyWrite : Bool
  dupCount : Int
  deriving DecidableEq, Repr

/-- The descriptor part of `struct thread`. -/
structure Proc where
  fdTable : Nat → Slot
  fdIdx : Nat
  stdinCount : Int
  stdoutCount : Int

structure State where
  /-- The open files, by address; `none` is memory that is not allocated. -/
  files : Nat → Option File
  /-- Addresses from here on have not been handed out. -/
  nextFile : Nat
  inodes : Nat → Inode
  procs : Nat → Proc
  /-- The processes that have an fd table. -/
  pids : Finset Nat

/-- The slot `fd` of process `p`. -/
def State.slot (s : State) (p fd : Nat) : Slot := (s.procs p).fdTable fd

def State.setProc (s : State) (p : Nat) (pr : Proc) : State :=
  { s with procs := Function.update s.procs p pr }

/-- `fd_table[fd] = v` in process `p`. -/
def State.setSlot (s : State) (p fd : Nat) (v : Slot) : State :=
  s.setProc p { s.procs p with fdTable := Function.update (s.procs p).fdTable fd v }

def State.setFile (s : State) (f : Nat) (fl : Option File) : State :=
  { s with files := Function.update s.files f fl }

def State.setInode (s : State) (i : Nat) (ino : Inode) : State :=
  { s with inodes := Function.update s.inodes i ino }

/-! ## `filesys/file.c` -/

/-- `file_open` of an inode already counted as open: a file at position 0,
held by one slot. -/
def fileOpen (s : State) (ino : Nat) : Nat × State :=
  (s.nextFile,
    { s with
      files := Function.update s.files s.nextFile (some ⟨ino, 0, false, 1⟩)
      nextFile := s.nextFile + 1 })

/-- `inode_reopen`. -/
def inodeReopen (s : State) (i : Nat) : State :=
  s.setInode i { s.inodes i with openCnt := (s.inodes i).openCnt + 1 }

/-- `inode_close`, as far as the counters go. -/
def inodeClose (s : State) (i : Nat) : State :=
  s.setInode i { s.inodes i with openCnt := (s.inodes i).openCnt - 1 }

/-- `file_deny_write` of the file `f` holding `fl`. -/
def fileDenyWrite (s : State) (f : Nat) (fl : File) : State :=
  if fl.denyWrite then s
  else
    (s.setFile f (some { fl with denyWrite := true })).setInode fl.inode
      { s.inodes fl.inode with denyWriteCnt := (s.inodes fl.inode).denyWriteCnt + 1 }

/-- `file_allow_write`, of the file `f` holding `fl`. -/
def fileAllowWrite (s : State) (f : Nat) (fl : File) : State :=
  if fl.denyWrite then
    (s.setFile f (some { fl with denyWrite := false })).setInode fl.inode
      { s.inodes fl.inode with denyWriteCnt := (s.inodes fl.inode).denyWriteCnt - 1 }
  else s

/-- `file_duplicate`: a new file on the same inode, with the position and the
write denial of the old one, held by one slot. -/
def fileDuplicate (s : State) (fl : File) : Nat × State :=
  let (f, s₁) := fileOpen (inodeReopen s fl.inode) fl.inode
  let nfile : File := ⟨fl.inode, fl.pos, false, 1⟩
  let s₂ := s₁.setFile f (some nfile)
  (f, if fl.denyWrite then fileDenyWrite s₂ f nfile else s₂)

/-- `file_close`: the memory of `f` is free afterwards. -/
def fileClose (s : State) (f : Nat) (fl : File) : State :=
  (inodeClose (fileAllowWrite s f fl) fl.inode).setFile f none

/-! ## `userprog/syscall.c` -/

/-- The loop of `find_unused_fd`: the first empty slot from `i` on. -/
def nextFree (t : Nat → Slot) : Nat → Nat → Nat
  | 0, i => i
  | n + 1, i => if t i = .null then i else nextFree t n (i + 1)

/-- `find_unused_fd`: `fd_idx` only ever moves up, and the file goes into the
slot it stops at, if there is one. -/
def findUnusedFd (s : State) (p f : Nat) : Int × State :=
  let pr := s.procs p
  let i := nextFree pr.fdTable (maxFd - pr.fdIdx) pr.fdIdx
  let s₁ := s.setProc p { pr with fdIdx := i }
  if maxFd ≤ i then (-1, s₁) else (i, s₁.setSlot p i (.file f))

/-- `sys_open` of a name `filesys_open` resolves to the inode `ino`, or to
nothing. -/
def sysOpen (s : State) (p : Nat) (ino : Option Nat) : Int × State :=
  match ino with
  | none => (-1, s)
  | some i =>
    let (f, s₁) := fileOpen (inodeReopen s i) i
    findUnusedFd s₁ p f

/-- Closing a console sentinel costs the process one use of it. -/
def dropStd (pr : Proc) : Slot → Proc
  | .stdin => { pr with stdinCount := pr.stdinCount - 1 }
  | .stdout => { pr with stdoutCount := pr.stdoutCount - 1 }
  | _ => pr

/-- `sys_close`. -/
def sysClose (s : State) (p : Nat) (fd : Int) : Option State :=
  if fd < 0 ∨ maxFd ≤ fd then some s
  else
    let v := s.slot p fd.toNat
    let s₁ := s.setProc p (dropStd (s.procs p) v)
    match v with
    | .file f => do
      let fl ← s₁.files f
      let fl := { fl with dupCount := fl.dupCount - 1 }
      let s₂ := s₁.setFile f (some fl)
      let s₃ := if fl.dupCount = 0 then fileClose s₂ f fl else s₂
      return s₃.setSlot p fd.toNat .null
    | _ => some (s₁.setSlot p fd.toNat .null)

/-- The count `sys_dup2` raises for one more holder of `v`. -/
def shareSlot (s : State) (p : Nat) : Slot → Option State
  | .null => some s
  | .stdin => some (s.setProc p { s.procs p with stdinCount := (s.procs p).stdinCount + 1 })
  | .stdout => some (s.setProc p { s.procs p with stdoutCount := (s.procs p).stdoutCount + 1 })
  | .file f => (s.files f).map fun fl => s.setFile f (some { fl with dupCount := fl.dupCount + 1 })

/-- `sys_dup2` closes `newfd` when it is open. -/
def closeNew (s : State) (p : Nat) (newfd : Int) : Option State :=
  if s.slot p newfd.toNat = .null then some s else sysClose s p newfd

/-- `sys_dup2`. `newfd` is not checked, and a `newfd` outside the table is
a wild read. -/
def sysDup2 (s : State) (p : Nat) (oldfd newfd : Int) : Option (Int × State) :=
  if oldfd < 0 ∨ maxFd ≤ oldfd then some (-1, s)
  else if s.slot p oldfd.toNat = .null then some (-1, s)
  else if oldfd = newfd then some (newfd, s)
  else if newfd < 0 ∨ maxFd ≤ newfd then none
  else do
    let s₁ ← shareSlot s p (s.slot p oldfd.toNat)
    let s₂ ← closeNew s₁ p newfd
    return (newfd, s₂.setSlot p newfd.toNat (s₂.slot p oldfd.toNat))

/-! ## `userprog/process.c` -/

/-- `process_init`: an fd table with the console in slots 0 and 1. -/
def procInit : Proc where
  fdTable := Function.update (Function.update (fun _ => .null) 0 .stdin) 1 .stdout
  fdIdx := 2
  stdinCount := 1
  stdoutCount := 1

/-- Process `p` gets its table. -/
def processInit (s : State) (p : Nat) : State :=
  { s.setProc p procInit with pids := insert p s.pids }

/-- One turn of `process_exit`'s loop. -/
def exitFd (p : Nat) (s : State) (fd : Nat) : Option State :=
  if s.slot p fd = .null then some s
  else (sysClose s p fd).map fun s => s.setSlot p fd .null

/-- `process_exit`: every slot is closed, then the table is freed. -/
def processExit (s : State) (p : Nat) : Option State := do
  let s₁ ← Run.run (exitFd p) s (List.range maxFd)
  return { s₁ with pids := s₁.pids.erase p }

/-- One turn of `__do_fork`'s copy loop. `ok fd` says whether the allocations
of `file_duplicate` succeed at this turn. -/
def copyFd (p c : Nat) (ok : Nat → Bool) (s : State) (fd : Nat) : Option State :=
  if fd ≤ 1 then some (s.setSlot c fd (s.slot p fd))
  else
    match s.slot p fd with
    | .null => some s
    | .stdin => some (s.setSlot c fd .stdin)
    | .stdout => some (s.setSlot c fd .stdout)
    | .file f => do
      let fl ← s.files f
      if ok fd then
        let (g, s₁) := fileDuplicate s fl
        return s₁.setSlot c fd (.file g)
      else return s.setSlot c fd .null

/-- `__do_fork` from `process_init` on: the child `c` copies the table of its
parent `p`, unless the parent has used up its descriptors, and then exits. -/
def doFork (s : State) (p c : Nat) (ok : Nat → Bool) : Option State :=
  let s₁ := processInit s c
  if (s.procs p).fdIdx = maxFd then processExit s₁ c
  else do
    let s₂ ← Run.run (copyFd p c ok) s₁ (List.range maxFd)
    let pr := s₂.procs p
    return s₂.setProc c { s₂.procs c with
      fdIdx := pr.fdIdx, stdinCount := pr.stdinCount, stdoutCount := pr.stdoutCount }

/-! ## Runs -/

/-- What a process may do to descriptors. -/
inductive Event where
  | sysOpen (p : Nat) (ino : Option Nat)
  | sysDup2 (p : Nat) (oldfd newfd : Int)
  | sysClose (p : Nat) (fd : Int)
  | fork (p c : Nat) (ok : Nat → Bool)
  | processExit (p : Nat)

/-- The process that acts. -/
def Event.pid : Event → Nat
  | .sysOpen p _ | .sysDup2 p _ _ | .sysClose p _ | .fork p _ _ | .processExit p => p

/-- One system call, by a process that has a table; a child is a process that
has none. -/
def step (s : State) (e : Event) : Option State :=
  if e.pid ∉ s.pids then none
  else
    match e with
    | .sysOpen p ino => some (sysOpen s p ino).2
    | .sysDup2 p oldfd newfd => (sysDup2 s p oldfd newfd).map (·.2)
    | .sysClose p fd => sysClose s p fd
    | .fork p c ok => if c ∈ s.pids then none else doFork s p c ok
    | .processExit p => processExit s p

/-- The first process, in `initd`, before it opens anything. -/
def boot (p : Nat) : State :=
  processInit ⟨fun _ => none, 0, fun _ => ⟨0, 0⟩, fun _ => procInit, ∅⟩ p

/-- The slots of all fd tables. -/
def State.places (s : State) : Finset (Nat × Nat) := s.pids ×ˢ Finset.range maxFd

/-- The number of slots, over all processes, that hold the file `f`. -/
def State.refs (s : State) (f : Nat) : Nat :=
  Count.count s.places (fun x => s.slot x.1 x.2) (.file f)

end PintosKaist.FdTable
