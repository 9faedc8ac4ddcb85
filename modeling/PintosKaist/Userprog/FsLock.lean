/-
`filesys_lock` (`userprog/syscall.c`, `userprog/process.c`, `vm/file.c`): the
system call handlers, and the page faults, evictions and write-backs nested in
them, with every `lock_acquire` and `lock_release` where the source has it.

One thread `p` runs. What it does to memory is `Vm`, what it does to file
descriptors is `FdTable`; here both run with the lock.
-/
import PintosKaist.Userprog.FdTable
import PintosKaist.Vm.Machine

namespace PintosKaist.FsLock

/-- What a handler works on: memory, the descriptors, `user_rsp`, and whether
the thread holds `filesys_lock`. -/
structure Sys where
  vm : Vm.State
  fds : FdTable.State
  userRsp : Nat
  held : Bool

/-- How kernel code ends: it returns; `sys_exit` or `thread_exit` is called, in
the state given; `lock_acquire` is called by the holder, which fails its ASSERT;
or the kernel stops for another reason. -/
inductive Out (α : Type) where
  | ok (a : α) (s : Sys)
  | exit (s : Sys)
  | reacquire
  | stop

/-- Kernel code that returns an `α`. -/
def K (α : Type) := Sys → Out α

instance : Monad K where
  pure a s := .ok a s
  bind m f s :=
    match m s with
    | .ok a s => f a s
    | .exit s => .exit s
    | .reacquire => .reacquire
    | .stop => .stop

/-- A failed ASSERT, a PANIC, a NULL dereference, or `power_off`. -/
def stop {α : Type} : K α := fun _ => .stop

def ask {α : Type} (f : Sys → α) : K α := fun s => .ok (f s) s

/-- A pointer is followed. -/
def deref {α : Type} (o : Option α) : K α := fun s =>
  match o with
  | some a => .ok a s
  | none => .stop

/-- Code that takes no lock, on memory. -/
def onVm {α : Type} (f : Vm.State → Option (α × Vm.State)) : K α := fun s =>
  match f s.vm with
  | some (a, vm) => .ok a { s with vm := vm }
  | none => .stop

/-- The same, with nothing to return. -/
def vmDo (f : Vm.State → Option Vm.State) : K Unit := onVm fun vm => (f vm).map fun vm => ((), vm)

/-- Code that takes no lock, on descriptors. -/
def onFds {α : Type} (f : FdTable.State → Option (α × FdTable.State)) : K α := fun s =>
  match f s.fds with
  | some (a, fds) => .ok a { s with fds := fds }
  | none => .stop

/-- `lock_acquire(&filesys_lock)`, which asserts that the thread does not hold
it. A thread that waits for another holder gets it in the end. -/
def lockAcquire : K Unit := fun s => if s.held then .reacquire else .ok () { s with held := true }

/-- `lock_release(&filesys_lock)`, which asserts that the thread holds it. -/
def lockRelease : K Unit := fun s => if s.held then .ok () { s with held := false } else .stop

/-- `sys_exit` and `thread_exit`. What `process_exit` does then is
`processExit`. -/
def sysExit {α : Type} : K α := fun s => .exit s

/-! ## `vm/file.c` and `vm/vm.c` -/

/-- The write-back of `file_backed_swap_out`, `file_backed_destroy` and
`munmap_cleaner`. -/
def writeBack (p : Nat) (page : Vm.Page) (aux : Option Vm.FileInfo) : K Unit := do
  let _ ← deref aux
  if (← ask fun s => s.vm.pte p page.va).dirty then
    lockAcquire
    vmDo fun vm => Vm.writeBack vm p page aux
    lockRelease
  else pure ()

/-- `file_backed_swap_in`. The zeros after the bytes read are written with the
lock released. -/
def fileBackedSwapIn (aux : Option Vm.FileInfo) (kva : Nat) : K Bool := do
  let _ ← deref aux
  lockAcquire
  let ok ← onVm fun vm => Vm.fileBackedSwapIn vm aux kva
  lockRelease
  pure ok

/-- `swap_in(page, kva)`; `lazy_load_segment` reads the file without the
lock. -/
def swapIn (q kva : Nat) : K Bool := do
  let page ← deref (← ask fun s => s.vm.pages q)
  match page.kind with
  | .uninit type init aux => onVm fun vm => Vm.uninitInitialize vm q page type init aux
  | .anon swapIdx aux => onVm fun vm => Vm.anonSwapIn vm q page swapIdx aux kva
  | .file aux => fileBackedSwapIn aux kva

/-- `swap_out(page)`. -/
def swapOut (p q : Nat) : K Unit := do
  let page ← deref (← ask fun s => s.vm.pages q)
  match page.kind with
  | .uninit .. => stop
  | .anon _ aux => vmDo fun vm => Vm.anonSwapOut vm q page aux
  | .file aux => writeBack p page aux

/-- `vm_evict_frame`. -/
def vmEvictFrame (p : Nat) : K Nat := do
  match ← ask fun s => s.vm.frameList with
  | [] => stop
  | v :: rest => do
    let victim ← deref (← ask fun s => s.vm.frames v)
    let q ← deref victim.page
    vmDo fun vm => some { vm with frameList := rest }
    swapOut p q
    let page ← deref (← ask fun s => s.vm.pages q)
    vmDo fun vm => some ((Vm.pml4ClearPage vm p page.va).setPage q { page with frame := none })
    pure v

/-- `vm_get_frame`. -/
def vmGetFrame (p : Nat) : K Nat := do
  match ← ask fun s => s.vm.userPool.scanAndFlip with
  | some (kva, pool) =>
    onVm fun vm => some (Vm.pushFrame { vm.setMem kva Vm.zeroPage with userPool := pool } kva)
  | none => do
    let v ← vmEvictFrame p
    onVm fun vm => (vm.frames v).map fun victim => Vm.pushFrame (vm.freeFrame v) victim.kva

/-- `vm_do_claim_page` up to `swap_in`: the links and the page-table entry. -/
def linkPage (p q f : Nat) (vm : Vm.State) : Option (Nat × Vm.State) := do
  let frame ← vm.frames f
  let page ← vm.pages q
  some (frame.kva, Vm.pml4SetPage (Vm.linkFrame vm q page f frame) p page.va frame.kva page.writable)

/-- `vm_do_claim_page`. -/
def vmDoClaimPage (p q : Nat) : K Bool := do
  let f ← vmGetFrame p
  let kva ← onVm (linkPage p q f)
  swapIn q kva

/-- `vm_claim_page`. -/
def vmClaimPage (p addr : Nat) : K Bool := do
  match ← ask fun s => Vm.sptFindPage s.vm p addr with
  | none => pure false
  | some q => vmDoClaimPage p q

/-- `vm_try_handle_fault` with `not_present` set, as the address checks call
it. The kernel's own accesses never fault on a present page: `CR0.WP` is
clear. -/
def vmTryHandleFault (p addr : Nat) : K Bool := do
  if Vm.kernBase ≤ addr then pure false
  else
    match ← ask fun s => Vm.sptFindPage s.vm p addr with
    | some q => vmDoClaimPage p q
    | none => do
      let rsp ← ask fun s => s.userRsp
      if Vm.inStackWindow addr rsp then
        vmDo fun vm => some (Vm.vmAllocPage vm p .anon (addr / Vm.pgsize) true).2
        pure true
      else pure false

/-! ## Leaving -/

/-- `file_backed_destroy`. -/
def fileBackedDestroy (p q : Nat) (page : Vm.Page) (aux : Option Vm.FileInfo) : K Unit := do
  writeBack p page aux
  match page.frame with
  | none => vmDo fun vm => some (Vm.pml4ClearPage vm p page.va)
  | some f => do
    let frame ← deref (← ask fun s => s.vm.frames f)
    vmDo fun vm => Vm.pallocFreePage vm frame.kva
    vmDo fun vm => some (Vm.pml4ClearPage ((vm.freeFrame f).setPage q { page with frame := none }) p page.va)

/-- `destroy(page)`. -/
def destroy (p q : Nat) (page : Vm.Page) : K Unit :=
  match page.kind with
  | .uninit .. => pure ()
  | .anon swapIdx _ => vmDo fun vm => Vm.anonDestroy vm p page swapIdx
  | .file aux => fileBackedDestroy p q page aux

/-- `vm_dealloc_page` of a page that has left the table. -/
def vmDeallocPage (p q : Nat) : K Unit := do
  let page ← deref (← ask fun s => s.vm.pages q)
  destroy p q page
  vmDo fun vm => some (vm.freePage q)

/-- The loop of `hash_clear`. -/
def killLoop (p : Nat) : List Nat → K Unit
  | [] => pure ()
  | q :: qs => do
    vmDo fun vm => some (vm.setSpt p ((vm.spt p).erase q))
    vmDeallocPage p q
    killLoop p qs

/-- `process_cleanup`: `supplemental_page_table_kill`, then `pml4_destroy`. -/
def processCleanup (p : Nat) : K Unit := do
  killLoop p (← ask fun s => s.vm.spt p)
  vmDo fun vm => Vm.pml4Destroy vm p

/-- `process_exit`. -/
def processExit (p : Nat) : K Unit := do
  onFds fun fds => (FdTable.processExit fds p).map fun fds => ((), fds)
  processCleanup p

/-! ## User memory -/

/-- What happens to memory while the kernel runs code that takes no lock: it
loads from or stores to an address the user gave it, and in between other
processes run and the file system writes its disk, leaving memory and disks
`vm`. -/
inductive Access where
  | load (addr : Nat)
  | store (addr : Nat) (b : Vm.Byte)
  | other (vm : Vm.State)

/-- The access to a page that is present. The processor sets `PTE_D`. -/
def storeByte (p addr : Nat) (b : Vm.Byte) (vm : Vm.State) : Vm.State :=
  let e := vm.pte p (addr / Vm.pgsize)
  (vm.setMem e.kva (Function.update (vm.mem e.kva) (Vm.pgOfs addr) b)).setPte p (addr / Vm.pgsize)
    { e with dirty := true }

/-- The page at `addr` is present: `pml4_get_page` is not NULL. -/
def present (vm : Vm.State) (p addr : Nat) : Bool := (vm.pte p (addr / Vm.pgsize)).present

/-- An access at `addr`: kernel memory does not fault. A fault that
`vm_try_handle_fault` refuses makes `kill` panic, and one it handles has the
access tried again. -/
def touch (p addr : Nat) (f : Vm.State → Vm.State) : K Unit := do
  if Vm.kernBase ≤ addr then pure ()
  else if ← ask fun s => present s.vm p addr then vmDo fun vm => some (f vm)
  else if ← vmTryHandleFault p addr then pure ()
  else stop

def access (p : Nat) : Access → K Unit
  | .load addr => touch p addr id
  | .store addr b => touch p addr (storeByte p addr b)
  | .other vm => vmDo fun _ => some vm

/-- Accesses in the order the processor tries them: one that faulted comes
again. -/
def accesses (p : Nat) : List Access → K Unit
  | [] => pure ()
  | a :: as => do
    access p a
    accesses p as

/-- A call into the file system, which takes no lock: what it does to user
memory, and its result. The theorems are about all of them. -/
structure Fs (ρ : Type) where
  acc : List Access
  result : ρ

/-! ## `userprog/syscall.c` -/

/-- `check_address`. -/
def checkAddress (p addr : Nat) : K Unit := do
  if addr = 0 ∨ Vm.kernBase ≤ addr then sysExit
  else if ← ask fun s => present s.vm p addr then pure ()
  else if ← vmTryHandleFault p addr then pure ()
  else sysExit

/-- One turn of `check_buffer`, at the page of number `va`. -/
def checkPage (p va : Nat) (write : Bool) : K Unit := do
  if Vm.kernBase ≤ va * Vm.pgsize then sysExit
  else if ← ask fun s => present s.vm p (va * Vm.pgsize) then
    if write then pure ()
    else do
      let q ← deref (← ask fun s => Vm.sptFindPage s.vm p (va * Vm.pgsize))
      let page ← deref (← ask fun s => s.vm.pages q)
      if !(← ask fun s => s.vm.pte p va).writable && !page.writable then sysExit else pure ()
  else if ← vmTryHandleFault p (va * Vm.pgsize) then pure ()
  else sysExit

/-- The loop of `check_buffer`. -/
def checkPages (p : Nat) (write : Bool) : List Nat → K Unit
  | [] => pure ()
  | va :: vas => do
    checkPage p va write
    checkPages p write vas

/-- The pages `check_buffer` visits; `buffer + size - 1` is computed on 64
bits. -/
def bufferPages (buffer size : Nat) : List Nat :=
  let start := buffer / Vm.pgsize
  let last := (2 ^ 64 + buffer + size - 1) % 2 ^ 64 / Vm.pgsize
  List.range' start (last + 1 - start)

/-- `check_buffer`. -/
def checkBuffer (p buffer size : Nat) (write : Bool) : K Unit := checkPages p write (bufferPages buffer size)

/-- The slot `fd` of the thread. -/
def slot (p : Nat) (fd : Int) (s : Sys) : FdTable.Slot := s.fds.slot p fd.toNat

/-- A file-system call made with the lock. -/
def locked {ρ : Type} (p : Nat) (fs : Fs ρ) : K ρ := do
  lockAcquire
  accesses p fs.acc
  lockRelease
  pure fs.result

/-- `sys_create`. -/
def sysCreate (p file : Nat) (fs : Fs Bool) : K Bool := do
  lockAcquire
  checkAddress p file
  if file = 0 then sysExit
  else do
    accesses p fs.acc
    lockRelease
    pure fs.result

/-- `sys_remove`. -/
def sysRemove (p file : Nat) (fs : Fs Bool) : K Bool := do
  checkAddress p file
  locked p fs

/-- `sys_open` before it takes the lock: whether it goes on to
`filesys_open`. `strcmp` reads the name. -/
def openChecks (p file : Nat) (name : List Access) : K Bool := do
  checkAddress p file
  if file = 0 then pure false
  else do
    accesses p name
    let b ← deref (← ask fun s => Vm.loadByte s.vm p file)
    pure (b != 0)

/-- `sys_open`; `fs.result` is the inode of the name. -/
def sysOpen (p file : Nat) (name : List Access) (fs : Fs (Option Nat)) : K Int := do
  if ← openChecks p file name then
    lockAcquire
    accesses p fs.acc
    match fs.result with
    | none => do
      lockRelease
      pure (-1)
    | some ino => do
      let fd ← onFds fun fds => some (FdTable.sysOpen fds p (some ino))
      lockRelease
      pure fd
  else pure (-1)

/-- `sys_read` before it takes the lock: what it returns, unless it goes on to
`file_read`. `console` is the filling of the buffer from the keyboard. -/
def readChecks (p : Nat) (fd : Int) (buffer size : Nat) (console : List Access) : K (Option Int) := do
  if size = 0 then pure (some 0)
  else do
    checkBuffer p buffer size false
    if fd < 0 ∨ FdTable.maxFd ≤ fd then pure (some (-1))
    else
      match ← ask (slot p fd) with
      | .stdin =>
        if (← ask fun s => (s.fds.procs p).stdinCount) ≠ 0 then do
          accesses p console
          pure (some size)
        else pure (some (-1))
      | .null | .stdout => pure (some (-1))
      | .file _ => pure none

/-- `sys_read`. -/
def sysRead (p : Nat) (fd : Int) (buffer size : Nat) (console : List Access) (fs : Fs Int) : K Int := do
  match ← readChecks p fd buffer size console with
  | some r => pure r
  | none => locked p fs

/-- `sys_write` before it takes the lock; `console` is `putbuf` reading the
buffer. `process_get_file` hands out a sentinel in a slot above 1 as if it were a
file, and `file_write` then reads through it. -/
def writeChecks (p : Nat) (fd : Int) (buffer size : Nat) (console : List Access) : K (Option Int) := do
  checkBuffer p buffer size true
  if fd < 0 ∨ FdTable.maxFd ≤ fd then pure (some (-1))
  else do
    let v ← ask (slot p fd)
    if v = .stdout ∧ (← ask fun s => (s.fds.procs p).stdoutCount) ≠ 0 then do
      accesses p console
      pure (some size)
    else if fd < 2 then pure (some (-1))
    else
      match v with
      | .null => pure (some (-1))
      | .stdin | .stdout => stop
      | .file _ => pure none

/-- `sys_write`. -/
def sysWrite (p : Nat) (fd : Int) (buffer size : Nat) (console : List Access) (fs : Fs Int) : K Int := do
  match ← writeChecks p fd buffer size console with
  | some r => pure r
  | none => locked p fs

/-- `sys_close`, which takes no lock. -/
def sysClose (p : Nat) (fd : Int) : K Unit :=
  onFds fun fds => (FdTable.sysClose fds p fd).map fun fds => ((), fds)

/-- `sys_dup2` closes `newfd`, with the lock, when it is open. -/
def closeNew (p : Nat) (newfd : Int) : K Unit := do
  if (← ask (slot p newfd)) = .null then pure ()
  else do
    lockAcquire
    sysClose p newfd
    lockRelease

/-- `sys_dup2`. -/
def sysDup2 (p : Nat) (oldfd newfd : Int) : K Int := do
  if oldfd < 0 ∨ FdTable.maxFd ≤ oldfd then pure (-1)
  else do
    let v ← ask (slot p oldfd)
    if v = .null then pure (-1)
    else if oldfd = newfd then pure newfd
    else if newfd < 0 ∨ FdTable.maxFd ≤ newfd then stop
    else do
      onFds fun fds => (FdTable.shareSlot fds p v).map fun fds => ((), fds)
      closeNew p newfd
      onFds fun fds => some ((), fds.setSlot p newfd.toNat (fds.slot p oldfd.toNat))
      pure newfd

/-- `file_length` of the file in a slot; a sentinel is no address of one. -/
def fileLength (p : Nat) (fd : Int) : K Nat := do
  match ← ask (slot p fd) with
  | .file f => do
    let fl ← deref (← ask fun s => s.fds.files f)
    ask fun s => (s.vm.inodes fl.inode).data.length
  | _ => stop

/-- `sys_filesize`. -/
def sysFilesize (p : Nat) (fd : Int) : K Int := do
  if fd < 0 ∨ FdTable.maxFd ≤ fd then pure (-1)
  else if (← ask (slot p fd)) = .null then pure (-1)
  else do
    let n ← fileLength p fd
    pure n

/-- `sys_seek`. -/
def sysSeek (p : Nat) (fd : Int) (position : Nat) : K Unit := do
  if fd < 0 ∨ FdTable.maxFd ≤ fd then pure ()
  else
    match ← ask (slot p fd) with
    | .file f => do
      let length ← fileLength p fd
      onFds fun fds => (fds.files f).map fun fl =>
        ((), fds.setFile f (some { fl with pos := min position length }))
    | _ => pure ()

/-- `sys_tell`. -/
def sysTell (p : Nat) (fd : Int) : K Int := do
  if fd < 0 ∨ FdTable.maxFd ≤ fd then pure (-1)
  else
    match ← ask (slot p fd) with
    | .null => pure (-1)
    | .file f => do
      let fl ← deref (← ask fun s => s.fds.files f)
      pure fl.pos
    | _ => stop

/-- One turn of the loop of `sys_mmap`, `do_mmap`: the page `va` of the mapping,
`length` bytes of the file from `ofs` on. -/
def doMmap (p va length : Nat) (writable : Bool) (file ofs mmapLength : Nat) : K Bool :=
  onVm fun vm => some (Vm.vmAllocPageWithInitializer vm p .file va writable true
    (some ⟨file, ofs, va, length, Vm.pgsize - length, writable, mmapLength⟩))

/-- The loop of `sys_mmap` over what is left to map. -/
def mmapLoop (p : Nat) (writable : Bool) (file mmapLength : Nat) : List (Nat × Nat × Nat) → K Bool
  | [] => pure true
  | (va, length, ofs) :: rest => do
    if ← doMmap p va length writable file ofs mmapLength then mmapLoop p writable file mmapLength rest
    else pure false

/-- The pages of a mapping, each with the bytes it maps and their offset. -/
def mmapPages (va length ofs : Nat) : List (Nat × Nat × Nat) :=
  (List.range ((length + Vm.pgsize - 1) / Vm.pgsize)).map fun i =>
    (va + i, min (length - i * Vm.pgsize) Vm.pgsize, ofs + i * Vm.pgsize)

/-- `sys_mmap`; the result is whether it is not `MAP_FAILED`. -/
def sysMmap (p addr length : Nat) (writable : Bool) (fd : Int) (ofs : Nat) : K Bool := do
  if addr = 0 ∨ Vm.kernBase ≤ addr ∨ addr % Vm.pgsize ≠ 0 then pure false
  else if fd < 2 ∨ FdTable.maxFd ≤ fd then pure false
  else
    match ← ask (slot p fd) with
    | .null => pure false
    | .stdin | .stdout => stop
    | .file f => do
      let fl ← deref (← ask fun s => s.fds.files f)
      if ofs % Vm.pgsize ≠ 0 then pure false
      else do
        let filesize ← fileLength p fd
        let pages := mmapPages (addr / Vm.pgsize) length ofs
        if filesize = 0 ∨ length = 0 ∨ addr < length then pure false
        else if ← ask fun s => pages.any fun x => (Vm.sptFindPage s.vm p (x.1 * Vm.pgsize)).isSome then pure false
        else mmapLoop p writable fl.inode length pages

/-- `do_munmap`. -/
def doMunmap (p addr : Nat) : K Unit := do
  let q ← deref (← ask fun s => Vm.sptFindPage s.vm p addr)
  let page ← deref (← ask fun s => s.vm.pages q)
  vmDo fun vm => some (vm.setSpt p ((vm.spt p).erase q))
  let aux := match page.kind with
    | .file aux => aux
    | .uninit _ _ aux => aux
    | .anon _ aux => aux
  writeBack p page aux
  vmDo fun vm => some (Vm.pml4ClearPage vm p (addr / Vm.pgsize))

/-- The loop of `sys_munmap`. -/
def munmapLoop (p : Nat) : List Nat → K Unit
  | [] => pure ()
  | addr :: addrs => do
    doMunmap p addr
    munmapLoop p addrs

/-- `sys_munmap`. It takes the page for a file-backed one; of another page it
reads `garbage` for `mmap_length`. -/
def sysMunmap (p addr garbage : Nat) : K Unit := do
  let q ← deref (← ask fun s => Vm.sptFindPage s.vm p addr)
  let page ← deref (← ask fun s => s.vm.pages q)
  let length := match page.kind with
    | .file (some fi) => fi.mmapLength
    | _ => garbage
  munmapLoop p ((List.range ((length + Vm.pgsize - 1) / Vm.pgsize)).map (addr + · * Vm.pgsize))

/-- An executable: what `filesys_open` and the ELF headers say, and the stores
of the arguments to the new stack. -/
structure Image where
  opened : Bool
  /-- The pages of the segments read before a header was refused. -/
  segments : List (Nat × Bool × Vm.FileInfo)
  valid : Bool
  stack : List Access

/-- The loops of `load_segment`. -/
def loadSegments (p : Nat) : List (Nat × Bool × Vm.FileInfo) → K Bool
  | [] => pure true
  | (va, writable, fi) :: rest => do
    if ← onVm fun vm => some (Vm.vmAllocPageWithInitializer vm p .anon va writable true (some fi)) then
      loadSegments p rest
    else pure false

/-- `setup_stack`. -/
def setupStack (p : Nat) : K Bool := do
  let stackBottom := Vm.userStack / Vm.pgsize - 1
  if ← onVm fun vm => some (Vm.vmAllocPage vm p .anon stackBottom true) then
    vmClaimPage p (stackBottom * Vm.pgsize)
  else pure false

/-- `load`. -/
def load (p : Nat) (img : Image) : K Bool := do
  lockAcquire
  lockRelease
  if !img.opened then pure false
  else if !(← loadSegments p img.segments) then pure false
  else if !img.valid then pure false
  else if !(← setupStack p) then pure false
  else do
    accesses p img.stack
    pure true

/-- `process_exec`: whether it got as far as the new program. It opens the file
once more to deny writes to it. -/
def processExec (p : Nat) (img : Image) : K Bool := do
  processCleanup p
  if ← load p img then
    lockAcquire
    lockRelease
    pure true
  else pure false

/-- `sys_exec`; `name` is `strlen` and `strlcpy` reading the command line. -/
def sysExec (p file : Nat) (name : List Access) (img : Image) : K Unit := do
  checkAddress p file
  accesses p name
  if ← processExec p img then pure () else sysExit

/-- A system call with its arguments, and what the file system, the console and
the other processes do during it. -/
inductive Call where
  | halt
  | exit
  | fork (name : List Access)
  | exec (file : Nat) (name : List Access) (img : Image)
  | wait
  | create (file : Nat) (fs : Fs Bool)
  | remove (file : Nat) (fs : Fs Bool)
  | «open» (file : Nat) (name : List Access) (fs : Fs (Option Nat))
  | filesize (fd : Int)
  | read (fd : Int) (buffer size : Nat) (console : List Access) (fs : Fs Int)
  | write (fd : Int) (buffer size : Nat) (console : List Access) (fs : Fs Int)
  | seek (fd : Int) (position : Nat)
  | tell (fd : Int)
  | close (fd : Int)
  | dup2 (oldfd newfd : Int)
  | mmap (addr length : Nat) (writable : Bool) (fd : Int) (ofs : Nat)
  | munmap (addr garbage : Nat)
  | unknown

/-- `syscall_handler`. `process_fork` reads the name of the child, and
`process_wait` touches no user memory. -/
def syscallHandler (p : Nat) : Call → K Unit
  | .halt => stop
  | .exit | .unknown => sysExit
  | .fork name => accesses p name
  | .exec file name img => sysExec p file name img
  | .wait => pure ()
  | .create file fs => do let _ ← sysCreate p file fs
  | .remove file fs => do let _ ← sysRemove p file fs
  | .open file name fs => do let _ ← sysOpen p file name fs
  | .filesize fd => do let _ ← sysFilesize p fd
  | .read fd buffer size console fs => do let _ ← sysRead p fd buffer size console fs
  | .write fd buffer size console fs => do let _ ← sysWrite p fd buffer size console fs
  | .seek fd position => sysSeek p fd position
  | .tell fd => do let _ ← sysTell p fd
  | .close fd => sysClose p fd
  | .dup2 oldfd newfd => do let _ ← sysDup2 p oldfd newfd
  | .mmap addr length writable fd ofs => do let _ ← sysMmap p addr length writable fd ofs
  | .munmap addr garbage => sysMunmap p addr garbage

end PintosKaist.FsLock
