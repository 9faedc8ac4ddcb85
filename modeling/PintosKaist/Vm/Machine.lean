/-
Processes running over virtual memory: loads and stores of user code, the
faults they take, and the kernel's own calls, in any order.

A user access goes straight to memory when the page-table entry permits it;
otherwise it faults, and is tried again after the fault.
-/
import PintosKaist.Lib.Run
import PintosKaist.Vm.Ops

namespace PintosKaist.Vm

/-- What process `p` does next. `copyPage c p q` is one turn of the loop
of `supplemental_page_table_copy` in the child `c` of `p`, and `destroy p q` one of that of
`supplemental_page_table_kill`. -/
inductive Ev where
  | spawn
  | alloc (p : Nat) (type : VmType) (va : Nat) (writable init : Bool) (aux : Option FileInfo)
  | setupStack (p : Nat)
  | load (p addr : Nat)
  | store (p addr : Nat) (b : Byte)
  | fault (p addr rsp : Nat) (write : Bool)
  | copyPage (c p q : Nat)
  | munmap (p va : Nat)
  | destroy (p q : Nat)
  | reap (p : Nat)
  deriving DecidableEq, Repr

/-- The entry lets the access through. -/
def permits (e : Pte) (write : Bool) : Bool := e.present && (!write || e.writable)

/-- The offset of an address in its page. -/
def pgOfs (addr : Nat) : Fin pgsize := ⟨addr % pgsize, Nat.mod_lt _ (by decide)⟩

/-- The byte a load reads, when it does not fault. -/
def loadByte (s : State) (p addr : Nat) : Option Byte :=
  let e := s.pte p (addr / pgsize)
  if permits e false then some (s.mem e.kva (pgOfs addr)) else none

/-- A store that does not fault. The processor sets `PTE_D`. -/
def storeByte (s : State) (p addr : Nat) (b : Byte) : Option State :=
  let e := s.pte p (addr / pgsize)
  if permits e true then
    some ((s.setMem e.kva (Function.update (s.mem e.kva) (pgOfs addr) b)).setPte p (addr / pgsize)
      { e with dirty := true })
  else none

/-- What the event does, in a process that exists. `page_fault` takes
`not_present` from the entry. `validate_segment` and `sys_mmap` refuse page 0,
and the stack is far above it, so no page is allocated there. -/
def act (s : State) : Ev → Option State
  | .spawn => some { s with nextPid := s.nextPid + 1 }
  | .alloc p type va writable init aux =>
    if va = 0 then none else some (vmAllocPageWithInitializer s p type va writable init aux).2
  | .setupStack p => (setupStack s p).map (·.2)
  | .load p addr => (loadByte s p addr).map fun _ => s
  | .store p addr b => storeByte s p addr b
  | .fault p addr rsp write =>
    let e := s.pte p (addr / pgsize)
    if permits e write then none else (vmTryHandleFault s p addr rsp write (!e.present)).map (·.2)
  | .copyPage c p q => if q ∈ s.spt p then (copyPage s c q).map (·.2) else none
  | .munmap p va => doMunmap s p va
  | .destroy p q => if q ∈ s.spt p then vmDeallocPage (s.setSpt p ((s.spt p).erase q)) p q else none
  | .reap p => if s.spt p = [] then pml4Destroy s p else none

/-- The process that acts. -/
def Ev.pid : Ev → Option Nat
  | .spawn => none
  | .alloc p .. | .setupStack p | .load p _ | .store p .. | .fault p .. | .copyPage p .. | .munmap p _
  | .destroy p _ | .reap p => some p

def step (s : State) (e : Ev) : Option State :=
  if e.pid.all (· < s.nextPid) then act s e else none

/-- What a step does, by its event. -/
inductive Took (s : State) : Ev → State → Prop
  | spawn : Took s .spawn { s with nextPid := s.nextPid + 1 }
  | alloc {p va : Nat} {type : VmType} {writable init : Bool} {aux : Option FileInfo} (hp : p < s.nextPid) (h0 : va ≠ 0) :
    Took s (.alloc p type va writable init aux) (vmAllocPageWithInitializer s p type va writable init aux).2
  | setupStack {p : Nat} {b : Bool} {s' : State} (hp : p < s.nextPid) (h : setupStack s p = some (b, s')) :
    Took s (.setupStack p) s'
  | load {p addr : Nat} (hp : p < s.nextPid) : Took s (.load p addr) s
  | store {p addr : Nat} {b : Byte} {s' : State} (hp : p < s.nextPid) (h : storeByte s p addr b = some s') :
    Took s (.store p addr b) s'
  | fault {p addr rsp : Nat} {write b : Bool} {s' : State} (hp : p < s.nextPid)
    (hno : permits (s.pte p (addr / pgsize)) write = false)
    (h : vmTryHandleFault s p addr rsp write (!(s.pte p (addr / pgsize)).present) = some (b, s')) :
    Took s (.fault p addr rsp write) s'
  | copyPage {c p q : Nat} {b : Bool} {s' : State} (hc : c < s.nextPid) (hq : q ∈ s.spt p)
    (h : copyPage s c q = some (b, s')) : Took s (.copyPage c p q) s'
  | munmap {p va : Nat} {s' : State} (hp : p < s.nextPid) (h : doMunmap s p va = some s') : Took s (.munmap p va) s'
  | destroy {p q : Nat} {s' : State} (hp : p < s.nextPid) (hq : q ∈ s.spt p)
    (h : vmDeallocPage (s.setSpt p ((s.spt p).erase q)) p q = some s') : Took s (.destroy p q) s'
  | reap {p : Nat} {s' : State} (hp : p < s.nextPid) (hnil : s.spt p = []) (h : pml4Destroy s p = some s') :
    Took s (.reap p) s'

/-- **Every step** is one of these. -/
theorem step_took {s s' : State} {e : Ev} (hs : step s e = some s') : Took s e s' := by
  simp only [step, Option.ite_none_right_eq_some] at hs
  obtain ⟨hpid, hs⟩ := hs
  cases e with
  | spawn =>
    obtain rfl := Option.some.inj hs
    exact .spawn
  | alloc p type va writable init aux =>
    simp only [act, Option.ite_none_left_eq_some, Option.some.injEq] at hs
    obtain ⟨h0, rfl⟩ := hs
    exact .alloc (by simpa [Ev.pid] using hpid) h0
  | setupStack p =>
    obtain ⟨⟨b, t⟩, h, rfl⟩ := Option.map_eq_some_iff.mp hs
    exact .setupStack (by simpa [Ev.pid] using hpid) h
  | load p addr =>
    obtain ⟨-, -, rfl⟩ := Option.map_eq_some_iff.mp hs
    exact .load (by simpa [Ev.pid] using hpid)
  | store p addr b => exact .store (by simpa [Ev.pid] using hpid) hs
  | fault p addr rsp write =>
    simp only [act, Option.ite_none_left_eq_some] at hs
    obtain ⟨hno, hs⟩ := hs
    obtain ⟨⟨b, t⟩, h, rfl⟩ := Option.map_eq_some_iff.mp hs
    exact .fault (by simpa [Ev.pid] using hpid) (by simpa using hno) h
  | copyPage c p q =>
    simp only [act, Option.ite_none_right_eq_some] at hs
    obtain ⟨hq, hs⟩ := hs
    obtain ⟨⟨b, t⟩, h, rfl⟩ := Option.map_eq_some_iff.mp hs
    exact .copyPage (by simpa [Ev.pid] using hpid) hq h
  | munmap p va => exact .munmap (by simpa [Ev.pid] using hpid) hs
  | destroy p q =>
    simp only [act, Option.ite_none_right_eq_some] at hs
    exact .destroy (by simpa [Ev.pid] using hpid) hs.1 hs.2
  | reap p =>
    simp only [act, Option.ite_none_right_eq_some] at hs
    exact .reap (by simpa [Ev.pid] using hpid) hs.1 hs.2

/-- A store that does not fault, written out. -/
theorem storeByte_eq {s s' : State} {p addr : Nat} {b : Byte} (h : storeByte s p addr b = some s') :
    permits (s.pte p (addr / pgsize)) true = true ∧
      s' = (s.setMem (s.pte p (addr / pgsize)).kva
        (Function.update (s.mem (s.pte p (addr / pgsize)).kva) (pgOfs addr) b)).setPte p (addr / pgsize)
          { s.pte p (addr / pgsize) with dirty := true } := by
  simp only [storeByte, Option.ite_none_right_eq_some, Option.some.injEq] at h
  exact ⟨h.1, h.2.symm⟩

/-- No process yet, every frame and every slot free. -/
def boot (frames slots : Nat) (mem : Nat → Bytes) (disk : Nat → Sector) (inodes : Nat → Inode) : State where
  pages _ := none
  frames _ := none
  nextPage := 0
  nextFrame := 0
  nextPid := 0
  frameList := []
  procs _ := Proc.empty
  userPool := ⟨frames, fun _ => false⟩
  mem := mem
  swapTable := ⟨slots, fun _ => false⟩
  swapDisk := disk
  inodes := inodes

end PintosKaist.Vm
