/-
The state virtual memory works on (`include/vm/vm.h`, `vm/anon.c`,
`threads/palloc.c`): `struct page` and `struct frame` by address, the frame
list, the user pool, the swap disk, and for each process its supplemental
page table and its page table.

A freed struct is `none`, and so is every function that reads one, follows a
NULL pointer or fails an ASSERT. An address is never handed out twice, and
`r_cnt` does not overflow.
-/
import Mathlib.Data.List.FinRange
import Mathlib.Logic.Function.Basic
import PintosKaist.Lib.Bitmap

namespace PintosKaist.Vm

/-- `PGSIZE`. -/
def pgsize : Nat := 4096

/-- `DISK_SECTOR_SIZE`. -/
def diskSectorSize : Nat := 512

/-- `KERN_BASE`. -/
def kernBase : Nat := 0x8004000000

/-- `USER_STACK`. -/
def userStack : Nat := 0x47480000

abbrev Byte := BitVec 8

/-- The bytes of a page. -/
abbrev Bytes := Fin pgsize → Byte

/-- The bytes of a disk sector. -/
abbrev Sector := Fin diskSectorSize → Byte

/-- `enum vm_type`. -/
inductive VmType where
  | uninit
  | anon
  | file
  | pageCache
  deriving DecidableEq, Repr

/-- `struct file_info`; `file` is the inode the reopened file reads. -/
structure FileInfo where
  file : Nat
  ofs : Nat
  upage : Nat
  readBytes : Nat
  zeroBytes : Nat
  writable : Bool
  mmapLength : Nat
  deriving DecidableEq, Repr

/-- `page->operations` and the union behind it. `init` is `lazy_load_segment`
or NULL; an anonymous page still has the `aux` its uninit page had, since
`swap_idx` overwrites only the union's first word. `swap_idx` -1 is `none`. -/
inductive Kind where
  | uninit (type : VmType) (init : Bool) (aux : Option FileInfo)
  | anon (swapIdx : Option Nat) (aux : Option FileInfo)
  | file (aux : Option FileInfo)
  deriving DecidableEq, Repr

def Kind.isAnon : Kind → Bool
  | .anon .. => true
  | _ => false

def Kind.isFile : Kind → Bool
  | .file _ => true
  | _ => false

/-- `struct page`. `va` is a page number, so it is aligned by construction. -/
structure Page where
  va : Nat
  frame : Option Nat
  writable : Bool
  kind : Kind
  deriving DecidableEq, Repr

/-- `struct frame`. `kva` is the number of a page of the user pool. -/
structure Frame where
  kva : Nat
  page : Option Nat
  rCnt : Int
  deriving DecidableEq, Repr

/-- A page-table entry: `PTE_ADDR`, `PTE_P`, `PTE_W`, `PTE_D`. -/
structure Pte where
  kva : Nat
  present : Bool
  writable : Bool
  dirty : Bool
  deriving DecidableEq, Repr

/-- A process: the pages of its supplemental page table, in the order the hash
iterator visits them, and its pml4. -/
structure Proc where
  spt : List Nat
  pml4 : Nat → Pte
  /-- The pages whose entries `pml4_set_page` has written. -/
  mapped : List Nat

/-- A process with nothing in its tables. -/
def Proc.empty : Proc := ⟨[], fun _ => ⟨0, false, false, false⟩, []⟩

/-- A file on disk, and whether `deny_write_cnt` is positive. -/
structure Inode where
  data : List Byte
  denyWrite : Bool

structure State where
  pages : Nat → Option Page
  frames : Nat → Option Frame
  /-- Addresses from here on have not been handed out. -/
  nextPage : Nat
  nextFrame : Nat
  nextPid : Nat
  /-- `frame_table->frame_list`, front first. -/
  frameList : List Nat
  procs : Nat → Proc
  /-- `user_pool.used_map`. -/
  userPool : Bitmap
  mem : Nat → Bytes
  swapTable : Bitmap
  swapDisk : Nat → Sector
  inodes : Nat → Inode

namespace State

/-- The supplemental page table of `p`. -/
def spt (s : State) (p : Nat) : List Nat := (s.procs p).spt

/-- The page-table entry of `p` at `va`. -/
def pte (s : State) (p va : Nat) : Pte := (s.procs p).pml4 va

def setPage (s : State) (q : Nat) (page : Page) : State :=
  { s with pages := Function.update s.pages q (some page) }

def freePage (s : State) (q : Nat) : State := { s with pages := Function.update s.pages q none }

def setFrame (s : State) (f : Nat) (frame : Frame) : State :=
  { s with frames := Function.update s.frames f (some frame) }

def freeFrame (s : State) (f : Nat) : State := { s with frames := Function.update s.frames f none }

def setSpt (s : State) (p : Nat) (l : List Nat) : State :=
  { s with procs := Function.update s.procs p { s.procs p with spt := l } }

def setPte (s : State) (p va : Nat) (e : Pte) : State :=
  { s with
    procs := Function.update s.procs p { s.procs p with pml4 := Function.update (s.procs p).pml4 va e } }

def setMem (s : State) (kva : Nat) (b : Bytes) : State :=
  { s with mem := Function.update s.mem kva b }

end State

/-! ## Disks and files -/

/-- Sector `i` of the bytes of a page. -/
def sectorOf (b : Bytes) (i : Fin 8) : Sector := fun j =>
  b ⟨i * diskSectorSize + j, by have := i.2; have := j.2; simp only [pgsize, diskSectorSize] at *; omega⟩

/-- `disk_write` of the eight sectors of a page to slot `idx`. -/
def writeSlot (d : Nat → Sector) (idx : Nat) (b : Bytes) : Nat → Sector :=
  (List.finRange 8).foldl (fun d (i : Fin 8) => Function.update d (idx * 8 + i.val) (sectorOf b i)) d

/-- `disk_read` of one sector into sector `i` of a page. -/
def putSector (b : Bytes) (i : Fin 8) (sec : Sector) : Bytes := fun o =>
  if o.val / diskSectorSize = i.val then sec ⟨o.val % diskSectorSize, Nat.mod_lt _ (by decide)⟩ else b o

/-- `disk_read` of the eight sectors of slot `idx` into a page. -/
def readSlot (d : Nat → Sector) (idx : Nat) (b : Bytes) : Bytes :=
  (List.finRange 8).foldl (fun b (i : Fin 8) => putSector b i (d (idx * 8 + i.val))) b

/-- `inode_read_at`: the bytes it reads. -/
def Inode.readAt (ino : Inode) (size ofs : Nat) : List Byte := (ino.data.drop ofs).take size

/-- `inode_write_at`: a file does not grow. -/
def Inode.writeAt (ino : Inode) (b : Bytes) (size ofs : Nat) : Inode :=
  if ino.denyWrite then ino
  else { ino with data := ino.data.mapIdx fun i x =>
    if h : ofs ≤ i ∧ i < ofs + size ∧ i - ofs < pgsize then b ⟨i - ofs, h.2.2⟩ else x }

/-- `bytes` copied over the start of the page. -/
def overlay (bytes : List Byte) (b : Bytes) : Bytes := fun o => bytes.getD o (b o)

def zeroPage : Bytes := fun _ => 0

theorem readSlot_apply (d : Nat → Sector) (idx : Nat) (b : Bytes) (o : Fin pgsize) :
    readSlot d idx b o =
      d (idx * 8 + o.val / diskSectorSize) ⟨o.val % diskSectorSize, Nat.mod_lt _ (by decide)⟩ := by
  have ho : o.val / diskSectorSize < 8 := by
    have := o.2; simp only [pgsize, diskSectorSize] at *; omega
  obtain ⟨k, hk⟩ : ∃ k, o.val / diskSectorSize = k := ⟨_, rfl⟩
  rw [hk] at ho ⊢
  simp only [readSlot, List.finRange, List.ofFn, Fin.foldr, Fin.foldr.loop, List.foldl, putSector, hk]
  rcases k with _ | _ | _ | _ | _ | _ | _ | _ | k
  all_goals first | omega | simp

/-- Sector `i` of slot `idx` after the slot was written. -/
theorem writeSlot_self (d : Nat → Sector) (idx : Nat) (b : Bytes) (i : Fin 8) :
    writeSlot d idx b (idx * 8 + i.val) = sectorOf b i := by
  obtain ⟨k, hk⟩ := i
  simp only [writeSlot, List.finRange, List.ofFn, Fin.foldr, Fin.foldr.loop, List.foldl]
  rcases k with _ | _ | _ | _ | _ | _ | _ | _ | k
  all_goals first | omega | simp [Function.update]

theorem writeSlot_ne (d : Nat → Sector) {idx n : Nat} (b : Bytes) (h : n / 8 ≠ idx) :
    writeSlot d idx b n = d n := by
  simp only [writeSlot, List.finRange, List.ofFn, Fin.foldr, Fin.foldr.loop, List.foldl]
  repeat rw [Function.update_of_ne (by omega)]

/-- **A slot reads back the page that was written to it**, into any page. -/
theorem readSlot_writeSlot (d : Nat → Sector) (idx : Nat) (b b' : Bytes) :
    readSlot (writeSlot d idx b) idx b' = b := by
  funext o
  have ho : o.val / diskSectorSize < 8 := by
    have := o.2; simp only [pgsize, diskSectorSize] at *; omega
  rw [readSlot_apply, writeSlot_self d idx b ⟨o.val / diskSectorSize, ho⟩]
  simp only [sectorOf]
  congr 1
  exact Fin.ext (Nat.div_add_mod' ..)

/-- Writing one slot leaves the page another holds. -/
theorem readSlot_writeSlot_ne (d : Nat → Sector) {idx idx' : Nat} (b b' : Bytes) (h : idx' ≠ idx) :
    readSlot (writeSlot d idx b) idx' b' = readSlot d idx' b' := by
  funext o
  have ho : o.val / diskSectorSize < 8 := by
    have := o.2; simp only [pgsize, diskSectorSize] at *; omega
  rw [readSlot_apply, readSlot_apply, writeSlot_ne]
  generalize o.val / diskSectorSize = k at ho
  omega

/-- What a slot holds does not depend on the page it is read into. -/
theorem readSlot_any (d : Nat → Sector) (idx : Nat) (b b' : Bytes) : readSlot d idx b = readSlot d idx b' := by
  funext o
  rw [readSlot_apply, readSlot_apply]

end PintosKaist.Vm
