/-
The supplemental page table as `load_segment` and `sys_mmap` fill it
(`vm/vm.c`): pages that `lazy_load_segment` brings in from a file at their
first fault. Allocations succeed.

Addresses are 64 bits, `off_t` is 32 bits with sign.
-/
import PintosKaist.Filesys.FileBytes
import PintosKaist.Vm.State

namespace PintosKaist.LazyPages

open Filesys Vm

/-- An address, or a `size_t`. -/
def sizeT (x : Int) : Nat := (x % 2 ^ 64).toNat

/-- A `uint32_t`. -/
def uint32 (x : Int) : Nat := (x % 2 ^ 32).toNat

/-- `pg_round_down`. -/
def pgRoundDown (va : Nat) : Nat := va - va % pgsize

/-- `struct file_info`; `file` is the inode of the reopened file. Whoever does
not set `mmap_length` leaves what `malloc` had there. -/
structure FileInfo where
  file : Nat
  ofs : Int
  upage : Nat
  readBytes : Nat
  zeroBytes : Nat
  writable : Bool
  mmapLength : Nat
  deriving DecidableEq, Repr

/-- What is in a page: nothing before its first fault, when `init` is
`lazy_load_segment` if there is an `aux` and NULL otherwise. -/
inductive Contents where
  | uninit (type : VmType) (aux : Option FileInfo)
  | resident (type : VmType) (bytes : FileBytes.Buffer)

/-- `struct page`. -/
structure Page where
  writable : Bool
  contents : Contents

/-- The hash table of a process, by `page->va`. -/
abbrev Spt := Nat → Option Page

/-- `spt_find_page`, which finds nothing at NULL. -/
def sptFindPage (spt : Spt) (va : Nat) : Option Page := if va = 0 then none else spt (pgRoundDown va)

/-- `spt_insert_page`. -/
def sptInsertPage (spt : Spt) (va : Nat) (page : Page) : Bool × Spt :=
  match spt va with
  | some _ => (false, spt)
  | none => (true, Function.update spt va (some page))

/-- `vm_alloc_page_with_initializer`. -/
def vmAllocPageWithInitializer (spt : Spt) (type : VmType) (upage : Nat) (writable : Bool) (aux : Option FileInfo) :
    Bool × Spt :=
  match sptFindPage spt upage with
  | some _ => (false, spt)
  | none =>
    match type with
    | .anon | .file => sptInsertPage spt upage ⟨writable, .uninit type aux⟩
    | .uninit | .pageCache => (false, spt)

variable {spt : Spt} {va : Nat}

theorem pgRoundDown_aligned (h : va % pgsize = 0) : pgRoundDown va = va := by
  unfold pgRoundDown
  omega

theorem sptFindPage_free (h : va % pgsize = 0) (hfree : spt va = none) : sptFindPage spt va = none := by
  unfold sptFindPage
  split
  · rfl
  · rw [pgRoundDown_aligned h, hfree]

/-- A page is allocated where there is none. -/
theorem vmAlloc_free {type : VmType} (writable : Bool) (aux : Option FileInfo) (htype : type = .anon ∨ type = .file)
    (h : va % pgsize = 0) (hfree : spt va = none) :
    vmAllocPageWithInitializer spt type va writable aux =
      (true, Function.update spt va (some ⟨writable, .uninit type aux⟩)) := by
  rcases htype with rfl | rfl <;>
    simp only [vmAllocPageWithInitializer, sptFindPage_free h hfree, sptInsertPage, hfree]

end PintosKaist.LazyPages
