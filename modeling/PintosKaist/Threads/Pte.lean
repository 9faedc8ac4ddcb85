/-
Addresses and page-table entries (`threads/vaddr.h`, `threads/pte.h`), as
64-bit words.
-/
import Mathlib.Data.BitVec

namespace PintosKaist.Pte

/-- `uint64_t`. -/
abbrev U64 := BitVec 64

/-- `KERN_BASE`, the loader's. -/
def kernBase : U64 := 0x8004000000#64

/-- `pg_ofs`. -/
def pgOfs (va : U64) : U64 := va &&& 0xFFF#64

/-- `is_user_vaddr`. -/
def isUserVaddr (va : U64) : Prop := va.toNat < kernBase.toNat

instance (va : U64) : Decidable (isUserVaddr va) := inferInstanceAs (Decidable (_ < _))

/-- `ptov`. -/
def ptov (pa : U64) : U64 := pa + kernBase

/-- `vtop`, of a kernel address. -/
def vtop (va : U64) : U64 := va - kernBase

def pteP : U64 := 0x1#64
def pteW : U64 := 0x2#64
def pteU : U64 := 0x4#64

/-- `PTE_ADDR`. -/
def pteAddr (e : U64) : U64 := e &&& ~~~0xFFF#64

/-- An entry's `PTE_P` bit. -/
def present (e : U64) : Bool := e &&& pteP ≠ 0#64

/-- A table has entries. -/
instance neZero_entries : NeZero 512 := ⟨by decide⟩

/-- The nine index bits of an address from `shift` on. -/
def index (shift : Nat) (la : U64) : Fin 512 :=
  ⟨((la >>> shift) &&& 0x1FF#64).toNat, by
    rw [BitVec.toNat_and]
    exact Nat.lt_of_le_of_lt Nat.and_le_right (by decide)⟩

/-- `PML4`, `PDPE`, `PDX`, `PTX`. -/
def pml4 (la : U64) : Fin 512 := index 39 la
def pdpe (la : U64) : Fin 512 := index 30 la
def pdx (la : U64) : Fin 512 := index 21 la
def ptx (la : U64) : Fin 512 := index 12 la

/-- The table (or page) an entry points to, as a kernel address. -/
def child (e : U64) : U64 := ptov (pteAddr e)

/-- The entry that points to the table at kernel address `t`. -/
def tableEntry (t : U64) : U64 := vtop t ||| pteU ||| pteW ||| pteP

theorem index_val (shift : Nat) (la : U64) : (index shift la).val = la.toNat / 2 ^ shift % 512 := by
  simp only [index, BitVec.toNat_and, BitVec.toNat_ushiftRight, Nat.shiftRight_eq_div_pow]
  exact Nat.and_two_pow_sub_one_eq_mod _ 9

/-- A user address is in one of the first two of the 512 top-level regions. -/
theorem pml4_user {va : U64} (h : isUserVaddr va) : pml4 va = 0 ∨ pml4 va = 1 := by
  have hv : va.toNat < 0x8004000000 := h
  have := index_val 39 va
  simp only [pml4, Fin.ext_iff, this]
  show va.toNat / 2 ^ 39 % 512 = 0 ∨ va.toNat / 2 ^ 39 % 512 = 1
  omega

/-- In the second of them it is in the first of the 512 next-level ones, where
the kernel begins. -/
theorem pdpe_user {va : U64} (h : isUserVaddr va) (h1 : pml4 va = 1) : pdpe va = pdpe kernBase := by
  have hv : va.toNat < 0x8004000000 := h
  have h39 := index_val 39 va
  have h30 := index_val 30 va
  have h1' : (index 39 va).val = 1 := congrArg Fin.val h1
  have hk : (pdpe kernBase).val = 0 := by decide
  rw [Fin.ext_iff, hk, pdpe, h30]
  omega

theorem ptov_vtop (t : U64) : ptov (vtop t) = t := by
  simp only [ptov, vtop, BitVec.sub_add_cancel]

theorem and_of_pgOfs {x : U64} (h : pgOfs x = 0) : pteAddr x = x := by
  have hx : x &&& (~~~0xFFF#64 ||| 0xFFF#64) = x := by
    rw [show (~~~0xFFF#64 ||| 0xFFF#64) = BitVec.allOnes 64 by decide, BitVec.and_allOnes]
  rw [BitVec.and_or_distrib_left] at hx
  unfold pgOfs at h
  rw [h] at hx
  simpa [pteAddr] using hx

/-- Flag bits do not change the address of an entry. -/
theorem pteAddr_or {x f : U64} (h : pgOfs x = 0) (hf : pteAddr f = 0) : pteAddr (x ||| f) = x := by
  rw [← and_of_pgOfs h]
  unfold pteAddr at hf ⊢
  rw [BitVec.and_comm, BitVec.and_or_distrib_left, BitVec.and_comm _ f, hf]
  rw [BitVec.and_comm _ (x &&& _), BitVec.and_assoc, BitVec.and_self]
  simp

/-- `vtop` keeps the page offset: `KERN_BASE` is a page address. -/
theorem pgOfs_vtop {x : U64} (h : pgOfs x = 0) : pgOfs (vtop x) = 0 := by
  have hmod (y : U64) : (pgOfs y).toNat = y.toNat % 4096 := by
    rw [pgOfs, BitVec.toNat_and]
    exact Nat.and_two_pow_sub_one_eq_mod _ 12
  have hx : x.toNat % 4096 = 0 := by rw [← hmod, h]; rfl
  apply BitVec.eq_of_toNat_eq
  rw [hmod, vtop, BitVec.toNat_sub]
  have hk : kernBase.toNat = 0x8004000000 := rfl
  rw [hk]
  show (2 ^ 64 - 0x8004000000 + x.toNat) % 2 ^ 64 % 4096 = 0
  omega

theorem child_tableEntry {t : U64} (h : pgOfs t = 0) : child (tableEntry t) = t := by
  have : tableEntry t = vtop t ||| (pteU ||| pteW ||| pteP) := by simp only [tableEntry, BitVec.or_assoc]
  rw [child, this, pteAddr_or (pgOfs_vtop h) (by decide), ptov_vtop]

theorem present_or {x f : U64} (h : present f = true) : present (x ||| f) = true := by
  have hf : f &&& pteP ≠ 0#64 := by simpa [present] using h
  simp only [present, ne_eq, decide_not, Bool.not_eq_true', decide_eq_false_iff_not]
  rw [BitVec.and_comm, BitVec.and_or_distrib_left, BitVec.and_comm _ f]
  intro h0
  have := (BitVec.or_eq_zero_iff.mp h0).2
  exact hf this

theorem present_tableEntry (t : U64) : present (tableEntry t) = true := present_or (by decide)

end PintosKaist.Pte
