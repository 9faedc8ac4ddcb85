/-
The segments of `load` (`userprog/process.c`): `validate_segment`, what the
`PT_LOAD` case makes of a header, and the pages that `load_segment` registers.

The header is checked in 64 bits. Its counts of bytes are of 32, and a segment
that does not fit them is loaded in part, without an error
(`segment_covered_iff`).
-/
import PintosKaist.Userprog.LoadSegment

namespace PintosKaist.Elf

open Filesys (offT)
open LazyPages LoadSegment While
open Vm (pgsize kernBase)

/-- `struct ELF64_PHDR`. -/
structure Phdr where
  pType : UInt32
  pFlags : UInt32
  pOffset : UInt64
  pVaddr : UInt64
  pPaddr : UInt64
  pFilesz : UInt64
  pMemsz : UInt64
  pAlign : UInt64
  deriving DecidableEq, Repr

/-- `PGMASK` and `PF_W`. -/
def pgmask : UInt64 := 0xfff
def pfW : UInt32 := 2

/-- `ROUND_UP (x, PGSIZE)`. -/
def roundUp (x : UInt64) : UInt64 := (x + 4096 - 1) / 4096 * 4096

/-- `is_user_vaddr`. -/
def isUserVaddr (va : UInt64) : Bool := !(kernBase ≤ va.toNat)

/-- `validate_segment`, for a file of `fileLength` bytes. -/
def validateSegment (phdr : Phdr) (fileLength : Int) : Bool :=
  if phdr.pOffset &&& pgmask ≠ phdr.pVaddr &&& pgmask then false
  else if phdr.pOffset.toNat > sizeT fileLength then false
  else if phdr.pMemsz < phdr.pFilesz then false
  else if phdr.pMemsz = 0 then false
  else if !isUserVaddr phdr.pVaddr then false
  else if !isUserVaddr (phdr.pVaddr + phdr.pMemsz) then false
  else if phdr.pVaddr + phdr.pMemsz < phdr.pVaddr then false
  else if phdr.pVaddr < 4096 then false
  else true

namespace Phdr

def writable (phdr : Phdr) : Bool := phdr.pFlags &&& pfW ≠ 0
def filePage (phdr : Phdr) : UInt64 := phdr.pOffset &&& ~~~pgmask
def memPage (phdr : Phdr) : UInt64 := phdr.pVaddr &&& ~~~pgmask
def pageOffset (phdr : Phdr) : UInt64 := phdr.pVaddr &&& pgmask

/-- `read_bytes` and `zero_bytes`. -/
def readBytes (phdr : Phdr) : UInt32 := if phdr.pFilesz > 0 then (phdr.pageOffset + phdr.pFilesz).toUInt32 else 0
def zeroBytes (phdr : Phdr) : UInt32 :=
  if phdr.pFilesz > 0 then (roundUp (phdr.pageOffset + phdr.pMemsz) - phdr.readBytes.toUInt64).toUInt32
  else (roundUp (phdr.pageOffset + phdr.pMemsz)).toUInt32

end Phdr

/-- The file of a program; `mmapLength` is what `malloc` has where
`mmap_length` is. -/
structure Exe where
  file : Nat
  length : Int
  mmapLength : Nat

/-- The call of `load_segment` for a header. -/
def callLoadSegment (x : Exe) (phdr : Phdr) (spt : Spt) : Option (Bool × Spt) :=
  loadSegment spt x.file x.mmapLength (offT phdr.filePage.toNat) phdr.memPage.toNat phdr.readBytes.toNat
    phdr.zeroBytes.toNat phdr.writable

/-- The `PT_LOAD` case of `load`; false is `goto done`. -/
def loadPtLoad (x : Exe) (phdr : Phdr) (spt : Spt) : Option (Bool × Spt) :=
  if validateSegment phdr x.length then callLoadSegment x phdr spt else some (false, spt)

/-- A page that was not in the table, and is. -/
def Registered (spt spt' : Spt) (a : Nat) : Prop := spt a = none ∧ spt' a ≠ none

/-- The pages of a segment, from `round_down (p_vaddr)` up to
`round_up (p_vaddr + p_memsz)`. -/
def Phdr.HasPage (phdr : Phdr) (a : Nat) : Prop :=
  a % pgsize = 0 ∧ phdr.pVaddr.toNat / pgsize * pgsize ≤ a ∧
    a < (phdr.pVaddr.toNat + phdr.pMemsz.toNat + pgsize - 1) / pgsize * pgsize

/-- No assertion of `load_segment` fails, and if it returns true it has
registered the pages of the segment, which are pages of user memory other than
page 0. -/
def Covered (x : Exe) (phdr : Phdr) (spt : Spt) : Prop :=
  ∃ loaded spt', callLoadSegment x phdr spt = some (loaded, spt') ∧ (loaded = true →
    (∀ a, Registered spt spt' a ↔ phdr.HasPage a) ∧ ∀ a, Registered spt spt' a → pgsize ≤ a ∧ a + pgsize ≤ kernBase)

/-- The bytes of the file and of memory that a segment takes, from the start of
its first page on. -/
def Phdr.fileEnd (phdr : Phdr) : Nat :=
  if 0 < phdr.pFilesz.toNat then phdr.pVaddr.toNat % pgsize + phdr.pFilesz.toNat else 0
def Phdr.memEnd (phdr : Phdr) : Nat :=
  (phdr.pVaddr.toNat % pgsize + phdr.pMemsz.toNat + pgsize - 1) / pgsize * pgsize

/-- Both counts of a segment fit into 32 bits. -/
def Phdr.Fits (phdr : Phdr) : Prop := phdr.fileEnd < 2 ^ 32 ∧ phdr.memEnd - phdr.fileEnd < 2 ^ 32

/-- What is left of the bytes of a segment when its counts are cut to 32 bits. -/
def Phdr.kept (phdr : Phdr) : Nat := phdr.memEnd - (phdr.memEnd - phdr.fileEnd % 2 ^ 32) / 2 ^ 32 * 2 ^ 32

/-- A page is in the way of what is left of the segment. -/
def Phdr.Taken (phdr : Phdr) (spt : Spt) : Prop :=
  ∃ a, a % pgsize = 0 ∧ phdr.pVaddr.toNat / pgsize * pgsize ≤ a ∧
    a < phdr.pVaddr.toNat / pgsize * pgsize + phdr.kept ∧ spt a ≠ none

/-! ## The arithmetic of a header -/

variable {phdr : Phdr} {spt : Spt} {x : Exe}

theorem toNat_and_pgmask (v : UInt64) : (v &&& pgmask).toNat = v.toNat % pgsize := by
  rw [UInt64.toNat_and]
  exact Nat.and_two_pow_sub_one_eq_mod v.toNat 12

theorem toNat_and_not_pgmask (v : UInt64) : (v &&& ~~~pgmask).toNat = v.toNat / pgsize * pgsize := by
  have hmask : (~~~pgmask).toNat = 2 ^ 64 - (4095 + 1) := by decide
  have hpow : pgsize = 2 ^ 12 := rfl
  refine Nat.eq_of_testBit_eq fun i => ?_
  have hlow : Nat.testBit 4095 i = decide (i < 12) := Nat.testBit_two_pow_sub_one 12 i
  rw [UInt64.toNat_and, Nat.testBit_and, hmask, Nat.testBit_two_pow_sub_succ (by decide), hpow, Nat.testBit_mul_two_pow,
    Nat.testBit_div_two_pow, hlow]
  by_cases h12 : i < 12
  · simp [h12]
  · have hge : 12 ≤ i := Nat.le_of_not_lt h12
    by_cases h64 : i < 64
    · simp [h12, hge, h64]
    · have hout : v.toNat < 2 ^ i :=
        Nat.lt_of_lt_of_le v.toNat_lt (Nat.pow_le_pow_right (by decide) (Nat.le_of_not_lt h64))
      simp [Nat.testBit_lt_two_pow hout, hge]

/-- What `validate_segment` promises. -/
structure Phdr.Valid (phdr : Phdr) (fileLength : Int) : Prop where
  offset : phdr.pOffset.toNat ≤ sizeT fileLength
  filesz_le : phdr.pFilesz.toNat ≤ phdr.pMemsz.toNat
  memsz_pos : 0 < phdr.pMemsz.toNat
  user : phdr.pVaddr.toNat + phdr.pMemsz.toNat < kernBase
  vaddr : pgsize ≤ phdr.pVaddr.toNat

theorem Phdr.valid_of_validate {fileLength : Int} (h : validateSegment phdr fileLength = true) :
    phdr.Valid fileLength := by
  have hv := phdr.pVaddr.toNat_lt
  have hm := phdr.pMemsz.toNat_lt
  have hz : (4096 : UInt64).toNat = pgsize := rfl
  simp only [validateSegment, Bool.if_false_left, Bool.and_eq_true, Bool.not_eq_true', decide_eq_false_iff_not,
    isUserVaddr, UInt64.lt_iff_toNat_lt, ← UInt64.toNat_inj, UInt64.toNat_add, hz, UInt64.toNat_zero,
    Bool.not_eq_false', decide_eq_true_eq] at h
  obtain ⟨hcongr, hofs, hle, hpos, hstart, hend, hwrap, hpage, -⟩ := h
  -- the end is a sum of two addresses, which wraps around at most once
  have hnowrap : phdr.pVaddr.toNat + phdr.pMemsz.toNat < 2 ^ 64 := by omega
  rw [Nat.mod_eq_of_lt hnowrap] at hend
  exact ⟨Nat.not_lt.mp hofs, Nat.not_lt.mp hle, Nat.pos_of_ne_zero hpos, Nat.not_le.mp hend, Nat.not_lt.mp hpage⟩

theorem toNat_roundUp {v : UInt64} (h : v.toNat < 2 ^ 63) :
    (roundUp v).toNat = (v.toNat + pgsize - 1) / pgsize * pgsize := by
  have hz : (4096 : UInt64).toNat = 4096 := rfl
  have ho : (1 : UInt64).toNat = 1 := rfl
  simp only [roundUp, UInt64.toNat_mul, UInt64.toNat_div, UInt64.toNat_sub, UInt64.toNat_add, hz, ho, pgsize]
  omega

/-- The counts, as numbers. -/
theorem Phdr.Valid.counts {fileLength : Int} (h : phdr.Valid fileLength) :
    phdr.readBytes.toNat = phdr.fileEnd % 2 ^ 32 ∧
      phdr.zeroBytes.toNat = (phdr.memEnd - phdr.fileEnd % 2 ^ 32) % 2 ^ 32 := by
  have huser := h.user
  have hle := h.filesz_le
  have hofs : phdr.pageOffset.toNat = phdr.pVaddr.toNat % pgsize := toNat_and_pgmask phdr.pVaddr
  have hz : (0 : UInt64).toNat = 0 := rfl
  have hmem : (phdr.pageOffset + phdr.pMemsz).toNat = phdr.pVaddr.toNat % pgsize + phdr.pMemsz.toNat := by
    rw [UInt64.toNat_add, hofs]
    simp only [kernBase, pgsize] at huser ⊢
    omega
  have hround : (roundUp (phdr.pageOffset + phdr.pMemsz)).toNat = phdr.memEnd := by
    rw [toNat_roundUp, hmem, Phdr.memEnd]
    rw [hmem]
    simp only [kernBase, pgsize] at huser ⊢
    omega
  have hread : phdr.readBytes.toNat = phdr.fileEnd % 2 ^ 32 := by
    simp only [Phdr.readBytes, Phdr.fileEnd, gt_iff_lt, UInt64.lt_iff_toNat_lt, hz]
    split_ifs
    · rw [UInt64.toNat_toUInt32, UInt64.toNat_add, hofs]
      simp only [kernBase, pgsize] at huser ⊢
      omega
    · rfl
  refine ⟨hread, ?_⟩
  have hlt := (roundUp (phdr.pageOffset + phdr.pMemsz)).toNat_lt
  have hend : phdr.fileEnd ≤ phdr.memEnd := by
    simp only [Phdr.fileEnd, Phdr.memEnd, pgsize]
    split_ifs <;> omega
  simp only [Phdr.zeroBytes, gt_iff_lt, UInt64.lt_iff_toNat_lt, hz]
  split_ifs with hpos
  · rw [UInt64.toNat_toUInt32, UInt64.toNat_sub, UInt32.toNat_toUInt64, hread, hround]
    rw [hround] at hlt
    omega
  · rw [UInt64.toNat_toUInt32, hround, Phdr.fileEnd, if_neg hpos]
    omega

/-- What `load_segment` is called with: a whole number of pages, which is what
is left of the segment. -/
theorem Phdr.Valid.total {fileLength : Int} (h : phdr.Valid fileLength) :
    phdr.readBytes.toNat + phdr.zeroBytes.toNat = phdr.kept ∧ phdr.kept % pgsize = 0 ∧ phdr.kept ≤ phdr.memEnd ∧
      (phdr.kept = phdr.memEnd ↔ phdr.Fits) := by
  obtain ⟨hread, hzero⟩ := h.counts
  have hle := h.filesz_le
  have hend : phdr.fileEnd ≤ phdr.memEnd := by
    simp only [Phdr.fileEnd, Phdr.memEnd, pgsize]
    split_ifs <;> omega
  have halign : phdr.memEnd % pgsize = 0 := Nat.mul_mod_left ..
  rw [hread, hzero]
  simp only [Phdr.kept, Phdr.Fits, pgsize] at halign ⊢
  omega

/-! ## The pages that `load_segment` registers -/

theorem vmAlloc_taken {va : Nat} (type : Vm.VmType) (writable : Bool) (aux : Option LazyPages.FileInfo)
    (h : va % pgsize = 0) (htaken : spt va ≠ none) :
    vmAllocPageWithInitializer spt type va writable aux = (false, spt) := by
  obtain ⟨page, hpage⟩ := Option.ne_none_iff_exists'.mp htaken
  have hinsert : ∀ page', sptInsertPage spt va page' = (false, spt) := fun page' => by
    simp only [sptInsertPage, hpage]
  simp only [vmAllocPageWithInitializer, sptFindPage, pgRoundDown_aligned h, hpage]
  split_ifs
  · cases type <;> simp only [hinsert]
  · rfl

/-- `load_segment` has registered `k` pages, of `total` bytes. -/
structure Filling (spt : Spt) (start total k : Nat) (s : LoadLoop) : Prop where
  left : s.readBytes + s.zeroBytes + k * pgsize = total
  read_lt : s.readBytes < 2 ^ 32
  zero_lt : s.zeroBytes < 2 ^ 32
  upage : s.upage = start + k * pgsize
  filled : ∀ j < k, spt (start + j * pgsize) = none ∧ s.spt (start + j * pgsize) ≠ none
  other : ∀ a, (∀ j < k, a ≠ start + j * pgsize) → s.spt a = spt a
  loaded : s.loaded = true

/-- Where it ends: at the last page, or at one that is in the way. -/
def Filled (spt : Spt) (start total : Nat) (s : LoadLoop) : Prop :=
  Filling spt start total (total / pgsize) s ∨
    s.loaded = false ∧ ∃ k < total / pgsize, spt (start + k * pgsize) ≠ none

/-- A turn takes a page of what is left. -/
theorem Filling.take {start total k : Nat} {s : LoadLoop} (h : Filling spt start total k s)
    (htotal : total % pgsize = 0) (hmore : s.More) :
    k < total / pgsize ∧ s.pageReadBytes ≤ s.readBytes ∧ s.pageZeroBytes ≤ s.zeroBytes ∧
      s.pageReadBytes + s.pageZeroBytes = pgsize := by
  have hleft := h.left
  simp only [LoadLoop.More, LoadLoop.pageZeroBytes, Segment.pageReadBytes_eq, pgsize] at htotal hmore hleft ⊢
  omega

theorem Filling.advance {start total k : Nat} {s : LoadLoop} (page : Page) (h : Filling spt start total k s)
    (htotal : total % pgsize = 0) (hend : start + total < 2 ^ 64) (hmore : s.More)
    (hnew : spt (start + k * pgsize) = none) :
    Filling spt start total (k + 1) (s.advance (Function.update s.spt s.upage (some page))) ∧
      (s.advance (Function.update s.spt s.upage (some page))).readBytes +
        (s.advance (Function.update s.spt s.upage (some page))).zeroBytes < s.readBytes + s.zeroBytes := by
  obtain ⟨hk, hread, hzero, hpage⟩ := h.take htotal hmore
  have hleft := h.left
  have hr := h.read_lt
  have hz := h.zero_lt
  have hread' : uint32 (s.readBytes - s.pageReadBytes) = s.readBytes - s.pageReadBytes := by
    unfold uint32
    omega
  have hzero' : uint32 (s.zeroBytes - s.pageZeroBytes) = s.zeroBytes - s.pageZeroBytes := by
    unfold uint32
    omega
  have hnext : sizeT (s.upage + pgsize) = start + (k + 1) * pgsize := by
    rw [h.upage]
    simp only [sizeT, pgsize] at htotal hk ⊢
    omega
  have hne : ∀ j < k, start + j * pgsize ≠ start + k * pgsize := by
    intro j hj
    simp only [pgsize]
    omega
  refine ⟨⟨?_, ?_, ?_, hnext, fun j hj => ?_, fun a ha => ?_, rfl⟩, ?_⟩
  · simp only [LoadLoop.advance, hread', hzero', Nat.add_mul]
    omega
  · simp only [LoadLoop.advance, hread']
    omega
  · simp only [LoadLoop.advance, hzero']
    omega
  · simp only [LoadLoop.advance, h.upage]
    rcases Nat.lt_succ_iff_lt_or_eq.mp hj with hj | rfl
    · rw [Function.update_of_ne (hne j hj)]
      exact h.filled j hj
    · rw [Function.update_self]
      exact ⟨hnew, by simp⟩
  · simp only [LoadLoop.advance, h.upage]
    rw [Function.update_of_ne (ha k (Nat.lt_succ_self k))]
    exact h.other a fun j hj => ha j (Nat.lt_succ_of_lt hj)
  · simp only [LoadLoop.advance, hread', hzero', pgsize] at hpage ⊢
    omega

theorem Filling.turns {file mmapLength start total : Nat} {writable : Bool} (htotal : total % pgsize = 0)
    (hstart : start % pgsize = 0) (hend : start + total < 2 ^ 64) (s : LoadLoop)
    (h : ∃ k, Filling spt start total k s) :
    Turns (loadTurn file mmapLength writable) (fun s => ∃ k, Filling spt start total k s) (Filled spt start total)
      (fun s => s.readBytes + s.zeroBytes) s := by
  obtain ⟨k, h⟩ := h
  have hleft := h.left
  by_cases hmore : s.More
  · obtain ⟨hk, hread, hzero, hpage⟩ := h.take htotal hmore
    have halign : s.upage % pgsize = 0 := by
      rw [h.upage]
      simp only [pgsize] at hstart ⊢
      omega
    have hold : s.spt s.upage = spt (start + k * pgsize) := by
      rw [h.upage]
      refine h.other _ fun j hj heq => ?_
      simp only [pgsize] at heq
      omega
    cases hnew : spt (start + k * pgsize) with
    | some page =>
      have htaken : s.spt s.upage ≠ none := by
        rw [hold, hnew]
        nofun
      have halloc := vmAlloc_taken .anon writable (some (s.aux file mmapLength writable)) halign htaken
      refine .inl ⟨{ s with loaded := false }, ?_, .inr ⟨rfl, k, hk, by rw [hnew]; simp⟩⟩
      rw [loadTurn, if_pos hmore, halloc]
    | none =>
      have halloc := vmAlloc_free writable (some (s.aux file mmapLength writable)) (.inl rfl) halign (hold.trans hnew)
      obtain ⟨hnext, hless⟩ := h.advance ⟨writable, .uninit .anon (some (s.aux file mmapLength writable))⟩ htotal hend
        hmore hnew
      exact .inr ⟨_, by rw [loadTurn, if_pos hmore, halloc], ⟨k + 1, hnext⟩, hless⟩
  · have hk : k = total / pgsize := by
      simp only [LoadLoop.More, pgsize] at hmore hleft ⊢
      omega
    exact .inl ⟨s, by rw [loadTurn, if_neg hmore], .inl (hk ▸ h)⟩

/-- **`load_segment` registers all of its pages**, unless one of them is there
already. -/
theorem loadSegment_fills {start readBytes zeroBytes : Nat} {ofs : Int} (spt : Spt) (file mmapLength : Nat)
    (writable : Bool)
    (hread : readBytes < 2 ^ 32) (hzero : zeroBytes < 2 ^ 32) (htotal : (readBytes + zeroBytes) % pgsize = 0)
    (hstart : start % pgsize = 0) (hend : start + (readBytes + zeroBytes) < 2 ^ 64) (hofs : ofs.tmod pgsize = 0) :
    (∃ spt', loadSegment spt file mmapLength ofs start readBytes zeroBytes writable = some (true, spt') ∧
        (∀ k < (readBytes + zeroBytes) / pgsize, spt (start + k * pgsize) = none ∧ spt' (start + k * pgsize) ≠ none) ∧
        ∀ a, (∀ k < (readBytes + zeroBytes) / pgsize, a ≠ start + k * pgsize) → spt' a = spt a) ∨
      (∃ spt', loadSegment spt file mmapLength ofs start readBytes zeroBytes writable = some (false, spt')) ∧
        ∃ k < (readBytes + zeroBytes) / pgsize, spt (start + k * pgsize) ≠ none := by
  have hpass : ¬ (uint32 (readBytes + zeroBytes) % pgsize ≠ 0 ∨ start % pgsize ≠ 0 ∨ ofs.tmod pgsize ≠ 0) := by
    have hw : uint32 (readBytes + zeroBytes) % pgsize = 0 := by
      simp only [uint32, pgsize] at htotal ⊢
      omega
    simp [hw, hstart, hofs]
  have hbegin : Filling spt start (readBytes + zeroBytes) 0 ⟨readBytes, zeroBytes, ofs, start, spt, true⟩ :=
    ⟨by simp, hread, hzero, by simp, fun j hj => absurd hj (Nat.not_lt_zero j), fun _ _ => rfl, rfl⟩
  have hturns : ∀ s, (∃ k, Filling spt start (readBytes + zeroBytes) k s) →
      Turns (loadTurn file mmapLength writable) (fun s => ∃ k, Filling spt start (readBytes + zeroBytes) k s)
        (Filled spt start (readBytes + zeroBytes)) (fun s => s.readBytes + s.zeroBytes) s :=
    fun s h => Filling.turns htotal hstart hend s h
  obtain ⟨s, hs, hfilled⟩ := whileLoop_ends hturns ⟨0, hbegin⟩ (Nat.lt_succ_self _)
  have hcall : loadSegment spt file mmapLength ofs start readBytes zeroBytes writable = some (s.loaded, s.spt) := by
    rw [loadSegment, if_neg hpass, hs, Option.map_some]
  rw [hcall]
  rcases hfilled with h | ⟨hloaded, htaken⟩
  · exact .inl ⟨s.spt, by rw [h.loaded], h.filled, h.other⟩
  · exact .inr ⟨⟨s.spt, by rw [hloaded]⟩, htaken⟩

/-! ## The segment -/

theorem offT_aligned {ofs : Int} (h : ofs % pgsize = 0) : offT ofs % pgsize = 0 := by
  simp only [pgsize] at h ⊢
  unfold offT
  omega

/-- The pages of `total` bytes from `start` on. -/
theorem page_of_range {start total a : Nat} (hstart : start % pgsize = 0) (htotal : total % pgsize = 0) :
    (∃ k < total / pgsize, a = start + k * pgsize) ↔ a % pgsize = 0 ∧ start ≤ a ∧ a < start + total := by
  simp only [pgsize] at hstart htotal ⊢
  constructor
  · rintro ⟨k, hk, rfl⟩
    omega
  · rintro ⟨ha, hle, hlt⟩
    exact ⟨(a - start) / 4096, by omega, by omega⟩

theorem Phdr.hasPage_iff (phdr : Phdr) (a : Nat) :
    phdr.HasPage a ↔ a % pgsize = 0 ∧ phdr.pVaddr.toNat / pgsize * pgsize ≤ a ∧
      a < phdr.pVaddr.toNat / pgsize * pgsize + phdr.memEnd := by
  simp only [Phdr.HasPage, Phdr.memEnd, pgsize]
  omega

/-- The call of `load_segment` for a header that is accepted. -/
theorem Phdr.Valid.call {fileLength : Int} (h : phdr.Valid fileLength) (x : Exe) (spt : Spt) :
    (∃ spt', callLoadSegment x phdr spt = some (true, spt') ∧ ¬ phdr.Taken spt ∧
        ∀ a, Registered spt spt' a ↔ a % pgsize = 0 ∧ phdr.pVaddr.toNat / pgsize * pgsize ≤ a ∧
          a < phdr.pVaddr.toNat / pgsize * pgsize + phdr.kept) ∨
      (∃ spt', callLoadSegment x phdr spt = some (false, spt')) ∧ phdr.Taken spt := by
  obtain ⟨htotal, halign, hle, -⟩ := h.total
  have huser := h.user
  have hmem : phdr.memPage.toNat = phdr.pVaddr.toNat / pgsize * pgsize := toNat_and_not_pgmask phdr.pVaddr
  have hfile : phdr.filePage.toNat = phdr.pOffset.toNat / pgsize * pgsize := toNat_and_not_pgmask phdr.pOffset
  have hstart : phdr.pVaddr.toNat / pgsize * pgsize % pgsize = 0 := Nat.mul_mod_left ..
  have hend : phdr.pVaddr.toNat / pgsize * pgsize + (phdr.readBytes.toNat + phdr.zeroBytes.toNat) < 2 ^ 64 := by
    rw [htotal]
    simp only [Phdr.memEnd, kernBase, pgsize] at huser hle ⊢
    omega
  have hofs : (offT phdr.filePage.toNat).tmod pgsize = 0 := by
    refine Int.tmod_eq_zero_of_dvd (Int.dvd_of_emod_eq_zero (offT_aligned ?_))
    rw [hfile]
    exact_mod_cast Nat.mul_mod_left ..
  have hcall := loadSegment_fills spt x.file x.mmapLength phdr.writable phdr.readBytes.toNat_lt phdr.zeroBytes.toNat_lt
    (htotal ▸ halign) hstart hend hofs
  rw [← hmem, htotal] at hcall
  rw [← hmem] at hstart
  rw [← hmem]
  have hrange := fun a => page_of_range (a := a) hstart halign
  have htaken : phdr.Taken spt ↔ ∃ k < phdr.kept / pgsize, spt (phdr.memPage.toNat + k * pgsize) ≠ none := by
    simp only [Phdr.Taken, ← hmem]
    constructor
    · rintro ⟨a, ha, hle, hlt, hpage⟩
      obtain ⟨k, hk, rfl⟩ := (hrange a).mpr ⟨ha, hle, hlt⟩
      exact ⟨k, hk, hpage⟩
    · rintro ⟨k, hk, hpage⟩
      obtain ⟨ha, hle, hlt⟩ := (hrange _).mp ⟨k, hk, rfl⟩
      exact ⟨_, ha, hle, hlt, hpage⟩
  rcases hcall with ⟨spt', hres, hin, hout⟩ | ⟨⟨spt', hres⟩, k, hk, hpage⟩
  · refine .inl ⟨spt', hres, ?_, fun a => ?_⟩
    · rw [htaken]
      rintro ⟨k, hk, hpage⟩
      exact hpage (hin k hk).1
    · rw [← hrange]
      constructor
      · rintro ⟨hnone, hsome⟩
        by_contra hno
        have hkeep := hout a fun k hk heq => hno ⟨k, hk, heq⟩
        exact hsome (hkeep.trans hnone)
      · rintro ⟨k, hk, rfl⟩
        exact hin k hk
  · exact .inr ⟨⟨spt', hres⟩, htaken.mpr ⟨k, hk, hpage⟩⟩

/-- **The segments that are covered**: those whose counts fit into 32 bits. Of
the others `load_segment` registers the first pages only, and returns true
unless one of these is in the way. -/
theorem segment_covered_iff (x : Exe) (spt : Spt) (h : validateSegment phdr x.length = true) :
    Covered x phdr spt ↔ phdr.Fits ∨ phdr.Taken spt := by
  have hvalid := Phdr.valid_of_validate h
  obtain ⟨-, halign, hle, hfits⟩ := hvalid.total
  rcases hvalid.call x spt with ⟨spt', hres, hfree, hpages⟩ | ⟨⟨spt', hres⟩, htaken⟩
  · rw [or_iff_left hfree, ← hfits]
    constructor
    · rintro ⟨loaded, spt₁, hres', hcovered⟩
      obtain ⟨rfl, rfl⟩ := Prod.mk.inj (Option.some.inj (hres.symm.trans hres'))
      obtain ⟨hexact, -⟩ := hcovered rfl
      by_contra hne
      -- the page after the last one that is registered
      have hmiss := (hexact (phdr.pVaddr.toNat / pgsize * pgsize + phdr.kept)).mpr ?_
      · have hlast := (hpages _).mp hmiss
        omega
      · rw [Phdr.hasPage_iff]
        simp only [pgsize] at halign ⊢
        omega
    · intro hall
      refine ⟨true, spt', hres, fun _ => ⟨fun a => ?_, fun a ha => ?_⟩⟩
      · rw [hpages, Phdr.hasPage_iff, hall]
      · have hin := (hpages a).mp ha
        have huser := hvalid.user
        have hvaddr := hvalid.vaddr
        simp only [Phdr.memEnd, kernBase, pgsize] at hall huser hvaddr hin ⊢
        omega
  · exact iff_of_true ⟨false, spt', hres, by simp⟩ (.inr htaken)

/-- The header of a segment at 0x400000. -/
def dataHeader (filesz memsz : UInt64) : Phdr where
  pType := 1
  pFlags := 6
  pOffset := 0
  pVaddr := 0x400000
  pPaddr := 0
  pFilesz := filesz
  pMemsz := memsz
  pAlign := 0x1000

/-- A program of 600 bytes. -/
def smallExe : Exe := ⟨0, 600, 0⟩

/-- Its 600 bytes and as many zeros. -/
theorem segment_covered_small : Covered smallExe (dataHeader 600 1200) fun _ => none :=
  (segment_covered_iff smallExe (fun _ => none) (by decide)).mpr (.inl ⟨by decide, by decide⟩)

/-- A segment of 4 GiB has no page at all, and is loaded. -/
theorem not_covered_huge : validateSegment (dataHeader 0 0x100000000) smallExe.length = true ∧
    ¬ Covered smallExe (dataHeader 0 0x100000000) fun _ => none := by
  refine ⟨by decide, ?_⟩
  rintro ⟨loaded, spt', hres, hcovered⟩
  have hcall : callLoadSegment smallExe (dataHeader 0 0x100000000) (fun _ => none) = some (true, fun _ => none) := rfl
  obtain ⟨rfl, rfl⟩ := Prod.mk.inj (Option.some.inj (hcall.symm.trans hres))
  have hfirst := ((hcovered rfl).1 0x400000).mpr ⟨by decide, by decide, by decide⟩
  exact hfirst.2 rfl

end PintosKaist.Elf
