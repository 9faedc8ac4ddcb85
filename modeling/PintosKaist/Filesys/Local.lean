/-
What the file system reads from the disk depends on few sectors: an inode on
its own, a directory entry and the free map on the data of their files. A write
to a file changes its data sectors only.
-/
import PintosKaist.Filesys.Volume

namespace PintosKaist.Filesys

variable {d d' : Disk} {i dir : Inode} {size offset : Int} {x n off k j : Nat} {b : Nat → Byte}

/-- Sector `x` is the same on both disks. -/
def SameOn (d d' : Disk) (x : Nat) : Prop := ∀ a, a / secBytes = x → d' a = d a

theorem SameOn.refl : SameOn d d x := fun _ _ => rfl

theorem SameOn.trans {d'' : Disk} (h : SameOn d d' x) (h' : SameOn d' d'' x) : SameOn d d'' x :=
  fun a ha => (h' a ha).trans (h a ha)

/-- A byte of the file is in a data sector. -/
theorem Inode.has_addr (h : (off : Int) < i.length) : i.Has (i.addr off / secBytes) := by
  simp only [Inode.Has, Inode.addr, secBytes, bytesToSectors, sectorSize]
  omega

theorem addr_add (i : Inode) (off k : Nat) : i.addr off + k = i.addr (off + k) := by
  simp only [Inode.addr]
  omega

/-- A write to a file leaves every sector that is not of its data. -/
theorem patch_sameOn (hx : ¬ i.Has x) (hle : ((off + n : Nat) : Int) ≤ i.length) :
    SameOn d (patch d (i.addr off) n b) x := by
  intro a ha
  simp only [patch]
  split
  · rename_i hin
    obtain ⟨k, rfl⟩ : ∃ k, a = i.addr off + k := ⟨a - i.addr off, by omega⟩
    rw [addr_add] at ha
    exact absurd (ha ▸ Inode.has_addr (by omega)) hx
  · rfl

theorem diskWrite_sameOn {sector : Nat} (hx : x ≠ sector) : SameOn d (diskWrite d sector b) x := by
  intro a ha
  rw [diskWrite, if_neg (by omega)]

/-- The zeros of a new file go to its data sectors. -/
theorem zeroSectors_sameOn {start cnt : Nat} (hx : ¬ (start ≤ x ∧ x < start + cnt)) :
    SameOn d (Volume.zeroSectors d start cnt) x := by
  have hloop : ∀ l : List Nat, (∀ i ∈ l, i < cnt) →
      SameOn d (l.foldl (fun d i => diskWrite d (start + i) fun _ => 0) d) x := by
    intro l
    induction l generalizing d with
    | nil => exact fun _ => .refl
    | cons i l ih =>
      intro hl
      have hi := hl i (by simp)
      exact (diskWrite_sameOn (by omega)).trans (ih fun i hi => hl i (by simp [hi]))
  exact hloop _ fun i hi => List.mem_range.mp hi

theorem inodeReadAt_congr (h : ∀ x, i.Has x → SameOn d d' x) (h₀ : 0 ≤ offset) (h₁ : offset < 2 ^ 31) :
    inodeReadAt d' i size offset = inodeReadAt d i size offset := by
  rw [inodeReadAt_eq h₀ h₁, inodeReadAt_eq h₀ h₁]
  refine List.map_congr_left fun k hk => ?_
  have hk := List.mem_range.mp hk
  rw [addr_add]
  refine h _ (Inode.has_addr ?_) _ rfl
  simp only [inFile] at hk
  omega

namespace Volume

/-! ## Directory entries -/

theorem entry_lt (hk : k < entryCnt dir) : ((entrySize * k + entrySize : Nat) : Int) ≤ dir.length := by
  simp only [entryCnt, entrySize] at hk ⊢
  omega

/-- The bytes of an entry are where it is on the disk. -/
theorem entryAt_byte (hk : k < entryCnt dir) (hx : x < entrySize) :
    (inodeReadAt d dir entrySize (entrySize * k : Nat)).getD x 0 = d (dir.addr (entrySize * k) + x) := by
  have hle := entry_lt hk
  have hl := dir.length_lt
  have hin : inFile dir entrySize (entrySize * k : Nat) = entrySize := by
    simp only [inFile, entrySize] at hle ⊢
    omega
  rw [inodeReadAt_eq (by omega) (by simp only [entrySize] at hle ⊢; omega), hin, Int.toNat_natCast,
    Int.toNat_natCast]
  simp [List.getD_eq_getElem?_getD, hx]

theorem entryAt_inUse (hk : k < entryCnt dir) :
    (entryAt d dir k).inUse = (d (dir.addr (entrySize * k) + 19) != 0) := by
  simp only [entryAt, entryOf, Nat.zero_add]
  rw [entryAt_byte hk (by decide)]

theorem entryAt_inodeSector (hk : k < entryCnt dir) :
    (entryAt d dir k).inodeSector = le32 d (dir.addr (entrySize * k)) := by
  simp only [entryAt, entryOf, le32, Nat.zero_add]
  rw [entryAt_byte hk (by decide), entryAt_byte hk (by decide), entryAt_byte hk (by decide), entryAt_byte hk (by decide),
    Nat.add_zero]

theorem entryAt_congr (h : ∀ x, dir.Has x → SameOn d d' x) (hk : k < entryCnt dir) :
    entryAt d' dir k = entryAt d dir k := by
  have hle := entry_lt hk
  have hl := dir.length_lt
  simp only [entryAt]
  rw [inodeReadAt_congr h (by omega) (by simp only [entrySize] at hle ⊢; omega)]

/-- The inode sector that slot `k` of the directory lists. -/
def slotOf (d : Disk) (dir : Inode) (k : Nat) : Option Nat :=
  if k < entryCnt dir ∧ (entryAt d dir k).inUse = true then some (entryAt d dir k).inodeSector else none

theorem slotOf_congr (h : ∀ x, dir.Has x → SameOn d d' x) : slotOf d' dir k = slotOf d dir k := by
  by_cases hk : k < entryCnt dir
  · simp only [slotOf, entryAt_congr h hk]
  · simp only [slotOf, hk, false_and, if_false]

/-- The slot of an entry that was written. -/
theorem slotOf_patch_self {e : DirEntry} (hk : k < entryCnt dir) (he : e.inodeSector < 2 ^ 32) :
    slotOf (patch d (dir.addr (entrySize * k)) entrySize e.bytes) dir k =
      if e.inUse then some e.inodeSector else none := by
  have hbyte : ∀ x < entrySize, patch d (dir.addr (entrySize * k)) entrySize e.bytes (dir.addr (entrySize * k) + x) =
      e.bytes x := by
    intro x hx
    rw [patch, if_pos (by omega), Nat.add_sub_cancel_left]
  have huse : (entryAt (patch d (dir.addr (entrySize * k)) entrySize e.bytes) dir k).inUse = e.inUse := by
    rw [entryAt_inUse hk, hbyte 19 (by decide)]
    cases hu : e.inUse <;> simp [DirEntry.bytes, hu]
  have hsec : (entryAt (patch d (dir.addr (entrySize * k)) entrySize e.bytes) dir k).inodeSector = e.inodeSector := by
    rw [entryAt_inodeSector hk]
    refine le32_eq he fun x hx => ?_
    rw [hbyte x (by simp only [entrySize]; omega), DirEntry.bytes, if_pos hx]
  simp only [slotOf, huse, hsec, hk, true_and]

/-- The other slots stay. -/
theorem slotOf_patch_ne {e : DirEntry} (hj : j ≠ k) :
    slotOf (patch d (dir.addr (entrySize * k)) entrySize e.bytes) dir j = slotOf d dir j := by
  by_cases hjk : j < entryCnt dir
  · have hout : ∀ x < entrySize, patch d (dir.addr (entrySize * k)) entrySize e.bytes (dir.addr (entrySize * j) + x) =
        d (dir.addr (entrySize * j) + x) := by
      intro x hx
      rw [patch, if_neg]
      simp only [Inode.addr, entrySize] at hx ⊢
      omega
    have h19 := hout 19 (by decide)
    have hle : le32 (patch d (dir.addr (entrySize * k)) entrySize e.bytes) (dir.addr (entrySize * j)) =
        le32 d (dir.addr (entrySize * j)) := by
      have h0 := hout 0 (by decide)
      simp only [Nat.add_zero] at h0
      simp only [le32, h0, hout 1 (by decide), hout 2 (by decide), hout 3 (by decide)]
    simp only [slotOf, entryAt_inUse hjk, entryAt_inodeSector hjk, h19, hle]
  · simp only [slotOf, hjk, false_and, if_false]

/-! ## The free map -/

theorem bitsOf_bitmapBytes (b : Bitmap) (a n x : Nat) (hx : x / 8 < n)
    (hd : ∀ k < n, d (a + k) = bitmapBytes b k) : bitsOf ((List.range n).map fun k => d (a + k)) x = b.bit x := by
  have hget : ((List.range n).map fun k => d (a + k)).getD (x / 8) 0 = bitmapBytes b (x / 8) := by
    simp [List.getD_eq_getElem?_getD, hx, hd]
  have hmod : x % 8 < 8 := Nat.mod_lt _ (by decide)
  rw [bitsOf, hget, bitmapBytes, BitVec.getLsbD_setWidth, BitVec.getLsbD_ofBoolListLE]
  simp [List.getD_eq_getElem?_getD, hmod, Nat.div_add_mod]

end Volume

end PintosKaist.Filesys
