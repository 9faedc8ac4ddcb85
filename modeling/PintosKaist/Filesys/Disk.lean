/-
The file-system disk, byte by byte: `inode_read_at` and `inode_write_at` over
it (`filesys/inode.c`), and the on-disk inode.

The data of a file is one extent, so what the two functions do, chunk by chunk,
is to read or write a run of bytes of the disk (`inodeReadAt_eq`,
`inodeWriteAt_eq`).
-/
import PintosKaist.Filesys.Inode

namespace PintosKaist.Filesys

abbrev Byte := BitVec 8

/-- `DISK_SECTOR_SIZE`, as a number of bytes. -/
def secBytes : Nat := 512

/-- The bytes of the disk: those of sector `n` from `n * 512` on. -/
abbrev Disk := Nat → Byte

/-- `disk_write`. -/
def diskWrite (d : Disk) (sector : Nat) (b : Nat → Byte) : Disk := fun a =>
  if a / secBytes = sector then b (a % secBytes) else d a

/-- The disk with `n` bytes of `b` from address `a` on: a sector that is written
in part is read before. -/
def patch (d : Disk) (a n : Nat) (b : Nat → Byte) : Disk := fun x =>
  if a ≤ x ∧ x < a + n then b (x - a) else d x

/-- What the loop of `inode_read_at` copies out. -/
def readChunks (d : Disk) (cs : List Chunk) : List Byte :=
  cs.flatMap fun c => (List.range c.size.toNat).map fun k => d (c.sector * secBytes + c.ofs.toNat + k)

/-- The bytes `inode_read_at` reads. -/
def inodeReadAt (d : Disk) (i : Inode) (size offset : Int) : List Byte := readChunks d (chunks i size offset)

/-- The loop of `inode_write_at` on a disk of `n` sectors, `done` bytes of the
buffer written. A negative `sector_ofs` writes before the bounce buffer, and a
sector that is not on the disk fails. -/
def writeChunks (n : Nat) (buf : Nat → Byte) : Disk → Nat → List Chunk → Option Disk
  | d, _, [] => some d
  | d, done, c :: cs =>
    if c.ofs < 0 ∨ n ≤ c.sector then none
    else
      writeChunks n buf (patch d (c.sector * secBytes + c.ofs.toNat) c.size.toNat fun k => buf (done + k))
        (done + c.size.toNat) cs

/-- `inode_write_at`: the bytes written, and the disk. -/
def inodeWriteAt (n : Nat) (d : Disk) (i : Inode) (buf : Nat → Byte) (size offset : Int) : Option (Int × Disk) :=
  (writeChunks n buf d 0 (chunks i size offset)).map fun d => (bytesDone (chunks i size offset), d)

/-- The address of byte `offset` of the file. -/
def Inode.addr (i : Inode) (offset : Nat) : Nat := i.start * secBytes + offset

variable {i : Inode} {size offset : Int} {fuel n done : Nat} {d : Disk} {buf : Nat → Byte}

theorem patch_zero (d : Disk) (a : Nat) (b : Nat → Byte) : patch d a 0 b = d := by
  funext x
  simp only [patch]
  rw [if_neg (by omega)]

/-- Two patches in a row. -/
theorem patch_patch (d : Disk) (a m n : Nat) (b : Nat → Byte) :
    patch (patch d a m b) (a + m) n (fun k => b (m + k)) = patch d a (m + n) b := by
  funext x
  simp only [patch]
  by_cases h₁ : a + m ≤ x ∧ x < a + m + n
  · rw [if_pos h₁, if_pos (by omega)]
    congr 1
    omega
  · rw [if_neg h₁]
    by_cases h₂ : a ≤ x ∧ x < a + m
    · rw [if_pos h₂, if_pos (by omega)]
    · rw [if_neg h₂, if_neg (by omega)]

/-! ## The extent of a file is a run of bytes -/

/-- The number of bytes from a given offset on that are in the file. -/
def inFile (i : Inode) (size offset : Int) : Int := max 0 (min size (i.length - offset))

theorem chunkAt_addr (size : Int) (h₀ : 0 ≤ offset) (h : offset < i.length) :
    (chunkAt i size offset).sector * secBytes + (chunkAt i size offset).ofs.toNat = i.addr offset.toNat ∧
      0 ≤ (chunkAt i size offset).ofs := by
  have hfit := i.fits
  have hdiv : offset.tdiv sectorSize = offset / 512 := Int.tdiv_eq_ediv_of_nonneg h₀
  have hmod : offset.tmod sectorSize = offset % 512 := Int.tmod_eq_emod_of_nonneg h₀
  simp only [chunkAt, byteToSector, if_pos h, hdiv, hmod, Inode.addr, secBytes]
  simp only [bytesToSectors, sectorSize] at hfit
  omega

/-- A turn of the loop moves on by the bytes of it that are in the file, and
the sector. -/
theorem chunkAt_size (i : Inode) (size : Int) (h₀ : 0 ≤ offset) (h₁ : offset < 2 ^ 31) :
    (chunkAt i size offset).size = min size (min (i.length - offset) (512 - offset % 512)) := by
  have hl₀ := i.length_nonneg
  have hl₁ := i.length_lt
  have hw : offT (i.length - offset) = i.length - offset := offT_of_range (by omega) (by omega)
  have hmod : offset.tmod sectorSize = offset % 512 := Int.tmod_eq_emod_of_nonneg h₀
  simp only [chunkAt, hw, hmod, min_def]
  simp only [sectorSize]
  split_ifs <;> omega

/-- A turn of the loop that copies something: it stays in the file, and the
rest starts where it ends. -/
structure Turn (i : Inode) (size offset c : Int) : Prop where
  lt : offset < i.length
  next : offT (offset + c) = offset + c
  next_nonneg : 0 ≤ offset + c
  next_lt : offset + c < 2 ^ 31
  rest : (size - c).toNat < size.toNat
  inFile : inFile i size offset = c + inFile i (size - c) (offset + c)
  addr : i.addr (offset + c).toNat = i.addr offset.toNat + c.toNat

theorem turn_of_pos (h₀ : 0 ≤ offset) (h₁ : offset < 2 ^ 31) (hc : 0 < size ∧ 0 < (chunkAt i size offset).size) :
    Turn i size offset (chunkAt i size offset).size := by
  have hs := chunkAt_size i size h₀ h₁
  have hend : offset + (chunkAt i size offset).size ≤ i.length := chunkAt_le h₀ h₁
  have hl₁ := i.length_lt
  refine ⟨by omega, offT_of_range (by omega) (by omega), by omega, by omega, by omega, ?_, ?_⟩
  · simp only [inFile]
    omega
  · simp only [Inode.addr]
    omega

/-- The loop ends when nothing is left in the file. -/
theorem inFile_of_stop (h₀ : 0 ≤ offset) (h₁ : offset < 2 ^ 31)
    (hc : ¬ (0 < size ∧ 0 < (chunkAt i size offset).size)) : inFile i size offset = 0 := by
  have hs := chunkAt_size i size h₀ h₁
  simp only [inFile]
  omega

theorem inFile_nonneg : 0 ≤ inFile i size offset := Int.le_max_left ..

theorem inFile_of_toNat_zero (h : size.toNat ≤ 0) : inFile i size offset = 0 := by
  simp only [inFile]
  omega

/-- What holds of no chunks when nothing is left in the file, and is kept by a
turn of the loop, holds of the chunks of a read or a write. -/
theorem chunkLoop_induction {P : Int → Int → List Chunk → Prop}
    (stop : ∀ size offset, inFile i size offset = 0 → P size offset [])
    (turn : ∀ size offset cs, 0 ≤ offset → 0 < (chunkAt i size offset).size →
      Turn i size offset (chunkAt i size offset).size →
      P (size - (chunkAt i size offset).size) (offset + (chunkAt i size offset).size) cs →
      P size offset (chunkAt i size offset :: cs))
    (h₀ : 0 ≤ offset) (h₁ : offset < 2 ^ 31) (hf : size.toNat ≤ fuel) :
    P size offset (chunkLoop i fuel size offset) := by
  induction fuel generalizing size offset with
  | zero => exact stop size offset (inFile_of_toNat_zero hf)
  | succ fuel ih =>
    simp only [chunkLoop]
    split
    · rename_i hc
      have ht := turn_of_pos h₀ h₁ hc
      have hrest := ht.rest
      rw [ht.next]
      exact turn size offset _ h₀ hc.2 ht (ih ht.next_nonneg ht.next_lt (by omega))
    · rename_i hc
      exact stop size offset (inFile_of_stop h₀ h₁ hc)

theorem bytesDone_chunks (h₀ : 0 ≤ offset) (h₁ : offset < 2 ^ 31) :
    bytesDone (chunks i size offset) = inFile i size offset := by
  refine chunkLoop_induction (P := fun size offset cs => bytesDone cs = inFile i size offset)
    (fun size offset hzero => ?_) (fun size offset cs _ _ ht ih => ?_) h₀ h₁ (Nat.le_refl _)
  · rw [hzero]
    rfl
  · rw [ht.inFile, ← ih]
    simp only [bytesDone, List.map_cons, List.sum_cons]

/-- The file is on the disk of `n` sectors. -/
def Inode.On (i : Inode) (n : Nat) : Prop := i.start + bytesToSectors i.length ≤ n

theorem writeChunks_chunks (hn : i.On n) (h₀ : 0 ≤ offset) (h₁ : offset < 2 ^ 31) :
    writeChunks n buf d done (chunks i size offset) =
      some (patch d (i.addr offset.toNat) (inFile i size offset).toNat fun k => buf (done + k)) := by
  refine chunkLoop_induction
    (P := fun size offset cs => ∀ d done, writeChunks n buf d done cs =
      some (patch d (i.addr offset.toNat) (inFile i size offset).toNat fun k => buf (done + k)))
    (fun size offset hzero d done => ?_) (fun size offset cs h₀ hpos ht ih d done => ?_) h₀ h₁ (Nat.le_refl _) d done
  · rw [hzero, Int.toNat_zero, patch_zero]
    rfl
  · obtain ⟨haddr, hofs⟩ := chunkAt_addr size h₀ ht.lt
    have hin : (chunkAt i size offset).sector < n := Nat.lt_of_lt_of_le (has_byteToSector h₀ ht.lt).2 hn
    have hpass : ¬ ((chunkAt i size offset).ofs < 0 ∨ n ≤ (chunkAt i size offset).sector) := by omega
    have hsum : (inFile i size offset).toNat = (chunkAt i size offset).size.toNat +
        (inFile i (size - (chunkAt i size offset).size) (offset + (chunkAt i size offset).size)).toNat := by
      rw [ht.inFile, Int.toNat_add (by omega) inFile_nonneg]
    simp only [writeChunks, if_neg hpass]
    rw [ih, haddr, ht.addr, hsum, ← patch_patch]
    simp only [Nat.add_assoc]

/-- **`inode_write_at` writes the bytes of the file from `offset` on**, as many
of them as the file has, and no others. -/
theorem inodeWriteAt_eq (hn : i.On n) (h₀ : 0 ≤ offset) (h₁ : offset < 2 ^ 31) :
    inodeWriteAt n d i buf size offset =
      some (inFile i size offset, patch d (i.addr offset.toNat) (inFile i size offset).toNat buf) := by
  rw [inodeWriteAt, bytesDone_chunks h₀ h₁, writeChunks_chunks hn h₀ h₁]
  simp

/-- **`inode_read_at` reads the bytes of the file from `offset` on.** -/
theorem inodeReadAt_eq (h₀ : 0 ≤ offset) (h₁ : offset < 2 ^ 31) :
    inodeReadAt d i size offset = (List.range (inFile i size offset).toNat).map fun k => d (i.addr offset.toNat + k) := by
  refine chunkLoop_induction
    (P := fun size offset cs => readChunks d cs =
      (List.range (inFile i size offset).toNat).map fun k => d (i.addr offset.toNat + k))
    (fun size offset hzero => ?_) (fun size offset cs h₀ hpos ht ih => ?_) h₀ h₁ (Nat.le_refl _)
  · rw [hzero]
    rfl
  · obtain ⟨haddr, -⟩ := chunkAt_addr size h₀ ht.lt
    rw [ht.inFile, Int.toNat_add (by omega) inFile_nonneg, List.range_add, List.map_append]
    simp only [readChunks, List.flatMap_cons] at ih ⊢
    rw [ih, haddr, ht.addr, List.map_map]
    simp only [Function.comp_def, Nat.add_assoc]

/-! ## `struct inode_disk` -/

/-- Four bytes, the low one first. -/
def le32 (d : Disk) (a : Nat) : Nat :=
  (d a).toNat + 2 ^ 8 * (d (a + 1)).toNat + 2 ^ 16 * (d (a + 2)).toNat + 2 ^ 24 * (d (a + 3)).toNat

/-- Byte `k` of a 32-bit value. -/
def byteOf (v k : Nat) : Byte := BitVec.ofNat 8 (v / 2 ^ (8 * k))

/-- `INODE_MAGIC`. -/
def inodeMagic : Nat := 0x494e4f44

/-- The bytes of the `struct inode_disk` that `inode_create` writes. -/
def inodeDisk (start : Nat) (length : Int) : Nat → Byte := fun k =>
  if k < 4 then byteOf start k
  else if k < 8 then byteOf (length % 2 ^ 32).toNat (k - 4)
  else if k < 12 then byteOf inodeMagic (k - 8)
  else 0

/-- The inode a sector holds. Other bytes than those of an inode are not read as
one: their length or extent is out of range. -/
def readInode (d : Disk) (sector : Nat) : Option Inode :=
  let start := le32 d (sector * secBytes)
  let length := offT (le32 d (sector * secBytes + 4))
  if h : 0 ≤ length ∧ length < 2 ^ 31 ∧ start + bytesToSectors length ≤ 2 ^ 32 then
    some ⟨start, length, h.1, h.2.1, h.2.2⟩
  else none

theorem le32_eq {v a : Nat} (hv : v < 2 ^ 32) (h : ∀ k < 4, d (a + k) = byteOf v k) : le32 d a = v := by
  have h0 := h 0 (by omega)
  have h1 := h 1 (by omega)
  have h2 := h 2 (by omega)
  have h3 := h 3 (by omega)
  simp only [le32, Nat.add_zero] at h0 ⊢
  rw [h0, h1, h2, h3]
  simp only [byteOf, BitVec.toNat_ofNat]
  omega

/-- Byte `k` of sector `sector` after it was written. -/
theorem diskWrite_self (sector : Nat) (b : Nat → Byte) {k : Nat} (hk : k < secBytes) :
    diskWrite d sector b (sector * secBytes + k) = b k := by
  have hdiv : (sector * secBytes + k) / secBytes = sector := by
    simp only [secBytes] at hk ⊢
    omega
  have hmod : (sector * secBytes + k) % secBytes = k := by
    simp only [secBytes] at hk ⊢
    omega
  rw [diskWrite, if_pos hdiv, hmod]

/-- An inode reads back as it was written. -/
theorem readInode_diskWrite (sector : Nat) (hs : i.start < 2 ^ 32) :
    readInode (diskWrite d sector (inodeDisk i.start i.length)) sector = some i := by
  have hl₀ := i.length_nonneg
  have hl₁ := i.length_lt
  have hstart : le32 (diskWrite d sector (inodeDisk i.start i.length)) (sector * secBytes) = i.start := by
    refine le32_eq hs fun k hk => ?_
    rw [diskWrite_self sector _ (by simp only [secBytes]; omega), inodeDisk, if_pos hk]
  have hlength : le32 (diskWrite d sector (inodeDisk i.start i.length)) (sector * secBytes + 4) =
      (i.length % 2 ^ 32).toNat := by
    refine le32_eq (by omega) fun k hk => ?_
    rw [Nat.add_assoc, diskWrite_self sector _ (by simp only [secBytes]; omega), inodeDisk, if_neg (by omega),
      if_pos (by omega), Nat.add_sub_cancel_left]
  have hoff : offT (((i.length % 2 ^ 32).toNat : Nat) : Int) = i.length := by
    unfold offT
    omega
  have hok : 0 ≤ i.length ∧ i.length < 2 ^ 31 ∧ i.start + bytesToSectors i.length ≤ 2 ^ 32 := ⟨hl₀, hl₁, i.fits⟩
  simp only [readInode, hstart, hlength, hoff, dif_pos hok]

/-- What a sector holds as an inode depends on its bytes only. -/
theorem readInode_congr {d' : Disk} {sector : Nat} (h : ∀ a, a / secBytes = sector → d' a = d a) :
    readInode d' sector = readInode d sector := by
  have hbyte : ∀ k < secBytes, d' (sector * secBytes + k) = d (sector * secBytes + k) := by
    intro k hk
    refine h _ ?_
    simp only [secBytes] at hk ⊢
    omega
  have hle : ∀ k, k + 3 < secBytes → le32 d' (sector * secBytes + k) = le32 d (sector * secBytes + k) := by
    intro k hk
    simp only [le32, Nat.add_assoc]
    rw [hbyte k (by omega), hbyte (k + 1) (by omega), hbyte (k + 2) (by omega), hbyte (k + 3) hk]
  have h0 := hle 0 (by decide)
  rw [Nat.add_zero] at h0
  simp only [readInode, h0, hle 4 (by decide)]

end PintosKaist.Filesys
