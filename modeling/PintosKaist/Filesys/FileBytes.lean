/-
`inode_read_at` and `inode_write_at` (`filesys/inode.c`), turn by turn: the whole
sector that goes straight between the disk and the caller's buffer, and the
bounce buffer for every other one.

A file is an array of bytes: reading takes a run of them and writing replaces
one, whatever the alignment (`file_io_refines`).
-/
import PintosKaist.Filesys.Disk
import PintosKaist.Lib.While

namespace PintosKaist.Filesys.FileBytes

open Filesys While

/-- The bytes of a sector, or a buffer in memory. -/
abbrev Buffer := Nat → Byte

/-- `disk_read`, from a disk of `n` sectors. -/
def diskRead (n : Nat) (d : Disk) (sector : Nat) : Option Buffer :=
  if sector < n then some fun k => d (sector * secBytes + k) else none

/-- `disk_write`. -/
def diskWrite (n : Nat) (d : Disk) (sector : Nat) (b : Buffer) : Option Disk :=
  if sector < n then some (Filesys.diskWrite d sector b) else none

/-- `memcpy (dst + a, src + b, size)`. -/
def memcpy (dst : Buffer) (a : Nat) (src : Buffer) (b size : Nat) : Buffer := patch dst a size fun k => src (b + k)

/-- `struct inode`, as far as reading and writing look at it. -/
structure StructInode where
  data : Inode
  denyWriteCnt : Int

/-- The variables of the loop of `inode_read_at`. -/
structure ReadLoop where
  size : Int
  offset : Int
  bytesRead : Nat
  buffer : Buffer
  bounce : Option Buffer

/-- The end of a turn: `size`, `offset` and `bytes_read` move on by
`chunk_size`. -/
def ReadLoop.advance (s : ReadLoop) (chunkSize : Int) (buffer : Buffer) (bounce : Option Buffer) : ReadLoop where
  size := s.size - chunkSize
  offset := offT (s.offset + chunkSize)
  bytesRead := s.bytesRead + chunkSize.toNat
  buffer := buffer
  bounce := bounce

/-- A turn of `inode_read_at`. `malloc` is what the call for the bounce buffer
returns; a copy from before the bounce buffer fails. -/
def readTurn (n : Nat) (d : Disk) (i : Inode) (malloc : Option Buffer) (s : ReadLoop) : Option (ForInStep ReadLoop) :=
  let c := chunkAt i s.size s.offset
  if s.size ≤ 0 ∨ c.size ≤ 0 then some (.done s)
  else if c.ofs = 0 ∧ c.size = sectorSize then
    (diskRead n d c.sector).map fun b =>
      .yield (s.advance c.size (memcpy s.buffer s.bytesRead b 0 secBytes) s.bounce)
  else
    match s.bounce <|> malloc with
    | none => some (.done s)
    | some _ =>
      if c.ofs < 0 then none
      else (diskRead n d c.sector).map fun b =>
        .yield (s.advance c.size (memcpy s.buffer s.bytesRead b c.ofs.toNat c.size.toNat) (some b))

/-- `inode_read_at`: the bytes read, and the buffer. -/
def inodeReadAt (n : Nat) (d : Disk) (inode : StructInode) (malloc : Option Buffer) (buffer : Buffer)
    (size offset : Int) : Option (Nat × Buffer) :=
  (whileLoop (readTurn n d inode.data malloc) (size.toNat + 1) ⟨size, offset, 0, buffer, none⟩).map fun s =>
    (s.bytesRead, s.buffer)

/-- The variables of the loop of `inode_write_at`, and the disk. -/
structure WriteLoop where
  size : Int
  offset : Int
  bytesWritten : Nat
  bounce : Option Buffer
  disk : Disk

def WriteLoop.advance (s : WriteLoop) (chunkSize : Int) (bounce : Option Buffer) (disk : Disk) : WriteLoop where
  size := s.size - chunkSize
  offset := offT (s.offset + chunkSize)
  bytesWritten := s.bytesWritten + chunkSize.toNat
  bounce := bounce
  disk := disk

/-- What is in the bounce buffer before the chunk is copied into it: the sector,
if there is more in it than the chunk. -/
def bounceFrom (n : Nat) (d : Disk) (c : Chunk) : Option Buffer :=
  if c.ofs > 0 ∨ c.size < sectorSize - c.ofs then diskRead n d c.sector else some fun _ => 0

/-- A turn of `inode_write_at`. -/
def writeTurn (n : Nat) (i : Inode) (malloc : Option Buffer) (buffer : Buffer) (s : WriteLoop) :
    Option (ForInStep WriteLoop) :=
  let c := chunkAt i s.size s.offset
  if s.size ≤ 0 ∨ c.size ≤ 0 then some (.done s)
  else if c.ofs = 0 ∧ c.size = sectorSize then
    (diskWrite n s.disk c.sector fun k => buffer (s.bytesWritten + k)).map fun d =>
      .yield (s.advance c.size s.bounce d)
  else
    match s.bounce <|> malloc with
    | none => some (.done s)
    | some _ =>
      if c.ofs < 0 then none
      else (bounceFrom n s.disk c).bind fun b =>
        let b := memcpy b c.ofs.toNat buffer s.bytesWritten c.size.toNat
        (diskWrite n s.disk c.sector b).map fun d => .yield (s.advance c.size (some b) d)

/-- `inode_write_at`: the bytes written, and the disk. -/
def inodeWriteAt (n : Nat) (d : Disk) (inode : StructInode) (malloc : Option Buffer) (buffer : Buffer)
    (size offset : Int) : Option (Nat × Disk) :=
  if inode.denyWriteCnt ≠ 0 then some (0, d)
  else
    (whileLoop (writeTurn n inode.data malloc buffer) (size.toNat + 1) ⟨size, offset, 0, none, d⟩).map fun s =>
      (s.bytesWritten, s.disk)

/-! ## A turn patches the buffer, or the disk -/

variable {n : Nat} {d : Disk} {i : Inode} {malloc : Option Buffer} {size offset : Int} {buffer : Buffer}

/-- The bytes of the file, for the caller's buffer from byte `a` of it on. -/
def fileAt (d : Disk) (i : Inode) (a : Nat) : Buffer := fun k => d (i.addr a + k)

/-- A chunk stays in its sector. -/
theorem chunk_in_sector (i : Inode) (size : Int) (h₀ : 0 ≤ offset) (h₁ : offset < 2 ^ 31) :
    (chunkAt i size offset).size ≤ sectorSize - (chunkAt i size offset).ofs := by
  have hmod : (chunkAt i size offset).ofs = offset % 512 := Int.tmod_eq_emod_of_nonneg h₀
  rw [chunkAt_size i size h₀ h₁, hmod]
  simp only [sectorSize]
  omega

/-- Part of a sector that is read, changed and written back is that part of the
disk. -/
theorem diskWrite_patched (sector ofs size : Nat) (b : Buffer) (h : ofs + size ≤ secBytes) :
    Filesys.diskWrite d sector (patch (fun k => d (sector * secBytes + k)) ofs size b) =
      patch d (sector * secBytes + ofs) size b := by
  funext x
  have hdiv : secBytes * (x / secBytes) + x % secBytes = x := Nat.div_add_mod x secBytes
  have hlt : x % secBytes < secBytes := Nat.mod_lt x (by decide)
  simp only [Filesys.diskWrite, patch]
  by_cases hx : x / secBytes = sector
  · rw [hx, Nat.mul_comm] at hdiv
    rw [if_pos hx]
    by_cases hin : ofs ≤ x % secBytes ∧ x % secBytes < ofs + size
    · rw [if_pos hin, if_pos (by omega)]
      congr 1
      omega
    · rw [if_neg hin, if_neg (by omega), hdiv]
  · have hout : ¬ (sector * secBytes + ofs ≤ x ∧ x < sector * secBytes + ofs + size) := by
      simp only [secBytes] at hx h ⊢
      omega
    rw [if_neg hx, if_neg hout]

/-- So is a whole sector. -/
theorem diskWrite_whole (sector : Nat) (b : Buffer) :
    Filesys.diskWrite d sector b = patch d (sector * secBytes) secBytes b := by
  have h := diskWrite_patched (d := d) sector 0 secBytes b (Nat.le_of_eq (Nat.zero_add _))
  rw [Nat.add_zero] at h
  rw [← h]
  funext x
  have hlt : x % secBytes < secBytes := Nat.mod_lt x (by decide)
  simp only [Filesys.diskWrite, patch]
  rw [if_pos (show 0 ≤ x % secBytes ∧ x % secBytes < 0 + secBytes by omega), Nat.sub_zero]

/-- There is a bounce buffer when `malloc` finds memory. -/
theorem bounce_found (bounce : Option Buffer) (fresh : Buffer) : ∃ b, (bounce <|> some fresh) = some b := by
  cases bounce with
  | none => exact ⟨fresh, rfl⟩
  | some b => exact ⟨b, rfl⟩

/-- Where the loop of `inode_read_at` is, from `size` bytes at `offset` on. -/
structure Reading (d : Disk) (i : Inode) (size offset : Int) (buffer : Buffer) (s : ReadLoop) : Prop where
  offset_nonneg : 0 ≤ s.offset
  offset_lt : s.offset < 2 ^ 31
  left : (s.bytesRead : Int) + inFile i s.size s.offset = inFile i size offset
  addr : i.addr s.offset.toNat = i.addr offset.toNat + s.bytesRead
  buffer : s.buffer = patch buffer 0 s.bytesRead (fileAt d i offset.toNat)

/-- What a turn of `inode_read_at` that copies leaves is one more piece of the
file in the buffer, by either way. -/
theorem Reading.advance {s : ReadLoop} (bounce : Option Buffer) (h : Reading d i size offset buffer s)
    (hc : 0 < s.size ∧ 0 < (chunkAt i s.size s.offset).size) :
    Reading d i size offset buffer (s.advance (chunkAt i s.size s.offset).size
      (patch s.buffer s.bytesRead (chunkAt i s.size s.offset).size.toNat (fileAt d i s.offset.toNat)) bounce) := by
  have ht := turn_of_pos h.offset_nonneg h.offset_lt hc
  have hleft := h.left
  have hin := ht.inFile
  have haddr := ht.addr
  have ha := h.addr
  refine ⟨?_, ?_, ?_, ?_, ?_⟩
  · simpa only [ReadLoop.advance, ht.next] using ht.next_nonneg
  · simpa only [ReadLoop.advance, ht.next] using ht.next_lt
  · simp only [ReadLoop.advance, ht.next]
    omega
  · simp only [ReadLoop.advance, ht.next]
    omega
  · have hfile : fileAt d i s.offset.toNat = fun k => fileAt d i offset.toNat (s.bytesRead + k) := by
      funext k
      simp only [fileAt, ha, Nat.add_assoc]
    have hjoin := patch_patch buffer 0 s.bytesRead (chunkAt i s.size s.offset).size.toNat (fileAt d i offset.toNat)
    simp only [ReadLoop.advance, hfile, h.buffer]
    rwa [Nat.zero_add] at hjoin

/-- Where it ends. -/
structure ReadDone (d : Disk) (i : Inode) (size offset : Int) (buffer : Buffer) (s : ReadLoop) : Prop where
  bytesRead : s.bytesRead = inFile i size offset
  buffer : s.buffer = patch buffer 0 s.bytesRead (fileAt d i offset.toNat)

theorem readTurn_turns (hn : i.On n) (fresh : Buffer) {s : ReadLoop} (h : Reading d i size offset buffer s) :
    Turns (readTurn n d i (some fresh)) (Reading d i size offset buffer) (ReadDone d i size offset buffer)
      (fun s => s.size.toNat) s := by
  by_cases hstop : s.size ≤ 0 ∨ (chunkAt i s.size s.offset).size ≤ 0
  · left
    have hzero : inFile i s.size s.offset = 0 := inFile_of_stop h.offset_nonneg h.offset_lt (by omega)
    have hleft := h.left
    exact ⟨s, by simp only [readTurn, if_pos hstop], ⟨by omega, h.buffer⟩⟩
  · right
    have hc : 0 < s.size ∧ 0 < (chunkAt i s.size s.offset).size := by omega
    have ht := turn_of_pos h.offset_nonneg h.offset_lt hc
    obtain ⟨haddr, hofs⟩ := chunkAt_addr s.size h.offset_nonneg ht.lt
    have hin : (chunkAt i s.size s.offset).sector < n :=
      Nat.lt_of_lt_of_le (has_byteToSector h.offset_nonneg ht.lt).2 hn
    have hless : s.size.toNat - (chunkAt i s.size s.offset).size.toNat < s.size.toNat := by omega
    have hrest := ht.rest
    by_cases hfull : (chunkAt i s.size s.offset).ofs = 0 ∧ (chunkAt i s.size s.offset).size = sectorSize
    · refine ⟨_, ?_, h.advance s.bounce hc, hrest⟩
      have hsrc : memcpy s.buffer s.bytesRead (fun k => d ((chunkAt i s.size s.offset).sector * secBytes + k)) 0 secBytes =
          patch s.buffer s.bytesRead (chunkAt i s.size s.offset).size.toNat (fileAt d i s.offset.toNat) := by
        rw [hfull.1, Int.toNat_zero, Nat.add_zero] at haddr
        simp only [memcpy, Nat.zero_add, haddr, hfull.2]
        rfl
      simp only [readTurn, if_neg hstop, if_pos hfull, diskRead, if_pos hin, Option.map_some, hsrc]
    · refine ⟨_, ?_, h.advance (some fun k => d ((chunkAt i s.size s.offset).sector * secBytes + k)) hc, hrest⟩
      have hsrc : memcpy s.buffer s.bytesRead (fun k => d ((chunkAt i s.size s.offset).sector * secBytes + k))
          (chunkAt i s.size s.offset).ofs.toNat (chunkAt i s.size s.offset).size.toNat =
          patch s.buffer s.bytesRead (chunkAt i s.size s.offset).size.toNat (fileAt d i s.offset.toNat) := by
        simp only [memcpy, ← Nat.add_assoc, haddr]
        rfl
      have hneg : ¬ (chunkAt i s.size s.offset).ofs < 0 := by omega
      obtain ⟨old, hold⟩ := bounce_found s.bounce fresh
      simp only [readTurn, if_neg hstop, if_neg hfull, hold, if_neg hneg, diskRead, if_pos hin, Option.map_some, hsrc]

/-- **`inode_read_at` copies the bytes of the file from `offset` on**, as many
as there are, and nothing else of the buffer changes. -/
theorem inodeReadAt_patch (d : Disk) (buffer : Buffer) (size : Int) (hn : i.On n) (fresh : Buffer) (deny : Int)
    (h₀ : 0 ≤ offset) (h₁ : offset < 2 ^ 31) :
    inodeReadAt n d ⟨i, deny⟩ (some fresh) buffer size offset =
      some ((inFile i size offset).toNat, patch buffer 0 (inFile i size offset).toNat (fileAt d i offset.toNat)) := by
  have hstart : Reading d i size offset buffer ⟨size, offset, 0, buffer, none⟩ :=
    ⟨h₀, h₁, Int.zero_add _, (Nat.add_zero _).symm, (patch_zero ..).symm⟩
  obtain ⟨s, hs, hdone⟩ := whileLoop_ends (fun s h => readTurn_turns hn fresh h) hstart (Nat.lt_succ_self size.toNat)
  have hcount : s.bytesRead = (inFile i size offset).toNat := by
    have hread := hdone.bytesRead
    omega
  simp only [inodeReadAt, hs, Option.map_some, hdone.buffer, hcount]

/-- Where the loop of `inode_write_at` is. -/
structure Writing (d : Disk) (i : Inode) (size offset : Int) (buffer : Buffer) (s : WriteLoop) : Prop where
  offset_nonneg : 0 ≤ s.offset
  offset_lt : s.offset < 2 ^ 31
  left : (s.bytesWritten : Int) + inFile i s.size s.offset = inFile i size offset
  addr : i.addr s.offset.toNat = i.addr offset.toNat + s.bytesWritten
  disk : s.disk = patch d (i.addr offset.toNat) s.bytesWritten buffer

/-- Where it ends. -/
structure WriteDone (d : Disk) (i : Inode) (size offset : Int) (buffer : Buffer) (s : WriteLoop) : Prop where
  bytesWritten : s.bytesWritten = inFile i size offset
  disk : s.disk = patch d (i.addr offset.toNat) s.bytesWritten buffer

/-- What a turn of `inode_write_at` that copies leaves is one more piece of the
buffer on the disk. -/
theorem Writing.advance {s : WriteLoop} (bounce : Option Buffer) (h : Writing d i size offset buffer s)
    (hc : 0 < s.size ∧ 0 < (chunkAt i s.size s.offset).size) :
    Writing d i size offset buffer (s.advance (chunkAt i s.size s.offset).size bounce
      (patch s.disk (i.addr s.offset.toNat) (chunkAt i s.size s.offset).size.toNat
        fun k => buffer (s.bytesWritten + k))) := by
  have ht := turn_of_pos h.offset_nonneg h.offset_lt hc
  have hleft := h.left
  have hin := ht.inFile
  have haddr := ht.addr
  have ha := h.addr
  refine ⟨?_, ?_, ?_, ?_, ?_⟩
  · simpa only [WriteLoop.advance, ht.next] using ht.next_nonneg
  · simpa only [WriteLoop.advance, ht.next] using ht.next_lt
  · simp only [WriteLoop.advance, ht.next]
    omega
  · simp only [WriteLoop.advance, ht.next]
    omega
  · simp only [WriteLoop.advance, h.disk, ha, patch_patch]

/-- The bounce buffer goes to the disk as the chunk alone: a sector that is not
written whole was read before. -/
theorem bounce_written (s : WriteLoop) (buffer : Buffer) {c : Chunk} (hin : c.sector < n) (hofs : 0 ≤ c.ofs)
    (hpos : 0 ≤ c.size)
    (hfit : c.size ≤ sectorSize - c.ofs) (hpart : ¬ (c.ofs = 0 ∧ c.size = sectorSize)) :
    ∃ b, bounceFrom n s.disk c = some b ∧
      Filesys.diskWrite s.disk c.sector (memcpy b c.ofs.toNat buffer s.bytesWritten c.size.toNat) =
        patch s.disk (c.sector * secBytes + c.ofs.toNat) c.size.toNat fun k => buffer (s.bytesWritten + k) := by
  have hread : c.ofs > 0 ∨ c.size < sectorSize - c.ofs := by omega
  refine ⟨fun k => s.disk (c.sector * secBytes + k), ?_, ?_⟩
  · simp only [bounceFrom, if_pos hread, diskRead, if_pos hin]
  · refine diskWrite_patched c.sector c.ofs.toNat c.size.toNat _ ?_
    simp only [secBytes, sectorSize] at hfit ⊢
    omega

theorem writeTurn_turns (hn : i.On n) (fresh : Buffer) {s : WriteLoop} (h : Writing d i size offset buffer s) :
    Turns (writeTurn n i (some fresh) buffer) (Writing d i size offset buffer) (WriteDone d i size offset buffer)
      (fun s => s.size.toNat) s := by
  by_cases hstop : s.size ≤ 0 ∨ (chunkAt i s.size s.offset).size ≤ 0
  · left
    have hzero : inFile i s.size s.offset = 0 := inFile_of_stop h.offset_nonneg h.offset_lt (by omega)
    have hleft := h.left
    exact ⟨s, by simp only [writeTurn, if_pos hstop], ⟨by omega, h.disk⟩⟩
  · right
    have hc : 0 < s.size ∧ 0 < (chunkAt i s.size s.offset).size := by omega
    have ht := turn_of_pos h.offset_nonneg h.offset_lt hc
    obtain ⟨haddr, hofs⟩ := chunkAt_addr s.size h.offset_nonneg ht.lt
    have hin : (chunkAt i s.size s.offset).sector < n :=
      Nat.lt_of_lt_of_le (has_byteToSector h.offset_nonneg ht.lt).2 hn
    have hfit := chunk_in_sector i s.size h.offset_nonneg h.offset_lt
    by_cases hfull : (chunkAt i s.size s.offset).ofs = 0 ∧ (chunkAt i s.size s.offset).size = sectorSize
    · refine ⟨_, ?_, h.advance s.bounce hc, ht.rest⟩
      have hdst : Filesys.diskWrite s.disk (chunkAt i s.size s.offset).sector (fun k => buffer (s.bytesWritten + k)) =
          patch s.disk (i.addr s.offset.toNat) (chunkAt i s.size s.offset).size.toNat
            fun k => buffer (s.bytesWritten + k) := by
        rw [hfull.1, Int.toNat_zero, Nat.add_zero] at haddr
        rw [diskWrite_whole, haddr, hfull.2]
        rfl
      simp only [writeTurn, if_neg hstop, if_pos hfull, diskWrite, if_pos hin, Option.map_some, hdst]
    · have hneg : ¬ (chunkAt i s.size s.offset).ofs < 0 := by omega
      obtain ⟨old, hold⟩ := bounce_found s.bounce fresh
      obtain ⟨b, hb, hdst⟩ := bounce_written s buffer hin hofs (by omega) hfit hfull
      rw [haddr] at hdst
      refine ⟨_, ?_, h.advance (some (memcpy b (chunkAt i s.size s.offset).ofs.toNat buffer s.bytesWritten
        (chunkAt i s.size s.offset).size.toNat)) hc, ht.rest⟩
      simp only [writeTurn, if_neg hstop, if_neg hfull, hold, if_neg hneg, hb, Option.bind_some, diskWrite, if_pos hin,
        Option.map_some, hdst]

/-- **`inode_write_at` replaces the bytes of the file from `offset` on**, as
many as there are, and nothing else of the disk changes. -/
theorem inodeWriteAt_patch (hn : i.On n) (fresh : Buffer) (h₀ : 0 ≤ offset) (h₁ : offset < 2 ^ 31) :
    inodeWriteAt n d ⟨i, 0⟩ (some fresh) buffer size offset =
      some ((inFile i size offset).toNat, patch d (i.addr offset.toNat) (inFile i size offset).toNat buffer) := by
  have hstart : Writing d i size offset buffer ⟨size, offset, 0, none, d⟩ :=
    ⟨h₀, h₁, Int.zero_add _, (Nat.add_zero _).symm, (patch_zero ..).symm⟩
  obtain ⟨s, hs, hdone⟩ := whileLoop_ends (fun s h => writeTurn_turns hn fresh h) hstart (Nat.lt_succ_self size.toNat)
  have hcount : s.bytesWritten = (inFile i size offset).toNat := by
    have hwritten := hdone.bytesWritten
    omega
  rw [inodeWriteAt, if_neg (not_not_intro rfl), hs, Option.map_some, hdone.disk, hcount]

/-- A file that is opened for writing by nobody who denies it is written as
`inodeWriteAt` of the disk says, chunk by chunk. -/
theorem inodeWriteAt_refines (hn : i.On n) (fresh : Buffer) (h₀ : 0 ≤ offset) (h₁ : offset < 2 ^ 31) :
    (inodeWriteAt n d ⟨i, 0⟩ (some fresh) buffer size offset).map (fun r => ((r.1 : Int), r.2)) =
      Filesys.inodeWriteAt n d i buffer size offset := by
  rw [inodeWriteAt_patch hn fresh h₀ h₁, Filesys.inodeWriteAt_eq hn h₀ h₁, Option.map_some,
    Int.toNat_of_nonneg inFile_nonneg]

/-! ## A file is an array of bytes -/

/-- A run of bytes of an array. -/
def slice (bytes : List Byte) (offset n : Nat) : List Byte := (bytes.drop offset).take n

/-- The array with a run of its bytes replaced. -/
def overwrite (bytes : List Byte) (offset : Nat) (new : List Byte) : List Byte :=
  bytes.take offset ++ new ++ bytes.drop (offset + new.length)

/-- The first `n` bytes of a buffer. -/
def firstBytes (b : Buffer) (n : Nat) : List Byte := (List.range n).map b

/-- The array a file is. -/
def bytesOf (d : Disk) (i : Inode) : List Byte := firstBytes (fileAt d i 0) i.length.toNat

/-- A sector that holds what it did. -/
def SameSector (d d' : Disk) (sector : Nat) : Prop :=
  ∀ k < secBytes, d' (sector * secBytes + k) = d (sector * secBytes + k)

/-- An inode whose data is on the disk of `n` sectors: the free map has no
others to give. -/
structure Extent (n : Nat) extends Inode where
  on : toInode.On n

@[simp] theorem length_firstBytes (b : Buffer) (n : Nat) : (firstBytes b n).length = n := by simp [firstBytes]

@[simp] theorem getElem_firstBytes (b : Buffer) {n k : Nat} (hk : k < (firstBytes b n).length) :
    (firstBytes b n)[k] = b k := by simp [firstBytes]

@[simp] theorem length_bytesOf (d : Disk) (i : Inode) : (bytesOf d i).length = i.length.toNat := length_firstBytes ..

theorem getElem_bytesOf {k : Nat} (hk : k < (bytesOf d i).length) : (bytesOf d i)[k] = d (i.addr k) := by
  simp [bytesOf, fileAt, Inode.addr]

/-- What a read leaves in front of the buffer. -/
theorem firstBytes_read {a m : Nat} (hm : a + m ≤ i.length.toNat ∨ m = 0) :
    firstBytes (patch buffer 0 m (fileAt d i a)) m = slice (bytesOf d i) a m := by
  refine List.ext_getElem ?_ fun k hk hk' => ?_
  · simp only [length_firstBytes, slice, List.length_take, List.length_drop, length_bytesOf]
    omega
  · have hlt : k < m := by simpa using hk
    simp only [getElem_firstBytes, slice, List.getElem_take, List.getElem_drop, getElem_bytesOf, patch]
    rw [if_pos (by omega), Nat.sub_zero]
    simp only [fileAt, Inode.addr, Nat.add_assoc]

theorem patch_addr (a m k : Nat) :
    patch d (i.addr a) m buffer (i.addr k) = if a ≤ k ∧ k < a + m then buffer (k - a) else d (i.addr k) := by
  have hrange : i.addr a ≤ i.addr k ∧ i.addr k < i.addr a + m ↔ a ≤ k ∧ k < a + m := by
    simp only [Inode.addr]
    omega
  have hsub : i.addr k - i.addr a = k - a := by
    simp only [Inode.addr]
    omega
  simp only [patch, hrange, hsub]

/-- What a write leaves of the file. -/
theorem bytesOf_write {a m : Nat} (hm : a + m ≤ i.length.toNat ∨ m = 0) :
    bytesOf (patch d (i.addr a) m buffer) i = overwrite (bytesOf d i) a (firstBytes buffer m) := by
  refine List.ext_getElem ?_ fun k hk hk' => ?_
  · simp only [overwrite, List.length_append, List.length_take, List.length_drop, length_firstBytes, length_bytesOf]
    omega
  · have hlt : k < i.length.toNat := by simpa using hk
    simp only [getElem_bytesOf, patch_addr, overwrite, List.getElem_append, List.length_append, List.length_take,
      length_bytesOf, length_firstBytes, List.getElem_take, List.getElem_drop, getElem_firstBytes]
    by_cases hlo : k < a
    · rw [if_neg (by omega), dif_pos (by omega), dif_pos (by omega)]
    · by_cases hhi : k < a + m
      · rw [if_pos (by omega), dif_pos (by omega), dif_neg (by omega)]
        congr 1
        omega
      · rw [if_neg (by omega), dif_neg (by omega)]
        congr 2
        omega

/-- Sectors the data of the file is not in are as they were. -/
theorem sameSector_write (d : Disk) (buffer : Buffer) {a m x : Nat} (hm : a + m ≤ i.length.toNat ∨ m = 0)
    (hx : ¬ i.Has x) :
    SameSector d (patch d (i.addr a) m buffer) x := by
  intro k hk
  have hout : ¬ (i.addr a ≤ x * secBytes + k ∧ x * secBytes + k < i.addr a + m) := by
    simp only [Inode.Has, bytesToSectors, sectorSize, Inode.addr, secBytes] at hx hk ⊢
    omega
  simp only [patch]
  rw [if_neg hout]

/-- The bytes of a file depend on its sectors only. -/
theorem bytesOf_congr {d' : Disk} (h : ∀ x, i.Has x → SameSector d d' x) : bytesOf d' i = bytesOf d i := by
  refine List.ext_getElem (by simp) fun k hk _ => ?_
  have hlt : k < i.length.toNat := by simpa using hk
  have hhas : i.Has (i.start + k / secBytes) := by
    simp only [Inode.Has, bytesToSectors, sectorSize, secBytes]
    omega
  have haddr : i.addr k = (i.start + k / secBytes) * secBytes + k % secBytes := by
    simp only [Inode.addr, secBytes]
    omega
  rw [getElem_bytesOf, getElem_bytesOf, haddr]
  exact h _ hhas _ (Nat.mod_lt _ (by decide))

/-- **`inode_read_at` and `inode_write_at` are a read and a write of an array of
bytes**, with whole sectors and with the bounce buffer: as many bytes as the
file has from `offset` on, and no other file or sector is touched. -/
theorem file_io_refines (i : Extent n) (others : Set (Extent n)) (hapart : ∀ j ∈ others, ∀ x, j.Has x → ¬ i.Has x)
    (d : Disk) (buffer fresh : Buffer) (hs : 0 ≤ size) (h₀ : 0 ≤ offset) (h₁ : offset < 2 ^ 31) :
    ∃ m : Nat, (m : Int) = min size (max 0 (i.length - offset)) ∧
      (∃ buffer', inodeReadAt n d ⟨i.toInode, 0⟩ (some fresh) buffer size offset = some (m, buffer') ∧
        firstBytes buffer' m = slice (bytesOf d i.toInode) offset.toNat m ∧ ∀ k, m ≤ k → buffer' k = buffer k) ∧
      ∃ d', inodeWriteAt n d ⟨i.toInode, 0⟩ (some fresh) buffer size offset = some (m, d') ∧
        bytesOf d' i.toInode = overwrite (bytesOf d i.toInode) offset.toNat (firstBytes buffer m) ∧
        (∀ x, ¬ i.Has x → SameSector d d' x) ∧
        ∀ j ∈ others, bytesOf d' j.toInode = bytesOf d j.toInode := by
  have hm : offset.toNat + (inFile i.toInode size offset).toNat ≤ i.length.toNat ∨
      (inFile i.toInode size offset).toNat = 0 := by
    simp only [inFile]
    omega
  refine ⟨(inFile i.toInode size offset).toNat, ?_, ?_, ?_⟩
  · simp only [inFile]
    omega
  · refine ⟨_, inodeReadAt_patch _ _ _ i.on fresh 0 h₀ h₁, firstBytes_read hm, fun k hk => ?_⟩
    simp only [patch]
    rw [if_neg (by omega)]
  · have hsame := fun x (hx : ¬ i.Has x) => sameSector_write d buffer hm hx
    exact ⟨_, inodeWriteAt_patch i.on fresh h₀ h₁, bytesOf_write hm, hsame,
      fun j hj => bytesOf_congr fun x hx => hsame x (hapart j hj x hx)⟩

theorem long_nonneg : (0 : Int) ≤ 600 := by decide
theorem long_lt : (600 : Int) < 2 ^ 31 := by decide

/-- A file of 600 bytes, and one of ten bytes behind it. -/
def longFile : Extent 8 := ⟨⟨2, 600, long_nonneg, long_lt, by decide⟩, by unfold Inode.On; decide⟩
def shortFile : Extent 8 := ⟨⟨4, 10, by decide, by decide, by decide⟩, by unfold Inode.On; decide⟩

/-- The last hundred bytes of the long file, on an empty disk: the end of a
sector, and part of one. -/
theorem file_io_refines_tail :
    ∃ d', inodeWriteAt 8 (fun _ => 0) ⟨longFile.toInode, 0⟩ (some fun _ => 0) (fun _ => 7) 200 500 = some (100, d') ∧
      bytesOf d' longFile.toInode =
        overwrite (bytesOf (fun _ => 0) longFile.toInode) 500 (firstBytes (fun _ => 7) 100) ∧
      bytesOf d' shortFile.toInode = bytesOf (fun _ => 0) shortFile.toInode := by
  have hapart : ∀ j ∈ ({shortFile} : Set (Extent 8)), ∀ x, j.Has x → ¬ longFile.Has x := by
    rintro j rfl x hj hi
    have h₁ : x < 4 := hi.2
    have h₂ : 4 ≤ x := hj.1
    omega
  obtain ⟨m, hm, -, d', hd, hw, -, ho⟩ := file_io_refines longFile {shortFile} hapart (fun _ => 0) (fun _ => 7)
    (fun _ => 0) (show (0 : Int) ≤ 200 by decide) (show (0 : Int) ≤ 500 by decide) (by decide)
  obtain rfl : m = 100 := Int.ofNat_inj.mp hm
  exact ⟨d', hd, hw, ho shortFile rfl⟩

end PintosKaist.Filesys.FileBytes
