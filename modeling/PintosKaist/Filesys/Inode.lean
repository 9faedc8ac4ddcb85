/-
`filesys/inode.c`: which sectors `inode_read_at` and `inode_write_at` go to.

`off_t` and `int` are 32 bits with sign, `disk_sector_t` is 32 bits without;
`/` and `%` round towards zero. The two functions share their loop: `chunks` is
what it does, sector by sector.
-/
import Mathlib.Algebra.Group.Nat.Defs
import Mathlib.Algebra.Ring.Int.Defs
import Mathlib.Data.Int.Order.Basic
import Mathlib.Data.List.Basic

namespace PintosKaist.Filesys

/-- `DISK_SECTOR_SIZE`. -/
def sectorSize : Int := 512

/-- A value as an `off_t` (or an `int`). -/
def offT (x : Int) : Int := (x + 2 ^ 31) % 2 ^ 32 - 2 ^ 31

/-- `bytes_to_sectors`. -/
def bytesToSectors (size : Int) : Nat := ((size + sectorSize - 1) / sectorSize).toNat

/-- `struct inode_disk`: the data sectors of a file are on the disk, whose
sectors have 32-bit numbers. -/
structure Inode where
  start : Nat
  length : Int
  length_nonneg : 0 ≤ length
  length_lt : length < 2 ^ 31
  fits : start + bytesToSectors length ≤ 2 ^ 32

/-- `byte_to_sector`. -/
def byteToSector (i : Inode) (pos : Int) : Nat :=
  if pos < i.length then ((i.start + pos.tdiv sectorSize) % 2 ^ 32).toNat else 2 ^ 32 - 1

/-- One turn of the loop: `size` bytes from byte `ofs` of a sector. -/
structure Chunk where
  sector : Nat
  ofs : Int
  size : Int
  deriving DecidableEq, Repr

/-- The chunk at `offset`, when there are `size` bytes to go. -/
def chunkAt (i : Inode) (size offset : Int) : Chunk :=
  let sectorOfs := offset.tmod sectorSize
  let inodeLeft := offT (i.length - offset)
  let sectorLeft := sectorSize - sectorOfs
  let minLeft := if inodeLeft < sectorLeft then inodeLeft else sectorLeft
  ⟨byteToSector i offset, sectorOfs, if size < minLeft then size else minLeft⟩

/-- The `while` of `inode_read_at` and `inode_write_at`. Each turn but the last
moves on by a byte at least, so `size` turns are enough. -/
def chunkLoop (i : Inode) : Nat → Int → Int → List Chunk
  | 0, _, _ => []
  | fuel + 1, size, offset =>
    let c := chunkAt i size offset
    if 0 < size ∧ 0 < c.size then c :: chunkLoop i fuel (size - c.size) (offT (offset + c.size)) else []

def chunks (i : Inode) (size offset : Int) : List Chunk := chunkLoop i size.toNat size offset

/-- The bytes read or written. -/
def bytesDone (cs : List Chunk) : Int := (cs.map Chunk.size).sum

/-- A sector of the data of the file. -/
def Inode.Has (i : Inode) (sector : Nat) : Prop := i.start ≤ sector ∧ sector < i.start + bytesToSectors i.length

instance (i : Inode) (sector : Nat) : Decidable (i.Has sector) := inferInstanceAs (Decidable (_ ∧ _))

variable {i : Inode} {size offset : Int} {fuel : Nat}

theorem offT_of_range {x : Int} (h₁ : -2 ^ 31 ≤ x) (h₂ : x < 2 ^ 31) : offT x = x := by
  unfold offT
  omega

/-- A byte of the file is in a sector of its data. -/
theorem has_byteToSector (h₀ : 0 ≤ offset) (h : offset < i.length) : i.Has (byteToSector i offset) := by
  have hfit := i.fits
  have hdiv : offset.tdiv sectorSize = offset / 512 := Int.tdiv_eq_ediv_of_nonneg h₀
  simp only [Inode.Has, byteToSector, if_pos h, hdiv]
  simp only [bytesToSectors, sectorSize] at hfit ⊢
  omega

/-- At an offset that is not negative, a turn stays within the file. -/
theorem chunkAt_le (h₀ : 0 ≤ offset) (h₁ : offset < 2 ^ 31) :
    offset + (chunkAt i size offset).size ≤ i.length := by
  have hl₀ := i.length_nonneg
  have hl₁ := i.length_lt
  have hw : offT (i.length - offset) = i.length - offset := offT_of_range (by omega) (by omega)
  simp only [chunkAt, hw]
  split <;> split <;> omega

/-- From an offset that is not negative, the loop goes to sectors of the file
only, and does not go past its end. -/
theorem chunkLoop_inside (h₀ : 0 ≤ offset) (h₁ : offset < 2 ^ 31) :
    (∀ c ∈ chunkLoop i fuel size offset, i.Has c.sector) ∧ 0 ≤ bytesDone (chunkLoop i fuel size offset) ∧
      (bytesDone (chunkLoop i fuel size offset) = 0 ∨
        offset + bytesDone (chunkLoop i fuel size offset) ≤ i.length) := by
  induction fuel generalizing size offset with
  | zero => exact ⟨by simp [chunkLoop], by simp [chunkLoop, bytesDone], .inl (by simp [chunkLoop, bytesDone])⟩
  | succ fuel ih =>
    simp only [chunkLoop]
    split
    · rename_i hc
      have hend : offset + (chunkAt i size offset).size ≤ i.length := chunkAt_le h₀ h₁
      have hl₁ := i.length_lt
      have hw : offT (offset + (chunkAt i size offset).size) = offset + (chunkAt i size offset).size :=
        offT_of_range (by omega) (by omega)
      rw [hw]
      obtain ⟨hin, hpos, hle⟩ := @ih (size - (chunkAt i size offset).size)
        (offset + (chunkAt i size offset).size) (by omega) (by omega)
      refine ⟨fun c hm => ?_, ?_, .inr ?_⟩
      · rcases List.mem_cons.mp hm with rfl | hm
        · exact has_byteToSector h₀ (by omega)
        · exact hin c hm
      · simp only [bytesDone, List.map_cons, List.sum_cons] at hpos ⊢
        omega
      · simp only [bytesDone, List.map_cons, List.sum_cons] at hpos hle ⊢
        omega
    · exact ⟨by simp, by simp [bytesDone], .inl (by simp [bytesDone])⟩

end PintosKaist.Filesys
