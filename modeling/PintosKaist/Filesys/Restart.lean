/-
The kernel goes down and comes up on the same disk: `filesys_done`, and then
`filesys_init` without formatting. The free map is read back as it was, and the
names and the arrays are those of before; the files that were open are not.
-/
import PintosKaist.Filesys.IoReturns

namespace PintosKaist.Filesys.Volume

open ArrayStore

variable {v v' : Volume} {ex : Nat → Nat} {dir fm : Inode} {s : Files}

/-- The file of the free map was never removed, so nothing is given back when it
is closed. -/
theorem Inv.filesysDone (h : Inv v ex) : ∃ w, v.filesysDone = some w ∧ w.size = v.size ∧ w.disk = v.disk := by
  obtain ⟨a, fm, hf⟩ := h.freeMap
  have hrem : fm.removed = false := by
    rw [Bool.eq_false_iff]
    exact fun ht => (h.removed a fm hf.inode ht).2.1 hf.sector
  simp only [Volume.filesysDone, hf.file, Volume.inodeClose, hf.inode, hrem, Option.bind_eq_bind, Option.bind_some,
    Bool.false_eq_true, if_false]
  split
  · exact ⟨_, rfl, rfl, rfl⟩
  · exact ⟨_, rfl, rfl, rfl⟩

/-- The volume as `free_map_open` leaves it: only the free map is open. -/
def mounted (v : Volume) (fm : Inode) : Volume where
  size := v.size
  disk := v.disk
  freeMap := ⟨v.freeMap.size, (v.bitmapRead fm).2⟩
  freeMapFile := some 0
  inodes := Function.update (fun _ => none) 0 (some ⟨freeMapSector, 1, false, fm⟩)
  nextInode := 1
  files _ := none
  nextFile := 0

/-- What the map read from a file depends on. -/
theorem bitmapRead_congr {w : Volume} {data : Inode} (hd : w.disk = v.disk) (hs : w.freeMap.size = v.freeMap.size) :
    w.bitmapRead data = v.bitmapRead data := by
  simp only [Volume.bitmapRead, hd, hs]

/-- The free map comes back as it was. -/
theorem Inv.mounted_freeMap {a : Nat} {ino : OpenInode} (h : Inv v ex) (hf : v.FreeMapFile ex a ino) :
    (v.mounted ino.data).freeMap = ⟨v.size, fun x => decide (x < v.size) && v.freeMap.bit x⟩ := by
  simp only [mounted, hf.decodes.bitmapRead h.map_size, h.map_size]

theorem Inv.mounted_bit {a x : Nat} {ino : OpenInode} (h : Inv v ex) (hf : v.FreeMapFile ex a ino) (hx : x < v.size) :
    (v.mounted ino.data).freeMap.bit x = v.freeMap.bit x := by
  simp only [h.mounted_freeMap hf, hx, decide_true, Bool.true_and]

theorem mounted_inode {b : Nat} {ino : OpenInode} (hb : (v.mounted fm).inodes b = some ino) :
    b = 0 ∧ ino = ⟨freeMapSector, 1, false, fm⟩ := by
  simp only [mounted, Function.update_apply] at hb
  split at hb
  · rename_i hb0
    exact ⟨hb0, (Option.some.inj hb).symm⟩
  · cases hb

/-- The owners are the free map, the directory and the files listed; those that
were open and had lost their name are owners no more. -/
theorem mounted_live {n : Nat} (hn : (v.mounted fm).Live n) : v.Live n := by
  obtain hn | hn | hn | ⟨b, ino, hb, rfl⟩ := hn
  · exact .inl hn
  · exact .inr (.inl hn)
  · exact .listed hn
  · rw [(mounted_inode hb).2]
    exact .freeMap

theorem Inv.mounted {a : Nat} {ino : OpenInode} (h : Inv v ex) (hf : v.FreeMapFile ex a ino) :
    Inv (v.mounted ino.data) (bump (fun _ => 0) 0) := by
  have hhdr := h.header_freeMap hf
  have hread : (v.mounted ino.data).bitmapRead ino.data = v.bitmapRead ino.data :=
    bitmapRead_congr rfl rfl
  refine ⟨h.excl.mono (fun n hn => mounted_live hn) (fun _ _ _ hx => hx) fun n x hn hx => ?_,
    fun n hn => h.header n (mounted_live hn), fun b jno hb => ?_, fun b c jno kno hb hc _ => ?_, fun b jno hb hr => ?_,
    h.slots, h.listed, h.root, fun b jno hb => ?_, fun b hb => ?_, fun b jno hb => ?_, fun f file hfile => ?_, ?_,
    h.map_size, h.size_lt⟩
  · have hused := h.excl.used (mounted_live hn) hx
    exact ⟨hused.1, (h.mounted_bit hf hused.1).trans hused.2⟩
  · rw [(mounted_inode hb).2]
    exact hhdr
  · exact (mounted_inode hb).1.trans (mounted_inode hc).1.symm
  · obtain ⟨-, rfl⟩ := mounted_inode hb
    cases hr
  · obtain ⟨rfl, rfl⟩ := mounted_inode hb
    have hzero : (v.mounted ino.data).fileRefs 0 = 0 := Count.count_eq_zero.mpr fun f hf => by cases Finset.mem_range.mp hf
    exact ⟨by rw [hzero, bump, Function.update_self], Nat.one_pos⟩
  · have hb0 : b ≠ 0 := by
      rintro rfl
      cases hb
    exact Function.update_of_ne hb0 ..
  · rw [(mounted_inode hb).1]
    exact Nat.one_pos
  · cases hfile
  · refine ⟨0, ⟨freeMapSector, 1, false, ino.data⟩, rfl, rfl, rfl, hf.length, by simp [bump], ?_, fun x hx => ?_⟩
    · rw [hread]
      exact hf.decodes.1
    · rw [hread, h.mounted_bit hf hx]
      exact hf.decodes.2 x hx

/-- **Coming up again works** from every state that keeps the ownership of
sectors. -/
theorem Inv.filesysMount {a : Nat} {ino : OpenInode} (h : Inv v ex) (hf : v.FreeMapFile ex a ino) :
    filesysMount v.size v.disk = some (v.mounted ino.data) := by
  let v₀ := freeMapInit v.size v.disk
  let v₁ : Volume := { v₀.setInode 0 (some ⟨freeMapSector, 1, false, ino.data⟩) with nextInode := 1 }
  have hread : readInode v.disk freeMapSector = some ino.data := h.header_freeMap hf
  have hlt : freeMapSector < v.size := (h.excl.used .freeMap .self).1
  have hopen : v₀.inodeOpen freeMapSector = some (0, v₁) := by
    have hfind : v₀.findOpen freeMapSector = none := rfl
    have hread₀ : readInode v₀.disk freeMapSector = some ino.data := hread
    have hlt₀ : freeMapSector < v₀.size := hlt
    simp only [Volume.inodeOpen, hfind, hread₀, if_pos hlt₀, Option.bind_eq_bind, Option.bind_some]
    rfl
  have hino : v₁.inodes 0 = some ⟨freeMapSector, 1, false, ino.data⟩ := rfl
  have hmap : v₁.bitmapRead ino.data = v.bitmapRead ino.data := bitmapRead_congr rfl h.map_size.symm
  show v₀.freeMapOpen = _
  simp only [freeMapOpen, hopen, hino, hmap, hf.decodes.1, if_true, Option.bind_eq_bind, Option.bind_some,
    Volume.mounted, h.map_size]
  rfl

/-- Going down and coming up leaves what the store is, with no handle. -/
theorem Represents.restart (hs : v.Represents dir s) (h : Inv v ex) :
    ∃ w w', v.filesysDone = some w ∧ filesysMount w.size w.disk = some w' ∧ w'.Leaves dir s.closeAll ∧
      w'.freeMap.size = v.freeMap.size ∧ ∀ x < v.size, w'.freeMap.bit x = v.freeMap.bit x := by
  obtain ⟨a, ino, hf⟩ := h.freeMap
  obtain ⟨w, hdone, hsize, hdisk⟩ := h.filesysDone
  refine ⟨w, v.mounted ino.data, hdone, ?_, ⟨⟨_, h.mounted hf⟩, hs.names.congr rfl, fun x hx => ?_, fun f => rfl⟩,
    rfl, fun x hx => h.mounted_bit hf hx⟩
  · rw [hsize, hdisk]
    exact h.filesysMount hf
  · exact (hs.bytes x (Store.alive_closeAll hx)).congr rfl

end PintosKaist.Filesys.Volume
