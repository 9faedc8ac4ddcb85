/-
Formatting: `filesys_init` leaves a disk that has the free map and the root
directory on it and nothing else, and a free map that says so.
-/
import PintosKaist.Filesys.Owned

namespace PintosKaist.Filesys.Volume

open Owners

variable {v v' : Volume} {a x n : Nat} {fm root : Inode} {disk : Disk}

/-- The inode that `inode_create` makes of an allocation. -/
theorem inodeCreate_some {sector : Nat} {length : Int} (hr : v.inodeCreate sector length = some (true, v')) :
    0 ≤ length ∧ ∃ start v₁, v.freeMapAllocate (sectorCnt length) = some (some start, v₁) ∧ sector < v₁.size ∧
      v' = { v₁ with
        disk := zeroSectors (diskWrite v₁.disk sector (inodeDisk start length)) start (sectorCnt length) } := by
  simp only [Volume.inodeCreate] at hr
  split at hr
  · cases hr
  rename_i hl
  simp only [Option.bind_eq_bind, Option.bind_eq_some_iff] at hr
  obtain ⟨⟨r, v₁⟩, halloc, hr⟩ := hr
  cases r with
  | none => simp at hr
  | some start =>
    simp only [Option.ite_none_right_eq_some, Option.some.injEq, Prod.mk.injEq, true_and] at hr
    exact ⟨by omega, start, v₁, halloc, hr.1, hr.2.symm⟩

/-- The zeros do not reach the sector of the inode. -/
theorem readInode_created {d : Disk} {sector : Nat} {i : Inode} (hs : i.start < 2 ^ 32) (hself : ¬ i.Has sector) :
    readInode (zeroSectors (diskWrite d sector (inodeDisk i.start i.length)) i.start (bytesToSectors i.length))
      sector = some i := by
  rw [readInode_congr (zeroSectors_sameOn hself)]
  exact readInode_diskWrite sector hs

theorem zeroSectors_zero {d : Disk} {start cnt : Nat} (hx : start ≤ x / secBytes ∧ x / secBytes < start + cnt) :
    zeroSectors d start cnt x = 0 := by
  -- the last write to a sector decides, and all of them write zeros
  have hloop : ∀ l : List Nat, ∀ d : Disk, (d x = 0 ∨ ∃ i ∈ l, x / secBytes = start + i) →
      l.foldl (fun d i => diskWrite d (start + i) fun _ => 0) d x = 0 := by
    intro l
    induction l with
    | nil =>
      intro d hd
      obtain hd | ⟨i, hi, -⟩ := hd
      · exact hd
      · cases hi
    | cons j l ih =>
      intro d hd
      refine ih _ ?_
      by_cases hj : x / secBytes = start + j
      · left
        exact if_pos hj
      · obtain hd | ⟨i, hi, hxi⟩ := hd
        · left
          exact (if_neg hj).trans hd
        · right
          refine ⟨i, ?_, hxi⟩
          obtain rfl | hi := List.mem_cons.mp hi
          · exact absurd hxi hj
          · exact hi
  exact hloop _ d (.inr ⟨x / secBytes - start, List.mem_range.mpr (by omega), by omega⟩)

/-- A directory of zeros lists nothing. -/
theorem slotOf_zero {d : Disk} {k : Nat} (hz : ∀ x, root.Has (x / secBytes) → d x = 0) : slotOf d root k = none := by
  by_cases hk : k < entryCnt root
  · have hle := entry_lt hk
    have huse : (entryAt d root k).inUse = false := by
      rw [entryAt_inUse hk, addr_add, hz _ (Inode.has_addr (by simp only [entrySize] at hle ⊢; omega))]
      rfl
    simp [slotOf, huse]
  · simp [slotOf, hk]

/-- After `free_map_create`: the free map is on the disk, with its file open at
address 0. -/
structure MapMade (v : Volume) (fm : Inode) : Prop where
  inode : v.inodes = Function.update (fun _ => none) 0 (some ⟨freeMapSector, 1, false, fm⟩)
  nextInode : v.nextInode = 1
  files : ∀ f, v.files f = none
  file : v.freeMapFile = some 0
  header : v.header freeMapSector = some fm
  length : fm.length = byteCnt v.size
  on : fm.On v.size
  map_size : v.freeMap.size = v.size
  size_lt : v.size < 2 ^ 32
  size_pos : 0 < v.size
  marked : ∀ x, x = freeMapSector ∨ x = rootDirSector ∨ fm.Has x → v.freeMap.bit x = true
  not_has₀ : ¬ fm.Has freeMapSector
  not_has₁ : ¬ fm.Has rootDirSector

theorem byteCnt_lt {size : Nat} (h : size < 2 ^ 32) : (byteCnt size : Int) < 2 ^ 31 := by
  simp only [byteCnt]
  omega

theorem mapMade_of_create {size : Nat} (hsize : size < 2 ^ 32)
    (hr : (freeMapInit size disk).freeMapCreate = some (a, v)) : a = 0 ∧ v.size = size ∧ ∃ fm, v.MapMade fm := by
  simp only [freeMapCreate, Option.bind_eq_bind, Option.bind_eq_some_iff] at hr
  obtain ⟨⟨ok, v₁⟩, hc, hr⟩ := hr
  cases ok with
  | false => simp at hr
  | true =>
  obtain ⟨hl, start, v₂, halloc, hsec, rfl⟩ := inodeCreate_some hc
  simp only [freeMapAllocate, freeMapInit] at halloc
  split at halloc
  · cases halloc
  rename_i s hscan
  simp only [Option.some.injEq, Prod.mk.injEq] at halloc
  obtain ⟨rfl, rfl⟩ := halloc
  obtain ⟨hle, hfree⟩ := Bitmap.scan_some hscan
  simp only [freeMapInit] at hle hfree hl hsec hr
  have hlen := byteCnt_lt hsize
  have hcnt : sectorCnt (byteCnt size) = bytesToSectors (byteCnt size) := sectorCnt_eq hl hlen (by omega)
  let fm : Inode := ⟨s, byteCnt size, hl, hlen, by omega⟩
  have hhas : ∀ x, fm.Has x → x ≠ freeMapSector ∧ x ≠ rootDirSector := by
    intro x hx
    have := hfree x hx.1 (hcnt ▸ hx.2)
    simpa using this
  have hmade : readInode (zeroSectors (diskWrite disk freeMapSector (inodeDisk s (byteCnt size))) s
      (sectorCnt (byteCnt size))) freeMapSector = some fm := by
    rw [hcnt]
    exact readInode_created (i := fm) (by show s < 2 ^ 32; omega) fun hx => (hhas _ hx).1 rfl
  have hon : fm.On size := by
    show s + bytesToSectors (byteCnt size) ≤ size
    omega
  have hin : inFile fm (byteCnt size) 0 = byteCnt size := by
    simp only [inFile, fm]
    omega
  simp only [if_true, inodeOpen, findOpen, List.range_zero, List.reverse_nil, List.find?_nil, hmade, if_pos hsec,
    Option.bind_eq_bind, Option.bind_some, setInode] at hr
  have hw := @bitmapWrite_eq
    { size := size
      disk := zeroSectors (diskWrite disk freeMapSector (inodeDisk s (byteCnt size))) s (sectorCnt (byteCnt size))
      freeMap := Bitmap.setMultiple ⟨size, fun x => x == freeMapSector || x == rootDirSector⟩ s
        (sectorCnt (byteCnt size)) true
      freeMapFile := some 0
      inodes := Function.update (fun _ => none) 0 (some ⟨freeMapSector, 1, false, fm⟩)
      nextInode := 0 + 1
      files := fun _ => none
      nextFile := 0 } 0 ⟨freeMapSector, 1, false, fm⟩ rfl hon hin
  rw [hw] at hr
  simp only [Option.bind_some, if_true, Option.some.injEq, Prod.mk.injEq] at hr
  obtain ⟨rfl, rfl⟩ := hr
  refine ⟨rfl, rfl, fm, rfl, rfl, fun _ => rfl, rfl, ?_, rfl, hon, rfl, hsize, hsec, fun x hx => ?_,
    fun hx => (hhas _ hx).1 rfl, fun hx => (hhas _ hx).2 rfl⟩
  · rw [Volume.header, ← hmade]
    refine readInode_congr (patch_sameOn (i := fm) (fun hx => (hhas _ hx).1 rfl) ?_)
    show ((0 + byteCnt size : Nat) : Int) ≤ byteCnt size
    omega
  · show (Bitmap.setMultiple _ s (sectorCnt (byteCnt size)) true).bit x = true
    rw [Bitmap.setMultiple_bit]
    split
    · rfl
    · rename_i hout
      obtain rfl | rfl | hx := hx
      · rfl
      · rfl
      · exact absurd ⟨hx.1, hcnt ▸ hx.2⟩ hout

/-- After `do_format`, the file of the free map still open: both are on the
disk. -/
structure RootMade (v : Volume) (fm root : Inode) : Prop extends MapMade v fm where
  root_header : v.header rootDirSector = some root
  root_length : root.length = (16 * entrySize : Nat)
  root_on : root.On v.size
  root_lt : rootDirSector < v.size
  root_marked : ∀ x, root.Has x → v.freeMap.bit x = true
  root_not_has : ∀ x, x = freeMapSector ∨ x = rootDirSector ∨ fm.Has x → ¬ root.Has x
  root_zero : ∀ x, root.Has (x / secBytes) → v.disk x = 0
  decodes : v.Decodes fm

theorem MapMade.inFile (h : v.MapMade fm) : inFile fm (byteCnt v.size) 0 = byteCnt v.size := by
  simp only [Filesys.inFile, h.length]
  omega

theorem MapMade.inode_eq (h : v.MapMade fm) : v.inodes 0 = some ⟨freeMapSector, 1, false, fm⟩ := by
  rw [h.inode, Function.update_self]

/-- `free_map_allocate` with the file of the free map open. -/
theorem MapMade.allocate {cnt start : Nat} (h : v.MapMade fm) (hr : v.freeMapAllocate cnt = some (some start, v')) :
    v.freeMap.scan cnt = some start ∧
      v' = { v with
        disk := patch v.disk (fm.addr 0) (byteCnt v.size) (bitmapBytes (v.freeMap.setMultiple start cnt true))
        freeMap := v.freeMap.setMultiple start cnt true } := by
  simp only [freeMapAllocate] at hr
  split at hr
  · simp at hr
  rename_i s hscan
  have hsize : (v.freeMap.setMultiple s cnt true).size = v.size := h.map_size
  have hw := @bitmapWrite_eq { v with freeMap := v.freeMap.setMultiple s cnt true } 0 _ h.inode_eq h.on
    (by show Filesys.inFile fm (byteCnt (v.freeMap.setMultiple s cnt true).size) 0 = _; rw [hsize]; exact h.inFile)
  split at hr
  · rename_i hnone
    exact absurd (hnone.symm.trans h.file) (by simp)
  rename_i a ha
  obtain rfl : a = 0 := Option.some.inj (ha.symm.trans h.file)
  rw [hw] at hr
  simp only [Option.bind_eq_bind, Option.bind_some, if_true, Option.some.injEq, Prod.mk.injEq] at hr
  obtain ⟨rfl, rfl⟩ := hr
  rw [hsize]
  exact ⟨hscan, rfl⟩

theorem MapMade.createRoot (h : v.MapMade fm)
    (hr : v.inodeCreate rootDirSector (16 * entrySize : Nat) = some (true, v')) : ∃ root, v'.RootMade fm root := by
  obtain ⟨-, start, v₁, halloc, hlt, rfl⟩ := inodeCreate_some hr
  have hcnt : sectorCnt ((16 * entrySize : Nat) : Int) = 1 := by decide
  rw [hcnt] at halloc ⊢
  obtain ⟨hscan, rfl⟩ := h.allocate halloc
  obtain ⟨hle, hfree⟩ := Bitmap.scan_some hscan
  have hsize := h.size_lt
  have hmap := h.map_size
  let root : Inode := ⟨start, (16 * entrySize : Nat), by decide, by decide, by
    rw [show bytesToSectors ((16 * entrySize : Nat) : Int) = 1 by decide]; omega⟩
  have hhas : ∀ x, root.Has x ↔ x = start := by
    intro x
    simp only [Inode.Has, root, show bytesToSectors ((16 * entrySize : Nat) : Int) = 1 by decide]
    omega
  -- the sector was clear, so it is neither inode nor free map
  have hclear := hfree start (by omega) (by omega)
  have hnew : ∀ x, x = freeMapSector ∨ x = rootDirSector ∨ fm.Has x → ¬ root.Has x := by
    intro x hx hy
    rw [(hhas x).mp hy] at hx
    rw [h.marked start hx] at hclear
    cases hclear
  let b := v.freeMap.setMultiple start 1 true
  let d := patch v.disk (fm.addr 0) (byteCnt v.size) (bitmapBytes b)
  let d' := zeroSectors (diskWrite d rootDirSector (inodeDisk start (16 * entrySize : Nat))) start 1
  have hsame : ∀ x, x ≠ rootDirSector → ¬ root.Has x → SameOn d d' x := fun x hx hy =>
    (diskWrite_sameOn hx).trans (zeroSectors_sameOn fun hin => hy ((hhas x).mpr (by omega)))
  have hpatch : ∀ x, ¬ fm.Has x → SameOn v.disk d x := fun x hx => patch_sameOn hx (by rw [h.length]; omega)
  have hmark : ∀ x, v.freeMap.bit x = true → b.bit x = true := by
    intro x hx
    rw [Bitmap.setMultiple_bit]
    split
    · rfl
    · exact hx
  have hheader : readInode d' freeMapSector = some fm := by
    rw [← h.header, Volume.header]
    exact readInode_congr ((hpatch _ h.not_has₀).trans (hsame _ (by decide) (hnew _ (.inl rfl))))
  have hroot : readInode d' rootDirSector = some root :=
    readInode_created (i := root) (by show start < 2 ^ 32; omega) (hnew _ (.inr (.inl rfl)))
  have hdec : Decodes { v with disk := d, freeMap := b } fm := by
    have hb : b.size = v.size := hmap
    have hpatched := @decodes_patch v fm b hb (by rw [hb]; exact h.inFile)
    rwa [hb] at hpatched
  refine ⟨root, ⟨h.inode, h.nextInode, h.files, h.file, hheader, h.length, h.on, hmap, hsize, h.size_pos,
    fun x hx => hmark x (h.marked x hx), h.not_has₀, h.not_has₁⟩, hroot, rfl, ?_, hlt, fun x hx => ?_, hnew,
    fun x hx => ?_, ?_⟩
  · show start + bytesToSectors ((16 * entrySize : Nat) : Int) ≤ v.size
    rw [show bytesToSectors ((16 * entrySize : Nat) : Int) = 1 by decide]
    omega
  · have := (hhas x).mp hx
    show b.bit x = true
    rw [Bitmap.setMultiple_bit, if_pos (by omega)]
  · have := (hhas _).mp hx
    exact zeroSectors_zero (by omega)
  · refine hdec.congr fun x hx => hsame x (fun heq => h.not_has₁ (heq ▸ hx)) (hnew x (.inr (.inr hx)))

/-- The formatted disk, with the file of the free map open and the map read from
it. -/
def mapOpened (v : Volume) (fm : Inode) : Volume :=
  { v with
    inodes := Function.update (fun _ => none) 1 (some ⟨freeMapSector, 1, false, fm⟩)
    nextInode := 2, freeMapFile := some 1, freeMap := ⟨v.freeMap.size, (v.bitmapRead fm).2⟩ }

/-- `free_map_open`, with no inode open: the free map reads back as it was
written, and only its own file is open. -/
theorem RootMade.reopen (h : v.RootMade fm root) (hr : (v.setInode 0 none).freeMapOpen = some v') :
    v' = v.mapOpened fm := by
  have hnone : (v.setInode 0 none).inodes = fun _ => none := by
    funext b
    rw [setInode_inodes, h.inode]
    split
    · rfl
    · rename_i hb
      exact Function.update_of_ne hb ..
  have hfind : (v.setInode 0 none).findOpen freeMapSector = none := by
    simp only [findOpen, hnone, Option.any_none, List.find?_eq_none]
    exact fun _ _ hf => by cases hf
  have hhdr : readInode (v.setInode 0 none).disk freeMapSector = some fm := h.header
  have hlt : freeMapSector < (v.setInode 0 none).size := h.size_pos
  have hnext : (v.setInode 0 none).nextInode = 1 := h.nextInode
  simp only [freeMapOpen, inodeOpen, hfind, if_pos hlt, hhdr, hnext, Option.bind_eq_bind, Option.bind_some,
      setInode_inodes,
    if_true] at hr
  have hset : ((v.setInode 0 none).setInode 1 (some ⟨freeMapSector, 1, false, fm⟩)).inodes =
      Function.update (fun _ => none) 1 (some ⟨freeMapSector, 1, false, fm⟩) := congrArg (Function.update · 1 _) hnone
  split at hr
  · rw [hset] at hr
    exact (Option.some.inj hr).symm
  · cases hr

theorem mapOpened_inode {b : Nat} {ino : OpenInode} (hb : (v.mapOpened fm).inodes b = some ino) :
    b = 1 ∧ ino = ⟨freeMapSector, 1, false, fm⟩ := by
  simp only [mapOpened, Function.update_apply] at hb
  split at hb
  · rename_i hb1
    exact ⟨hb1, (Option.some.inj hb).symm⟩
  · cases hb

theorem RootMade.slot_none (h : v.RootMade fm root) (k : Nat) : (v.mapOpened fm).slot k = none := by
  show (v.header rootDirSector).bind _ = none
  rw [h.root_header, Option.bind_some]
  exact slotOf_zero h.root_zero

theorem RootMade.not_listed {n : Nat} (h : v.RootMade fm root) : ¬ (v.mapOpened fm).Listed n := by
  intro hn
  obtain ⟨k, hk⟩ := hn
  cases (h.slot_none k).symm.trans hk

/-- The owners of a formatted disk are the free map and the root directory. -/
theorem RootMade.live {n : Nat} (h : v.RootMade fm root) (hn : (v.mapOpened fm).Live n) :
    n = freeMapSector ∨ n = rootDirSector := by
  obtain hn | hn | hn | ⟨b, ino, hb, rfl⟩ := hn
  · exact .inl hn
  · exact .inr hn
  · exact absurd hn h.not_listed
  · exact .inl (by rw [(mapOpened_inode hb).2])

theorem RootMade.holds_freeMap {x : Nat} (h : v.RootMade fm root) (hx : (v.mapOpened fm).Holds freeMapSector x) :
    x = freeMapSector ∨ fm.Has x := by
  obtain hx | ⟨i, hi, hx⟩ := hx
  · exact .inl hx
  · obtain rfl := Option.some.inj (h.header.symm.trans hi)
    exact .inr hx

theorem RootMade.holds_root {x : Nat} (h : v.RootMade fm root) (hx : (v.mapOpened fm).Holds rootDirSector x) :
    x = rootDirSector ∨ root.Has x := by
  obtain hx | ⟨i, hi, hx⟩ := hx
  · exact .inl hx
  · obtain rfl := Option.some.inj (h.root_header.symm.trans hi)
    exact .inr hx

/-- They have no sector in common. -/
theorem RootMade.apart {x : Nat} (h : v.RootMade fm root) (hx : (v.mapOpened fm).Holds freeMapSector x) :
    ¬ (v.mapOpened fm).Holds rootDirSector x := by
  intro hy
  obtain rfl | hy := h.holds_root hy
  · obtain hx | hx := h.holds_freeMap hx
    · exact absurd hx (by decide)
    · exact h.not_has₁ hx
  · exact h.root_not_has x ((h.holds_freeMap hx).imp_right .inr) hy

/-- Every sector they hold is marked in the map on the disk. -/
theorem RootMade.used {n x : Nat} (h : v.RootMade fm root) (hn : (v.mapOpened fm).Live n)
    (hx : (v.mapOpened fm).Holds n x) : (v.mapOpened fm).Used x := by
  have hdec : ∀ x < v.size, v.freeMap.bit x = true → (v.mapOpened fm).Used x :=
    fun x hx hb => ⟨hx, (h.decodes.2 x hx).trans hb⟩
  obtain rfl | rfl := h.live hn
  · obtain rfl | hx := h.holds_freeMap hx
    · exact hdec _ h.size_pos (h.marked _ (.inl rfl))
    · exact hdec x (Nat.lt_of_lt_of_le hx.2 h.on) (h.marked x (.inr (.inr hx)))
  · obtain rfl | hx := h.holds_root hx
    · exact hdec _ h.root_lt (h.marked _ (.inr (.inl rfl)))
    · exact hdec x (Nat.lt_of_lt_of_le hx.2 h.root_on) (h.root_marked x hx)

theorem RootMade.exclusive (h : v.RootMade fm root) :
    Exclusive (v.mapOpened fm).Live (v.mapOpened fm).Holds (v.mapOpened fm).Used := by
  refine ⟨fun {n m x} hn hm hx hy => ?_, fun hn hx => h.used hn hx⟩
  obtain rfl | rfl := h.live hn <;> obtain rfl | rfl := h.live hm
  · rfl
  · exact absurd hy (h.apart hx)
  · exact absurd hx (h.apart hy)
  · rfl

theorem RootMade.inv (h : v.RootMade fm root) : Inv (v.mapOpened fm) (bump (fun _ => 0) 1) := by
  refine ⟨h.exclusive, fun n hn => ?_, fun b ino hb => ?_, fun b c ino jno hb hc _ => ?_, fun b ino hb hr => ?_,
    fun j k n hj => ?_, fun n hn => absurd hn h.not_listed, fun dir hdir => ?_, fun b ino hb => ?_, fun b hb => ?_,
    fun b ino hb => ?_, fun f file hf => ?_, ?_, h.map_size, h.size_lt⟩
  · obtain rfl | rfl := h.live hn
    · exact ⟨fm, h.header, h.not_has₀, h.on⟩
    · exact ⟨root, h.root_header, h.root_not_has _ (.inr (.inl rfl)), h.root_on⟩
  · obtain ⟨-, rfl⟩ := mapOpened_inode hb
    exact h.header
  · exact (mapOpened_inode hb).1.trans (mapOpened_inode hc).1.symm
  · obtain ⟨-, rfl⟩ := mapOpened_inode hb
    cases hr
  · cases (h.slot_none j).symm.trans hj
  · obtain rfl := Option.some.inj (h.root_header.symm.trans hdir)
    exact h.root_length
  · obtain ⟨rfl, rfl⟩ := mapOpened_inode hb
    have hzero : (v.mapOpened fm).fileRefs 1 = 0 := Count.count_eq_zero.mpr fun f _ => by
      show (v.files f).map OpenFile.inode ≠ some 1
      rw [h.files]
      nofun
    refine ⟨?_, Nat.one_pos⟩
    rw [hzero, bump, Function.update_self]
  · have hb1 : b ≠ 1 := by
      rintro rfl
      cases hb
    exact Function.update_of_ne hb1 ..
  · rw [(mapOpened_inode hb).1]
    exact Nat.one_lt_two
  · cases (h.files f).symm.trans hf
  · refine ⟨1, ⟨freeMapSector, 1, false, fm⟩, rfl, rfl, rfl, h.length, ?_, h.decodes.1, fun x _ => rfl⟩
    simp [bump]

theorem filesysInit_rootMade {size : Fin (2 ^ 32)} (hr : filesysInit size disk = some v) :
    ∃ (w : Volume) (fm root : Inode), w.RootMade fm root ∧ v = w.mapOpened fm := by
  simp only [filesysInit, doFormat, Option.bind_eq_bind, Option.bind_eq_some_iff] at hr
  obtain ⟨v₂, ⟨⟨a, v₁⟩, hmap, ⟨ok, v₃⟩, hroot, hclose⟩, hopen⟩ := hr
  obtain ⟨rfl, -, fm, hmade⟩ := mapMade_of_create size.isLt hmap
  cases ok with
  | false => simp at hclose
  | true =>
    obtain ⟨root, hmade'⟩ := hmade.createRoot hroot
    have hv₂ : v₂ = v₃.setInode 0 none := by
      simp only [inodeClose, hmade'.inode_eq, if_true, Option.bind_eq_bind, Option.bind_some] at hclose
      simpa using hclose.symm
    rw [hv₂] at hopen
    exact ⟨v₃, fm, root, hmade', hmade'.reopen hopen⟩

/-- **A formatted disk.** -/
theorem filesysInit_inv {size : Fin (2 ^ 32)} (hr : filesysInit size disk = some v) : ∃ ex, Inv v ex := by
  obtain ⟨w, fm, root, hmade, rfl⟩ := filesysInit_rootMade hr
  exact ⟨_, hmade.inv⟩

end PintosKaist.Filesys.Volume
