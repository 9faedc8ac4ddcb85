/-
Who owns which sectors of the disk. The owners are the free map, the root
directory, the files it lists and the files that are open; each holds the
sector of its inode and its data. No sector is held twice, and what is held is
marked in the free map, in memory and on the disk.

`Inv` is what every call keeps, also halfway: `ex` counts the references to
open inodes that are not files, such as that of the free map and those of a
call that has the root directory open.
-/
import PintosKaist.Filesys.Local
import PintosKaist.Lib.Count
import PintosKaist.Lib.Owners

namespace PintosKaist.Filesys.Volume

open Owners

variable {v v' : Volume} {ex : Nat → Nat} {a n x : Nat} {i : Inode}

/-- The inode that sector `n` of the disk holds. -/
def header (v : Volume) (n : Nat) : Option Inode := readInode v.disk n

/-- The inode sector that slot `k` of the root directory lists. -/
def slot (v : Volume) (k : Nat) : Option Nat := (v.header rootDirSector).bind fun dir => slotOf v.disk dir k

def Listed (v : Volume) (n : Nat) : Prop := ∃ k, v.slot k = some n

def Opened (v : Volume) (n : Nat) : Prop := ∃ a ino, v.inodes a = some ino ∧ ino.sector = n

/-- The inode sectors of the owners. -/
def Live (v : Volume) (n : Nat) : Prop := n = freeMapSector ∨ n = rootDirSector ∨ v.Listed n ∨ v.Opened n

/-- The owner with inode sector `n` holds sector `x`. -/
def Holds (v : Volume) (n x : Nat) : Prop := x = n ∨ ∃ i, v.header n = some i ∧ i.Has x

def Used (v : Volume) (x : Nat) : Prop := x < v.size ∧ v.freeMap.bit x = true

/-- No owner holds `x`. -/
def Unheld (v : Volume) (x : Nat) : Prop := Unowned v.Live v.Holds x

/-- The open files on the inode at `a`. -/
def fileRefs (v : Volume) (a : Nat) : Nat :=
  Count.count (Finset.range v.nextFile) (fun f => (v.files f).map OpenFile.inode) (some a)

/-- The free map on the disk is the one in memory. -/
def Decodes (v : Volume) (data : Inode) : Prop :=
  (v.bitmapRead data).1 = true ∧ ∀ x < v.size, (v.bitmapRead data).2 x = v.freeMap.bit x

/-- The file of the free map. -/
structure FreeMapFile (v : Volume) (ex : Nat → Nat) (a : Nat) (fm : OpenInode) : Prop where
  file : v.freeMapFile = some a
  inode : v.inodes a = some fm
  sector : fm.sector = freeMapSector
  length : fm.data.length = byteCnt v.size
  held : 0 < ex a
  decodes : v.Decodes fm.data

/-- An open file is on an open inode, neither the free map's nor the root
directory's. -/
structure FileOk (v : Volume) (file : OpenFile) (ino : OpenInode) : Prop where
  inode : v.inodes file.inode = some ino
  ne_freeMap : ino.sector ≠ freeMapSector
  ne_root : ino.sector ≠ rootDirSector
  pos_nonneg : 0 ≤ file.pos
  pos_lt : file.pos < 2 ^ 31

structure Inv (v : Volume) (ex : Nat → Nat) : Prop where
  excl : Exclusive v.Live v.Holds v.Used
  header : ∀ n, v.Live n → ∃ i, v.header n = some i ∧ ¬ i.Has n ∧ i.On v.size
  data : ∀ a ino, v.inodes a = some ino → v.header ino.sector = some ino.data
  inj : ∀ a b ino jno, v.inodes a = some ino → v.inodes b = some jno → ino.sector = jno.sector → a = b
  removed : ∀ a ino, v.inodes a = some ino → ino.removed = true →
    ¬ v.Listed ino.sector ∧ ino.sector ≠ freeMapSector ∧ ino.sector ≠ rootDirSector
  slots : ∀ j k n, v.slot j = some n → v.slot k = some n → j = k
  listed : ∀ n, v.Listed n → n ≠ freeMapSector ∧ n ≠ rootDirSector
  root : ∀ dir, v.header rootDirSector = some dir → dir.length = (16 * entrySize : Nat)
  refs : ∀ a ino, v.inodes a = some ino → ino.openCnt = v.fileRefs a + ex a ∧ 0 < ino.openCnt
  ex_zero : ∀ a, v.inodes a = none → ex a = 0
  inodes_lt : ∀ a ino, v.inodes a = some ino → a < v.nextInode
  files : ∀ f file, v.files f = some file → f < v.nextFile ∧ ∃ ino, v.FileOk file ino
  freeMap : ∃ a fm, v.FreeMapFile ex a fm
  map_size : v.freeMap.size = v.size
  size_lt : v.size < 2 ^ 32

theorem Live.freeMap : v.Live freeMapSector := .inl rfl

theorem Live.root : v.Live rootDirSector := .inr (.inl rfl)

theorem Live.listed (h : v.Listed n) : v.Live n := .inr (.inr (.inl h))

theorem Live.opened {ino : OpenInode} (h : v.inodes a = some ino) : v.Live ino.sector :=
  .inr (.inr (.inr ⟨a, ino, h, rfl⟩))

theorem Holds.self : v.Holds n n := .inl rfl

theorem Holds.data (h : v.header n = some i) (hx : i.Has x) : v.Holds n x := .inr ⟨i, h, hx⟩

theorem FileOk.congr {file : OpenFile} {ino : OpenInode} (h : v.FileOk file ino)
    (hi : v'.inodes file.inode = v.inodes file.inode) : v'.FileOk file ino :=
  ⟨hi.trans h.inode, h.ne_freeMap, h.ne_root, h.pos_nonneg, h.pos_lt⟩

/-- Data sectors of one owner are not the inode sector of another. -/
theorem Inv.not_has {m : Nat} (h : Inv v ex) (hn : v.Live n) (hi : v.header n = some i) (hm : v.Live m) : ¬ i.Has m := by
  intro hx
  obtain rfl := h.excl.unique hn hm (.data hi hx) .self
  obtain ⟨j, hj, hself, -⟩ := h.header n hn
  obtain rfl := Option.some.inj (hi.symm.trans hj)
  exact hself hx

/-- Nor data of another. -/
theorem Inv.not_has_both {m : Nat} {j : Inode} (h : Inv v ex) (hn : v.Live n) (hi : v.header n = some i) (hm : v.Live m)
    (hj : v.header m = some j) (hne : n ≠ m) (hx : i.Has x) : ¬ j.Has x :=
  fun hy => hne (h.excl.unique hn hm (.data hi hx) (.data hj hy))

/-! ## Writes to the disk -/

/-- `v'` differs from `v` in its disk and free map only, and has the same
owners, with the same inodes and the same directory. -/
structure Keeps (v v' : Volume) : Prop where
  size : v'.size = v.size
  inodes : v'.inodes = v.inodes
  nextInode : v'.nextInode = v.nextInode
  files : v'.files = v.files
  nextFile : v'.nextFile = v.nextFile
  freeMapFile : v'.freeMapFile = v.freeMapFile
  slot : ∀ k, v'.slot k = v.slot k
  header : ∀ n, v.Live n → v'.header n = v.header n

theorem Keeps.refl : Keeps v v := ⟨rfl, rfl, rfl, rfl, rfl, rfl, fun _ => rfl, fun _ _ => rfl⟩

theorem Keeps.listed (h : Keeps v v') : v'.Listed n ↔ v.Listed n := by
  simp only [Listed, h.slot]

theorem Keeps.live (h : Keeps v v') : v'.Live n ↔ v.Live n := by
  simp only [Live, h.listed, Opened, h.inodes]

theorem Keeps.holds (h : Keeps v v') (hn : v.Live n) : v'.Holds n x ↔ v.Holds n x := by
  simp only [Holds, h.header n hn]

theorem Keeps.unheld (h : Keeps v v') (hx : v.Unheld x) : v'.Unheld x :=
  fun n hn hr => hx n (h.live.mp hn) ((h.holds (h.live.mp hn)).mp hr)

theorem Keeps.trans {w : Volume} (h : Keeps v v') (h' : Keeps v' w) : Keeps v w where
  size := h'.size.trans h.size
  inodes := h'.inodes.trans h.inodes
  nextInode := h'.nextInode.trans h.nextInode
  files := h'.files.trans h.files
  nextFile := h'.nextFile.trans h.nextFile
  freeMapFile := h'.freeMapFile.trans h.freeMapFile
  slot k := (h'.slot k).trans (h.slot k)
  header n hn := (h'.header n (h.live.mpr hn)).trans (h.header n hn)

/-- A disk on which the sectors of the inodes and the data of the directory are
the same. -/
theorem keeps_of_sameOn {d : Disk} {b : Bitmap} (hinode : ∀ n, v.Live n → SameOn v.disk d n)
    (hroot : ∀ dir, v.header rootDirSector = some dir → ∀ x, dir.Has x → SameOn v.disk d x) :
    Keeps v { v with disk := d, freeMap := b } := by
  have hhdr : ∀ n, v.Live n → readInode d n = readInode v.disk n := fun n hn => readInode_congr (hinode n hn)
  refine ⟨rfl, rfl, rfl, rfl, rfl, rfl, fun k => ?_, hhdr⟩
  simp only [slot, Volume.header, hhdr _ Live.root]
  cases hdir : readInode v.disk rootDirSector with
  | none => rfl
  | some dir => exact slotOf_congr (hroot dir hdir)

/-- The owners and what they hold do not change: it is enough that what is held
is still marked, and that the disk has the new free map. -/
theorem Inv.of_keeps (h : Inv v ex) (hk : Keeps v v') (hmark : ∀ n x, v.Live n → v.Holds n x → v'.freeMap.bit x = true)
    (hmap : v'.freeMap.size = v.size) (hdec : ∀ a fm, v.FreeMapFile ex a fm → v'.Decodes fm.data) : Inv v' ex where
  excl := by
    refine h.excl.mono (fun n hn => hk.live.mp hn) (fun n x hn hx => (hk.holds (hk.live.mp hn)).mp hx) fun n x hn hx => ?_
    have hn := hk.live.mp hn
    have hx := (hk.holds hn).mp hx
    exact ⟨hk.size ▸ (h.excl.used hn hx).1, hmark n x hn hx⟩
  header n hn := by
    rw [hk.header n (hk.live.mp hn), hk.size]
    exact h.header n (hk.live.mp hn)
  data a ino ha := by
    rw [hk.inodes] at ha
    rw [hk.header _ (.opened ha)]
    exact h.data a ino ha
  inj := by
    rw [hk.inodes]
    exact h.inj
  removed a ino ha hr := by
    rw [hk.inodes] at ha
    rw [hk.listed]
    exact h.removed a ino ha hr
  slots j k n := by
    rw [hk.slot, hk.slot]
    exact h.slots j k n
  listed n hn := h.listed n (hk.listed.mp hn)
  root dir hdir := h.root dir (hk.header _ .root ▸ hdir)
  refs a ino ha := by
    rw [hk.inodes] at ha
    simp only [fileRefs, hk.files, hk.nextFile]
    exact h.refs a ino ha
  ex_zero := by
    rw [hk.inodes]
    exact h.ex_zero
  inodes_lt a ino ha := by
    rw [hk.inodes] at ha
    rw [hk.nextInode]
    exact h.inodes_lt a ino ha
  files f file hf := by
    rw [hk.files] at hf
    obtain ⟨hlt, ino, hok⟩ := h.files f file hf
    exact ⟨hk.nextFile ▸ hlt, ino, hok.congr (by rw [hk.inodes])⟩
  freeMap := by
    obtain ⟨a, fm, hf⟩ := h.freeMap
    exact ⟨a, fm, hk.freeMapFile ▸ hf.file, hk.inodes ▸ hf.inode, hf.sector, hk.size ▸ hf.length, hf.held,
      hdec a fm hf⟩
  map_size := hmap.trans hk.size.symm
  size_lt := hk.size ▸ h.size_lt

/-! ## The free map -/

/-- The bytes of the free map are all in its file. -/
theorem FreeMapFile.inFile {fm : OpenInode} (hf : v.FreeMapFile ex a fm) :
    inFile fm.data (byteCnt v.size) 0 = byteCnt v.size := by
  simp only [Filesys.inFile, hf.length]
  omega

theorem bitmapRead_eq {data : Inode} (hin : inFile data (byteCnt v.freeMap.size) 0 = byteCnt v.freeMap.size) :
    v.bitmapRead data = (true, fun x => decide (x < v.freeMap.size) &&
      bitsOf ((List.range (byteCnt v.freeMap.size)).map fun k => v.disk (data.addr 0 + k)) x) := by
  simp only [bitmapRead]
  rw [inodeReadAt_eq (by omega) (by omega), hin]
  simp

/-- A disk with the same free-map data. -/
theorem Decodes.congr {data : Inode} {d : Disk} (h : v.Decodes data) (hd : ∀ x, data.Has x → SameOn v.disk d x) :
    Decodes { v with disk := d } data := by
  simp only [Decodes, bitmapRead] at h ⊢
  rwa [inodeReadAt_congr hd (by omega) (by omega)]

/-- The free map reads back as it was written. -/
theorem decodes_patch {data : Inode} {b : Bitmap} (hb : b.size = v.size)
    (hin : inFile data (byteCnt b.size) 0 = byteCnt b.size) :
    Decodes { v with disk := patch v.disk (data.addr 0) (byteCnt b.size) (bitmapBytes b), freeMap := b } data := by
  have hread := @bitmapRead_eq
    { v with disk := patch v.disk (data.addr 0) (byteCnt b.size) (bitmapBytes b), freeMap := b } data hin
  refine ⟨by rw [hread], fun x (hx : x < v.size) => ?_⟩
  rw [← hb] at hx
  have hlt : x / 8 < byteCnt b.size := by
    simp only [byteCnt]
    omega
  rw [hread]
  simp only [hx, decide_true, Bool.true_and]
  refine bitsOf_bitmapBytes b _ _ x hlt fun k hk => ?_
  rw [patch, if_pos (by omega), Nat.add_sub_cancel_left]

/-- The free map is written whole when its file has room for it. -/
theorem bitmapWrite_eq {ino : OpenInode} (ha : v.inodes a = some ino) (hon : ino.data.On v.size)
    (hin : inFile ino.data (byteCnt v.freeMap.size) 0 = byteCnt v.freeMap.size) :
    v.bitmapWrite a = some (true, { v with
      disk := patch v.disk (ino.data.addr 0) (byteCnt v.freeMap.size) (bitmapBytes v.freeMap) }) := by
  simp only [bitmapWrite, ha, Option.bind_eq_bind, Option.bind_some]
  rw [inodeWriteAt_eq hon (by omega) (by omega), hin]
  simp only [Option.bind_some, beq_self_eq_true, Int.toNat_natCast, Int.toNat_zero]

theorem Inv.header_freeMap {fm : OpenInode} (h : Inv v ex) (hf : v.FreeMapFile ex a fm) :
    v.header freeMapSector = some fm.data :=
  hf.sector ▸ h.data a fm hf.inode

/-- The file of the free map takes a map of its size whole, in its own sectors. -/
theorem Inv.bitmapWrite_patch {fm : OpenInode} {b : Bitmap} (h : Inv v ex) (hf : v.FreeMapFile ex a fm)
    (hb : b.size = v.size) :
    Volume.bitmapWrite { v with freeMap := b } a =
        some (true, { v with disk := patch v.disk (fm.data.addr 0) (byteCnt b.size) (bitmapBytes b), freeMap := b }) ∧
      ∀ x, ¬ fm.data.Has x →
        SameOn v.disk (patch v.disk (fm.data.addr 0) (byteCnt b.size) (bitmapBytes b)) x := by
  obtain ⟨i, hi, -, hon⟩ := h.header _ Live.freeMap
  obtain rfl := Option.some.inj ((h.header_freeMap hf).symm.trans hi)
  refine ⟨@bitmapWrite_eq { v with freeMap := b } a fm hf.inode hon (hb ▸ hf.inFile), fun x hx => ?_⟩
  refine patch_sameOn hx ?_
  rw [hf.length, hb]
  omega

/-- **Writing the free map**, with everything that is held marked in it. -/
theorem Inv.bitmapWrite {fm : OpenInode} {b : Bitmap} (h : Inv v ex) (hf : v.FreeMapFile ex a fm) (hb : b.size = v.size)
    (hmark : ∀ n x, v.Live n → v.Holds n x → b.bit x = true) :
    ∃ d, Volume.bitmapWrite { v with freeMap := b } a = some (true, { v with disk := d, freeMap := b }) ∧
      Inv { v with disk := d, freeMap := b } ex ∧ Keeps v { v with disk := d, freeMap := b } := by
  have hhdr := h.header_freeMap hf
  obtain ⟨hw, hsame⟩ := h.bitmapWrite_patch hf hb
  let d := patch v.disk (fm.data.addr 0) (byteCnt b.size) (bitmapBytes b)
  have hkeep : Keeps v { v with disk := d, freeMap := b } := by
    refine keeps_of_sameOn (fun n hn => hsame n (h.not_has .freeMap hhdr hn)) fun dir hdir x hx => hsame x ?_
    exact h.not_has_both .root hdir .freeMap hhdr (by decide) hx
  refine ⟨d, hw, h.of_keeps hkeep hmark hb fun a' fm' hf' => ?_, hkeep⟩
  obtain rfl : a' = a := Option.some.inj (hf'.file.symm.trans hf.file)
  obtain rfl := Option.some.inj (hf'.inode.symm.trans hf.inode)
  exact decodes_patch hb (hb ▸ hf.inFile)

/-- `free_map_allocate` finds sectors nobody holds, and marks them. -/
theorem Inv.allocate {cnt : Nat} {r : Option Nat} (h : Inv v ex) (hr : v.freeMapAllocate cnt = some (r, v')) :
    Inv v' ex ∧ Keeps v v' ∧ (∀ x, v.freeMap.bit x = true → v'.freeMap.bit x = true) ∧
      ∀ start, r = some start → start + cnt ≤ v.size ∧
        ∀ x, start ≤ x → x < start + cnt → v.freeMap.bit x = false ∧ v'.freeMap.bit x = true := by
  obtain ⟨a, fm, hf⟩ := h.freeMap
  simp only [freeMapAllocate] at hr
  cases hscan : v.freeMap.scan cnt with
  | none =>
    simp only [hscan, Option.some.injEq, Prod.mk.injEq] at hr
    obtain ⟨rfl, rfl⟩ := hr
    exact ⟨h, .refl, fun _ hx => hx, fun start hs => by cases hs⟩
  | some sector =>
    obtain ⟨hle, hfree⟩ := Bitmap.scan_some hscan
    have hmono : ∀ x, v.freeMap.bit x = true → (v.freeMap.setMultiple sector cnt true).bit x = true := by
      intro x hx
      rw [Bitmap.setMultiple_bit]
      split
      · rfl
      · exact hx
    obtain ⟨d, hw, hinv, hkeep⟩ := h.bitmapWrite hf (b := v.freeMap.setMultiple sector cnt true) h.map_size
      fun n x hn hx => hmono x (h.excl.used hn hx).2
    simp only [hscan] at hr
    split at hr
    · rename_i hnone
      exact absurd (hnone.symm.trans hf.file) (by simp)
    rename_i a' ha'
    obtain rfl : a' = a := Option.some.inj (ha'.symm.trans hf.file)
    rw [hw] at hr
    simp only [Option.bind_eq_bind, Option.bind_some, if_true, Option.some.injEq, Prod.mk.injEq] at hr
    obtain ⟨rfl, rfl⟩ := hr
    refine ⟨hinv, hkeep, hmono, fun start hs => ?_⟩
    obtain rfl := Option.some.inj hs
    refine ⟨h.map_size ▸ hle, fun x h₁ h₂ => ⟨hfree x h₁ h₂, ?_⟩⟩
    show (v.freeMap.setMultiple sector cnt true).bit x = true
    rw [Bitmap.setMultiple_bit, if_pos ⟨h₁, h₂⟩]

/-- `free_map_release` of sectors nobody holds. -/
theorem Inv.release {sector cnt : Nat} (h : Inv v ex) (hun : ∀ x, sector ≤ x → x < sector + cnt → v.Unheld x)
    (hr : v.freeMapRelease sector cnt = some v') : Inv v' ex ∧ Keeps v v' := by
  obtain ⟨a, fm, hf⟩ := h.freeMap
  simp only [freeMapRelease, Option.ite_none_right_eq_some, Option.bind_eq_bind, Option.bind_eq_some_iff] at hr
  obtain ⟨-, a', ha', r, hr, hv⟩ := hr
  obtain rfl : a' = a := Option.some.inj (ha'.symm.trans hf.file)
  obtain ⟨d, hw, hinv, hkeep⟩ := h.bitmapWrite hf (b := v.freeMap.setMultiple sector cnt false) h.map_size
    fun n x hn hx => by
      rw [Bitmap.setMultiple_bit, if_neg fun hin => hun x hin.1 hin.2 n hn hx]
      exact (h.excl.used hn hx).2
  obtain rfl := Option.some.inj (hw.symm.trans hr)
  obtain rfl := Option.some.inj hv
  exact ⟨hinv, hkeep⟩

/-! ## Creating an inode -/

theorem sectorCnt_eq {length : Int} (h₀ : 0 ≤ length) (h₁ : length < 2 ^ 31) (h : sectorCnt length < 2 ^ 32) :
    sectorCnt length = bytesToSectors length := by
  by_cases hw : length + 511 < 2 ^ 31
  · have hoff : offT (length + sectorSize - 1) = length + sectorSize - 1 := by
      refine offT_of_range ?_ ?_ <;> simp only [sectorSize] <;> omega
    have hdiv : (length + sectorSize - 1).tdiv sectorSize = (length + sectorSize - 1) / sectorSize := by
      refine Int.tdiv_eq_ediv_of_nonneg ?_
      simp only [sectorSize]
      omega
    rw [sectorCnt, hoff, hdiv]
    simp only [bytesToSectors, sectorSize]
    omega
  · -- the sum overflows, and the count is huge
    have hoff : offT (length + sectorSize - 1) = length + sectorSize - 1 - 2 ^ 32 := by
      simp only [offT, sectorSize]
      omega
    have hneg : (length + sectorSize - 1 - 2 ^ 32).tdiv sectorSize =
          -((2 ^ 32 - (length + sectorSize - 1)) / sectorSize) := by
      rw [show length + sectorSize - 1 - 2 ^ 32 = -(2 ^ 32 - (length + sectorSize - 1)) by omega, Int.neg_tdiv,
        Int.tdiv_eq_ediv_of_nonneg]
      simp only [sectorSize]
      omega
    rw [sectorCnt, hoff, hneg] at h
    simp only [sectorSize] at h
    omega

/-- What `inode_create` has made of a sector: an inode whose data nobody else
holds. -/
structure Made (v : Volume) (sector : Nat) (i : Inode) : Prop where
  header : v.header sector = some i
  not_has : ¬ i.Has sector
  on : i.On v.size
  used : ∀ x, i.Has x → v.Used x
  unheld : ∀ x, i.Has x → v.Unheld x

/-- `inode_create` in a sector that is marked and that nobody holds. -/
theorem Inv.inodeCreate {sector : Nat} {length : Int} {ok : Bool} (h : Inv v ex) (hs : v.Used sector)
    (hun : v.Unheld sector) (hl : length < 2 ^ 31) (hr : v.inodeCreate sector length = some (ok, v')) :
    Inv v' ex ∧ Keeps v v' ∧ v'.Used sector ∧ (ok = true → ∃ i, v'.Made sector i) := by
  simp only [Volume.inodeCreate] at hr
  split at hr
  · cases hr
  rename_i hl₀
  simp only [Option.bind_eq_bind, Option.bind_eq_some_iff] at hr
  obtain ⟨⟨r, v₁⟩, halloc, hr⟩ := hr
  obtain ⟨hinv, hkeep, hmono, hfound⟩ := h.allocate halloc
  have hused : v₁.Used sector := ⟨hkeep.size ▸ hs.1, hmono sector hs.2⟩
  cases r with
  | none =>
    simp only [Option.some.injEq, Prod.mk.injEq] at hr
    obtain ⟨rfl, rfl⟩ := hr
    exact ⟨hinv, hkeep, hused, by simp⟩
  | some start =>
    simp only [Option.ite_none_right_eq_some, Option.some.injEq, Prod.mk.injEq] at hr
    obtain ⟨-, rfl, rfl⟩ := hr
    obtain ⟨hle, hrun⟩ := hfound start rfl
    have hsize := h.size_lt
    have hcnt : sectorCnt length = bytesToSectors length := sectorCnt_eq (by omega) hl (by omega)
    let i : Inode := ⟨start, length, by omega, hl, by omega⟩
    have hhas : ∀ x, i.Has x ↔ start ≤ x ∧ x < start + sectorCnt length := by
      intro x
      rw [hcnt]
      exact Iff.rfl
    -- the new data was not marked before, so nobody holds it
    have hnew : ∀ x, i.Has x → v.Unheld x := by
      intro x hx
      refine h.excl.unowned fun hu => ?_
      have := (hrun x ((hhas x).mp hx).1 ((hhas x).mp hx).2).1
      rw [hu.2] at this
      cases this
    have hself : ¬ i.Has sector := by
      intro hx
      have := (hrun sector ((hhas sector).mp hx).1 ((hhas sector).mp hx).2).1
      rw [hs.2] at this
      cases this
    let d := zeroSectors (diskWrite v₁.disk sector (inodeDisk start length)) start (sectorCnt length)
    have hsame : ∀ x, x ≠ sector → ¬ i.Has x → SameOn v₁.disk d x := fun x hx hi =>
      (diskWrite_sameOn hx).trans (zeroSectors_sameOn fun hin => hi ((hhas x).mpr hin))
    have hheld : ∀ n x, v₁.Live n → v₁.Holds n x → SameOn v₁.disk d x := by
      intro n x hn hx
      refine hsame x ?_ fun hi => hkeep.unheld (hnew x hi) n hn hx
      rintro rfl
      exact hkeep.unheld hun n hn hx
    have hkeep' : Keeps v₁ { v₁ with disk := d } :=
      keeps_of_sameOn (fun n hn => hheld n n hn .self) fun dir hdir x hx => hheld _ x .root (.data hdir hx)
    have hinv' : Inv { v₁ with disk := d } ex := by
      refine hinv.of_keeps hkeep' (fun n x hn hx => (hinv.excl.used hn hx).2) hinv.map_size fun a fm hf => ?_
      refine hf.decodes.congr fun x hx => hheld freeMapSector x .freeMap (.data ?_ hx)
      exact hf.sector ▸ hinv.data a fm hf.inode
    refine ⟨hinv', hkeep.trans hkeep', hused, fun _ => ⟨i, ?_, hself, ?_, ?_, ?_⟩⟩
    · have hzero : SameOn (diskWrite v₁.disk sector (inodeDisk start length)) d sector :=
        zeroSectors_sameOn fun hin => hself ((hhas sector).mpr hin)
      show readInode d sector = some i
      rw [readInode_congr hzero]
      exact readInode_diskWrite (i := i) sector (by show start < 2 ^ 32; omega)
    · show start + bytesToSectors length ≤ v₁.size
      rw [hkeep.size]
      omega
    · intro x hx
      obtain ⟨h₁, h₂⟩ := (hhas x).mp hx
      exact ⟨by show x < v₁.size; rw [hkeep.size]; omega, (hrun x h₁ h₂).2⟩
    · intro x hx
      exact (hkeep.trans hkeep').unheld (hnew x hx)

/-! ## Opening and closing inodes -/

theorem setInode_inodes {b : Nat} {o : Option OpenInode} :
    (v.setInode a o).inodes b = if b = a then o else v.inodes b := Function.update_apply ..

/-- The owners are still owners when every open inode is on a sector of one. -/
theorem Live.of_inodes {w : Volume} (hn : w.Live n) (hdisk : w.disk = v.disk)
    (hi : ∀ b jno, w.inodes b = some jno → v.Live jno.sector) : v.Live n := by
  obtain hn | hn | hn | ⟨b, jno, hb, rfl⟩ := hn
  · exact .inl hn
  · exact .inr (.inl hn)
  · simp only [Listed, slot, Volume.header, hdisk] at hn
    exact .listed hn
  · exact hi b jno hb

/-- A change to a struct inode that leaves it the inode it is. -/
theorem Inv.setInode {ino ino' : OpenInode} {ex' : Nat → Nat} (h : Inv v ex) (ha : v.inodes a = some ino)
    (hsector : ino'.sector = ino.sector) (hdata : ino'.data = ino.data)
    (hremoved : ino'.removed = true →
      ¬ v.Listed ino.sector ∧ ino.sector ≠ freeMapSector ∧ ino.sector ≠ rootDirSector)
    (hrefs : ino'.openCnt = v.fileRefs a + ex' a ∧ 0 < ino'.openCnt) (hex : ∀ b, b ≠ a → ex' b = ex b)
    (hheld : v.freeMapFile = some a → 0 < ex' a) : Inv (v.setInode a (some ino')) ex' := by
  have hold : ∀ b jno, (v.setInode a (some ino')).inodes b = some jno →
      ∃ jno', v.inodes b = some jno' ∧ jno.sector = jno'.sector ∧ jno.data = jno'.data := by
    intro b jno hb
    rw [setInode_inodes] at hb
    split at hb
    · rename_i hba
      obtain rfl := Option.some.inj hb
      exact ⟨ino, hba ▸ ha, hsector, hdata⟩
    · exact ⟨jno, hb, rfl, rfl⟩
  have hlive : ∀ n, (v.setInode a (some ino')).Live n → v.Live n := by
    refine fun n hn => hn.of_inodes rfl fun b jno hb => ?_
    obtain ⟨jno', hb', hs, -⟩ := hold b jno hb
    exact hs ▸ .opened hb'
  refine ⟨h.excl.mono hlive (fun _ _ _ hx => hx) (fun n x hn hx => h.excl.used (hlive n hn) hx),
    fun n hn => h.header n (hlive n hn), fun b jno hb => ?_, fun b c jno kno hb hc heq => ?_, fun b jno hb hr => ?_,
    h.slots, h.listed, h.root, fun b jno hb => ?_, fun b hb => ?_, fun b jno hb => ?_, fun f file hf => ?_, ?_, h.map_size,
    h.size_lt⟩
  · obtain ⟨jno', hb', hs, hd⟩ := hold b jno hb
    rw [hs, hd]
    exact h.data b jno' hb'
  · obtain ⟨jno', hb', hs, -⟩ := hold b jno hb
    obtain ⟨kno', hc', hs', -⟩ := hold c kno hc
    exact h.inj b c jno' kno' hb' hc' (hs ▸ hs' ▸ heq)
  · rw [setInode_inodes] at hb
    split at hb
    · obtain rfl := Option.some.inj hb
      rw [hsector]
      exact hremoved hr
    · exact h.removed b jno hb hr
  · rw [setInode_inodes] at hb
    split at hb
    · rename_i hba
      obtain rfl := Option.some.inj hb
      exact hba ▸ hrefs
    · rename_i hba
      rw [hex b hba]
      exact h.refs b jno hb
  · rw [setInode_inodes] at hb
    split at hb
    · cases hb
    · rename_i hba
      rw [hex b hba]
      exact h.ex_zero b hb
  · obtain ⟨jno', hb', -, -⟩ := hold b jno hb
    exact h.inodes_lt b jno' hb'
  · obtain ⟨hlt, jno, hok⟩ := h.files f file hf
    refine ⟨hlt, ?_⟩
    by_cases hfa : file.inode = a
    · obtain rfl := Option.some.inj (ha.symm.trans (hfa ▸ hok.inode))
      refine ⟨ino', ?_, hsector ▸ hok.ne_freeMap, hsector ▸ hok.ne_root, hok.pos_nonneg, hok.pos_lt⟩
      rw [setInode_inodes, if_pos hfa]
    · exact ⟨jno, hok.congr (by rw [setInode_inodes, if_neg hfa])⟩
  · obtain ⟨b, fm, hf⟩ := h.freeMap
    by_cases hba : b = a
    · subst hba
      obtain rfl := Option.some.inj (ha.symm.trans hf.inode)
      refine ⟨b, ino', hf.file, ?_, hsector.trans hf.sector, ?_, hheld hf.file, ?_⟩
      · rw [setInode_inodes, if_pos rfl]
      · rw [hdata]
        exact hf.length
      · rw [hdata]
        exact hf.decodes
    · refine ⟨b, fm, hf.file, ?_, hf.sector, hf.length, ?_, hf.decodes⟩
      · rw [setInode_inodes, if_neg hba]
        exact hf.inode
      · rw [hex b hba]
        exact hf.held

/-- One more reference that is not a file, one less. -/
def bump (ex : Nat → Nat) (a : Nat) : Nat → Nat := Function.update ex a (ex a + 1)
def unbump (ex : Nat → Nat) (a : Nat) : Nat → Nat := Function.update ex a (ex a - 1)

theorem findOpen_some {sector : Nat} (h : v.findOpen sector = some a) :
    ∃ ino, v.inodes a = some ino ∧ ino.sector = sector := by
  have := List.find?_some h
  obtain ⟨ino, ha, hs⟩ := (Option.any_eq_true ..).mp this
  exact ⟨ino, ha, by simpa using hs⟩

theorem findOpen_none {sector : Nat} {ino : OpenInode} (hinv : Inv v ex) (h : v.findOpen sector = none)
    (ha : v.inodes a = some ino) : ino.sector ≠ sector := by
  intro hs
  have hmem : a ∈ (List.range v.nextInode).reverse := by
    simpa using hinv.inodes_lt a ino ha
  have := List.find?_eq_none.mp h a hmem
  simp [ha, hs] at this

/-- No file is on an inode that is not open. -/
theorem Inv.fileRefs_eq_zero (h : Inv v ex) (ha : v.inodes a = none) : v.fileRefs a = 0 := by
  refine Count.count_eq_zero.mpr fun f _ hf => ?_
  simp only [Option.map_eq_some_iff] at hf
  obtain ⟨file, hfile, rfl⟩ := hf
  obtain ⟨-, ino, hok⟩ := h.files f file hfile
  cases ha.symm.trans hok.inode

/-- A struct inode for an owner that had none. -/
theorem Inv.newInode {sector : Nat} {data : Inode} (h : Inv v ex) (hs : v.Live sector) (hfind : v.findOpen sector = none)
    (hdata : v.header sector = some data) :
    Inv { v.setInode v.nextInode (some ⟨sector, 1, false, data⟩) with nextInode := v.nextInode + 1 }
      (bump ex v.nextInode) := by
  have hfresh : v.inodes v.nextInode = none := by
    cases hn : v.inodes v.nextInode with
    | none => rfl
    | some ino => exact absurd (h.inodes_lt _ ino hn) (Nat.lt_irrefl _)
  have hne : ∀ b ino, v.inodes b = some ino → b ≠ v.nextInode := by
    rintro b ino hb rfl
    cases hfresh.symm.trans hb
  have hold : ∀ b jno, (v.setInode v.nextInode (some ⟨sector, 1, false, data⟩)).inodes b = some jno →
      (b = v.nextInode ∧ jno = ⟨sector, 1, false, data⟩) ∨ (b ≠ v.nextInode ∧ v.inodes b = some jno) := by
    intro b jno hb
    rw [setInode_inodes] at hb
    split at hb
    · rename_i hba
      exact .inl ⟨hba, (Option.some.inj hb).symm⟩
    · rename_i hba
      exact .inr ⟨hba, hb⟩
  have hlive : ∀ n, Live { v.setInode v.nextInode (some ⟨sector, 1, false, data⟩) with nextInode := v.nextInode + 1 } n →
      v.Live n := by
    refine fun n hn => hn.of_inodes rfl fun b jno hb => ?_
    obtain ⟨-, rfl⟩ | ⟨-, hb'⟩ := hold b jno hb
    · exact hs
    · exact .opened hb'
  refine ⟨h.excl.mono hlive (fun _ _ _ hx => hx) (fun n x hn hx => h.excl.used (hlive n hn) hx),
    fun n hn => h.header n (hlive n hn), fun b jno hb => ?_, fun b c jno kno hb hc heq => ?_, fun b jno hb hr => ?_,
    h.slots, h.listed, h.root, fun b jno hb => ?_, fun b hb => ?_, fun b jno hb => ?_, fun f file hf => ?_, ?_, h.map_size,
    h.size_lt⟩
  · obtain ⟨-, rfl⟩ | ⟨-, hb'⟩ := hold b jno hb
    · exact hdata
    · exact h.data b jno hb'
  · obtain ⟨rfl, rfl⟩ | ⟨-, hb'⟩ := hold b jno hb <;> obtain ⟨rfl, rfl⟩ | ⟨-, hc'⟩ := hold c kno hc
    · rfl
    · exact absurd heq.symm (findOpen_none h hfind hc')
    · exact absurd heq (findOpen_none h hfind hb')
    · exact h.inj b c jno kno hb' hc' heq
  · obtain ⟨-, rfl⟩ | ⟨-, hb'⟩ := hold b jno hb
    · cases hr
    · exact h.removed b jno hb' hr
  · obtain ⟨rfl, rfl⟩ | ⟨hba, hb'⟩ := hold b jno hb
    · have hzero := h.fileRefs_eq_zero hfresh
      have hex := h.ex_zero _ hfresh
      refine ⟨?_, Nat.one_pos⟩
      show 1 = v.fileRefs v.nextInode + _
      rw [hzero, bump, Function.update_self, hex]
    · rw [bump, Function.update_of_ne hba]
      exact h.refs b jno hb'
  · rw [show ({ v.setInode v.nextInode (some ⟨sector, 1, false, data⟩) with nextInode := v.nextInode + 1 } : Volume).inodes b =
      (v.setInode v.nextInode (some ⟨sector, 1, false, data⟩)).inodes b from rfl, setInode_inodes] at hb
    split at hb
    · cases hb
    · rename_i hba
      rw [bump, Function.update_of_ne hba]
      exact h.ex_zero b hb
  · obtain ⟨rfl, -⟩ | ⟨-, hb'⟩ := hold b jno hb
    · exact Nat.lt_succ_self _
    · exact Nat.lt_succ_of_lt (h.inodes_lt b jno hb')
  · obtain ⟨hlt, jno, hok⟩ := h.files f file hf
    refine ⟨hlt, jno, hok.congr ?_⟩
    show (v.setInode _ _).inodes _ = _
    rw [setInode_inodes, if_neg (hne _ jno hok.inode)]
  · obtain ⟨b, fm, hf⟩ := h.freeMap
    refine ⟨b, fm, hf.file, ?_, hf.sector, hf.length, ?_, hf.decodes⟩
    · show (v.setInode _ _).inodes _ = _
      rw [setInode_inodes, if_neg (hne b fm hf.inode)]
      exact hf.inode
    · rw [bump, Function.update_of_ne (hne b fm hf.inode)]
      exact hf.held

/-- `inode_open` of one of the owners. -/
theorem Inv.inodeOpen {sector : Nat} (h : Inv v ex) (hs : v.Live sector) (hr : v.inodeOpen sector = some (a, v')) :
    Inv v' (bump ex a) ∧ v'.disk = v.disk ∧ v'.files = v.files ∧ v'.nextFile = v.nextFile ∧
      v'.freeMapFile = v.freeMapFile ∧ ∃ ino, v'.inodes a = some ino ∧ ino.sector = sector := by
  simp only [Volume.inodeOpen] at hr
  split at hr
  · rename_i a' hfind
    obtain ⟨ino, ha, hsec⟩ := findOpen_some hfind
    simp only [inodeReopen, ha, Option.bind_eq_bind, Option.bind_some, Option.map_some, Option.some.injEq,
      Prod.mk.injEq] at hr
    obtain ⟨rfl, rfl⟩ := hr
    refine ⟨h.setInode ha rfl rfl (h.removed a' ino ha) ?_ (fun b hb => Function.update_of_ne hb ..) fun _ => ?_, rfl,
      rfl, rfl, rfl, { ino with openCnt := ino.openCnt + 1 }, ?_, hsec⟩
    · have := h.refs a' ino ha
      simp only [bump, Function.update_self]
      omega
    · simp [bump]
    · rw [setInode_inodes, if_pos rfl]
  · rename_i hfind
    simp only [Option.ite_none_right_eq_some, Option.bind_eq_bind, Option.bind_eq_some_iff, Option.some.injEq,
      Prod.mk.injEq] at hr
    obtain ⟨-, data, hdata, rfl, rfl⟩ := hr
    refine ⟨h.newInode hs hfind hdata, rfl, rfl, rfl, rfl, ⟨sector, 1, false, data⟩, ?_, rfl⟩
    show (v.setInode _ _).inodes _ = _
    rw [setInode_inodes, if_pos rfl]

/-- A struct inode that nobody refers to any more. -/
theorem Inv.freeInode {ino : OpenInode} (h : Inv v ex) (ha : v.inodes a = some ino) (hrefs : v.fileRefs a = 0)
    (hex : ex a = 1) (hfm : v.freeMapFile ≠ some a) : Inv (v.setInode a none) (unbump ex a) := by
  have hold : ∀ b jno, (v.setInode a none).inodes b = some jno → b ≠ a ∧ v.inodes b = some jno := by
    intro b jno hb
    rw [setInode_inodes] at hb
    split at hb
    · cases hb
    · rename_i hba
      exact ⟨hba, hb⟩
  have hlive : ∀ n, (v.setInode a none).Live n → v.Live n := fun n hn =>
    hn.of_inodes rfl fun b jno hb => .opened (hold b jno hb).2
  refine ⟨h.excl.mono hlive (fun _ _ _ hx => hx) (fun n x hn hx => h.excl.used (hlive n hn) hx),
    fun n hn => h.header n (hlive n hn), fun b jno hb => h.data b jno (hold b jno hb).2,
    fun b c jno kno hb hc heq => h.inj b c jno kno (hold b jno hb).2 (hold c kno hc).2 heq,
    fun b jno hb hr => h.removed b jno (hold b jno hb).2 hr, h.slots, h.listed, h.root, fun b jno hb => ?_, fun b hb => ?_,
    fun b jno hb => h.inodes_lt b jno (hold b jno hb).2, fun f file hf => ?_, ?_, h.map_size, h.size_lt⟩
  · rw [unbump, Function.update_of_ne (hold b jno hb).1]
    exact h.refs b jno (hold b jno hb).2
  · rw [setInode_inodes] at hb
    by_cases hba : b = a
    · subst hba
      simp [unbump, hex]
    · rw [if_neg hba] at hb
      rw [unbump, Function.update_of_ne hba]
      exact h.ex_zero b hb
  · obtain ⟨hlt, jno, hok⟩ := h.files f file hf
    have hfa : file.inode ≠ a := by
      rintro rfl
      have hf : v.files f = some file := hf
      exact Count.count_eq_zero.mp hrefs f (Finset.mem_range.mpr hlt) (by simp [hf])
    exact ⟨hlt, jno, hok.congr (by rw [setInode_inodes, if_neg hfa])⟩
  · obtain ⟨b, fm, hf⟩ := h.freeMap
    have hba : b ≠ a := by
      rintro rfl
      exact hfm hf.file
    refine ⟨b, fm, hf.file, ?_, hf.sector, hf.length, ?_, hf.decodes⟩
    · rw [setInode_inodes, if_neg hba]
      exact hf.inode
    · rw [unbump, Function.update_of_ne hba]
      exact hf.held

/-- The inode of the free map is the one at its sector. -/
theorem Inv.freeMapFile_ne {ino : OpenInode} (h : Inv v ex) (ha : v.inodes a = some ino)
    (hne : ino.sector ≠ freeMapSector) : v.freeMapFile ≠ some a := by
  intro hf
  obtain ⟨b, fm, hfree⟩ := h.freeMap
  obtain rfl : b = a := Option.some.inj (hfree.file.symm.trans hf)
  obtain rfl := Option.some.inj (hfree.inode.symm.trans ha)
  exact hne hfree.sector

/-- The sectors of an inode that was removed are nobody's when it is closed. -/
theorem Inv.unheld_of_removed {ino : OpenInode} (h : Inv v ex) (ha : v.inodes a = some ino) (hr : ino.removed = true)
    (hx : v.Holds ino.sector x) : (v.setInode a none).Unheld x := by
  obtain ⟨hlist, hne₀, hne₁⟩ := h.removed a ino ha hr
  intro n hn hy
  have hnlive : v.Live n ∧ n ≠ ino.sector := by
    obtain rfl | rfl | hn | ⟨b, jno, hb, rfl⟩ := hn
    · exact ⟨.freeMap, hne₀.symm⟩
    · exact ⟨.root, hne₁.symm⟩
    · exact ⟨.listed hn, fun heq => hlist (heq ▸ hn)⟩
    · rw [setInode_inodes] at hb
      split at hb
      · cases hb
      · rename_i hba
        exact ⟨.opened hb, fun heq => hba (h.inj b a jno ino hb ha heq)⟩
  exact h.excl.unowned_of_drop (.opened ha) hx n hnlive hy

/-- `inode_close`, by a holder that is not a file: the last one to go gives the
sectors of a removed inode back. -/
theorem Inv.inodeClose (h : Inv v ex) (hex : 0 < ex a) (hfm : v.freeMapFile ≠ some a)
    (hr : v.inodeClose a = some v') :
    Inv v' (unbump ex a) ∧ v'.files = v.files ∧ v'.nextFile = v.nextFile ∧ v'.freeMapFile = v.freeMapFile ∧
      ∀ b, b ≠ a → v'.inodes b = v.inodes b := by
  simp only [Volume.inodeClose, Option.bind_eq_bind, Option.bind_eq_some_iff] at hr
  obtain ⟨ino, ha, hr⟩ := hr
  obtain ⟨hcnt, hpos⟩ := h.refs a ino ha
  have hother : ∀ o, ∀ b, b ≠ a → (v.setInode a o).inodes b = v.inodes b := fun o b hb => by
    rw [setInode_inodes, if_neg hb]
  split at hr
  · have hfree := h.freeInode ha (by omega) (by omega) hfm
    split at hr
    · rename_i hrem
      simp only [Option.bind_eq_some_iff] at hr
      obtain ⟨v₁, hr₁, hr₂⟩ := hr
      have hhdr := h.data a ino ha
      obtain ⟨i, hi, -, hon⟩ := h.header _ (.opened ha)
      obtain rfl := Option.some.inj (hhdr.symm.trans hi)
      obtain ⟨hinv₁, hkeep₁⟩ := hfree.release (fun x h₁ h₂ => by
        obtain rfl : x = ino.sector := by omega
        exact h.unheld_of_removed ha hrem .self) hr₁
      have hsec : sectorCnt ino.data.length < 2 ^ 32 := by
        have := h.size_lt
        have hall : (v₁.freeMap.all ino.data.start (sectorCnt ino.data.length)) = true := by
          simp only [freeMapRelease, Option.ite_none_right_eq_some] at hr₂
          exact hr₂.1
        have := (Bitmap.all_iff.mp hall).1
        have := hinv₁.map_size
        have := hinv₁.size_lt
        omega
      have hsectors := sectorCnt_eq ino.data.length_nonneg ino.data.length_lt hsec
      obtain ⟨hinv₂, hkeep₂⟩ := hinv₁.release (fun x h₁ h₂ => hkeep₁.unheld
        (h.unheld_of_removed ha hrem (.data hhdr ⟨h₁, hsectors ▸ h₂⟩))) hr₂
      have hkeep := hkeep₁.trans hkeep₂
      exact ⟨hinv₂, hkeep.files, hkeep.nextFile, hkeep.freeMapFile, fun b hb => by
        rw [hkeep.inodes, hother none b hb]⟩
    · obtain rfl := Option.some.inj hr
      exact ⟨hfree, rfl, rfl, rfl, hother none⟩
  · obtain rfl := Option.some.inj hr
    refine ⟨h.setInode ha rfl rfl (h.removed a ino ha) ?_ (fun b hb => Function.update_of_ne hb ..) fun hf => ?_, rfl,
      rfl, rfl, hother _⟩
    · simp only [unbump, Function.update_self]
      omega
    · exact absurd hf hfm

end PintosKaist.Filesys.Volume
