/-
`filesys_create` takes its steps back when one fails, except the data of the
new file: a name that cannot be added leaves the sectors that `inode_create`
allocated marked. `sys_create` passes an unsigned size as an `off_t`, and one
from 2^31 on fails the ASSERT of `inode_create`.

`RollsBack` is when neither happens, and `create_rolls_back_iff` that this is
exactly when a call that fails changes nothing.
-/
import PintosKaist.Filesys.DirRuns

namespace PintosKaist.Filesys.Volume

open Owners

variable {v v' : Volume} {ex : Nat → Nat} {a n x k cnt : Nat} {dir : Inode} {fm : OpenInode} {name : List Byte}

/-- `sys_create` (`userprog/syscall.c`), once the name is checked. -/
def sysCreate (v : Volume) (file : List Byte) (initialSize : Fin (2 ^ 32)) : Option (Bool × Volume) :=
  v.filesysCreate file (offT initialSize)

/-- The free map, in memory and in its file, and the root directory are as
before. -/
structure Unchanged (v v' : Volume) : Prop where
  freeMap : v'.freeMap = v.freeMap
  file : ∀ a ino, v.freeMapFile = some a → v.inodes a = some ino →
    v'.freeMapFile = some a ∧ v'.inodes a = some ino ∧ v'.bitmapRead ino.data = v.bitmapRead ino.data
  root : ∀ dir, v.header rootDirSector = some dir → v'.header rootDirSector = some dir ∧
    inodeReadAt v'.disk dir dir.length 0 = inodeReadAt v.disk dir dir.length 0

/-- `dir_add` can add the name. -/
def Addable (d : Disk) (dir : Inode) (name : List Byte) : Prop :=
  name ≠ [] ∧ lookup d dir name = none ∧ ∃ k < entryCnt dir, (entryAt d dir k).inUse = false

/-- The disk has no room for the data, next to the sector of the inode. -/
def NoRoom (v : Volume) (initialSize : Int) : Prop :=
  ∀ s, v.freeMap.scan 1 = some s → (v.freeMap.setMultiple s 1 true).scan (sectorCnt initialSize) = none

/-- The name is too long, or no sector is free; or the size is an `off_t`, and
the new file is empty, has no room or can be added. -/
def RollsBack (v : Volume) (name : List Byte) (initialSize : Nat) : Prop :=
  nameMax < name.length ∨ v.freeMap.scan 1 = none ∨
    (initialSize < 2 ^ 31 ∧ (initialSize = 0 ∨ v.NoRoom initialSize ∨
      ∀ dir, v.header rootDirSector = some dir → Addable v.disk dir name))

/-! ## The steps return -/

/-- What the root directory holds is the same on both disks. -/
def RootSame (v v' : Volume) : Prop := ∀ x, v.Holds rootDirSector x → SameOn v.disk v'.disk x

theorem RootSame.refl : RootSame v v := fun _ _ => .refl

theorem RootSame.trans {w : Volume} (h : RootSame v v') (hk : Keeps v v') (h' : RootSame v' w) : RootSame v w :=
  fun x hx => (h x hx).trans (h' x ((hk.holds .root).mpr hx))

/-- The free map is written whole, to sectors that are not the root's. -/
theorem Inv.writeMap {b : Bitmap} (h : Inv v ex) (hf : v.FreeMapFile ex a fm) (hb : b.size = v.size) :
    ∃ d, Volume.bitmapWrite { v with freeMap := b } a = some (true, { v with disk := d, freeMap := b }) ∧
      RootSame v { v with disk := d, freeMap := b } := by
  obtain ⟨hw, hsame⟩ := h.bitmapWrite_patch hf hb
  refine ⟨_, hw, fun x hx => hsame x fun hy => ?_⟩
  exact absurd (h.excl.unique .freeMap .root (.data (h.header_freeMap hf) hy) hx) (by decide)

/-- `free_map_allocate` returns the first run of free sectors, marked. -/
theorem Inv.allocate_eq {s : Nat} (h : Inv v ex) (hscan : v.freeMap.scan cnt = some s) :
    ∃ d, v.freeMapAllocate cnt = some (some s, { v with disk := d, freeMap := v.freeMap.setMultiple s cnt true }) ∧
      RootSame v { v with disk := d, freeMap := v.freeMap.setMultiple s cnt true } := by
  obtain ⟨a, fm, hf⟩ := h.freeMap
  obtain ⟨d, hw, hsame⟩ := h.writeMap hf (b := v.freeMap.setMultiple s cnt true) h.map_size
  refine ⟨d, ?_, hsame⟩
  simp only [freeMapAllocate, hscan]
  split
  · rename_i hnone
    cases hnone.symm.trans hf.file
  · rename_i a' ha'
    obtain rfl := Option.some.inj (ha'.symm.trans hf.file)
    rw [hw]
    rfl

theorem allocate_none (hscan : v.freeMap.scan cnt = none) : v.freeMapAllocate cnt = some (none, v) := by
  simp only [freeMapAllocate, hscan]

/-- `free_map_release` returns when all of the sectors are marked. -/
theorem Inv.release_eq {s : Nat} (h : Inv v ex) (hall : v.freeMap.all s cnt = true) :
    ∃ d, v.freeMapRelease s cnt = some { v with disk := d, freeMap := v.freeMap.setMultiple s cnt false } ∧
      RootSame v { v with disk := d, freeMap := v.freeMap.setMultiple s cnt false } := by
  obtain ⟨a, fm, hf⟩ := h.freeMap
  obtain ⟨d, hw, hsame⟩ := h.writeMap hf (b := v.freeMap.setMultiple s cnt false) h.map_size
  refine ⟨d, ?_, hsame⟩
  rw [freeMapRelease, if_pos hall]
  refine Option.bind_eq_some_iff.mpr ⟨a, hf.file, ?_⟩
  rw [hw]
  rfl

/-- `inode_create` in a marked sector that nobody holds returns, unless the
length is negative. -/
theorem Inv.inodeCreate_eq {s : Nat} {length : Int} (h : Inv v ex) (hs : v.Used s) (hun : v.Unheld s) (hl : 0 ≤ length) :
    (v.freeMap.scan (sectorCnt length) = none ∧ v.inodeCreate s length = some (false, v)) ∨
      ∃ start d, v.freeMap.scan (sectorCnt length) = some start ∧
        v.inodeCreate s length =
          some (true, { v with disk := d, freeMap := v.freeMap.setMultiple start (sectorCnt length) true }) ∧
        RootSame v { v with disk := d, freeMap := v.freeMap.setMultiple start (sectorCnt length) true } := by
  have hnot : ¬ length < 0 := by omega
  cases hscan : v.freeMap.scan (sectorCnt length) with
  | none =>
    left
    simp only [Volume.inodeCreate, if_neg hnot, allocate_none hscan, Option.bind_eq_bind, Option.bind_some, and_self]
  | some start =>
    obtain ⟨d, halloc, hsame⟩ := h.allocate_eq hscan
    obtain ⟨-, hfree⟩ := Bitmap.scan_some hscan
    refine .inr ⟨start, zeroSectors (diskWrite d s (inodeDisk start length)) start (sectorCnt length), rfl, ?_,
      fun x hx => (hsame x hx).trans ((diskWrite_sameOn ?_).trans (zeroSectors_sameOn ?_))⟩
    · simp only [Volume.inodeCreate, if_neg hnot, halloc, Option.bind_eq_bind, Option.bind_some, if_pos hs.1]
    · rintro rfl
      exact hun _ .root hx
    · rintro ⟨h₁, h₂⟩
      cases (hfree x h₁ h₂).symm.trans (h.excl.used .root hx).2

theorem entryAt_rootSame (hdir : v.header rootDirSector = some dir) (hsame : RootSame v v') (hk : k < entryCnt dir) :
    entryAt v'.disk dir k = entryAt v.disk dir k :=
  entryAt_congr (fun x hx => hsame x (.data hdir hx)) hk

theorem lookup_rootSame (hdir : v.header rootDirSector = some dir) (hsame : RootSame v v') :
    lookup v'.disk dir name = lookup v.disk dir name := by
  unfold lookup
  rw [← List.head?_filter, ← List.head?_filter]
  refine congrArg List.head? (List.filter_congr fun k hk => ?_)
  rw [entryAt_rootSame hdir hsame (List.mem_range.mp hk)]

theorem addable_rootSame (hdir : v.header rootDirSector = some dir) (hsame : RootSame v v') :
    Addable v'.disk dir name ↔ Addable v.disk dir name := by
  unfold Addable
  rw [lookup_rootSame hdir hsame]
  refine and_congr_right fun _ => and_congr_right fun _ => exists_congr fun k => and_congr_right fun hk => ?_
  rw [entryAt_rootSame hdir hsame hk]

/-- `dir_add` always returns, and changes nothing when it fails. -/
theorem Inv.dirAdd_eq (h : Inv v ex) (hdir : v.header rootDirSector = some dir) (hlen : name.length ≤ nameMax) :
    ∃ ok d, v.dirAdd dir name n = some (ok, { v with disk := d }) ∧ (ok = true ↔ Addable v.disk dir name) ∧
      (ok = false → d = v.disk) := by
  have hvalid : ¬ nameMax < name.length := by omega
  by_cases hnil : name = []
  · refine ⟨false, v.disk, by simp only [Volume.dirAdd, hnil, true_or, if_true], ?_, fun _ => rfl⟩
    simp [Addable, hnil]
  cases hfind : lookup v.disk dir name with
  | some k =>
    refine ⟨false, v.disk, ?_, ?_, fun _ => rfl⟩
    · simp only [Volume.dirAdd, hnil, hvalid, or_self, if_false, hfind, Option.isSome_some, if_true]
    · simp [Addable, hfind]
  | none =>
    obtain ⟨i, hi, -, hon⟩ := h.header _ .root
    obtain rfl := Option.some.inj (hdir.symm.trans hi)
    have hadd : v.dirAdd dir name n =
        v.writeEntry dir (((List.range (entryCnt dir)).find? fun k => !(entryAt v.disk dir k).inUse).getD (entryCnt dir))
          ⟨n, (entryAt v.disk dir (((List.range (entryCnt dir)).find? fun k =>
            !(entryAt v.disk dir k).inUse).getD (entryCnt dir))).setName name, true⟩ := by
      simp only [Volume.dirAdd, hnil, hvalid, or_self, if_false, hfind, Option.isSome_none, Bool.false_eq_true]
    rw [hadd]
    cases hfree : (List.range (entryCnt dir)).find? fun k => !(entryAt v.disk dir k).inUse with
    | none =>
      obtain ⟨m, -, -, hw⟩ := writeEntry_eq hon (Nat.le_refl _)
        ⟨n, (entryAt v.disk dir (entryCnt dir)).setName name, true⟩
      obtain ⟨-, hsame⟩ | ⟨-, hlt, -⟩ := h.writeEntry hdir (Nat.le_refl _) hw
      · refine ⟨false, v.disk, ?_, ?_, fun _ => rfl⟩
        · rw [Option.getD_none, hw, hsame]
          simp
        · simp only [Bool.false_eq_true, false_iff]
          rintro ⟨-, -, k, hk, hu⟩
          have := List.find?_eq_none.mp hfree k (List.mem_range.mpr hk)
          simp [hu] at this
      · exact absurd hlt (Nat.lt_irrefl _)
    | some k =>
      have hk := List.mem_range.mp (List.mem_of_find?_eq_some hfree)
      have hu := List.find?_some hfree
      obtain ⟨m, -, -, hw⟩ := writeEntry_eq hon (Nat.le_of_lt hk) ⟨n, (entryAt v.disk dir k).setName name, true⟩
      rw [Option.getD_some, hw]
      simp only [hk, decide_true]
      exact ⟨true, _, rfl, by simpa using ⟨hnil, hfind, k, hk, by simpa using hu⟩, by simp⟩

/-! ## `createIn` -/

/-- What is left of the free map when the name was not added: the sector of the
inode is free again, the data is not. -/
def leftover (m : Bitmap) (s start cnt : Nat) : Bitmap :=
  ((m.setMultiple s 1 true).setMultiple start cnt true).setMultiple s 1 false

theorem set_clear {m : Bitmap} {s : Nat} (hscan : m.scan 1 = some s) :
    (m.setMultiple s 1 true).setMultiple s 1 false = m := by
  obtain ⟨-, hfree⟩ := Bitmap.scan_some hscan
  obtain ⟨size, bit⟩ := m
  simp only [Bitmap.setMultiple, Bitmap.mk.injEq, true_and]
  funext x
  split
  · rename_i hx
    exact (hfree x hx.1 hx.2).symm
  · rfl

/-- The leftover is the old free map only if there is no data. -/
theorem leftover_eq {m : Bitmap} {s start : Nat} (hscan : m.scan 1 = some s)
    (hdata : (m.setMultiple s 1 true).scan cnt = some start) : leftover m s start cnt = m ↔ cnt = 0 := by
  obtain ⟨-, hfree⟩ := Bitmap.scan_some hdata
  have hs : ∀ x, start ≤ x → x < start + cnt → x ≠ s := by
    rintro x h₁ h₂ rfl
    have := hfree x h₁ h₂
    rw [Bitmap.setMultiple_bit, if_pos ⟨Nat.le_refl _, Nat.lt_succ_self _⟩] at this
    cases this
  constructor
  · intro heq
    by_contra hcnt
    have hne := hs start (Nat.le_refl _) (by omega)
    have hclear := hfree start (Nat.le_refl _) (by omega)
    rw [Bitmap.setMultiple_bit, if_neg (by omega)] at hclear
    have hset : (leftover m s start cnt).bit start = true := by
      rw [leftover, Bitmap.setMultiple_bit, if_neg (by omega), Bitmap.setMultiple_bit, if_pos (by omega)]
    rw [heq, hclear] at hset
    cases hset
  · rintro rfl
    have hnone : (m.setMultiple s 1 true).setMultiple start 0 true = m.setMultiple s 1 true := by
      simp only [Bitmap.setMultiple, Bitmap.mk.injEq, true_and]
      funext x
      rw [if_neg (by omega)]
    rw [leftover, hnone, set_clear hscan]

theorem sectorCnt_eq_zero {length : Int} (h₀ : 0 ≤ length) (h₁ : length < 2 ^ 31) : sectorCnt length = 0 ↔ length = 0 := by
  by_cases hlt : sectorCnt length < 2 ^ 32
  · rw [sectorCnt_eq h₀ h₁ hlt]
    simp only [bytesToSectors, sectorSize]
    omega
  · constructor
    · intro h
      omega
    · rintro rfl
      exact absurd (by decide) hlt

/-- The first free sector, allocated for the inode. -/
structure Taken (v v₁ : Volume) (ex : Nat → Nat) (s : Nat) : Prop where
  allocate : v.freeMapAllocate 1 = some (some s, v₁)
  frame : ∃ d, v₁ = { v with disk := d, freeMap := v.freeMap.setMultiple s 1 true }
  inv : Inv v₁ ex
  keeps : Keeps v v₁
  root : RootSame v v₁
  used : v₁.Used s
  unheld : v₁.Unheld s
  ne : s ≠ 0

theorem Inv.take {s : Nat} (h : Inv v ex) (hscan : v.freeMap.scan 1 = some s) : ∃ v₁, Taken v v₁ ex s := by
  obtain ⟨d, halloc, hroot⟩ := h.allocate_eq hscan
  obtain ⟨hinv, hkeep, -, hfound⟩ := h.allocate halloc
  obtain ⟨hle, hbits⟩ := hfound s rfl
  obtain ⟨hclear, hmark⟩ := hbits s (Nat.le_refl _) (Nat.lt_succ_self _)
  have hfree : ¬ v.Used s := fun hu => by cases hclear.symm.trans hu.2
  refine ⟨_, halloc, ⟨d, rfl⟩, hinv, hkeep, hroot, ⟨Nat.lt_of_succ_le hle, hmark⟩, hkeep.unheld (h.excl.unowned hfree), ?_⟩
  rintro rfl
  exact hfree (h.excl.used .freeMap .self)

/-- The end of `createIn` after a failure: the sector of the inode goes back. -/
theorem Inv.giveBack {s : Nat} (h : Inv v ex) (hs : v.Used s) :
    ∃ d, v.freeMapRelease s 1 = some { v with disk := d, freeMap := v.freeMap.setMultiple s 1 false } ∧
      RootSame v { v with disk := d, freeMap := v.freeMap.setMultiple s 1 false } := by
  refine h.release_eq (Bitmap.all_iff.mpr ⟨?_, fun x h₁ h₂ => ?_⟩)
  · rw [h.map_size]
    exact hs.1
  · obtain rfl : x = s := by omega
    exact hs.2

variable {s : Nat} {length : Int}

/-- A negative length fails the assertion. -/
theorem Inv.createIn_negative (h : Inv v ex) (hshort : ¬ nameMax < name.length) (hscan : v.freeMap.scan 1 = some s)
    (hl : length < 0) : Volume.createIn name length v dir = none := by
  obtain ⟨v₁, t⟩ := h.take hscan
  simp only [Volume.createIn, if_neg hshort, t.allocate, Option.bind_eq_bind, Option.bind_some,
      Volume.inodeCreate, if_pos hl,
    Option.bind_none]

/-- Without room for the data everything is taken back. -/
theorem Inv.createIn_noRoom (h : Inv v ex) (dir : Inode) (hshort : ¬ nameMax < name.length)
    (hscan : v.freeMap.scan 1 = some s) (h₀ : 0 ≤ length)
    (hroom : (v.freeMap.setMultiple s 1 true).scan (sectorCnt length) = none) :
    ∃ d, Volume.createIn name length v dir = some (false, { v with disk := d }) ∧ RootSame v { v with disk := d } := by
  obtain ⟨v₁, t⟩ := h.take hscan
  obtain ⟨d₁, rfl⟩ := t.frame
  obtain ⟨-, hcreate⟩ | ⟨start, d, hdata, -⟩ := t.inv.inodeCreate_eq t.used t.unheld h₀
  · obtain ⟨d, hrel, hroot⟩ := t.inv.giveBack t.used
    have hne : (!false && s != 0) = true := by simpa using t.ne
    refine ⟨d, ?_, fun x hx => (t.root x hx).trans (hroot x ((t.keeps.holds .root).mpr hx))⟩
    simp only [Volume.createIn, if_neg hshort, t.allocate, Option.bind_eq_bind, Option.bind_some,
        hcreate, Bool.false_eq_true,
      if_false, if_pos hne, hrel, set_clear hscan]
  · cases hroom.symm.trans hdata

/-- With room for the data, all of it stays marked if the name cannot be
added. -/
theorem Inv.createIn_room {start : Nat} (h : Inv v ex) (hdir : v.header rootDirSector = some dir)
    (hshort : ¬ nameMax < name.length) (hscan : v.freeMap.scan 1 = some s) (h₀ : 0 ≤ length) (h₁ : length < 2 ^ 31)
    (hroom : (v.freeMap.setMultiple s 1 true).scan (sectorCnt length) = some start) :
    (Addable v.disk dir name → ∃ d f,
        Volume.createIn name length v dir = some (true, { v with disk := d, freeMap := f })) ∧
      (¬ Addable v.disk dir name → ∃ d, Volume.createIn name length v dir =
        some (false, { v with disk := d, freeMap := leftover v.freeMap s start (sectorCnt length) }) ∧
        RootSame v { v with disk := d, freeMap := leftover v.freeMap s start (sectorCnt length) }) := by
  obtain ⟨v₁, t⟩ := h.take hscan
  obtain ⟨d₁, rfl⟩ := t.frame
  obtain ⟨hnone, -⟩ | ⟨start', d₂, hdata, hcreate, hroot₂⟩ := t.inv.inodeCreate_eq t.used t.unheld h₀
  · cases hnone.symm.trans hroom
  obtain rfl : start' = start := Option.some.inj (hdata.symm.trans hroom)
  obtain ⟨hinv₂, hkeep₂, hused₂, -⟩ := t.inv.inodeCreate t.used t.unheld h₁ hcreate
  have hkeep := t.keeps.trans hkeep₂
  have hsame := t.root.trans t.keeps hroot₂
  have hdir₂ := (hkeep.header _ .root).trans hdir
  obtain ⟨ok, d₃, hadd, hok, hfail⟩ := hinv₂.dirAdd_eq (n := s) hdir₂ (Nat.not_lt.mp hshort)
  have hadds : ok = true ↔ Addable v.disk dir name := hok.trans (addable_rootSame hdir hsame)
  constructor
  · intro ha
    obtain rfl := hadds.mpr ha
    refine ⟨d₃, (v.freeMap.setMultiple s 1 true).setMultiple start' (sectorCnt length) true, ?_⟩
    simp only [Volume.createIn, if_neg hshort, t.allocate, Option.bind_eq_bind, Option.bind_some, hcreate, if_true, hadd]
    rfl
  · intro ha
    obtain rfl : ok = false := Bool.eq_false_iff.mpr fun ht => ha (hadds.mp ht)
    obtain rfl := hfail rfl
    obtain ⟨d₄, hrel, hroot₄⟩ := hinv₂.giveBack hused₂
    have hne : (!false && s != 0) = true := by simpa using t.ne
    refine ⟨d₄, ?_, hsame.trans hkeep hroot₄⟩
    simp only [Volume.createIn, if_neg hshort, t.allocate, Option.bind_eq_bind, Option.bind_some, hcreate, if_true, hadd,
      if_pos hne, hrel]
    rfl

/-! ## `filesys_create` -/

/-- Opening the root directory always works, and leaves the disk and the free
map. -/
theorem Inv.openRoot (h : Inv v ex) : ∃ r v₁ root, v.inodeOpen rootDirSector = some (r, v₁) ∧ Inv v₁ (bump ex r) ∧
    v₁.inodes r = some root ∧ root.sector = rootDirSector ∧ v₁.disk = v.disk ∧ v₁.freeMap = v.freeMap ∧
    v₁.freeMapFile = v.freeMapFile ∧ ∀ b, b ≠ r → v₁.inodes b = v.inodes b := by
  obtain ⟨dir, hdir, -, -⟩ := h.header _ .root
  have hlt : rootDirSector < v.size := (h.excl.used .root .self).1
  have hopens : ∃ r v₁, v.inodeOpen rootDirSector = some (r, v₁) ∧ v₁.freeMap = v.freeMap ∧
      ∀ b, b ≠ r → v₁.inodes b = v.inodes b := by
    simp only [Volume.inodeOpen]
    cases hfind : v.findOpen rootDirSector with
    | some a =>
      obtain ⟨ino, ha, -⟩ := findOpen_some hfind
      simp only [inodeReopen, ha, Option.bind_eq_bind, Option.bind_some, Option.map_some]
      exact ⟨a, _, rfl, rfl, fun b hb => by rw [setInode_inodes, if_neg hb]⟩
    | none =>
      have hread : readInode v.disk rootDirSector = some dir := hdir
      simp only [if_pos hlt, hread, Option.bind_eq_bind, Option.bind_some]
      refine ⟨v.nextInode, _, rfl, rfl, fun b hb => ?_⟩
      show (v.setInode _ _).inodes b = _
      rw [setInode_inodes, if_neg hb]
  obtain ⟨r, v₁, hopen, hfree, hother⟩ := hopens
  obtain ⟨hinv, hdisk, -, -, hfile, root, hroot, hsec⟩ := h.inodeOpen .root hopen
  exact ⟨r, v₁, root, hopen, hinv, hroot, hsec, hdisk, hfree, hfile, hother⟩

/-- Closing the root directory always works, and leaves the disk and the free
map: it is never removed. -/
theorem Inv.closeRoot {r : Nat} {root : OpenInode} (h : Inv v (bump ex r)) (hr : v.inodes r = some root)
    (hsec : root.sector = rootDirSector) : ∃ v', v.inodeClose r = some v' ∧ v'.disk = v.disk ∧ v'.freeMap = v.freeMap ∧
      v'.freeMapFile = v.freeMapFile ∧ v'.size = v.size ∧ ∀ b, b ≠ r → v'.inodes b = v.inodes b := by
  have hrem : root.removed = false := by
    rw [Bool.eq_false_iff]
    exact fun ht => (h.removed r root hr ht).2.2 hsec
  simp only [Volume.inodeClose, hr, Option.bind_eq_bind, Option.bind_some, hrem, Bool.false_eq_true, if_false]
  split
  · exact ⟨_, rfl, rfl, rfl, rfl, rfl, fun b hb => by rw [setInode_inodes, if_neg hb]⟩
  · exact ⟨_, rfl, rfl, rfl, rfl, rfl, fun b hb => by rw [setInode_inodes, if_neg hb]⟩

/-- `v₁` is `v` with the root directory open, as inode `r`. -/
structure Rooted (v v₁ : Volume) (ex : Nat → Nat) (r : Nat) (dir : Inode) : Prop where
  inv : Inv v₁ (bump ex r)
  root : ∃ root, v₁.inodes r = some root ∧ root.sector = rootDirSector
  disk : v₁.disk = v.disk
  freeMap : v₁.freeMap = v.freeMap
  freeMapFile : v₁.freeMapFile = v.freeMapFile
  inodes : ∀ b, b ≠ r → v₁.inodes b = v.inodes b
  header : v.header rootDirSector = some dir

/-- `filesys_create` is `createIn` on the root directory. -/
theorem Inv.filesysCreate_eq (h : Inv v ex) (name : List Byte) (length : Int) :
    ∃ r v₁ dir, Rooted v v₁ ex r dir ∧ v.filesysCreate name length =
      (Volume.createIn name length v₁ dir).bind fun x => (x.2.inodeClose r).bind fun w => some (x.1, w) := by
  obtain ⟨r, v₁, root, hopen, hinv, hroot, hsec, hdisk, hfree, hfile, hother⟩ := h.openRoot
  have hdir : v.header rootDirSector = some root.data := by
    rw [Volume.header, ← hdisk, ← hsec]
    exact hinv.data r root hroot
  refine ⟨r, v₁, root.data, ⟨hinv, ⟨root, hroot, hsec⟩, hdisk, hfree, hfile, hother, hdir⟩, ?_⟩
  simp only [Volume.filesysCreate, Volume.withRoot, hopen, hroot, Option.bind_eq_bind, Option.bind_some]

theorem Decodes.bitmapRead {data : Inode} (h : v.Decodes data) (hsize : v.freeMap.size = v.size) :
    v.bitmapRead data = (true, fun x => decide (x < v.freeMap.size) && v.freeMap.bit x) := by
  refine Prod.ext h.1 (funext fun x => ?_)
  by_cases hx : x < v.size
  · simp only [h.2 x hx, hsize, hx, decide_true, Bool.true_and]
  · simp only [Volume.bitmapRead, hsize, hx, decide_false, Bool.false_and]

/-- The free-map file, as `Unchanged` has it, is on the disk what it is in
memory. -/
theorem Inv.bitmapRead_eq {ino : OpenInode} (h : Inv v ex) (hfile : v.freeMapFile = some a)
    (hino : v.inodes a = some ino) :
    v.bitmapRead ino.data = (true, fun x => decide (x < v.freeMap.size) && v.freeMap.bit x) := by
  obtain ⟨b, fm, hf⟩ := h.freeMap
  obtain rfl : b = a := Option.some.inj (hf.file.symm.trans hfile)
  obtain rfl := Option.some.inj (hino.symm.trans hf.inode)
  exact hf.decodes.bitmapRead h.map_size

theorem RootSame.congr {w w' : Volume} (h : RootSame v v') (hw : w.disk = v.disk) (hw' : w'.disk = v'.disk) :
    RootSame w w' := by
  intro x hx
  simp only [Holds, Volume.header, hw] at hx
  rw [hw, hw']
  exact h x hx

theorem RootSame.header (h : RootSame v v') : v'.header rootDirSector = v.header rootDirSector :=
  readInode_congr fun y hy => h _ .self y hy

/-- With the root directory as it was, nothing has changed unless the free map
has. -/
theorem Inv.unchanged_iff (h : Inv v ex) (h' : Inv v' ex) (hfile : v'.freeMapFile = v.freeMapFile) (hroot : RootSame v v')
    (hkeep : ∀ a, v.freeMapFile = some a → v'.inodes a = v.inodes a) :
    Unchanged v v' ↔ v'.freeMap = v.freeMap := by
  refine ⟨fun hu => hu.freeMap, fun hmap => ⟨hmap, fun a ino ha hino => ?_, fun dir hdir => ?_⟩⟩
  · have ha' := hfile.trans ha
    have hino' := (hkeep a ha).trans hino
    refine ⟨ha', hino', ?_⟩
    rw [h'.bitmapRead_eq ha' hino', h.bitmapRead_eq ha hino, hmap]
  · refine ⟨hroot.header.trans hdir, inodeReadAt_congr (fun x hx => hroot x (.data hdir hx)) (by omega) (by omega)⟩

section Rooted

variable {r : Nat} {v₁ : Volume} {d : Disk} {m : Bitmap} {ok : Bool}

theorem Rooted.header₁ (t : Rooted v v₁ ex r dir) : v₁.header rootDirSector = some dir := by
  rw [Volume.header, t.disk]
  exact t.header

/-- The root directory is closed again after `createIn`. -/
theorem Rooted.close (t : Rooted v v₁ ex r dir) (hl : length < 2 ^ 31)
    (hcreate : Volume.createIn name length v₁ dir = some (ok, { v₁ with disk := d, freeMap := m })) :
    ∃ v', (Volume.createIn name length v₁ dir).bind (fun x => (x.2.inodeClose r).bind fun w => some (x.1, w)) =
        some (ok, v') ∧ Inv v' ex ∧ v'.disk = d ∧ v'.freeMap = m ∧ v'.freeMapFile = v.freeMapFile ∧
      ∀ a, v.freeMapFile = some a → v'.inodes a = v.inodes a := by
  obtain ⟨root, hroot, hsec⟩ := t.root
  obtain ⟨hinv₂, -⟩ := t.inv.createIn t.header₁ hl hcreate
  have hfm := t.inv.freeMapFile_ne hroot (by rw [hsec]; decide)
  obtain ⟨v', hclose, hdisk, hmap, hfile, -, hother⟩ := hinv₂.closeRoot hroot hsec
  obtain ⟨hinv', -⟩ := hinv₂.inodeClose (by simp [bump]) hfm hclose
  rw [unbump_bump] at hinv'
  refine ⟨v', ?_, hinv', hdisk, hmap, hfile.trans t.freeMapFile, fun a ha => ?_⟩
  · rw [hcreate, Option.bind_some, hclose, Option.bind_some]
  · have hne : a ≠ r := by
      rintro rfl
      exact hfm (t.freeMapFile.trans ha)
    exact (hother a hne).trans (t.inodes a hne)

/-- A call that fails changes nothing but perhaps the free map. -/
theorem Rooted.fails (t : Rooted v v₁ ex r dir) (h : Inv v ex) (hl : length < 2 ^ 31)
    (hcreate : Volume.createIn name length v₁ dir = some (false, { v₁ with disk := d, freeMap := m }))
    (hsame : RootSame v₁ { v₁ with disk := d, freeMap := m }) :
    ∃ v', (Volume.createIn name length v₁ dir).bind (fun x => (x.2.inodeClose r).bind fun w => some (x.1, w)) =
        some (false, v') ∧ (Unchanged v v' ↔ m = v.freeMap) := by
  obtain ⟨v', hcall, hinv', hdisk, rfl, hfile, hkeep⟩ := t.close hl hcreate
  exact ⟨v', hcall, h.unchanged_iff hinv' hfile (hsame.congr t.disk.symm hdisk) hkeep⟩

/-- Nothing was taken. -/
theorem Rooted.untouched (t : Rooted v v₁ ex r dir) (h : Inv v ex) (name : List Byte) (hl : length < 2 ^ 31)
    (hcreate : Volume.createIn name length v₁ dir = some (false, v₁)) :
    ∃ v', (Volume.createIn name length v₁ dir).bind (fun x => (x.2.inodeClose r).bind fun w => some (x.1, w)) =
        some (false, v') ∧ Unchanged v v' := by
  obtain ⟨v', hcall, hiff⟩ := t.fails h hl (d := v₁.disk) (m := v₁.freeMap) hcreate .refl
  exact ⟨v', hcall, hiff.mpr t.freeMap⟩

end Rooted

/-- The size as `inode_create` sees it. -/
theorem offT_size (size : Fin (2 ^ 32)) :
    (size.val < 2 ^ 31 ∧ offT size = size.val) ∨ (¬ size.val < 2 ^ 31 ∧ offT size < 0) := by
  have := size.isLt
  unfold offT
  omega

/-- The name is short and a sector is free. -/
theorem rollsBack_iff {size : Nat} (hshort : ¬ nameMax < name.length) (hscan : v.freeMap.scan 1 = some s)
    (hdir : v.header rootDirSector = some dir) :
    v.RollsBack name size ↔ size < 2 ^ 31 ∧ (size = 0 ∨
      (v.freeMap.setMultiple s 1 true).scan (sectorCnt size) = none ∨ Addable v.disk dir name) := by
  simp only [RollsBack, NoRoom, hshort, hscan, hdir, Option.some.injEq, forall_eq', false_or, reduceCtorEq]

/-- **A failed creation changes nothing** exactly when `RollsBack`: the call
returns, and if it fails then the free map, its file and the root directory are
as before. -/
theorem create_rolls_back_iff (h : Inv v ex) (name : List Byte) (size : Fin (2 ^ 32)) :
    (∃ ok v', v.sysCreate name size = some (ok, v') ∧ (ok = false → Unchanged v v')) ↔ v.RollsBack name size := by
  unfold sysCreate
  obtain ⟨r, v₁, dir, t, heq⟩ := h.filesysCreate_eq name (offT size)
  rw [heq]
  have hlt := offT_lt size
  by_cases hshort : nameMax < name.length
  · obtain ⟨v', hcall, hun⟩ := t.untouched h name hlt (by simp only [Volume.createIn, if_pos hshort])
    exact ⟨fun _ => .inl hshort, fun _ => ⟨false, v', hcall, fun _ => hun⟩⟩
  cases hscan : v.freeMap.scan 1 with
  | none =>
    have halloc : v₁.freeMapAllocate 1 = some (none, v₁) := allocate_none (t.freeMap ▸ hscan)
    obtain ⟨v', hcall, hun⟩ := t.untouched h name hlt (by
      simp only [Volume.createIn, if_neg hshort, halloc, Option.bind_eq_bind, Option.bind_some])
    exact ⟨fun _ => .inr (.inl hscan), fun _ => ⟨false, v', hcall, fun _ => hun⟩⟩
  | some s =>
    rw [rollsBack_iff hshort hscan t.header]
    have hscan₁ : v₁.freeMap.scan 1 = some s := t.freeMap ▸ hscan
    obtain ⟨hsize, hoff⟩ | ⟨hsize, hneg⟩ := offT_size size
    · rw [hoff] at hlt ⊢
      have hnonneg : (0 : Int) ≤ size.val := Int.natCast_nonneg _
      rw [← t.freeMap, ← t.disk]
      cases hroom : (v₁.freeMap.setMultiple s 1 true).scan (sectorCnt size.val) with
      | none =>
        obtain ⟨d, hcreate, hsame⟩ := t.inv.createIn_noRoom dir hshort hscan₁ hnonneg hroom
        obtain ⟨v', hcall, hiff⟩ := t.fails h hlt hcreate hsame
        exact ⟨fun _ => ⟨hsize, .inr (.inl rfl)⟩, fun _ => ⟨false, v', hcall, fun _ => hiff.mpr t.freeMap⟩⟩
      | some start =>
        obtain ⟨hadds, hfails⟩ := t.inv.createIn_room (t.header₁) hshort hscan₁ hnonneg hlt hroom
        by_cases ha : Addable v₁.disk dir name
        · obtain ⟨d, m, hcreate⟩ := hadds ha
          obtain ⟨v', hcall, -⟩ := t.close hlt hcreate
          exact ⟨fun _ => ⟨hsize, .inr (.inr ha)⟩, fun _ => ⟨true, v', hcall, by simp⟩⟩
        · obtain ⟨d, hcreate, hsame⟩ := hfails ha
          obtain ⟨v', hcall, hiff⟩ := t.fails h hlt hcreate hsame
          have hempty : Unchanged v v' ↔ size.val = 0 := by
            rw [hiff, ← t.freeMap, leftover_eq hscan₁ hroom, sectorCnt_eq_zero hnonneg hlt, Int.natCast_eq_zero]
          constructor
          · rintro ⟨ok, w, hcall', hun⟩
            obtain ⟨rfl, rfl⟩ := Prod.mk.inj (Option.some.inj (hcall.symm.trans hcall'))
            exact ⟨hsize, .inl (hempty.mp (hun rfl))⟩
          · rintro ⟨-, hzero | hnone | ha'⟩
            · exact ⟨false, v', hcall, fun _ => hempty.mpr hzero⟩
            · cases hnone
            · exact absurd ha' ha
    · -- the length is negative: the assertion fails
      rw [t.inv.createIn_negative hshort hscan₁ hneg, Option.bind_none]
      constructor
      · rintro ⟨ok, v', hcall, -⟩
        cases hcall
      · rintro ⟨hc, -⟩
        exact absurd hc hsize

theorem create_rolls_back_iff_formatted : ∃ v ex, filesysInit 32 (fun _ => 0) = some v ∧ Inv v ex ∧
    ((∃ ok v', v.sysCreate [65] 600 = some (ok, v') ∧ (ok = false → Unchanged v v')) ↔ v.RollsBack [65] 600) := by
  have hinit : (filesysInit 32 fun _ => 0).isSome = true := by decide +kernel
  obtain ⟨v, hv⟩ := Option.isSome_iff_exists.mp hinit
  obtain ⟨ex, hinv⟩ := filesysInit_inv hv
  exact ⟨v, ex, hv, hinv, create_rolls_back_iff hinv [65] 600⟩

/-- A size of 2^31 fails the assertion; and creating a file of 600 bytes twice
leaves two more sectors marked. -/
theorem create_twice : ∃ v v₁ v₂, filesysInit 32 (fun _ => 0) = some v ∧ v.sysCreate [65] 2147483648 = none ∧
    v.sysCreate [65] 600 = some (true, v₁) ∧ v₁.sysCreate [65] 600 = some (false, v₂) ∧ ¬ Unchanged v₁ v₂ := by
  have hrun : (filesysInit 32 fun _ => 0).any (fun v => (v.sysCreate [65] 2147483648).isNone &&
      (v.sysCreate [65] 600).any fun x => x.1 && (x.2.sysCreate [65] 600).any fun y =>
        !y.1 && (x.2.freeMap.bit 8 != y.2.freeMap.bit 8)) = true := by
    decide +kernel
  obtain ⟨v, hv, hcalls⟩ := (Option.any_eq_true ..).mp hrun
  simp only [Bool.and_eq_true, Option.any_eq_true, Option.isNone_iff_eq_none] at hcalls
  obtain ⟨hnone, ⟨ok, v₁⟩, hfirst, rfl, ⟨ok', v₂⟩, hsecond, hfail, hbit⟩ := hcalls
  obtain rfl : ok' = false := by simpa using hfail
  refine ⟨v, v₁, v₂, hv, hnone, hfirst, hsecond, fun hun => ?_⟩
  rw [hun.freeMap, bne_self_eq_false] at hbit
  cases hbit

end PintosKaist.Filesys.Volume
