/-
A directory refines a finite map from names to inode sectors. Its data is its
own, so that of all calls only its own writes change an entry, and each keeps
the slots holding the map.
-/
import PintosKaist.Filesys.DirMap
import PintosKaist.Filesys.OwnedRuns

namespace PintosKaist.Filesys

open Volume

variable {v v' : Volume} {dir : Inode} {r a k : Nat} {name : Name} {m : Finmap fun _ : Name => Nat}

namespace Volume

/-- The file of the free map is on the disk and marked, while it is open. -/
structure MapMarked (v : Volume) : Prop where
  map_size : v.freeMap.size = v.size
  size_lt : v.size < 2 ^ 32
  file : ∀ a, v.freeMapFile = some a → a < v.nextInode ∧ ∀ ino, v.inodes a = some ino →
    ino.data.On v.size ∧ ∀ x, ino.data.Has x → v.freeMap.bit x = true

theorem Inv.mapMarked {ex : Nat → Nat} (h : Inv v ex) : v.MapMarked where
  map_size := h.map_size
  size_lt := h.size_lt
  file a ha := by
    obtain ⟨b, fm, hf⟩ := h.freeMap
    obtain rfl : b = a := Option.some.inj (hf.file.symm.trans ha)
    refine ⟨h.inodes_lt b fm hf.inode, fun ino hi => ?_⟩
    have hhdr := h.data b ino hi
    obtain ⟨i, hi', -, hon⟩ := h.header _ (.opened hi)
    obtain rfl := Option.some.inj (hhdr.symm.trans hi')
    exact ⟨hon, fun x hx => (h.excl.used (.opened hi) (.data hhdr hx)).2⟩

/-- The inode at `r` is of the directory `dir`, and its data is not the free
map's. -/
structure Backing (v : Volume) (r : Nat) (dir : Inode) : Prop where
  lt : r < v.nextInode
  data : ∀ ino, v.inodes r = some ino → ino.data = dir
  on : dir.On v.size
  map : ∀ a, v.freeMapFile = some a → a < v.nextInode ∧ ∀ ino, v.inodes a = some ino →
    ino.data.On v.size ∧ ∀ x, dir.Has x → ¬ ino.data.Has x

/-- The data of the directory is the same on both disks. -/
def SameData (dir : Inode) (v v' : Volume) : Prop := ∀ x, dir.Has x → SameOn v.disk v'.disk x

theorem SameData.refl : SameData dir v v := fun _ _ => .refl

theorem SameData.trans {v'' : Volume} (h : SameData dir v v') (h' : SameData dir v' v'') : SameData dir v v'' :=
  fun x hx => (h x hx).trans (h' x hx)

/-! ## Inodes are opened and closed -/

theorem Backing.setInode {o : Option OpenInode} (h : v.Backing r dir)
    (ho : ∀ ino, o = some ino → ∃ old, v.inodes a = some old ∧ ino.data = old.data) : (v.setInode a o).Backing r dir := by
  have hold : ∀ b ino, (v.setInode a o).inodes b = some ino → ∃ old, v.inodes b = some old ∧ ino.data = old.data := by
    intro b ino hb
    rw [setInode_inodes] at hb
    split at hb
    · rename_i hba
      exact hba ▸ ho ino hb
    · exact ⟨ino, hb, rfl⟩
  refine ⟨h.lt, fun ino hi => ?_, h.on, fun b hb => ⟨(h.map b hb).1, fun ino hi => ?_⟩⟩
  · obtain ⟨old, hr, hd⟩ := hold r ino hi
    exact hd.trans (h.data old hr)
  · obtain ⟨old, hr, hd⟩ := hold b ino hi
    rw [hd]
    exact (h.map b hb).2 old hr

/-- A new struct inode is at an address of its own. -/
theorem Backing.newInode {o : Option OpenInode} (h : v.Backing r dir) :
    Backing { v.setInode v.nextInode o with nextInode := v.nextInode + 1 } r dir := by
  have hne : ∀ b, b < v.nextInode → (v.setInode v.nextInode o).inodes b = v.inodes b := fun b hb => by
    rw [setInode_inodes, if_neg (Nat.ne_of_lt hb)]
  refine ⟨Nat.lt_succ_of_lt h.lt, fun ino hi => h.data ino ((hne r h.lt).symm.trans hi), h.on, fun b hb => ?_⟩
  obtain ⟨hlt, hmap⟩ := h.map b hb
  exact ⟨Nat.lt_succ_of_lt hlt, fun ino hi => hmap ino ((hne b hlt).symm.trans hi)⟩

/-- `inode_open` gives the inode of the sector. -/
theorem inodeOpen_sector {sector : Nat} (hr : v.inodeOpen sector = some (a, v')) :
    ∃ ino, v'.inodes a = some ino ∧ ino.sector = sector := by
  simp only [inodeOpen] at hr
  split at hr
  · rename_i b hfind
    obtain ⟨ino, hb, hs⟩ := findOpen_some hfind
    simp only [inodeReopen, hb, Option.bind_eq_bind, Option.bind_some, Option.map_some, Option.some.injEq,
      Prod.mk.injEq] at hr
    obtain ⟨rfl, rfl⟩ := hr
    exact ⟨{ ino with openCnt := ino.openCnt + 1 }, by rw [setInode_inodes, if_pos rfl], hs⟩
  · simp only [Option.ite_none_right_eq_some, Option.bind_eq_bind, Option.bind_eq_some_iff, Option.some.injEq,
      Prod.mk.injEq] at hr
    obtain ⟨-, data, -, rfl, rfl⟩ := hr
    refine ⟨⟨sector, 1, false, data⟩, ?_, rfl⟩
    show (v.setInode _ _).inodes _ = _
    rw [setInode_inodes, if_pos rfl]

theorem Backing.inodeOpen {sector : Nat} (h : v.Backing r dir) (hr : v.inodeOpen sector = some (a, v')) :
    v'.Backing r dir ∧ v'.disk = v.disk := by
  simp only [Volume.inodeOpen] at hr
  split at hr
  · rename_i b hfind
    obtain ⟨ino, hb, -⟩ := findOpen_some hfind
    simp only [inodeReopen, hb, Option.bind_eq_bind, Option.bind_some, Option.map_some, Option.some.injEq,
      Prod.mk.injEq] at hr
    obtain ⟨rfl, rfl⟩ := hr
    exact ⟨h.setInode fun _ hi => ⟨ino, hb, by rw [← Option.some.inj hi]⟩, rfl⟩
  · simp only [Option.ite_none_right_eq_some, Option.bind_eq_bind, Option.bind_eq_some_iff, Option.some.injEq,
      Prod.mk.injEq] at hr
    obtain ⟨-, data, -, rfl, rfl⟩ := hr
    exact ⟨h.newInode, rfl⟩

/-- A write to the file of the free map is not in the directory. -/
theorem Backing.bitmapWrite {ok : Bool} (h : v.Backing r dir) (hf : v.freeMapFile = some a)
    (hr : v.bitmapWrite a = some (ok, v')) : v'.Backing r dir ∧ SameData dir v v' := by
  simp only [Volume.bitmapWrite, Option.bind_eq_bind, Option.bind_eq_some_iff] at hr
  obtain ⟨ino, ha, hr⟩ := hr
  obtain ⟨hon, hapart⟩ := (h.map a hf).2 ino ha
  simp only [inodeWriteAt_eq hon (Int.le_refl 0) (by omega : (0 : Int) < 2 ^ 31), Option.some.injEq, exists_eq_left',
    Prod.mk.injEq] at hr
  obtain ⟨-, rfl⟩ := hr
  refine ⟨⟨h.lt, h.data, h.on, h.map⟩, fun x hx => patch_sameOn (hapart x hx) ?_⟩
  simp only [inFile]
  have := ino.data.length_nonneg
  omega

theorem Backing.freeMapRelease {sector cnt : Nat} (h : v.Backing r dir) (hr : v.freeMapRelease sector cnt = some v') :
    v'.Backing r dir ∧ SameData dir v v' := by
  simp only [Volume.freeMapRelease, Option.ite_none_right_eq_some, Option.bind_eq_bind, Option.bind_eq_some_iff,
    Option.some.injEq] at hr
  obtain ⟨-, a, hf, ⟨ok, w⟩, hw, rfl⟩ := hr
  have hmark : Backing { v with freeMap := v.freeMap.setMultiple sector cnt false } r dir := ⟨h.lt, h.data, h.on, h.map⟩
  exact hmark.bitmapWrite hf hw

theorem Backing.inodeClose (h : v.Backing r dir) (hr : v.inodeClose a = some v') :
    v'.Backing r dir ∧ SameData dir v v' := by
  simp only [Volume.inodeClose, Option.bind_eq_bind, Option.bind_eq_some_iff] at hr
  obtain ⟨ino, ha, hr⟩ := hr
  split at hr
  · have hfree : (v.setInode a none).Backing r dir := h.setInode fun _ hi => by cases hi
    split at hr
    · obtain ⟨w, hw, hr⟩ := Option.bind_eq_some_iff.mp hr
      obtain ⟨h₁, hs₁⟩ := hfree.freeMapRelease hw
      obtain ⟨h₂, hs₂⟩ := h₁.freeMapRelease hr
      exact ⟨h₂, hs₁.trans hs₂⟩
    · obtain rfl := Option.some.inj hr
      exact ⟨hfree, .refl⟩
  · obtain rfl := Option.some.inj hr
    exact ⟨h.setInode fun _ hi => ⟨ino, ha, by rw [← Option.some.inj hi]⟩, .refl⟩

theorem Backing.inodeRemove (h : v.Backing r dir) (hr : v.inodeRemove a = some v') :
    v'.Backing r dir ∧ SameData dir v v' := by
  simp only [Volume.inodeRemove, Option.bind_eq_bind, Option.bind_eq_some_iff, Option.some.injEq] at hr
  obtain ⟨ino, ha, rfl⟩ := hr
  exact ⟨h.setInode fun _ hi => ⟨ino, ha, by rw [← Option.some.inj hi]⟩, .refl⟩

/-! ## The calls -/

/-- Writing entry `k` succeeds unless the slots end there. -/
theorem writeEntry_eq (hon : dir.On v.size) (hk : k ≤ entryCnt dir) (e : DirEntry) :
    ∃ n ≤ entrySize, (k < entryCnt dir → n = entrySize) ∧ v.writeEntry dir k e =
      some (decide (k < entryCnt dir), { v with disk := patch v.disk (dir.addr (entrySize * k)) n e.bytes }) := by
  have hl₀ := dir.length_nonneg
  have hl₁ := dir.length_lt
  have hle : ((entrySize * k : Nat) : Int) ≤ dir.length := by
    simp only [entryCnt, entrySize] at hk ⊢
    omega
  refine ⟨(inFile dir entrySize (entrySize * k : Nat)).toNat, ?_, ?_, ?_⟩
  · simp only [inFile]
    omega
  · intro hlt
    simp only [inFile, entryCnt, entrySize] at hlt ⊢
    omega
  · simp only [Volume.writeEntry, Option.bind_eq_bind]
    rw [inodeWriteAt_eq hon (by omega) (by omega), Option.bind_some, Int.toNat_natCast]
    congr 2
    rw [Bool.eq_iff_iff, beq_iff_eq, decide_eq_true_iff]
    simp only [inFile, entryCnt, entrySize] at hk ⊢
    omega

theorem Backing.setDisk {d : Disk} (h : v.Backing r dir) : Backing { v with disk := d } r dir :=
  ⟨h.lt, h.data, h.on, h.map⟩

/-- The slots of the directory hold the map, and the names in it fit. -/
structure SlotsHold (v : Volume) (dir : Inode) (m : Finmap fun _ : Name => Nat) : Prop where
  holds : Slots.Holds (entryCnt dir) (slotAt v.disk dir) m
  short : ∀ name ∈ m, name.val.length ≤ nameMax

theorem SlotsHold.congr (h : v.SlotsHold dir m) (hd : SameData dir v v') : v'.SlotsHold dir m :=
  ⟨h.holds.congr fun _ hk => slotAt_congr hd hk, h.short⟩

/-- What `dir_add` asks for. -/
def CanAdd (dir : Inode) (m : Finmap fun _ : Name => Nat) (name : Name) : Prop :=
  name.val ≠ [] ∧ name.val.length ≤ nameMax ∧ name ∉ m ∧ m.keys.card < entryCnt dir

/-- `dir_add` always returns; it adds the name if it can, and else changes
nothing in the map. -/
theorem SlotsHold.dirAdd {inodeSector : Nat} (hs : v.SlotsHold dir m) (name : Name) (h : v.Backing r dir)
    (hsec : inodeSector < 2 ^ 32) :
    ∃ ok v', v.dirAdd dir name inodeSector = some (ok, v') ∧ (ok = true ↔ CanAdd dir m name) ∧ v'.Backing r dir ∧
      v'.SlotsHold dir (if ok then m.insert name inodeSector else m) := by
  have hsame : ∀ hno : ¬ CanAdd dir m name, v.dirAdd dir name inodeSector = some (false, v) →
      ∃ ok v', v.dirAdd dir name inodeSector = some (ok, v') ∧ (ok = true ↔ CanAdd dir m name) ∧ v'.Backing r dir ∧
        v'.SlotsHold dir (if ok then m.insert name inodeSector else m) :=
    fun hno he => ⟨false, v, he, by simp [hno], h, hs⟩
  by_cases hvalid : name.val = [] ∨ nameMax < name.val.length
  · refine hsame (fun hc => ?_) (by simp only [Volume.dirAdd, if_pos hvalid])
    obtain hnil | hlong := hvalid
    · exact hc.1 hnil
    · exact absurd hc.2.1 (by omega)
  by_cases hin : (lookup v.disk dir name).isSome = true
  · refine hsame (fun hc => ?_) (by simp only [Volume.dirAdd, if_neg hvalid, if_pos hin])
    rw [lookup_eq, hs.holds.find_isSome] at hin
    exact hc.2.2.1 hin
  have hnew : name ∉ m := by
    rwa [lookup_eq, hs.holds.find_isSome] at hin
  have hshort : name.val.length ≤ nameMax := by omega
  simp only [Volume.dirAdd, if_neg hvalid, if_neg hin]
  generalize hfree : (List.range (entryCnt dir)).find? (fun k => !(entryAt v.disk dir k).inUse) = free
  cases free with
  | none =>
    -- no slot is free, and the write is at the end of the file
    have hfull : ¬ m.keys.card < entryCnt dir := by
      rw [hs.holds.card_lt]
      rintro ⟨i, hi, he⟩
      have := List.find?_eq_none.mp hfree i (List.mem_range.mpr hi)
      simp [slotAt_eq_none.mp he] at this
    obtain ⟨n, hn, -, hw⟩ := writeEntry_eq h.on (Nat.le_refl _)
      ⟨inodeSector, (entryAt v.disk dir (entryCnt dir)).setName name, true⟩
    refine ⟨_, _, hw, ?_, h.setDisk, ?_⟩
    · simp only [Nat.lt_irrefl, decide_false, Bool.false_eq_true, false_iff]
      exact fun hc => hfull hc.2.2.2
    · simp only [Nat.lt_irrefl, decide_false, Bool.false_eq_true, if_false]
      exact ⟨hs.holds.congr fun j hj => slotAt_patch_ne hj (Nat.ne_of_lt hj) hn, hs.short⟩
  | some k =>
    have hk := List.mem_range.mp (List.mem_of_find?_eq_some hfree)
    have hslot : slotAt v.disk dir k = none := by
      have := List.find?_some hfree
      exact slotAt_eq_none.mpr (by simpa using this)
    obtain ⟨n, hn, hfit, hw⟩ := writeEntry_eq h.on (Nat.le_of_lt hk)
      ⟨inodeSector, (entryAt v.disk dir k).setName name, true⟩
    obtain rfl := hfit hk
    refine ⟨_, _, hw, ?_, h.setDisk, ?_⟩
    · simp only [hk, decide_true, true_iff]
      exact ⟨fun hnil => hvalid (.inl hnil), hshort, hnew, hs.holds.card_lt.mpr ⟨k, hk, hslot⟩⟩
    · simp only [hk, decide_true, if_true]
      refine ⟨hs.holds.insert hnew hk (slotAt_patch_add hk hsec hshort) hslot fun j hj hne => slotAt_patch_ne hj hne hn,
        fun x hx => ?_⟩
      obtain rfl | hx := Finmap.mem_insert.mp hx
      · exact hshort
      · exact hs.short x hx

/-- `dir_remove`, when it returns. -/
theorem SlotsHold.dirRemove {ok : Bool} (hs : v.SlotsHold dir m) (h : v.Backing r dir)
    (hr : v.dirRemove dir name = some (ok, v')) : (ok = true ↔ name ∈ m) ∧ v'.Backing r dir ∧
      v'.SlotsHold dir (if ok then m.erase name else m) := by
  simp only [Volume.dirRemove] at hr
  split at hr
  · rename_i hfind
    rw [lookup_eq] at hfind
    simp only [Option.some.injEq, Prod.mk.injEq] at hr
    obtain ⟨rfl, rfl⟩ := hr
    exact ⟨by simpa using hs.holds.find_eq_none hfind, h, hs⟩
  · rename_i k hfind
    rw [lookup_eq] at hfind
    obtain ⟨hk, sector, hslot, hlook⟩ := hs.holds.find_eq_some hfind
    simp only [Option.bind_eq_bind, Option.bind_eq_some_iff] at hr
    obtain ⟨⟨a, v₁⟩, hopen, ⟨ok', v₂⟩, hw, hr⟩ := hr
    obtain ⟨h₁, hd₁⟩ := h.inodeOpen hopen
    obtain ⟨n, -, hfit, hw'⟩ := writeEntry_eq h₁.on (Nat.le_of_lt hk) { entryAt v.disk dir k with inUse := false }
    obtain rfl := hfit hk
    rw [hw', Option.some.injEq, Prod.mk.injEq] at hw
    obtain ⟨rfl, rfl⟩ := hw
    simp only [hk, decide_true, if_true, Option.bind_eq_some_iff, Option.some.injEq, Prod.mk.injEq] at hr
    obtain ⟨v₃, hrem, v₄, hclose, rfl, rfl⟩ := hr
    obtain ⟨h₃, hs₃⟩ := h₁.setDisk.inodeRemove hrem
    obtain ⟨h₄, hs₄⟩ := h₃.inodeClose hclose
    refine ⟨by simpa using Finmap.mem_iff.mpr ⟨sector, hlook⟩, h₄, SlotsHold.congr ?_ (hs₃.trans hs₄)⟩
    rw [hd₁, if_pos rfl]
    refine ⟨hs.holds.erase hk hslot (slotAt_patch_remove hk) fun j hj hne => slotAt_patch_ne hj hne (Nat.le_refl _),
      fun x hx => hs.short x (Finmap.mem_erase.mp hx).2⟩

/-- `dir_lookup`, when it returns: the inode of the sector, or none. -/
theorem SlotsHold.dirLookup {o : Option Nat} (hs : v.SlotsHold dir m) (h : v.Backing r dir)
    (hr : v.dirLookup name dir = some (o, v')) : ((o = none ↔ name ∉ m) ∧ ∀ a, o = some a →
      ∃ ino, v'.inodes a = some ino ∧ m.lookup name = some ino.sector) ∧ v'.Backing r dir ∧ v'.SlotsHold dir m := by
  simp only [Volume.dirLookup] at hr
  split at hr
  · rename_i hfind
    rw [lookup_eq] at hfind
    simp only [Option.some.injEq, Prod.mk.injEq] at hr
    obtain ⟨rfl, rfl⟩ := hr
    exact ⟨⟨by simpa using hs.holds.find_eq_none hfind, by simp⟩, h, hs⟩
  · rename_i k hfind
    rw [lookup_eq] at hfind
    obtain ⟨hk, sector, hslot, hlook⟩ := hs.holds.find_eq_some hfind
    simp only [Option.bind_eq_bind, Option.bind_eq_some_iff, Option.some.injEq, Prod.mk.injEq] at hr
    obtain ⟨⟨a, v₁⟩, hopen, rfl, rfl⟩ := hr
    obtain ⟨h₁, hd₁⟩ := h.inodeOpen hopen
    obtain ⟨ino, ha, hsec⟩ := inodeOpen_sector hopen
    refine ⟨⟨by simpa using Finmap.mem_iff.mpr ⟨sector, hlook⟩, fun b hb => ?_⟩, h₁, hs.congr fun x _ => hd₁ ▸ .refl⟩
    obtain rfl := Option.some.inj hb
    exact ⟨ino, ha, by rw [hlook, hsec, (slotAt_eq_some.mp hslot).2.2]⟩

/-! ## A directory is made -/

theorem bitmapWrite_disk {ok : Bool} (hr : v.bitmapWrite a = some (ok, v')) : ∃ d, v' = { v with disk := d } := by
  simp only [Volume.bitmapWrite, Option.bind_eq_bind, Option.bind_eq_some_iff, Option.some.injEq, Prod.mk.injEq] at hr
  obtain ⟨-, -, ⟨-, d⟩, -, -, rfl⟩ := hr
  exact ⟨d, rfl⟩

/-- What `free_map_allocate` finds was free; the disk and the free map change. -/
theorem freeMapAllocate_some {cnt start : Nat} (hr : v.freeMapAllocate cnt = some (some start, v')) :
    start + cnt ≤ v.freeMap.size ∧ (∀ x, start ≤ x → x < start + cnt → v.freeMap.bit x = false) ∧
      ∃ d b, v' = { v with disk := d, freeMap := b } := by
  simp only [freeMapAllocate] at hr
  cases hscan : v.freeMap.scan cnt with
  | none => simp [hscan] at hr
  | some sector =>
    obtain ⟨hle, hfree⟩ := Bitmap.scan_some hscan
    simp only [hscan] at hr
    split at hr
    · simp only [Option.some.injEq, Prod.mk.injEq] at hr
      obtain ⟨rfl, rfl⟩ := hr
      exact ⟨hle, hfree, v.disk, _, rfl⟩
    · simp only [Option.bind_eq_bind, Option.bind_eq_some_iff] at hr
      obtain ⟨⟨ok, w⟩, hw, hr⟩ := hr
      obtain ⟨d, rfl⟩ := bitmapWrite_disk hw
      cases ok with
      | false => simp at hr
      | true =>
        simp only [if_true, Option.some.injEq, Prod.mk.injEq] at hr
        obtain ⟨rfl, rfl⟩ := hr
        exact ⟨hle, hfree, d, _, rfl⟩

/-- `dir_create`: the inode is in its sector, and its data was free and is all
zeros. -/
theorem MapMarked.dirCreate {sector slots : Nat} (h : v.MapMarked) (hused : v.freeMap.bit sector = true)
    (hr : v.dirCreate sector slots = some (true, v')) :
    ∃ (dir : Inode) (d : Disk) (b : Bitmap), v' = { v with disk := d, freeMap := b } ∧
      dir.length = offT (slots * entrySize : Nat) ∧ sector < v.size ∧ dir.On v.size ∧
      (∀ x, dir.Has x → v.freeMap.bit x = false) ∧ readInode d sector = some dir ∧
      ∀ x, dir.Has (x / secBytes) → d x = 0 := by
  obtain ⟨h₀, start, v₁, halloc, hsec, rfl⟩ := inodeCreate_some hr
  obtain ⟨hle, hfree, d, b, rfl⟩ := freeMapAllocate_some halloc
  have h₁ := offT_lt (slots * entrySize : Nat)
  generalize offT (slots * entrySize : Nat) = length at *
  have hsize := h.size_lt
  rw [h.map_size] at hle
  have hcnt : sectorCnt length = bytesToSectors length := sectorCnt_eq h₀ h₁ (by omega)
  rw [hcnt] at hle hfree ⊢
  have hfits : start + bytesToSectors length ≤ 2 ^ 32 := by omega
  have hstart : start < 2 ^ 32 := by omega
  have hself : ¬ Inode.Has ⟨start, length, h₀, h₁, hfits⟩ sector := fun hx =>
    nomatch hused.symm.trans (hfree sector hx.1 hx.2)
  generalize hd : zeroSectors (diskWrite d sector (inodeDisk start length)) start (bytesToSectors length) = d'
  have hread : readInode d' sector = some ⟨start, length, h₀, h₁, hfits⟩ := by
    rw [← hd]
    exact readInode_created (i := ⟨start, length, h₀, h₁, hfits⟩) hstart hself
  refine ⟨⟨start, length, h₀, h₁, hfits⟩, d', b, rfl, rfl, hsec, hle, fun x hx => hfree x hx.1 hx.2, hread, fun x hx => ?_⟩
  rw [← hd]
  exact zeroSectors_zero hx

/-- The inode of a new directory: its data is not the free map's, and it is
empty. -/
theorem MapMarked.make {sector slots : Nat} {s : DirSys} (h : v.MapMarked) (hused : v.freeMap.bit sector = true)
    (hclosed : v.findOpen sector = none) (hr : DirSys.make v sector slots = some s) :
    ∃ dir : Inode, dir.length = offT (slots * entrySize : Nat) ∧ s.vol.Backing s.inode dir ∧ s.vol.SlotsHold dir ∅ ∧
      s.log = [] := by
  simp only [DirSys.make, Option.bind_eq_bind, Option.bind_eq_some_iff] at hr
  obtain ⟨⟨ok, w⟩, hmk, hr⟩ := hr
  cases ok with
  | false => simp at hr
  | true =>
    obtain ⟨dir, d, b, rfl, hlen, hsec, hon, hfree, hread, hzero⟩ := h.dirCreate hused hmk
    simp only [if_true, Option.bind_eq_some_iff, Option.some.injEq] at hr
    obtain ⟨⟨r, v₂⟩, hopen, rfl⟩ := hr
    have hfind : findOpen { v with disk := d, freeMap := b } sector = none := hclosed
    simp only [Volume.inodeOpen, hfind, if_pos hsec, hread, Option.bind_eq_bind, Option.bind_some] at hopen
    obtain ⟨rfl, rfl⟩ := Prod.mk.inj (Option.some.inj hopen)
    refine ⟨dir, hlen, ⟨Nat.lt_succ_self _, fun ino hi => ?_, hon, fun a ha => ?_⟩,
      ⟨Slots.holds_empty fun k hk => ?_, fun name hn => absurd hn Finmap.notMem_empty⟩, rfl⟩
    · have hi : (v.setInode v.nextInode (some ⟨sector, 1, false, dir⟩)).inodes v.nextInode = some ino := hi
      rw [setInode_inodes, if_pos rfl] at hi
      rw [← Option.some.inj hi]
    · obtain ⟨hlt, hmap⟩ := h.file a ha
      refine ⟨Nat.lt_succ_of_lt hlt, fun ino hi => ?_⟩
      have hi : (v.setInode v.nextInode (some ⟨sector, 1, false, dir⟩)).inodes a = some ino := hi
      rw [setInode_inodes, if_neg (Nat.ne_of_lt hlt)] at hi
      obtain ⟨hmap_on, hbits⟩ := hmap ino hi
      exact ⟨hmap_on, fun x hx hy => by cases (hbits x hy).symm.trans (hfree x hx)⟩
    · have hnone : slotOf d dir k = none := slotOf_zero hzero
      refine slotAt_eq_none.mpr (Bool.eq_false_iff.mpr fun hu => ?_)
      rw [slotOf, if_pos ⟨hk, hu⟩] at hnone
      cases hnone

end Volume

/-! ## Runs -/

/-- The directory of the system, and that it holds the map of its history. -/
structure DirSys.Ok (s : DirSys) (dir : Inode) : Prop where
  backing : s.vol.Backing s.inode dir
  slots : s.vol.SlotsHold dir (mapOf s.log)

variable {s s' : DirSys} {e : DirEvent}

theorem DirSys.Ok.step (h : s.Ok dir) (hr : s.step e = some s') : s'.Ok dir := by
  cases e with
  | add name inodeSector =>
    simp only [DirSys.step, Option.bind_eq_bind, Option.bind_eq_some_iff, Option.some.injEq] at hr
    obtain ⟨ino, hi, ⟨ok, w⟩, hw, rfl⟩ := hr
    rw [h.backing.data ino hi] at hw
    obtain ⟨ok', w', hw', -, hb, hs⟩ := h.slots.dirAdd name h.backing inodeSector.isLt
    obtain ⟨rfl, rfl⟩ := Prod.mk.inj (Option.some.inj (hw.symm.trans hw'))
    cases ok <;> exact ⟨hb, hs⟩
  | remove name =>
    simp only [DirSys.step, Option.bind_eq_bind, Option.bind_eq_some_iff, Option.some.injEq] at hr
    obtain ⟨ino, hi, ⟨ok, w⟩, hw, rfl⟩ := hr
    rw [h.backing.data ino hi] at hw
    obtain ⟨-, hb, hs⟩ := h.slots.dirRemove h.backing hw
    cases ok <;> exact ⟨hb, hs⟩
  | lookup name =>
    simp only [DirSys.step, Option.bind_eq_bind, Option.bind_eq_some_iff, Option.some.injEq] at hr
    obtain ⟨ino, hi, ⟨o, w⟩, hw, rfl⟩ := hr
    rw [h.backing.data ino hi] at hw
    obtain ⟨-, hb, hs⟩ := h.slots.dirLookup h.backing hw
    exact ⟨hb, hs⟩
  | close a =>
    simp only [DirSys.step, Option.bind_eq_bind, Option.bind_eq_some_iff, Option.some.injEq] at hr
    obtain ⟨w, hw, rfl⟩ := hr
    obtain ⟨hb, hd⟩ := h.backing.inodeClose hw
    exact ⟨hb, h.slots.congr hd⟩

/-- The directory answers as the map: the calls, in any state it is in. -/
structure Shows (v : Volume) (dir : Inode) (m : Finmap fun _ : Name => Nat) : Prop where
  lookup : ∀ name : Name,
    (lookup v.disk dir name).map (fun k => (entryAt v.disk dir k).inodeSector) = m.lookup name
  dirLookup : ∀ (name : Name) o v', v.dirLookup name dir = some (o, v') → (o = none ↔ name ∉ m) ∧
    ∀ a, o = some a → ∃ ino, v'.inodes a = some ino ∧ m.lookup name = some ino.sector
  dirAdd : ∀ (name : Name) (sector : Fin (2 ^ 32)), ∃ ok v', v.dirAdd dir name sector = some (ok, v') ∧
    (ok = true ↔ name.val ≠ [] ∧ name.val.length ≤ nameMax ∧ name ∉ m ∧ m.keys.card < entryCnt dir)
  dirRemove : ∀ (name : Name) ok v', v.dirRemove dir name = some (ok, v') → (ok = true ↔ name ∈ m)
  readdir : ∃ names : List Name, readdirAll v.disk dir (entryCnt dir + 1) 0 = some (names.map Subtype.val) ∧
    names.Nodup ∧ ∀ name, name ∈ names ↔ name ∈ m

theorem Volume.SlotsHold.shows (hs : v.SlotsHold dir m) (h : v.Backing r dir) : Shows v dir m where
  lookup name := by
    rw [lookup_eq]
    cases hfind : Slots.find (entryCnt dir) (slotAt v.disk dir) name with
    | none => exact (Finmap.lookup_eq_none.mpr (hs.holds.find_eq_none hfind)).symm
    | some k =>
      obtain ⟨-, sector, hslot, hlook⟩ := hs.holds.find_eq_some hfind
      rw [hlook, Option.map_some, (slotAt_eq_some.mp hslot).2.2]
  dirLookup name o v' hr := (hs.dirLookup h hr).1
  dirAdd name sector := by
    obtain ⟨ok, v', hr, hok, -, -⟩ := hs.dirAdd name h sector.isLt
    exact ⟨ok, v', hr, hok⟩
  dirRemove name ok v' hr := (hs.dirRemove h hr).1
  readdir := by
    refine ⟨Slots.keys (entryCnt dir) (slotAt v.disk dir), ?_, hs.holds.nodup_keys, fun name => hs.holds.mem_keys⟩
    have hscan := readdirAll_eq v.disk dir 0 (entryCnt dir + 1) (Nat.zero_le _) (by omega) fun j hj hu => by
        have hslot : slotAt v.disk dir j = some (⟨_, (entryAt v.disk dir j).str_nul⟩, _) :=
          slotAt_eq_some.mpr ⟨hu, rfl, rfl⟩
        exact hs.short _ (hs.holds.mem_keys.mp (Slots.mem_slots.mpr ⟨j, hj, _, hslot⟩))
    rw [Nat.mul_zero, Nat.sub_zero] at hscan
    rw [hscan, Slots.keys, List.map_filterMap, List.range_eq_range']
    simp only [Option.map_map, Function.comp_def]

theorem mapMarked_of_run {size : Fin (2 ^ 32)} {disk : Disk} {es : List Event} (hinit : filesysInit size disk = some v)
    (hrun : Run.run Volume.step v es = some v') (hf : ∀ e ∈ es, Forward e) : v'.MapMarked := by
  obtain ⟨ex, hinv⟩ := inv_of_run hinit hrun hf
  exact hinv.mapMarked

/-- **A directory refines a finite map**, the one its history of successful
calls builds, for as long as it is open; its sector is one that was in use, and
not open. All its slots are there unless their bytes overflow an `off_t`. -/
theorem directory_refines_map {sector slots : Nat} {s₀ : DirSys} {calls : List DirEvent} {ino : OpenInode}
    (hmap : v.MapMarked) (hused : v.freeMap.bit sector = true) (hclosed : v.findOpen sector = none)
    (hmake : DirSys.make v sector slots = some s₀) (hrun : Run.run DirSys.step s₀ calls = some s)
    (hopen : s.vol.inodes s.inode = some ino) :
    Shows s.vol ino.data (mapOf s.log) ∧ (slots * entrySize < 2 ^ 31 → entryCnt ino.data = slots) := by
  obtain ⟨dir, hlen, hb, hs, hlog⟩ := hmap.make hused hclosed hmake
  have hok : s.Ok dir := by
    refine Run.run_invariant (G := fun _ _ => True) (I := fun s => s.Ok dir) (fun _ _ _ h _ hr => h.step hr)
      ⟨hb, by rw [hlog]; exact hs⟩ hrun (Run.always_of_mem _ fun _ _ _ => trivial)
  obtain rfl := hok.backing.data ino hopen
  refine ⟨hok.slots.shows hok.backing, fun hlt => ?_⟩
  have hoff : offT (slots * entrySize : Nat) = (slots * entrySize : Nat) := offT_of_range (by omega) (by omega)
  rw [hoff] at hlen
  simp only [entryCnt, hlen, entrySize]
  omega

/-- A directory of two slots, with a third name added when both are used and
again after one of them was freed. -/
def reuseSlot : List DirEvent :=
  [.add ⟨[97], by decide⟩ 6, .add ⟨[98], by decide⟩ 7, .add ⟨[99], by decide⟩ 8, .lookup ⟨[98], by decide⟩, .close 4,
    .remove ⟨[97], by decide⟩, .add ⟨[99], by decide⟩ 8, .add ⟨[], by decide⟩ 9]

theorem directory_refines_map_reuseSlot : ∃ v v' s₀ s ino, filesysInit 32 (fun _ => 0) = some v ∧
    Run.run Volume.step v [.create [65] 600] = some v' ∧ DirSys.make v' rootDirSector 2 = some s₀ ∧
    Run.run DirSys.step s₀ reuseSlot = some s ∧ s.vol.inodes s.inode = some ino ∧ s.log.length = 4 ∧
    Shows s.vol ino.data (mapOf s.log) := by
  have hrun : (filesysInit 32 fun _ => 0).any (fun v => (Run.run Volume.step v [.create [65] 600]).any fun v' =>
      v'.freeMap.bit rootDirSector && (v'.findOpen rootDirSector).isNone &&
      (DirSys.make v' rootDirSector 2).any fun s₀ => (Run.run DirSys.step s₀ reuseSlot).any fun s =>
        (s.vol.inodes s.inode).isSome && s.log.length == 4) = true := by
    decide +kernel
  obtain ⟨v, hv, hrun⟩ := (Option.any_eq_true ..).mp hrun
  obtain ⟨v', hv', hrun⟩ := (Option.any_eq_true ..).mp hrun
  simp only [Bool.and_eq_true, Option.isNone_iff_eq_none] at hrun
  obtain ⟨⟨hused, hclosed⟩, hrun⟩ := hrun
  obtain ⟨s₀, hs₀, hrun⟩ := (Option.any_eq_true ..).mp hrun
  obtain ⟨s, hs, hrun⟩ := (Option.any_eq_true ..).mp hrun
  simp only [Bool.and_eq_true, beq_iff_eq] at hrun
  obtain ⟨hopen, hlog⟩ := hrun
  obtain ⟨ino, hopen⟩ := Option.isSome_iff_exists.mp hopen
  have hmap := mapMarked_of_run hv hv' (by decide)
  exact ⟨v, v', s₀, s, ino, hv, hv', hs₀, hs, hopen, hlog,
    (directory_refines_map hmap hused hclosed hs₀ hs hopen).1⟩

end PintosKaist.Filesys
