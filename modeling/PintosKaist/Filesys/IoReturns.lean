/-
Reading and writing files: a read returns a run of the array, a write replaces
one and leaves every other array.
-/
import PintosKaist.Filesys.CallsReturn

namespace PintosKaist.Filesys.Volume

open ArrayStore

variable {v v' : Volume} {ex : Nat → Nat} {dir : Inode} {f x pos : Nat} {s : Files} {size ofs written : Int}
  {buf : Nat → Byte} {bytes : List Byte} {i : Inode} {d : Disk} {file : OpenFile}

/-! ## Arrays and the disk -/

theorem inodeReadAt_nil (hs : size ≤ 0) : inodeReadAt d i size ofs = [] := by
  have hnil : chunks i size ofs = [] := by
    rw [chunks, Int.toNat_of_nonpos hs]
    rfl
  rw [inodeReadAt, hnil]
  rfl

/-- A read is a run of the array, unless it starts before the file. -/
theorem inodeReadAt_slice (h₁ : ofs < 2 ^ 31) (hin : size ≤ 0 ∨ 0 ≤ ofs) :
    inodeReadAt d i size ofs = slice (FileBytes.bytesOf d i) ofs.toNat size.toNat := by
  obtain hs | h₀ := hin
  · rw [inodeReadAt_nil hs, Int.toNat_of_nonpos hs]
    rfl
  · rw [inodeReadAt_eq h₀ h₁]
    have hlen := i.length_nonneg
    refine List.ext_getElem ?_ fun k hk hk' => ?_
    · simp only [List.length_map, List.length_range, slice, List.length_take, List.length_drop,
        FileBytes.length_bytesOf, inFile]
      omega
    · simp only [List.getElem_map, List.getElem_range, slice, List.getElem_take, List.getElem_drop,
        FileBytes.getElem_bytesOf, addr_add]

/-- Replacing what there is room for, as `bytesOf_write` has it. -/
theorem overwrite_firstBytes (bytes : List Byte) (a n : Nat) :
    overwrite bytes a (FileBytes.firstBytes buf n) =
      FileBytes.overwrite bytes a (FileBytes.firstBytes buf (min n (bytes.length - a))) := by
  have htake : (FileBytes.firstBytes buf n).take (bytes.length - a) =
      FileBytes.firstBytes buf (min n (bytes.length - a)) := by
    simp only [FileBytes.firstBytes, ← List.map_take, List.take_range]
    rw [Nat.min_comm]
  have hdrop : bytes.drop (a + (FileBytes.firstBytes buf n).length) =
      bytes.drop (a + (FileBytes.firstBytes buf (min n (bytes.length - a))).length) := by
    simp only [FileBytes.length_firstBytes]
    by_cases hle : n ≤ bytes.length - a
    · rw [Nat.min_eq_left hle]
    · rw [List.drop_eq_nil_of_le (by omega), List.drop_eq_nil_of_le (by omega)]
  simp only [overwrite, FileBytes.overwrite, htake, hdrop]

/-! ## Reading -/

theorem Represents.fileReadAt (hs : v.Represents dir s) (h₁ : ofs < 2 ^ 31) (hin : size ≤ 0 ∨ 0 ≤ ofs) (h : Inv v ex)
    (hr : v.fileReadAt f size ofs = some bytes) : Files.ReadsAt s f size ofs bytes := by
  simp only [Volume.fileReadAt, Option.bind_eq_bind, Option.bind_eq_some_iff, Option.some.injEq] at hr
  obtain ⟨file, hf, ino, hi, rfl⟩ := hr
  obtain ⟨jno, hj, hh⟩ := h.handle_eq hf
  obtain rfl := Option.some.inj (hi.symm.trans hj)
  have hhandle := (hs.handles f).trans hh
  obtain ⟨i, hhdr, hb⟩ := hs.bytes _ (.handle hhandle)
  obtain rfl := Option.some.inj ((h.data _ ino hi).symm.trans hhdr)
  exact ⟨ino.sector, _, hhandle, by rw [hb, inodeReadAt_slice h₁ hin]⟩

/-- A handle moves. -/
theorem Represents.setPos {ino : OpenInode} {p : Int} (hs : v.Represents dir s) (hi : v.inodes file.inode = some ino)
    (halive : s.Alive ino.sector) :
    (v.setPos f file p).Represents dir (s.setHandle f (some (ino.sector, p.toNat))) := by
  refine ⟨hs.names.congr rfl, fun y hy => ?_, fun g => ?_⟩
  · obtain rfl | hy := Store.alive_setHandle hy
    · exact (hs.bytes _ halive).congr rfl
    · exact (hs.bytes y hy).congr rfl
  · simp only [Store.setHandle, Volume.setPos, handle, Function.update_apply]
    split
    · simp only [Option.bind_eq_bind, Option.bind_some, hi]
    · exact hs.handles g

/-- The position after `n` bytes, which are in the file. -/
theorem Inv.pos_add {n : Nat} (h : Inv v ex) (hf : v.files f = some file)
    (hn : n = 0 ∨ file.pos + n < 2 ^ 31) : offT (file.pos + n) = file.pos + n ∧ file.pos + n < 2 ^ 31 ∧ 0 ≤ file.pos := by
  obtain ⟨-, ino, hok⟩ := h.files f file hf
  have h₀ := hok.pos_nonneg
  have h₁ := hok.pos_lt
  refine ⟨offT_of_range (by omega) (by omega), by omega, h₀⟩

theorem Represents.fileRead (hs : v.Represents dir s) (h : Inv v ex) (hr : v.fileRead f (offT size) = some (bytes, v')) :
    ∃ s', s.Returns (.read f size) (.bytes bytes) s' ∧ v'.Leaves dir s' := by
  simp only [Volume.fileRead, Option.bind_eq_bind, Option.bind_eq_some_iff, Option.some.injEq, Prod.mk.injEq] at hr
  obtain ⟨file, hf, bs, hread, rfl, rfl⟩ := hr
  obtain ⟨-, ino, hok⟩ := h.files f file hf
  obtain ⟨jno, hj, hh⟩ := h.handle_eq hf
  obtain rfl := Option.some.inj (hok.inode.symm.trans hj)
  have hhandle := (hs.handles f).trans hh
  have hreads := hs.fileReadAt hok.pos_lt (.inr hok.pos_nonneg) h hread
  obtain ⟨i, hhdr, hb⟩ := hs.bytes _ (.handle hhandle)
  have hlen : bs.length = 0 ∨ file.pos + bs.length < 2 ^ 31 := by
    obtain ⟨x, p, hx, rfl⟩ := hreads
    obtain ⟨rfl, -⟩ := Prod.mk.inj (Option.some.inj (hhandle.symm.trans hx))
    have := i.length_lt
    have := hok.pos_nonneg
    simp only [slice, List.length_take, List.length_drop, hb, FileBytes.length_bytesOf]
    omega
  obtain ⟨hoff, hlt, h₀⟩ := h.pos_add hf hlen
  have hpos : (file.pos + bs.length).toNat = file.pos.toNat + bs.length := by omega
  have hinv : Inv (v.setPos f file (offT (file.pos + bs.length))) ex :=
    h.moveFile hf (by rw [hoff]; omega) (by rw [hoff]; exact hlt)
  have hrep := hs.setPos (f := f) (p := offT (file.pos + bs.length)) hok.inode (.handle hhandle)
  rw [hoff] at hinv hrep ⊢
  rw [hpos] at hrep
  refine ⟨_, ⟨ino.sector, _, hhandle, ?_, rfl⟩, ⟨ex, hinv⟩, hrep⟩
  rw [Int.toNat_of_nonneg h₀]
  exact hreads

/-! ## Writing -/

theorem inodeWriteAt_nil {n : Nat} (hs : size ≤ 0) : inodeWriteAt n d i buf size ofs = some (0, d) := by
  have hnil : chunks i size ofs = [] := by
    rw [chunks, Int.toNat_of_nonpos hs]
    rfl
  rw [inodeWriteAt, hnil]
  rfl

/-- The bytes that a write has room for. -/
def roomFor (i : Inode) (size ofs : Int) : Nat := min size.toNat (i.length.toNat - ofs.toNat)

theorem roomFor_le (i : Inode) (size ofs : Int) :
    ofs.toNat + roomFor i size ofs ≤ i.length.toNat ∨ roomFor i size ofs = 0 := by
  simp only [roomFor]
  omega

theorem inodeWriteAt_roomFor {n : Nat} (hon : i.On n) (h₁ : ofs < 2 ^ 31) (hin : size ≤ 0 ∨ 0 ≤ ofs) :
    inodeWriteAt n d i buf size ofs =
      some ((roomFor i size ofs : Int), patch d (i.addr ofs.toNat) (roomFor i size ofs) buf) := by
  by_cases hs : size ≤ 0
  · have hnone : roomFor i size ofs = 0 := by
      simp only [roomFor]
      omega
    rw [inodeWriteAt_nil hs, hnone, patch_zero]
    rfl
  · have h₀ : 0 ≤ ofs := hin.resolve_left hs
    have hroom : inFile i size ofs = roomFor i size ofs := by
      have := i.length_nonneg
      simp only [inFile, roomFor]
      omega
    rw [inodeWriteAt_eq hon h₀ h₁, hroom, Int.toNat_natCast]

/-- `file_write_at` writes the data of its file and nothing else. -/
theorem Represents.fileWriteAt (hs : v.Represents dir s) (h : Inv v ex) (h₁ : ofs < 2 ^ 31) (hin : size ≤ 0 ∨ 0 ≤ ofs)
    (hr : v.fileWriteAt f buf size ofs = some (written, v')) :
    ∃ s', Files.WritesAt s f buf size ofs written s' ∧ v'.Represents dir s' ∧ Inv v' ex ∧ v'.files = v.files ∧
      v'.inodes = v.inodes ∧ s'.handles = s.handles := by
  have hinv' : Inv v' ex := by
    obtain hs | h₀ := hin
    · exact fileWriteAt_nil hs hr ▸ h
    · exact (h.fileWriteAt h₀ h₁ hr).1
  simp only [Volume.fileWriteAt, Option.bind_eq_bind, Option.bind_eq_some_iff] at hr
  obtain ⟨file, hf, ino, hi, ⟨w, d⟩, hw, hr⟩ := hr
  obtain ⟨rfl, rfl⟩ := Prod.mk.inj (Option.some.inj hr)
  obtain ⟨-, jno, hok⟩ := h.files f file hf
  obtain rfl := Option.some.inj (hi.symm.trans hok.inode)
  obtain ⟨jno, hj, hh⟩ := h.handle_eq hf
  obtain rfl := Option.some.inj (hi.symm.trans hj)
  have hhandle := (hs.handles f).trans hh
  have hlive : v.Live ino.sector := .opened hi
  have hhdr := h.data _ ino hi
  obtain ⟨i, hi', -, hon⟩ := h.header _ hlive
  obtain rfl := Option.some.inj (hhdr.symm.trans hi')
  obtain ⟨j, hj, hb⟩ := hs.bytes _ (.handle hhandle)
  obtain rfl := Option.some.inj (hhdr.symm.trans hj)
  rw [inodeWriteAt_roomFor hon h₁ hin] at hw
  obtain ⟨rfl, rfl⟩ := Prod.mk.inj (Option.some.inj hw)
  -- sectors that are not data of the file are as they were
  have hsame : ∀ x, ¬ ino.data.Has x →
      SameOn v.disk (patch v.disk (ino.data.addr ofs.toNat) (roomFor ino.data size ofs) buf) x := by
    intro x hx
    obtain hle | hzero := roomFor_le ino.data size ofs
    · refine patch_sameOn hx ?_
      have := ino.data.length_nonneg
      omega
    · rw [hzero, patch_zero]
      exact .refl
  have hother : ∀ y z, v.Live y → y ≠ ino.sector → v.Holds y z → ¬ ino.data.Has z := fun y z hy hne hz hd =>
    hne (h.excl.unique hy hlive hz (.data hhdr hd))
  refine ⟨_, ⟨ino.sector, _, hhandle, ?_, rfl⟩, ⟨?_, fun y hy => ?_, hs.handles⟩, hinv', rfl, rfl, rfl⟩
  · rw [hb, FileBytes.length_bytesOf]
    simp only [roomFor]
  · obtain ⟨m, hm, hn⟩ := hs.names.slots
    have hroot := fun z hz => hsame z (hother rootDirSector z .root hok.ne_root.symm hz)
    exact ⟨(readInode_congr (hroot _ .self)).trans hs.names.root, m,
      hm.congr fun z hz => hroot z (.data hs.names.root hz), hn⟩
  · have hy : s.Alive y := hy
    obtain ⟨hl, hne₀, hne₁⟩ := hs.live h hy
    simp only [Store.setBytes, Function.update_apply]
    split
    · rename_i heq
      subst heq
      refine ⟨ino.data, (readInode_congr (hsame _ (h.not_has hlive hhdr hlive))).trans hhdr, ?_⟩
      rw [FileBytes.bytesOf_write (roomFor_le ..), overwrite_firstBytes, hb, FileBytes.length_bytesOf]
      rfl
    · rename_i hne
      refine (hs.bytes y hy).spared fun z hz => ?_
      exact (h.offMap_of_holds hl hne₀ hz).setDisk (hsame z (hother y z hl hne hz))

theorem Represents.fileWriteCnt (hs : v.Represents dir s) (h : Inv v ex)
    (hr : v.fileWriteCnt f buf (offT size) = some (written, v')) :
    ∃ s', s.Returns (.write f buf size) (.off written) s' ∧ v'.Leaves dir s' := by
  simp only [Volume.fileWriteCnt, Option.bind_eq_bind, Option.bind_eq_some_iff, Option.some.injEq, Prod.mk.injEq] at hr
  obtain ⟨file, hf, ⟨n, w⟩, hw, rfl, rfl⟩ := hr
  obtain ⟨-, ino, hok⟩ := h.files f file hf
  obtain ⟨jno, hj, hh⟩ := h.handle_eq hf
  obtain rfl := Option.some.inj (hok.inode.symm.trans hj)
  have hhandle := (hs.handles f).trans hh
  obtain ⟨t, hwrites, hrep, hinv, hfiles, hinodes, hhandles⟩ := hs.fileWriteAt h hok.pos_lt (.inr hok.pos_nonneg) hw
  have hf' : w.files f = some file := hfiles ▸ hf
  obtain ⟨i, hhdr, hb⟩ := hs.bytes _ (.handle hhandle)
  have hn : ∃ k : Nat, n = k ∧ (k = 0 ∨ file.pos + k < 2 ^ 31) := by
    obtain ⟨x, p, hx, rfl, -⟩ := hwrites
    obtain ⟨rfl, -⟩ := Prod.mk.inj (Option.some.inj (hhandle.symm.trans hx))
    have := i.length_lt
    have := hok.pos_nonneg
    refine ⟨min (offT size).toNat ((s.bytes ino.sector).length - file.pos.toNat), rfl, ?_⟩
    rw [hb, FileBytes.length_bytesOf]
    omega
  obtain ⟨k, rfl, hk⟩ := hn
  obtain ⟨hoff, hlt, h₀⟩ := hinv.pos_add hf' hk
  have hpos : (file.pos + k).toNat = file.pos.toNat + k := by omega
  have hinv' : Inv (w.setPos f file (offT (file.pos + k))) ex :=
    hinv.moveFile hf' (by rw [hoff]; omega) (by rw [hoff]; exact hlt)
  have hrep' := hrep.setPos (f := f) (p := offT (file.pos + k)) (hinodes ▸ hok.inode) (.handle (hhandles ▸ hhandle))
  rw [hoff] at hinv' hrep' ⊢
  rw [hpos] at hrep'
  refine ⟨_, ⟨ino.sector, _, t, hhandle, ?_, rfl⟩, ⟨ex, hinv'⟩, hrep'⟩
  rw [Int.toNat_of_nonneg h₀]
  exact hwrites

/-! ## Seeking and asking -/

theorem Represents.fileSeek {newPos : Int} (hs : v.Represents dir s) (h : Inv v ex)
    (hr : v.fileSeek f (offT newPos) = some v') : ∃ s', s.Returns (.seek f newPos) .unit s' ∧ v'.Leaves dir s' := by
  have hinv' := h.fileSeek (offT_lt _) hr
  simp only [Volume.fileSeek, Option.bind_eq_bind, Option.bind_eq_some_iff] at hr
  obtain ⟨file, hf, hr⟩ := hr
  obtain ⟨ino, hi, hh⟩ := h.handle_eq hf
  have hhandle := (hs.handles f).trans hh
  split at hr
  · cases hr
  · obtain rfl := Option.some.inj hr
    exact ⟨_, ⟨by omega, ino.sector, _, hhandle, rfl⟩, ⟨ex, hinv'⟩, hs.setPos hi (.handle hhandle)⟩

theorem Represents.fileTell {n : Int} (hs : v.Represents dir s) (h : Inv v ex) (hr : v.fileTell f = some n) :
    s.Returns (.tell f) (.off n) s := by
  obtain ⟨file, hf, rfl⟩ := Option.map_eq_some_iff.mp hr
  obtain ⟨-, jno, hok⟩ := h.files f file hf
  obtain ⟨ino, hi, hh⟩ := h.handle_eq hf
  exact ⟨ino.sector, _, (hs.handles f).trans hh, (Int.toNat_of_nonneg hok.pos_nonneg).symm, rfl⟩

theorem Represents.fileLength {n : Int} (hs : v.Represents dir s) (h : Inv v ex) (hr : v.fileLength f = some n) :
    s.Returns (.length f) (.off n) s := by
  simp only [Volume.fileLength, Option.bind_eq_bind, Option.bind_eq_some_iff, Option.some.injEq] at hr
  obtain ⟨file, hf, ino, hi, rfl⟩ := hr
  obtain ⟨jno, hj, hh⟩ := h.handle_eq hf
  obtain rfl := Option.some.inj (hi.symm.trans hj)
  have hhandle := (hs.handles f).trans hh
  obtain ⟨i, hhdr, hb⟩ := hs.bytes _ (.handle hhandle)
  obtain rfl := Option.some.inj ((h.data _ ino hi).symm.trans hhdr)
  refine ⟨ino.sector, _, hhandle, ?_, rfl⟩
  rw [hb, FileBytes.length_bytesOf, Int.toNat_of_nonneg ino.data.length_nonneg]

/-- The listing of `fsutil_ls`, which leaves the root directory open. -/
theorem Represents.fsutilLs {l : List (List Byte)} (hs : v.Represents dir s) (h : Inv v ex)
    (hr : v.fsutilLs = some (l, v')) : ∃ s', s.Returns .ls (.names l) s' ∧ v'.Leaves dir s' := by
  simp only [Volume.fsutilLs, Option.bind_eq_bind, Option.bind_eq_some_iff, Option.some.injEq, Prod.mk.injEq] at hr
  obtain ⟨⟨r, w⟩, hopen, root, hroot, names, hread, rfl, rfl⟩ := hr
  obtain ⟨hinv, -, -, -, -, ino, hino, hsec⟩ := h.inodeOpen .root hopen
  obtain rfl := Option.some.inj (hroot.symm.trans hino)
  have hrep := hs.still h hinv (still_of_open hopen)
  have hdata : root.data = dir :=
    Option.some.inj ((hsec ▸ hinv.data r root hroot : w.header rootDirSector = some root.data).symm.trans hrep.names.root)
  subst hdata
  obtain ⟨m, hm, hn⟩ := hrep.names.slots
  obtain ⟨ns, hns, hnodup, hmem⟩ := (hm.shows (hinv.backing hroot hsec)).readdir
  obtain rfl := Option.some.inj (hread.symm.trans hns)
  refine ⟨s, ⟨rfl, ns, rfl, hnodup, fun name => ?_⟩, ⟨_, hinv⟩, hrep⟩
  rw [hmem, hn, Finmap.lookup_isSome]

end PintosKaist.Filesys.Volume
