/-
The file system without its locks: the free map (`filesys/free-map.c`), inodes
(`filesys/inode.c`), the root directory (`filesys/directory.c`), files
(`filesys/file.c`) and the calls on them (`filesys/filesys.c`), over the bytes
of the disk.

A function is `none` where the C fails an ASSERT (of the disk, too), calls PANIC
or reads freed memory. Kernel memory never runs out, an address is never handed
out twice, the counts do not overflow, and nothing here denies writes.
-/
import PintosKaist.Filesys.Disk
import PintosKaist.Lib.Bitmap
import PintosKaist.Lib.Run

namespace PintosKaist.Filesys

/-- `FREE_MAP_SECTOR`, `ROOT_DIR_SECTOR`. -/
def freeMapSector : Nat := 0
def rootDirSector : Nat := 1

/-- `NAME_MAX`. -/
def nameMax : Nat := 14

/-- `struct inode`. -/
structure OpenInode where
  sector : Nat
  openCnt : Nat
  removed : Bool
  data : Inode

/-- `struct file`. -/
structure OpenFile where
  inode : Nat
  pos : Int

/-- The disk, and what the kernel keeps of it in memory. -/
structure Volume where
  /-- `disk_size`. -/
  size : Nat
  disk : Disk
  freeMap : Bitmap
  /-- The inode of `free_map_file`. -/
  freeMapFile : Option Nat
  /-- The `struct inode`s, by address. `open_inodes` is all of them, the newest
  first. -/
  inodes : Nat → Option OpenInode
  nextInode : Nat
  /-- The files the callers have open. -/
  files : Nat → Option OpenFile
  nextFile : Nat

namespace Volume

/-! ## `lib/kernel/bitmap.c` -/

/-- `byte_cnt`. -/
def byteCnt (bitCnt : Nat) : Nat := 8 * ((bitCnt + 63) / 64)

/-- The bits of a bitmap, eight to a byte. -/
def bitmapBytes (b : Bitmap) : Nat → Byte := fun k =>
  (BitVec.ofBoolListLE ((List.range 8).map fun j => b.bit (8 * k + j))).setWidth 8

/-- The bits that bytes stand for. -/
def bitsOf (bs : List Byte) : Nat → Bool := fun x => (bs.getD (x / 8) 0).getLsbD (x % 8)

/-- `bitmap_write(free_map, file)`, for a file with inode `a`. -/
def bitmapWrite (v : Volume) (a : Nat) : Option (Bool × Volume) := do
  let ino ← v.inodes a
  let size : Int := byteCnt v.freeMap.size
  let (written, d) ← inodeWriteAt v.size v.disk ino.data (bitmapBytes v.freeMap) size 0
  some (written == size, { v with disk := d })

/-- What `bitmap_read` reads: the bits, those past the last one masked, and
whether the file had them all. -/
def bitmapRead (v : Volume) (data : Inode) : Bool × (Nat → Bool) :=
  let size : Int := byteCnt v.freeMap.size
  let bs := inodeReadAt v.disk data size 0
  (bs.length == size, fun x => decide (x < v.freeMap.size) && bitsOf bs x)

/-! ## `filesys/free-map.c` -/

/-- `free_map_allocate`: the first of `cnt` sectors in a row, unless there are
none. -/
def freeMapAllocate (v : Volume) (cnt : Nat) : Option (Option Nat × Volume) :=
  match v.freeMap.scan cnt with
  | none => some (none, v)
  | some sector =>
    let v₁ := { v with freeMap := v.freeMap.setMultiple sector cnt true }
    match v.freeMapFile with
    | none => some (some sector, v₁)
    | some a => do
      let (ok, v₂) ← bitmapWrite v₁ a
      if ok then some (some sector, v₂)
      else some (none, { v₂ with freeMap := v₂.freeMap.setMultiple sector cnt false })

/-- `free_map_release`. -/
def freeMapRelease (v : Volume) (sector cnt : Nat) : Option Volume :=
  if v.freeMap.all sector cnt then do
    let a ← v.freeMapFile
    let (_, v₁) ← bitmapWrite { v with freeMap := v.freeMap.setMultiple sector cnt false } a
    some v₁
  else none

/-! ## `filesys/inode.c` -/

/-- `bytes_to_sectors` as a `size_t`; the sum is an `int`. -/
def sectorCnt (length : Int) : Nat := ((offT (length + sectorSize - 1)).tdiv sectorSize % 2 ^ 64).toNat

/-- The zeros `inode_create` writes to the data sectors. -/
def zeroSectors (d : Disk) (start cnt : Nat) : Disk :=
  (List.range cnt).foldl (fun d i => diskWrite d (start + i) fun _ => 0) d

/-- `inode_create`. -/
def inodeCreate (v : Volume) (sector : Nat) (length : Int) : Option (Bool × Volume) :=
  if length < 0 then none
  else do
    let sectors := sectorCnt length
    let (r, v) ← freeMapAllocate v sectors
    match r with
    | none => some (false, v)
    | some start =>
      if sector < v.size then
        let d := diskWrite v.disk sector (inodeDisk start length)
        some (true, { v with disk := zeroSectors d start sectors })
      else none

/-- The struct inode of a sector that is open. -/
def findOpen (v : Volume) (sector : Nat) : Option Nat :=
  (List.range v.nextInode).reverse.find? fun a => (v.inodes a).any fun ino => ino.sector == sector

def setInode (v : Volume) (a : Nat) (ino : Option OpenInode) : Volume :=
  { v with inodes := Function.update v.inodes a ino }

/-- `inode_reopen`. -/
def inodeReopen (v : Volume) (a : Nat) : Option Volume := do
  let ino ← v.inodes a
  some (v.setInode a (some { ino with openCnt := ino.openCnt + 1 }))

/-- `inode_open`. -/
def inodeOpen (v : Volume) (sector : Nat) : Option (Nat × Volume) :=
  match v.findOpen sector with
  | some a => (v.inodeReopen a).map fun v => (a, v)
  | none =>
    if sector < v.size then do
      let data ← readInode v.disk sector
      let a := v.nextInode
      some (a, { v.setInode a (some ⟨sector, 1, false, data⟩) with nextInode := a + 1 })
    else none

/-- `inode_close`. -/
def inodeClose (v : Volume) (a : Nat) : Option Volume := do
  let ino ← v.inodes a
  if ino.openCnt - 1 = 0 then
    let v := v.setInode a none
    if ino.removed then
      let v ← v.freeMapRelease ino.sector 1
      v.freeMapRelease ino.data.start (sectorCnt ino.data.length)
    else some v
  else some (v.setInode a (some { ino with openCnt := ino.openCnt - 1 }))

/-- `inode_remove`. -/
def inodeRemove (v : Volume) (a : Nat) : Option Volume := do
  let ino ← v.inodes a
  some (v.setInode a (some { ino with removed := true }))

/-! ## `filesys/directory.c` -/

/-- `struct dir_entry`: four bytes, fifteen and one. -/
structure DirEntry where
  inodeSector : Nat
  name : Nat → Byte
  inUse : Bool

/-- `sizeof (struct dir_entry)`. -/
def entrySize : Nat := 20

def DirEntry.bytes (e : DirEntry) : Nat → Byte := fun k =>
  if k < 4 then byteOf e.inodeSector k
  else if k < 19 then e.name (k - 4)
  else if e.inUse then 1 else 0

/-- The entry at an address of the disk. -/
def entryOf (d : Disk) (a : Nat) : DirEntry :=
  ⟨le32 d a, fun k => d (a + 4 + k), d (a + 19) != 0⟩

/-- Entry `k` of a directory, as `inode_read_at` reads it. -/
def entryAt (d : Disk) (dir : Inode) (k : Nat) : DirEntry :=
  let bs := inodeReadAt d dir entrySize (entrySize * k : Nat)
  entryOf (fun x => bs.getD x 0) 0

/-- The entries of a directory: the loops end at the first short read. -/
def entryCnt (dir : Inode) : Nat := (dir.length / entrySize).toNat

/-- The name of an entry up to its NUL. -/
def DirEntry.str (e : DirEntry) : List Byte := ((List.range (nameMax + 1)).map e.name).takeWhile (· != 0)

/-- `lookup`: the number of the entry. -/
def lookup (d : Disk) (dir : Inode) (name : List Byte) : Option Nat :=
  (List.range (entryCnt dir)).find? fun k => (entryAt d dir k).inUse && (entryAt d dir k).str == name

/-- `strlcpy` of the name into an entry. -/
def DirEntry.setName (e : DirEntry) (name : List Byte) : Nat → Byte := fun k =>
  if k < name.length then name.getD k 0 else if k = name.length then 0 else e.name k

/-- `inode_write_at` of entry `k` of the directory: whether all of it was
written. -/
def writeEntry (v : Volume) (dir : Inode) (k : Nat) (e : DirEntry) : Option (Bool × Volume) := do
  let (written, d) ← inodeWriteAt v.size v.disk dir e.bytes entrySize (entrySize * k : Nat)
  some (written == entrySize, { v with disk := d })

/-- `dir_add`. With every slot in use the write starts at the end of the file,
and nothing is written. -/
def dirAdd (v : Volume) (dir : Inode) (name : List Byte) (inodeSector : Nat) : Option (Bool × Volume) :=
  if name = [] ∨ nameMax < name.length then some (false, v)
  else if (lookup v.disk dir name).isSome then some (false, v)
  else
    let k := ((List.range (entryCnt dir)).find? fun k => !(entryAt v.disk dir k).inUse).getD (entryCnt dir)
    let e := entryAt v.disk dir k
    v.writeEntry dir k ⟨inodeSector, e.setName name, true⟩

/-- `dir_remove`. -/
def dirRemove (v : Volume) (dir : Inode) (name : List Byte) : Option (Bool × Volume) :=
  match lookup v.disk dir name with
  | none => some (false, v)
  | some k => do
    let e := entryAt v.disk dir k
    let (a, v) ← v.inodeOpen e.inodeSector
    let (ok, v) ← v.writeEntry dir k { e with inUse := false }
    if ok then
      let v ← v.inodeRemove a
      let v ← v.inodeClose a
      some (true, v)
    else
      let v ← v.inodeClose a
      some (false, v)

/-! ## `filesys/filesys.c` -/

/-- `dir_open_root`, then `f` on the directory, then `dir_close`. -/
def withRoot {α : Type} (v : Volume) (f : Volume → Inode → Option (α × Volume)) : Option (α × Volume) := do
  let (r, v) ← v.inodeOpen rootDirSector
  let dir ← v.inodes r
  let (x, v) ← f v dir.data
  let v ← v.inodeClose r
  some (x, v)

/-- The conditions of `filesys_create`, one after another, and what a failure
gives back. -/
def createIn (name : List Byte) (initialSize : Int) (v : Volume) (dir : Inode) : Option (Bool × Volume) :=
  if nameMax < name.length then some (false, v)
  else do
    let (r, v) ← v.freeMapAllocate 1
    match r with
    | none => some (false, v)
    | some inodeSector => do
      let (ok, v) ← v.inodeCreate inodeSector initialSize
      let (ok, v) ← if ok then v.dirAdd dir name inodeSector else some (false, v)
      if !ok && inodeSector != 0 then
        let v ← v.freeMapRelease inodeSector 1
        some (ok, v)
      else some (ok, v)

/-- `filesys_create`. -/
def filesysCreate (v : Volume) (name : List Byte) (initialSize : Int) : Option (Bool × Volume) :=
  v.withRoot (createIn name initialSize)

/-- `dir_lookup`: the inode of a name, opened. -/
def dirLookup (name : List Byte) (v : Volume) (dir : Inode) : Option (Option Nat × Volume) :=
  match lookup v.disk dir name with
  | none => some (none, v)
  | some k => do
    let (a, v) ← v.inodeOpen (entryAt v.disk dir k).inodeSector
    some (some a, v)

/-- `filesys_open`: the file, unless there is none of that name. -/
def filesysOpen (v : Volume) (name : List Byte) : Option (Option Nat × Volume) := do
  let (r, v) ← v.withRoot (dirLookup name)
  match r with
  | none => some (none, v)
  | some a =>
    let f := v.nextFile
    some (some f, { v with files := Function.update v.files f (some ⟨a, 0⟩), nextFile := f + 1 })

/-- `filesys_remove`. -/
def filesysRemove (v : Volume) (name : List Byte) : Option (Bool × Volume) :=
  v.withRoot fun v dir => v.dirRemove dir name

/-- `file_close`; it frees the `struct file` last. -/
def fileClose (v : Volume) (f : Nat) : Option Volume := do
  let file ← v.files f
  { v with files := Function.update v.files f none }.inodeClose file.inode

/-- `file_write_at`: the bytes written. -/
def fileWriteAt (v : Volume) (f : Nat) (buf : Nat → Byte) (size ofs : Int) : Option (Int × Volume) := do
  let file ← v.files f
  let ino ← v.inodes file.inode
  let (written, d) ← inodeWriteAt v.size v.disk ino.data buf size ofs
  some (written, { v with disk := d })

/-- `file_write`, at the position of the file. -/
def fileWrite (v : Volume) (f : Nat) (buf : Nat → Byte) (size : Int) : Option Volume := do
  let file ← v.files f
  let (written, v) ← v.fileWriteAt f buf size file.pos
  some { v with files := Function.update v.files f (some { file with pos := offT (file.pos + written) }) }

/-- `file_seek`. -/
def fileSeek (v : Volume) (f : Nat) (newPos : Int) : Option Volume := do
  let file ← v.files f
  if newPos < 0 then none
  else some { v with files := Function.update v.files f (some { file with pos := newPos }) }

/-! ## Formatting -/

/-- `free_map_init`, on a disk of `size` sectors. -/
def freeMapInit (size : Nat) (disk : Disk) : Volume where
  size := size
  disk := disk
  freeMap := ⟨size, fun x => x == freeMapSector || x == rootDirSector⟩
  freeMapFile := none
  inodes _ := none
  nextInode := 0
  files _ := none
  nextFile := 0

/-- `free_map_create`. -/
def freeMapCreate (v : Volume) : Option (Nat × Volume) := do
  let (ok, v) ← v.inodeCreate freeMapSector (byteCnt v.freeMap.size)
  if ok then
    let (a, v) ← v.inodeOpen freeMapSector
    let (ok, v) ← { v with freeMapFile := some a }.bitmapWrite a
    if ok then some (a, v) else none
  else none

/-- `do_format`. -/
def doFormat (v : Volume) : Option Volume := do
  let (a, v) ← v.freeMapCreate
  let (ok, v) ← v.inodeCreate rootDirSector (16 * entrySize : Nat)
  if ok then v.inodeClose a else none

/-- `free_map_open`. -/
def freeMapOpen (v : Volume) : Option Volume := do
  let (a, v) ← v.inodeOpen freeMapSector
  let ino ← v.inodes a
  let (ok, bits) := v.bitmapRead ino.data
  if ok then some { v with freeMapFile := some a, freeMap := ⟨v.freeMap.size, bits⟩ } else none

/-- `filesys_init` with `format` set. A `disk_sector_t` has 32 bits. -/
def filesysInit (size : Fin (2 ^ 32)) (disk : Disk) : Option Volume := do
  let v ← (freeMapInit size disk).doFormat
  v.freeMapOpen

/-! ## Runs -/

/-- What callers do with the file system. Sizes and offsets are `off_t`. -/
inductive Event where
  | create (name : List Byte) (initialSize : Int)
  | «open» (name : List Byte)
  | close (f : Nat)
  | write (f : Nat) (buf : Nat → Byte) (size : Int)
  | writeAt (f : Nat) (buf : Nat → Byte) (size ofs : Int)
  | seek (f : Nat) (newPos : Int)
  | remove (name : List Byte)

def step (v : Volume) : Event → Option Volume
  | .create name initialSize => (v.filesysCreate name (offT initialSize)).map (·.2)
  | .open name => (v.filesysOpen name).map (·.2)
  | .close f => v.fileClose f
  | .write f buf size => v.fileWrite f buf (offT size)
  | .writeAt f buf size ofs => (v.fileWriteAt f buf (offT size) (offT ofs)).map (·.2)
  | .seek f newPos => v.fileSeek f (offT newPos)
  | .remove name => (v.filesysRemove name).map (·.2)

end Volume

end PintosKaist.Filesys
