/-
The file system as its callers see it: each call with what it returns, and the
kernel going down and coming up again on the same disk.

`Session` is a volume and what was called on it so far; `Returns` says what a
call may return of a store of named arrays, and what it makes of the store.
-/
import PintosKaist.Filesys.Directory
import PintosKaist.Filesys.FileBytes
import PintosKaist.Lib.ArrayStore

namespace PintosKaist.Filesys

open ArrayStore

namespace Volume

/-! ## `filesys/file.c` -/

/-- `file_open`: a file on an open inode, at `pos`. -/
def fileOpen (v : Volume) (a : Nat) (pos : Int) : Nat × Volume :=
  (v.nextFile, { v with files := Function.update v.files v.nextFile (some ⟨a, pos⟩), nextFile := v.nextFile + 1 })

/-- `file_reopen`. -/
def fileReopen (v : Volume) (f : Nat) : Option (Nat × Volume) := do
  let file ← v.files f
  let v ← v.inodeReopen file.inode
  some (v.fileOpen file.inode 0)

/-- `file_duplicate`. -/
def fileDuplicate (v : Volume) (f : Nat) : Option (Nat × Volume) := do
  let file ← v.files f
  let v ← v.inodeReopen file.inode
  some (v.fileOpen file.inode file.pos)

/-- `file_read_at`: the bytes read. -/
def fileReadAt (v : Volume) (f : Nat) (size ofs : Int) : Option (List Byte) := do
  let file ← v.files f
  let ino ← v.inodes file.inode
  some (inodeReadAt v.disk ino.data size ofs)

def setPos (v : Volume) (f : Nat) (file : OpenFile) (pos : Int) : Volume :=
  { v with files := Function.update v.files f (some { file with pos := pos }) }

/-- `file_read`. -/
def fileRead (v : Volume) (f : Nat) (size : Int) : Option (List Byte × Volume) := do
  let file ← v.files f
  let bytes ← v.fileReadAt f size file.pos
  some (bytes, v.setPos f file (offT (file.pos + bytes.length)))

/-- `file_write`, with the bytes written. -/
def fileWriteCnt (v : Volume) (f : Nat) (buf : Nat → Byte) (size : Int) : Option (Int × Volume) := do
  let file ← v.files f
  let (written, v) ← v.fileWriteAt f buf size file.pos
  some (written, v.setPos f file (offT (file.pos + written)))

/-- `file_length`. -/
def fileLength (v : Volume) (f : Nat) : Option Int := do
  let file ← v.files f
  let ino ← v.inodes file.inode
  some ino.data.length

/-- `file_tell`. -/
def fileTell (v : Volume) (f : Nat) : Option Int := (v.files f).map OpenFile.pos

/-! ## `fsutil_ls`, and going down and up -/

/-- `fsutil_ls` (`filesys/fsutil.c`): the names it prints. It does not close the
directory. -/
def fsutilLs (v : Volume) : Option (List (List Byte) × Volume) := do
  let (r, v) ← v.inodeOpen rootDirSector
  let dir ← v.inodes r
  let names ← readdirAll v.disk dir.data (entryCnt dir.data + 1) 0
  some (names, v)

/-- `filesys_done`, which is `free_map_close`. -/
def filesysDone (v : Volume) : Option Volume := do
  let a ← v.freeMapFile
  v.inodeClose a

/-- `filesys_init` with `format` clear, on a disk of `size` sectors. -/
def filesysMount (size : Nat) (disk : Disk) : Option Volume := (freeMapInit size disk).freeMapOpen

end Volume

/-! ## Calls -/

/-- What callers do. Sizes, offsets and positions are `off_t`. -/
inductive Call where
  | create (name : Name) (initialSize : Int)
  | «open» (name : Name)
  | remove (name : Name)
  | reopen (f : Nat)
  | duplicate (f : Nat)
  | close (f : Nat)
  | read (f : Nat) (size : Int)
  | readAt (f : Nat) (size ofs : Int)
  | write (f : Nat) (buf : Nat → Byte) (size : Int)
  | writeAt (f : Nat) (buf : Nat → Byte) (size ofs : Int)
  | seek (f : Nat) (newPos : Int)
  | tell (f : Nat)
  | length (f : Nat)
  | ls
  | restart

inductive Result where
  | unit
  | bool (ok : Bool)
  | file (f : Option Nat)
  | bytes (l : List Byte)
  | off (n : Int)
  | names (l : List (List Byte))

def Volume.call (v : Volume) : Call → Option (Result × Volume)
  | .create name initialSize => (v.filesysCreate name (offT initialSize)).map fun r => (.bool r.1, r.2)
  | .open name => (v.filesysOpen name).map fun r => (.file r.1, r.2)
  | .remove name => (v.filesysRemove name).map fun r => (.bool r.1, r.2)
  | .reopen f => (v.fileReopen f).map fun r => (.file (some r.1), r.2)
  | .duplicate f => (v.fileDuplicate f).map fun r => (.file (some r.1), r.2)
  | .close f => (v.fileClose f).map fun w => (.unit, w)
  | .read f size => (v.fileRead f (offT size)).map fun r => (.bytes r.1, r.2)
  | .readAt f size ofs => (v.fileReadAt f (offT size) (offT ofs)).map fun bytes => (.bytes bytes, v)
  | .write f buf size => (v.fileWriteCnt f buf (offT size)).map fun r => (.off r.1, r.2)
  | .writeAt f buf size ofs => (v.fileWriteAt f buf (offT size) (offT ofs)).map fun r => (.off r.1, r.2)
  | .seek f newPos => (v.fileSeek f (offT newPos)).map fun w => (.unit, w)
  | .tell f => (v.fileTell f).map fun pos => (.off pos, v)
  | .length f => (v.fileLength f).map fun n => (.off n, v)
  | .ls => v.fsutilLs.map fun r => (.names r.1, r.2)
  | .restart => v.filesysDone.bind fun w => (Volume.filesysMount w.size w.disk).map fun w => (.unit, w)

/-- A volume, and the calls on it with their results, the last one first. -/
structure Session where
  vol : Volume
  log : List (Call × Result)

def Session.step (s : Session) (c : Call) : Option Session :=
  (s.vol.call c).map fun r => ⟨r.2, (c, r.1) :: s.log⟩

/-- What is read or written does not start before the file. -/
def Inside : Call → Prop
  | .readAt _ size ofs | .writeAt _ _ size ofs => offT size ≤ 0 ∨ 0 ≤ offT ofs
  | _ => True

instance : DecidablePred Inside
  | .readAt .. | .writeAt .. => inferInstanceAs (Decidable (_ ∨ _))
  | .create .. | .open .. | .remove .. | .reopen .. | .duplicate .. | .close .. | .read .. | .write .. | .seek ..
  | .tell .. | .length .. | .ls | .restart => .isTrue trivial

/-! ## What the calls are for -/

/-- Names, and files that are arrays of bytes. A file goes by a number, a handle
too. -/
abbrev Files := Store Name Nat Nat Byte

/-- `n` bytes from `ofs` of the file on the handle. -/
def Files.ReadsAt (s : Files) (f : Nat) (size ofs : Int) (l : List Byte) : Prop :=
  ∃ x pos, s.handles f = some (x, pos) ∧ l = slice (s.bytes x) ofs.toNat size.toNat

/-- The bytes of the buffer that there is room for replace those from `ofs` on. -/
def Files.WritesAt (s : Files) (f : Nat) (buf : Nat → Byte) (size ofs : Int) (n : Int) (s' : Files) : Prop :=
  ∃ x pos, s.handles f = some (x, pos) ∧ n = min size.toNat ((s.bytes x).length - ofs.toNat : Nat) ∧
    s' = s.setBytes x (overwrite (s.bytes x) ofs.toNat (FileBytes.firstBytes buf size.toNat))

/-- A handle that was not open is on file `x`. -/
def Files.OpensAt (s : Files) (x pos f : Nat) (s' : Files) : Prop :=
  s.handles f = none ∧ s' = s.setHandle f (some (x, pos))

/-- Call `c` on the store may return `r` and leave `s'`. -/
def Files.Returns (s : Files) : Call → Result → Files → Prop
  | .create name initialSize, .bool true, s' =>
    name.val ≠ [] ∧ name.val.length ≤ nameMax ∧ s.names name = none ∧
      ∃ x, ¬ s.Alive x ∧ s' = s.create name x (List.replicate (offT initialSize).toNat 0)
  | .create _ _, .bool false, s' => s' = s
  | .open name, .file (some f), s' => ∃ x, s.names name = some x ∧ s.OpensAt x 0 f s'
  | .open name, .file none, s' => s.names name = none ∧ s' = s
  | .remove name, .bool ok, s' => ok = (s.names name).isSome ∧ s' = s.unlink name
  | .reopen f, .file (some g), s' => ∃ x pos, s.handles f = some (x, pos) ∧ s.OpensAt x 0 g s'
  | .duplicate f, .file (some g), s' => ∃ x pos, s.handles f = some (x, pos) ∧ s.OpensAt x pos g s'
  | .close f, .unit, s' => (s.handles f).isSome ∧ s' = s.setHandle f none
  | .read f size, .bytes l, s' => ∃ x pos, s.handles f = some (x, pos) ∧ s.ReadsAt f (offT size) pos l ∧
    s' = s.setHandle f (some (x, pos + l.length))
  | .readAt f size ofs, .bytes l, s' => s.ReadsAt f (offT size) (offT ofs) l ∧ s' = s
  | .write f buf size, .off n, s' => ∃ x pos t, s.handles f = some (x, pos) ∧
    s.WritesAt f buf (offT size) pos n t ∧ s' = t.setHandle f (some (x, pos + n.toNat))
  | .writeAt f buf size ofs, .off n, s' => s.WritesAt f buf (offT size) (offT ofs) n s'
  | .seek f newPos, .unit, s' => 0 ≤ offT newPos ∧ ∃ x pos, s.handles f = some (x, pos) ∧
    s' = s.setHandle f (some (x, (offT newPos).toNat))
  | .tell f, .off n, s' => ∃ x pos, s.handles f = some (x, pos) ∧ n = pos ∧ s' = s
  | .length f, .off n, s' => ∃ x pos, s.handles f = some (x, pos) ∧ n = (s.bytes x).length ∧ s' = s
  | .ls, .names l, s' => s' = s ∧ ∃ names : List Name, l = names.map Subtype.val ∧ names.Nodup ∧
    ∀ name, name ∈ names ↔ (s.names name).isSome
  | .restart, .unit, s' => s' = s.closeAll
  | _, _, _ => False

/-- The results are those of a store that had no names at first. -/
inductive History : List (Call × Result) → Files → Prop where
  | nil : History [] (Store.empty ..)
  | cons {log : List (Call × Result)} {s s' : Files} {c : Call} {r : Result} (h : History log s)
      (hr : s.Returns c r s') : History ((c, r) :: log) s'

end PintosKaist.Filesys
