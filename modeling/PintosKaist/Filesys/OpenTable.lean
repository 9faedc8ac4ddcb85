/-
The table of open inodes (`open_inodes` in `filesys/inode.c`) under every call
that opens, shares or closes one: those of `filesys/inode.c` and
`filesys/file.c`, and `dir_remove`. Struct inodes count their openers and the
openers that deny writes, and a removed one gives its sectors back when its
last opener closes it.

Memory may run out: `mem` says which of the calls of `malloc` and `calloc` find
some, in their order. A function is `none` where the C fails an ASSERT or reads
freed memory. The counts do not overflow, and an address is never handed out
twice.
-/
import PintosKaist.Filesys.Volume

namespace PintosKaist.OpenTable

open Filesys

/-- `struct inode_disk`, whatever the bytes. -/
structure InodeDisk where
  start : Nat
  length : Int
  deriving DecidableEq

/-- The `disk_read` of an inode. -/
def readDisk (d : Disk) (sector : Nat) : InodeDisk :=
  ⟨le32 d (sector * secBytes), offT (le32 d (sector * secBytes + 4))⟩

/-- The extent, unless it is out of range. -/
def InodeDisk.inode (x : InodeDisk) : Option Inode :=
  if h : 0 ≤ x.length ∧ x.length < 2 ^ 31 ∧ x.start + bytesToSectors x.length ≤ 2 ^ 32 then
    some ⟨x.start, x.length, h.1, h.2.1, h.2.2⟩
  else none

/-- `struct inode`. -/
structure StructInode where
  sector : Nat
  openCnt : Int
  removed : Bool
  denyWriteCnt : Int
  data : InodeDisk
  deriving DecidableEq

/-- `struct file`. -/
structure StructFile where
  inode : Nat
  pos : Int
  denyWrite : Bool
  deriving DecidableEq

/-- The sectors an `inode_close` gave back: the struct inode they were of, the
sector of the inode and its data. -/
structure Release where
  inode : Nat
  sector : Nat
  start : Nat
  cnt : Nat
  deriving DecidableEq

def Release.covers (r : Release) (x : Nat) : Bool := x = r.sector || (decide (r.start ≤ x) && decide (x < r.start + r.cnt))

structure Fs where
  /-- The number of sectors of `filesys_disk`. -/
  size : Nat
  disk : Disk
  freeMap : Bitmap
  freeMapFile : Option Nat
  /-- `open_inodes`, from the front. -/
  openInodes : List Nat
  inodes : Nat → Option StructInode
  nextInode : Nat
  files : Nat → Option StructFile
  nextFile : Nat
  mem : Nat → Bool
  mallocs : Nat
  /-- The struct inodes `inode_remove` was called on. -/
  removals : List Nat
  releases : List Release

namespace Fs

/-- Whether the next `malloc` finds memory. -/
def hasMem (s : Fs) : Bool := s.mem s.mallocs

def tick (s : Fs) : Fs := { s with mallocs := s.mallocs + 1 }

def setInode (s : Fs) (a : Nat) (o : Option StructInode) : Fs := { s with inodes := Function.update s.inodes a o }

def setFile (s : Fs) (f : Nat) (o : Option StructFile) : Fs := { s with files := Function.update s.files f o }

/-! ## `filesys/inode.c` -/

/-- `inode_reopen`. -/
def inodeReopen (s : Fs) : Option Nat → Option Fs
  | none => some s
  | some a => do
    let inode ← s.inodes a
    some (s.setInode a (some { inode with openCnt := inode.openCnt + 1 }))

/-- The struct inode of the sector, in the order of the list. -/
def findOpen (s : Fs) (sector : Nat) : Option Nat :=
  s.openInodes.find? fun a => (s.inodes a).any fun inode => inode.sector == sector

/-- `inode_open`. -/
def inodeOpen (s : Fs) (sector : Nat) : Option (Option Nat × Fs) :=
  match s.findOpen sector with
  | some a => (s.inodeReopen (some a)).map fun s => (some a, s)
  | none =>
    if s.hasMem then
      if sector < s.size then
        let a := s.nextInode
        some (some a, { s.tick.setInode a (some ⟨sector, 1, false, 0, readDisk s.disk sector⟩) with
          openInodes := a :: s.openInodes
          nextInode := a + 1 })
      else none
    else some (none, s.tick)

/-- A chunk that is not a whole sector goes through the bounce buffer. -/
def bounces (c : Chunk) : Bool := !(c.ofs == 0 && c.size == sectorSize)

/-- `inode_write_at`: the bytes written. Without memory for the bounce buffer it
ends at the first chunk that needs one. An inode whose extent is out of range is
not written. -/
def inodeWriteAt (s : Fs) (a : Nat) (buf : Nat → Byte) (size offset : Int) : Option (Int × Fs) := do
  let inode ← s.inodes a
  if inode.denyWriteCnt ≠ 0 then some (0, s)
  else do
    let i ← inode.data.inode
    let cs := (chunks i size offset).takeWhile fun c => s.hasMem || !bounces c
    let d ← writeChunks s.size buf s.disk 0 cs
    some (bytesDone cs, { s.tick with disk := d })

/-- `free_map_release` (`filesys/free-map.c`); whether `bitmap_write` wrote it all
is not looked at. -/
def freeMapRelease (s : Fs) (sector cnt : Nat) : Option Fs :=
  if s.freeMap.all sector cnt then do
    let f ← s.freeMapFile
    let file ← s.files f
    let b := s.freeMap.setMultiple sector cnt false
    let r ← inodeWriteAt { s with freeMap := b } file.inode (Volume.bitmapBytes b) (Volume.byteCnt b.size) 0
    some r.2
  else none

/-- The last opener is gone: `a` leaves the list, and if it was removed its
sectors go back. -/
def lastClose (s : Fs) (a : Nat) (inode : StructInode) : Option Fs :=
  let s := { s with openInodes := s.openInodes.erase a }
  if inode.removed then do
    let cnt := Volume.sectorCnt inode.data.length
    let s ← s.freeMapRelease inode.sector 1
    let s ← s.freeMapRelease inode.data.start cnt
    some { s.setInode a none with releases := ⟨a, inode.sector, inode.data.start, cnt⟩ :: s.releases }
  else some (s.setInode a none)

/-- `inode_close`. -/
def inodeClose (s : Fs) : Option Nat → Option Fs
  | none => some s
  | some a => do
    let inode ← s.inodes a
    let inode := { inode with openCnt := inode.openCnt - 1 }
    let s := s.setInode a (some inode)
    if inode.openCnt = 0 then s.lastClose a inode else some s

/-- `inode_remove`. -/
def inodeRemove (s : Fs) (a : Nat) : Option Fs := do
  let inode ← s.inodes a
  some { s.setInode a (some { inode with removed := true }) with removals := a :: s.removals }

/-- `inode_deny_write`. -/
def inodeDenyWrite (s : Fs) (a : Nat) : Option Fs := do
  let inode ← s.inodes a
  if inode.denyWriteCnt + 1 ≤ inode.openCnt then
    some (s.setInode a (some { inode with denyWriteCnt := inode.denyWriteCnt + 1 }))
  else none

/-- `inode_allow_write`. -/
def inodeAllowWrite (s : Fs) (a : Nat) : Option Fs := do
  let inode ← s.inodes a
  if 0 < inode.denyWriteCnt ∧ inode.denyWriteCnt ≤ inode.openCnt then
    some (s.setInode a (some { inode with denyWriteCnt := inode.denyWriteCnt - 1 }))
  else none

/-! ## `filesys/file.c` -/

/-- `file_open`. -/
def fileOpen (s : Fs) (inode : Option Nat) : Option (Option Nat × Fs) :=
  match inode with
  | some a =>
    if s.hasMem then
      let f := s.nextFile
      some (some f, { s.tick.setFile f (some ⟨a, 0, false⟩) with nextFile := f + 1 })
    else (s.tick.inodeClose (some a)).map fun s => (none, s)
  | none => some (none, s.tick)

/-- `file_reopen`. -/
def fileReopen (s : Fs) (f : Nat) : Option (Option Nat × Fs) := do
  let file ← s.files f
  let s ← s.inodeReopen (some file.inode)
  s.fileOpen (some file.inode)

/-- `file_deny_write`. -/
def fileDenyWrite (s : Fs) (f : Nat) : Option Fs := do
  let file ← s.files f
  if file.denyWrite then some s
  else (s.setFile f (some { file with denyWrite := true })).inodeDenyWrite file.inode

/-- `file_allow_write`. -/
def fileAllowWrite (s : Fs) (f : Nat) : Option Fs := do
  let file ← s.files f
  if file.denyWrite then (s.setFile f (some { file with denyWrite := false })).inodeAllowWrite file.inode
  else some s

/-- What `file_duplicate` copies to the new file `g`. -/
def copyFile (s : Fs) (file : StructFile) (g : Nat) : Option Fs := do
  let nfile ← s.files g
  let s := s.setFile g (some { nfile with pos := file.pos })
  if file.denyWrite then s.fileDenyWrite g else some s

/-- `file_duplicate`. -/
def fileDuplicate (s : Fs) (f : Nat) : Option (Option Nat × Fs) := do
  let file ← s.files f
  let (nfile, s) ← s.fileReopen f
  match nfile with
  | none => some (none, s)
  | some g => do
    let s ← s.copyFile file g
    some (some g, s)

/-- `file_close`. -/
def fileClose (s : Fs) : Option Nat → Option Fs
  | none => some s
  | some f => do
    let s ← s.fileAllowWrite f
    let file ← s.files f
    let s ← s.inodeClose (some file.inode)
    some (s.setFile f none)

/-! ## `filesys/directory.c` -/

/-- The loop of `lookup` over the entries from a given one on, each read through
a bounce buffer. -/
def lookup (dir : Inode) (name : List Byte) : List Nat → Fs → Option (Option Nat × Fs)
  | [], s => some (none, s)
  | k :: ks, s =>
    if s.hasMem then
      if (chunks dir Volume.entrySize (Volume.entrySize * k : Nat)).all fun c => decide (c.sector < s.size) then
        let e := Volume.entryAt s.disk dir k
        if e.inUse && e.str == name then some (some k, s.tick) else lookup dir name ks s.tick
      else none
    else some (none, s.tick)

/-- The end of `dir_remove`, with the inode of entry `k` open at `a`. -/
def removeEntry (s : Fs) (d k : Nat) (e : Volume.DirEntry) (a : Nat) : Option (Bool × Fs) := do
  let (written, s) ← s.inodeWriteAt d (Volume.DirEntry.bytes { e with inUse := false }) Volume.entrySize
    (Volume.entrySize * k : Nat)
  if written = Volume.entrySize then do
    let s ← s.inodeRemove a
    let s ← s.inodeClose (some a)
    some (true, s)
  else do
    let s ← s.inodeClose (some a)
    some (false, s)

/-- `dir_remove`, of a directory with inode `d`. -/
def dirRemove (s : Fs) (d : Nat) (name : List Byte) : Option (Bool × Fs) := do
  let inode ← s.inodes d
  let dir ← inode.data.inode
  let (found, s) ← lookup dir name (List.range (Volume.entryCnt dir)) s
  match found with
  | none => some (false, s)
  | some k => do
    let e := Volume.entryAt s.disk dir k
    let (p, s) ← s.inodeOpen e.inodeSector
    match p with
    | none => some (false, s)
    | some a => s.removeEntry d k e a

end Fs

/-! ## Runs -/

/-- The file system, and the inode pointers its callers hold: those that
`inode_open` and `inode_reopen` returned and that were neither closed nor given
to `file_open`. A `struct dir` holds one. -/
structure Sys where
  fs : Fs
  handles : List Nat

/-- `free_map_open` on a disk and a free map that hold anything. -/
def boot (size : Nat) (disk : Disk) (freeMap : Bitmap) (mem : Nat → Bool) : Option Sys := do
  let s : Fs := ⟨size, disk, freeMap, none, [], fun _ => none, 0, fun _ => none, 0, mem, 0, [], []⟩
  let (p, s) ← s.inodeOpen freeMapSector
  let (file, s) ← s.fileOpen p
  let f ← file
  some ⟨{ s with freeMapFile := some f }, []⟩

inductive Event where
  | inodeOpen (sector : Nat)
  | inodeReopen (p : Option Nat)
  | inodeClose (p : Option Nat)
  | fileOpen (p : Option Nat)
  | fileReopen (f : Nat)
  | fileDuplicate (f : Nat)
  | fileDenyWrite (f : Nat)
  | fileAllowWrite (f : Nat)
  | fileClose (p : Option Nat)
  | dirRemove (d : Nat) (name : List Byte)

namespace Sys

/-- The pointer is null, or one that the callers hold. -/
def Holds (s : Sys) (p : Option Nat) : Prop := ∀ a, p = some a → a ∈ s.handles

instance (s : Sys) (p : Option Nat) : Decidable (s.Holds p) :=
  match p with
  | none => .isTrue nofun
  | some a => decidable_of_iff (a ∈ s.handles) (by simp [Holds])

/-- The callers get `p`, and hold it. -/
def gain (s : Sys) (p : Option Nat) (fs : Fs) : Sys := ⟨fs, p.toList ++ s.handles⟩

/-- The callers give `p` away. -/
def lose (s : Sys) (p : Option Nat) (fs : Fs) : Sys := ⟨fs, s.handles.diff p.toList⟩

/-- The calls. Only an opener closes, gives its pointer to `file_open` or has a
directory. -/
def step (s : Sys) : Event → Option Sys
  | .inodeOpen sector => (s.fs.inodeOpen sector).map fun r => s.gain r.1 r.2
  | .inodeReopen p => (s.fs.inodeReopen p).map fun fs => s.gain p fs
  | .inodeClose p => if s.Holds p then (s.fs.inodeClose p).map fun fs => s.lose p fs else none
  | .fileOpen p => if s.Holds p then (s.fs.fileOpen p).map fun r => s.lose p r.2 else none
  | .fileReopen f => (s.fs.fileReopen f).map fun r => { s with fs := r.2 }
  | .fileDuplicate f => (s.fs.fileDuplicate f).map fun r => { s with fs := r.2 }
  | .fileDenyWrite f => (s.fs.fileDenyWrite f).map fun fs => { s with fs := fs }
  | .fileAllowWrite f => (s.fs.fileAllowWrite f).map fun fs => { s with fs := fs }
  | .fileClose p => (s.fs.fileClose p).map fun fs => { s with fs := fs }
  | .dirRemove d name => if s.Holds (some d) then (s.fs.dirRemove d name).map fun r => { s with fs := r.2 } else none

end Sys

end PintosKaist.OpenTable
