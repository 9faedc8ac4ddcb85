/-
A directory as its callers see it (`filesys/directory.c`): it is created with
some number of slots, names are added, removed and looked up, and a scan with
`dir_readdir` lists it. What it stands for is a finite map from names to inode
sectors, which the calls that succeeded build.
-/
import PintosKaist.Filesys.Local
import PintosKaist.Lib.Slots

namespace PintosKaist.Filesys

/-- A C string. -/
abbrev Name := { l : List Byte // (0 : Byte) ∉ l }

namespace Volume

/-- `dir_create`. -/
def dirCreate (v : Volume) (sector entryCnt : Nat) : Option (Bool × Volume) :=
  v.inodeCreate sector (offT (entryCnt * entrySize : Nat))

/-! ## `dir_readdir` -/

/-- The loop of `dir_readdir` from `pos` on: the name and the new position,
unless there are no more entries. -/
def readdirLoop (d : Disk) (dir : Inode) : Nat → Nat → Option (List Byte × Nat)
  | 0, _ => none
  | fuel + 1, pos =>
    let bs := inodeReadAt d dir entrySize pos
    if bs.length = entrySize then
      let e := entryOf (fun x => bs.getD x 0) 0
      if e.inUse then some (e.str.take nameMax, pos + entrySize) else readdirLoop d dir fuel (pos + entrySize)
    else none

/-- `dir_readdir`. A turn of the loop moves on by an entry, so there is one for
every byte at most. -/
def dirReaddir (d : Disk) (dir : Inode) (pos : Nat) : Option (List Byte × Nat) :=
  readdirLoop d dir (dir.length.toNat + 1) pos

/-- The names that a caller of `dir_readdir` gets until it returns false, with
`fuel` calls. -/
def readdirAll (d : Disk) (dir : Inode) : Nat → Nat → Option (List (List Byte))
  | 0, _ => none
  | fuel + 1, pos =>
    match dirReaddir d dir pos with
    | none => some []
    | some (name, pos') => (readdirAll d dir fuel pos').map (name :: ·)

end Volume

/-! ## Histories -/

/-- A call that succeeded in changing the directory. -/
inductive Change where
  | added (name : Name) (sector : Nat)
  | removed (name : Name)

/-- The map that changes build, the last one first. -/
def mapOf : List Change → Finmap fun _ : Name => Nat
  | [] => ∅
  | .added name sector :: log => (mapOf log).insert name sector
  | .removed name :: log => (mapOf log).erase name

/-- A directory that is open. -/
structure DirSys where
  vol : Volume
  /-- `dir->inode`. -/
  inode : Nat
  log : List Change

/-- The directory made in a sector, and opened. -/
def DirSys.make (v : Volume) (sector entryCnt : Nat) : Option DirSys := do
  let (ok, v) ← v.dirCreate sector entryCnt
  if ok then
    let (a, v) ← v.inodeOpen sector
    some ⟨v, a, []⟩
  else none

/-- The calls on the directory; `close` is the `inode_close` of an inode that
`dir_lookup` gave. -/
inductive DirEvent where
  | add (name : Name) (inodeSector : Fin (2 ^ 32))
  | remove (name : Name)
  | lookup (name : Name)
  | close (a : Nat)

/-- A call that returned, and what it changed if it succeeded. -/
def DirSys.returns (s : DirSys) (c : Change) : Bool × Volume → DirSys
  | (true, v) => { s with vol := v, log := c :: s.log }
  | (false, v) => { s with vol := v }

def DirSys.step (s : DirSys) : DirEvent → Option DirSys
  | .add name inodeSector => do
    let ino ← s.vol.inodes s.inode
    let r ← s.vol.dirAdd ino.data name inodeSector
    some (s.returns (.added name inodeSector) r)
  | .remove name => do
    let ino ← s.vol.inodes s.inode
    let r ← s.vol.dirRemove ino.data name
    some (s.returns (.removed name) r)
  | .lookup name => do
    let ino ← s.vol.inodes s.inode
    let (_, v) ← s.vol.dirLookup name ino.data
    some { s with vol := v }
  | .close a => do
    let v ← s.vol.inodeClose a
    some { s with vol := v }

namespace Volume

/-! ## The slots -/

theorem DirEntry.str_nul (e : DirEntry) : (0 : Byte) ∉ e.str := by
  intro h
  have hne := List.all_eq_true.mp List.all_takeWhile 0 h
  simp at hne

/-- The name and inode sector in slot `k`. -/
def slotAt (d : Disk) (dir : Inode) (k : Nat) : Option (Name × Nat) :=
  if (entryAt d dir k).inUse then some (⟨(entryAt d dir k).str, (entryAt d dir k).str_nul⟩, (entryAt d dir k).inodeSector)
  else none

end Volume

end PintosKaist.Filesys
