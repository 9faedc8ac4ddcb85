/-
When a volume represents a store of named arrays: the root directory holds the names,
the data of the inode in its sector is the array of a file, and the open files
are the handles. A file goes by the sector of its inode.

A call changes what it is about, and of the rest no name, no array and no handle
(`Represents.quiet`).
-/
import PintosKaist.Filesys.Calls
import PintosKaist.Filesys.Spared

namespace PintosKaist.Filesys.Volume

open ArrayStore

variable {v v' : Volume} {ex ex' : Nat → Nat} {dir : Inode} {r f x : Nat} {ok : Bool} {name : Name} {s : Files}
  {m : Finmap fun _ : Name => Nat}

/-- The file an open file is on, by its inode sector, and where. -/
def handle (v : Volume) (f : Nat) : Option (Nat × Nat) := do
  let file ← v.files f
  let ino ← v.inodes file.inode
  some (ino.sector, file.pos.toNat)

/-- The directory at the root holds the names. -/
structure Names (v : Volume) (dir : Inode) (names : Name → Option Nat) : Prop where
  root : v.header rootDirSector = some dir
  slots : ∃ m, v.SlotsHold dir m ∧ ∀ name, names name = m.lookup name

/-- The inode in sector `x` has the array. -/
def Array (v : Volume) (x : Nat) (bytes : List Byte) : Prop := ∃ i, v.header x = some i ∧ bytes = FileBytes.bytesOf v.disk i

structure Represents (v : Volume) (dir : Inode) (s : Files) : Prop where
  names : v.Names dir s.names
  bytes : ∀ x, s.Alive x → v.Array x (s.bytes x)
  handles : ∀ f, s.handles f = v.handle f

theorem handle_some {pos : Nat} (h : v.handle f = some (x, pos)) :
    ∃ file ino, v.files f = some file ∧ v.inodes file.inode = some ino ∧ x = ino.sector ∧ pos = file.pos.toNat := by
  simp only [handle, Option.bind_eq_bind, Option.bind_eq_some_iff, Option.some.injEq, Prod.mk.injEq] at h
  obtain ⟨file, hf, ino, hi, rfl, rfl⟩ := h
  exact ⟨file, ino, hf, hi, rfl, rfl⟩

theorem Inv.handle_eq {file : OpenFile} (h : Inv v ex) (hf : v.files f = some file) :
    ∃ ino, v.inodes file.inode = some ino ∧ v.handle f = some (ino.sector, file.pos.toNat) := by
  obtain ⟨-, ino, hok⟩ := h.files f file hf
  refine ⟨ino, hok.inode, ?_⟩
  simp only [handle, hf, hok.inode, Option.bind_eq_bind, Option.bind_some]

theorem Names.congr {names : Name → Option Nat} (h : v.Names dir names) (hd : v'.disk = v.disk) : v'.Names dir names := by
  obtain ⟨m, hm, hn⟩ := h.slots
  refine ⟨?_, m, hm.congr fun _ _ => hd ▸ .refl, hn⟩
  rw [Volume.header, hd]
  exact h.root

theorem Array.congr {bytes : List Byte} (h : v.Array x bytes) (hd : v'.disk = v.disk) : v'.Array x bytes := by
  obtain ⟨i, hi, hb⟩ := h
  refine ⟨i, ?_, hd ▸ hb⟩
  rw [Volume.header, hd]
  exact hi

/-- Names are of listed sectors. -/
theorem Names.listed {names : Name → Option Nat} (h : v.Names dir names) (hn : names name = some x) : v.Listed x := by
  obtain ⟨m, hs, hm⟩ := h.slots
  obtain ⟨k, hk, hslot⟩ := hs.holds.found name x ((hm name).symm.trans hn)
  obtain ⟨hu, -, hsec⟩ := slotAt_eq_some.mp hslot
  refine ⟨k, ?_⟩
  rw [slot_eq h.root, slotOf, if_pos ⟨hk, hu⟩, hsec]

/-- A file that a name or a handle is on is an owner, neither the free map nor
the root directory. -/
theorem Represents.live (hs : v.Represents dir s) (h : Inv v ex) (hx : s.Alive x) :
    v.Live x ∧ x ≠ freeMapSector ∧ x ≠ rootDirSector := by
  obtain ⟨name, hn⟩ | ⟨f, pos, hf⟩ := hx
  · have hl := hs.names.listed hn
    exact ⟨.listed hl, h.listed x hl⟩
  · obtain ⟨file, ino, hfile, hino, rfl, -⟩ := handle_some ((hs.handles f).symm.trans hf)
    obtain ⟨-, jno, hok⟩ := h.files f file hfile
    obtain rfl := Option.some.inj (hino.symm.trans hok.inode)
    exact ⟨.opened hino, hok.ne_freeMap, hok.ne_root⟩

/-! ## What is spared -/

theorem Spares.handle (hsp : Spares x v v') (h : Inv v ex) (h' : Inv v' ex') (f : Nat) : v'.handle f = v.handle f := by
  cases hf : v.files f with
  | none => simp only [Volume.handle, hsp.files, hf, Option.bind_eq_bind, Option.bind_none]
  | some file =>
    obtain ⟨ino, hi, hh⟩ := h.handle_eq hf
    obtain ⟨ino', hi', hh'⟩ := h'.handle_eq (hsp.files ▸ hf)
    obtain ⟨old, hold, hsec⟩ := hsp.sector _ (h.inodes_lt _ ino hi) ino' hi'
    obtain rfl := Option.some.inj (hi.symm.trans hold)
    rw [hh, hh', hsec]

/-- An array whose sectors are all spared. -/
theorem Array.spared {bytes : List Byte} (ha : v.Array x bytes) (hsp : ∀ y, v.Holds x y → Spares y v v') :
    v'.Array x bytes := by
  obtain ⟨i, hi, rfl⟩ := ha
  have hsame : ∀ y, v.Holds x y → SameOn v.disk v'.disk y := fun y hy => (hsp y hy).same
  refine ⟨i, (readInode_congr (hsame x .self)).trans hi, (FileBytes.bytesOf_congr fun y hy k hk => ?_).symm⟩
  refine hsame y (.data hi hy) _ ?_
  simp only [secBytes] at hk ⊢
  omega

/-- The sectors of a file are spared by what is quiet. -/
theorem Quiet.holds {y : Nat} (hq : Quiet dir v v') (h : Inv v ex) (hdir : v.header rootDirSector = some dir)
    (hx : v.Live x) (hne₀ : x ≠ freeMapSector) (hne₁ : x ≠ rootDirSector) (hy : v.Holds x y) : Spares y v v' := by
  refine hq y (h.offMap_of_holds hx hne₀ hy) (fun hd => hne₁ ?_) (h.excl.used hx hy).2
  exact h.excl.unique hx .root hy (.data hdir hd)

theorem Quiet.rootSector (hq : Quiet dir v v') (h : Inv v ex) (hdir : v.header rootDirSector = some dir) :
    Spares rootDirSector v v' := by
  refine hq _ (h.offMap_of_holds .root (by decide) .self) (h.not_has .root hdir .root) (h.excl.used .root .self).2

theorem Quiet.root (hq : Quiet dir v v') (h : Inv v ex) (hdir : v.header rootDirSector = some dir) :
    v'.header rootDirSector = some dir :=
  (readInode_congr (hq.rootSector h hdir).same).trans hdir

/-- The arrays and the handles are what they were after a quiet step. -/
theorem Represents.quiet_bytes (hs : v.Represents dir s) (h : Inv v ex) (hq : Quiet dir v v') (hx : s.Alive x) :
    v'.Array x (s.bytes x) := by
  obtain ⟨hl, hne₀, hne₁⟩ := hs.live h hx
  exact (hs.bytes x hx).spared fun y hy => hq.holds h hs.names.root hl hne₀ hne₁ hy

theorem Represents.quiet_handles (hs : v.Represents dir s) (h : Inv v ex) (h' : Inv v' ex') (hq : Quiet dir v v') (f : Nat) :
    s.handles f = v'.handle f := by
  rw [(hq.rootSector h hs.names.root).handle h h']
  exact hs.handles f

/-- **After a quiet step** a volume represents the store with the names that the
directory holds then, as long as no file is new. -/
theorem Represents.quiet {names : Name → Option Nat} (hs : v.Represents dir s) (h : Inv v ex) (h' : Inv v' ex') (hq : Quiet dir v v')
    (hslots : ∃ m, v'.SlotsHold dir m ∧ ∀ name, names name = m.lookup name)
    (hold : ∀ name x, names name = some x → s.Alive x) : v'.Represents dir { s with names := names } := by
  refine ⟨⟨hq.root h hs.names.root, hslots⟩, fun x hx => hs.quiet_bytes h hq ?_, hs.quiet_handles h h' hq⟩
  obtain ⟨name, hn⟩ | ⟨f, pos, hf⟩ := hx
  · exact hold name x hn
  · exact .handle hf

/-- After a still one, it represents the same store. -/
theorem Represents.still (hs : v.Represents dir s) (h : Inv v ex) (h' : Inv v' ex') (hq : Still v v') : v'.Represents dir s := by
  obtain ⟨m, hm, hn⟩ := hs.names.slots
  refine hs.quiet h h' hq.quiet ⟨m, hm.congr (hq.sameData h hs.names.root), hn⟩ fun name x hx => .name hx

end PintosKaist.Filesys.Volume
