/-
What a call leaves alone. A sector that is not in the file of the free map, and
that is not the call's own to write, is the same on the disk after it; the
inodes that are still open have their sectors; and the files that are open are
the same.
-/
import PintosKaist.Filesys.Create

namespace PintosKaist.Filesys.Volume

variable {v v' : Volume} {ex : Nat → Nat} {dir : Inode} {a b x k : Nat} {ok : Bool} {name : List Byte}

/-- Sector `x` is not in the file of the free map, while that is open. -/
def OffMap (v : Volume) (x : Nat) : Prop := ∀ a, v.freeMapFile = some a → a < v.nextInode ∧
  ∀ fm, v.inodes a = some fm → fm.data.On v.size ∧ ¬ fm.data.Has x

/-- Sector `x` is the same, and nothing has happened to the open files. -/
structure Spares (x : Nat) (v v' : Volume) : Prop where
  off : v'.OffMap x
  same : SameOn v.disk v'.disk x
  next : v.nextInode ≤ v'.nextInode
  sector : ∀ b < v.nextInode, ∀ ino', v'.inodes b = some ino' → ∃ ino, v.inodes b = some ino ∧ ino'.sector = ino.sector
  files : v'.files = v.files
  nextFile : v'.nextFile = v.nextFile

theorem Spares.refl (h : v.OffMap x) : Spares x v v :=
  ⟨h, .refl, Nat.le_refl _, fun _ _ ino hi => ⟨ino, hi, rfl⟩, rfl, rfl⟩

theorem Spares.trans {w : Volume} (h : Spares x v v') (h' : Spares x v' w) : Spares x v w where
  off := h'.off
  same := h.same.trans h'.same
  next := Nat.le_trans h.next h'.next
  sector b hb ino' hi := by
    obtain ⟨ino₁, hi₁, hs₁⟩ := h'.sector b (Nat.lt_of_lt_of_le hb h.next) ino' hi
    obtain ⟨ino, hi₀, hs₀⟩ := h.sector b hb ino₁ hi₁
    exact ⟨ino, hi₀, hs₁.trans hs₀⟩
  files := h'.files.trans h.files
  nextFile := h'.nextFile.trans h.nextFile

/-- The disk and the free map change. -/
theorem OffMap.setDisk {d : Disk} {m : Bitmap} (h : v.OffMap x) (hd : SameOn v.disk d x) :
    Spares x v { v with disk := d, freeMap := m } :=
  ⟨h, hd, Nat.le_refl _, fun _ _ ino hi => ⟨ino, hi, rfl⟩, rfl, rfl⟩

/-- A struct inode goes, or is as it was but for its counts. -/
theorem OffMap.setInode {o : Option OpenInode} (h : v.OffMap x)
    (ho : ∀ ino, o = some ino → ∃ old, v.inodes a = some old ∧ ino.sector = old.sector ∧ ino.data = old.data) :
    Spares x v (v.setInode a o) := by
  have hold : ∀ b ino, (v.setInode a o).inodes b = some ino →
      ∃ old, v.inodes b = some old ∧ ino.sector = old.sector ∧ ino.data = old.data := by
    intro b ino hb
    rw [setInode_inodes] at hb
    split at hb
    · rename_i hba
      exact hba ▸ ho ino hb
    · exact ⟨ino, hb, rfl, rfl⟩
  refine ⟨fun b hb => ⟨(h b hb).1, fun ino hi => ?_⟩, .refl, Nat.le_refl _, fun b _ ino hi => ?_, rfl, rfl⟩
  · obtain ⟨old, hi', -, hd⟩ := hold b ino hi
    rw [hd]
    exact (h b hb).2 old hi'
  · obtain ⟨old, hi', hs, -⟩ := hold b ino hi
    exact ⟨old, hi', hs⟩

/-- A new struct inode is at an address of its own. -/
theorem OffMap.newInode {o : Option OpenInode} (h : v.OffMap x) :
    Spares x v { v.setInode v.nextInode o with nextInode := v.nextInode + 1 } := by
  have hne : ∀ b, b < v.nextInode → (v.setInode v.nextInode o).inodes b = v.inodes b := fun b hb => by
    rw [setInode_inodes, if_neg (Nat.ne_of_lt hb)]
  refine ⟨fun b hb => ?_, .refl, Nat.le_succ _, fun b hb ino hi => ⟨ino, (hne b hb).symm.trans hi, rfl⟩, rfl, rfl⟩
  obtain ⟨hlt, hmap⟩ := h b hb
  exact ⟨Nat.lt_succ_of_lt hlt, fun ino hi => hmap ino ((hne b hlt).symm.trans hi)⟩

/-! ## The free map -/

theorem OffMap.bitmapWrite (h : v.OffMap x) (hf : v.freeMapFile = some a) (hr : v.bitmapWrite a = some (ok, v')) :
    Spares x v v' := by
  simp only [Volume.bitmapWrite, Option.bind_eq_bind, Option.bind_eq_some_iff] at hr
  obtain ⟨ino, hi, ⟨written, d⟩, hw, hr⟩ := hr
  obtain ⟨-, hmap⟩ := h a hf
  obtain ⟨hon, hnot⟩ := hmap ino hi
  rw [inodeWriteAt_eq hon (Int.le_refl 0) (by decide)] at hw
  obtain ⟨rfl, rfl⟩ := Prod.mk.inj (Option.some.inj hw)
  obtain ⟨-, rfl⟩ := Prod.mk.inj (Option.some.inj hr)
  refine h.setDisk (patch_sameOn hnot ?_)
  simp only [inFile]
  have := ino.data.length_nonneg
  omega

/-- `free_map_allocate` clears no bit that was set. -/
theorem OffMap.allocate {cnt : Nat} {r : Option Nat} (h : v.OffMap x) (hr : v.freeMapAllocate cnt = some (r, v')) :
    Spares x v v' := by
  simp only [freeMapAllocate] at hr
  split at hr
  · obtain ⟨-, rfl⟩ := Prod.mk.inj (Option.some.inj hr)
    exact .refl h
  · rename_i sector hscan
    split at hr
    · obtain ⟨-, rfl⟩ := Prod.mk.inj (Option.some.inj hr)
      exact h.setDisk .refl
    · rename_i a hf
      simp only [Option.bind_eq_bind, Option.bind_eq_some_iff] at hr
      obtain ⟨⟨ok, w⟩, hw, hr⟩ := hr
      have hmark : Spares x v { v with freeMap := v.freeMap.setMultiple sector cnt true } := h.setDisk .refl
      have hspare := hmark.trans (hmark.off.bitmapWrite hf hw)
      cases ok with
      | true =>
        obtain ⟨-, rfl⟩ := Prod.mk.inj (Option.some.inj hr)
        exact hspare
      | false =>
        obtain ⟨-, rfl⟩ := Prod.mk.inj (Option.some.inj hr)
        exact hspare.trans (hspare.off.setDisk .refl)

theorem OffMap.release {sector cnt : Nat} (h : v.OffMap x) (hr : v.freeMapRelease sector cnt = some v') :
    Spares x v v' := by
  simp only [freeMapRelease, Option.ite_none_right_eq_some, Option.bind_eq_bind, Option.bind_eq_some_iff,
    Option.some.injEq] at hr
  obtain ⟨-, a, hf, ⟨ok, w⟩, hw, rfl⟩ := hr
  have hmark : Spares x v { v with freeMap := v.freeMap.setMultiple sector cnt false } := h.setDisk .refl
  exact hmark.trans (hmark.off.bitmapWrite hf hw)

/-! ## Inodes -/

/-- A new inode and its data are in sectors that were free. -/
theorem OffMap.inodeCreate {sector : Nat} {length : Int} (h : v.OffMap x) (hne : x ≠ sector)
    (hused : v.freeMap.bit x = true) (hr : v.inodeCreate sector length = some (ok, v')) : Spares x v v' := by
  simp only [Volume.inodeCreate] at hr
  split at hr
  · cases hr
  simp only [Option.bind_eq_bind, Option.bind_eq_some_iff] at hr
  obtain ⟨⟨r, w⟩, halloc, hr⟩ := hr
  have hspare := h.allocate halloc
  cases r with
  | none =>
    obtain ⟨-, rfl⟩ := Prod.mk.inj (Option.some.inj hr)
    exact hspare
  | some start =>
    obtain ⟨-, hfree, -⟩ := freeMapAllocate_some halloc
    simp only [Option.ite_none_right_eq_some, Option.some.injEq, Prod.mk.injEq] at hr
    obtain ⟨-, -, rfl⟩ := hr
    refine hspare.trans (hspare.off.setDisk ((diskWrite_sameOn hne).trans (zeroSectors_sameOn ?_)))
    intro hin
    cases hused.symm.trans (hfree x hin.1 hin.2)

theorem OffMap.inodeReopen (h : v.OffMap x) (hr : v.inodeReopen a = some v') : Spares x v v' := by
  simp only [Volume.inodeReopen, Option.bind_eq_bind, Option.bind_eq_some_iff, Option.some.injEq] at hr
  obtain ⟨ino, ha, rfl⟩ := hr
  exact h.setInode fun _ hi => ⟨ino, ha, by rw [← Option.some.inj hi], by rw [← Option.some.inj hi]⟩

theorem OffMap.inodeOpen {sector : Nat} (h : v.OffMap x) (hr : v.inodeOpen sector = some (a, v')) : Spares x v v' := by
  simp only [Volume.inodeOpen] at hr
  split at hr
  · rename_i b hfind
    obtain ⟨w, hw, hr⟩ := Option.map_eq_some_iff.mp hr
    obtain ⟨-, rfl⟩ := Prod.mk.inj hr
    exact h.inodeReopen hw
  · simp only [Option.ite_none_right_eq_some, Option.bind_eq_bind, Option.bind_eq_some_iff, Option.some.injEq,
      Prod.mk.injEq] at hr
    obtain ⟨-, data, -, rfl, rfl⟩ := hr
    exact h.newInode

theorem OffMap.inodeRemove (h : v.OffMap x) (hr : v.inodeRemove a = some v') : Spares x v v' := by
  simp only [Volume.inodeRemove, Option.bind_eq_bind, Option.bind_eq_some_iff, Option.some.injEq] at hr
  obtain ⟨ino, ha, rfl⟩ := hr
  exact h.setInode fun _ hi => ⟨ino, ha, by rw [← Option.some.inj hi], by rw [← Option.some.inj hi]⟩

theorem OffMap.inodeClose (h : v.OffMap x) (hr : v.inodeClose a = some v') : Spares x v v' := by
  simp only [Volume.inodeClose, Option.bind_eq_bind, Option.bind_eq_some_iff] at hr
  obtain ⟨ino, ha, hr⟩ := hr
  split at hr
  · have hfree : Spares x v (v.setInode a none) := h.setInode fun _ hi => by cases hi
    split at hr
    · obtain ⟨w, hw, hr⟩ := Option.bind_eq_some_iff.mp hr
      have hfirst := hfree.trans (hfree.off.release hw)
      exact hfirst.trans (hfirst.off.release hr)
    · obtain rfl := Option.some.inj hr
      exact hfree
  · obtain rfl := Option.some.inj hr
    exact h.setInode fun _ hi => ⟨ino, ha, by rw [← Option.some.inj hi], by rw [← Option.some.inj hi]⟩

/-! ## The root directory -/

/-- Sectors that are not the free map's are not in its file. -/
theorem Inv.offMap (h : Inv v ex) (hx : ¬ v.Holds freeMapSector x) : v.OffMap x := by
  intro a ha
  obtain ⟨b, fm, hf⟩ := h.freeMap
  obtain rfl : b = a := Option.some.inj (hf.file.symm.trans ha)
  refine ⟨h.inodes_lt b fm hf.inode, fun ino hi => ?_⟩
  obtain rfl := Option.some.inj (hf.inode.symm.trans hi)
  have hhdr := h.header_freeMap hf
  obtain ⟨i, hi', -, hon⟩ := h.header _ .freeMap
  obtain rfl := Option.some.inj (hhdr.symm.trans hi')
  exact ⟨hon, fun hy => hx (.data hhdr hy)⟩

theorem Inv.offMap_of_holds {n : Nat} (h : Inv v ex) (hn : v.Live n) (hne : n ≠ freeMapSector) (hx : v.Holds n x) :
    v.OffMap x :=
  h.offMap fun hy => hne (h.excl.unique hn .freeMap hx hy)

/-- An entry of the root directory is written. -/
theorem Inv.writeEntry_spares {e : DirEntry} (h : Inv v ex) (hdir : v.header rootDirSector = some dir)
    (hk : k ≤ entryCnt dir) (hoff : v.OffMap x) (hx : ¬ dir.Has x) (hr : v.writeEntry dir k e = some (ok, v')) :
    Spares x v v' := by
  obtain ⟨-, rfl⟩ | ⟨-, hlt, rfl⟩ := h.writeEntry hdir hk hr
  · exact .refl hoff
  · exact hoff.setDisk (patch_sameOn hx (entry_lt hlt))

theorem Inv.dirAdd_spares {inodeSector : Nat} (h : Inv v ex) (hdir : v.header rootDirSector = some dir)
    (hoff : v.OffMap x) (hx : ¬ dir.Has x) (hr : v.dirAdd dir name inodeSector = some (ok, v')) : Spares x v v' := by
  simp only [Volume.dirAdd] at hr
  split at hr
  · obtain ⟨-, rfl⟩ := Prod.mk.inj (Option.some.inj hr)
    exact .refl hoff
  split at hr
  · obtain ⟨-, rfl⟩ := Prod.mk.inj (Option.some.inj hr)
    exact .refl hoff
  refine h.writeEntry_spares hdir ?_ hoff hx hr
  cases hf : (List.range (entryCnt dir)).find? fun k => !(entryAt v.disk dir k).inUse with
  | none => exact Nat.le_refl _
  | some k => exact Nat.le_of_lt (List.mem_range.mp (List.mem_of_find?_eq_some hf))

theorem Inv.dirRemove_spares (h : Inv v ex) (hdir : v.header rootDirSector = some dir) (hoff : v.OffMap x)
    (hx : ¬ dir.Has x) (hr : v.dirRemove dir name = some (ok, v')) : Spares x v v' := by
  simp only [Volume.dirRemove] at hr
  split at hr
  · obtain ⟨-, rfl⟩ := Prod.mk.inj (Option.some.inj hr)
    exact .refl hoff
  rename_i k hlook
  obtain ⟨hk, hslot⟩ := lookup_slot hdir hlook
  simp only [Option.bind_eq_bind, Option.bind_eq_some_iff] at hr
  obtain ⟨⟨a, v₁⟩, hopen, ⟨okw, v₂⟩, hw, hr⟩ := hr
  obtain ⟨hinv₁, hdisk₁, -⟩ := h.inodeOpen (.listed ⟨k, hslot⟩) hopen
  have hdir₁ : v₁.header rootDirSector = some dir := by
    rw [Volume.header, hdisk₁]
    exact hdir
  have h₁ := hoff.inodeOpen hopen
  have h₂ := h₁.trans (hinv₁.writeEntry_spares hdir₁ (Nat.le_of_lt hk) h₁.off hx hw)
  split at hr
  · simp only [Option.bind_eq_some_iff, Option.some.injEq, Prod.mk.injEq] at hr
    obtain ⟨v₃, hrem, v₄, hc, -, rfl⟩ := hr
    have h₃ := h₂.trans (h₂.off.inodeRemove hrem)
    exact h₃.trans (h₃.off.inodeClose hc)
  · simp only [Option.bind_eq_some_iff, Option.some.injEq, Prod.mk.injEq] at hr
    obtain ⟨v₃, hc, -, rfl⟩ := hr
    exact h₂.trans (h₂.off.inodeClose hc)

/-! ## `filesys_create` -/

/-- The steps of a creation that succeeds, and of one that does not. -/
inductive CreateSteps (name : List Byte) (initialSize : Int) (v : Volume) (dir : Inode) : Bool → Volume → Prop where
  | long (h : nameMax < name.length) : CreateSteps name initialSize v dir false v
  | full {v₁ : Volume} (halloc : v.freeMapAllocate 1 = some (none, v₁)) : CreateSteps name initialSize v dir false v₁
  | noRoom {s : Nat} {v₁ v₂ v' : Volume} (halloc : v.freeMapAllocate 1 = some (some s, v₁))
      (hcreate : v₁.inodeCreate s initialSize = some (false, v₂))
      (hback : v' = v₂ ∨ v₂.freeMapRelease s 1 = some v') : CreateSteps name initialSize v dir false v'
  | notAdded {s : Nat} {v₁ v₂ v₃ v' : Volume} (halloc : v.freeMapAllocate 1 = some (some s, v₁))
      (hcreate : v₁.inodeCreate s initialSize = some (true, v₂)) (hadd : v₂.dirAdd dir name s = some (false, v₃))
      (hback : v' = v₃ ∨ v₃.freeMapRelease s 1 = some v') : CreateSteps name initialSize v dir false v'
  | added {s : Nat} {v₁ v₂ v' : Volume} (halloc : v.freeMapAllocate 1 = some (some s, v₁))
      (hcreate : v₁.inodeCreate s initialSize = some (true, v₂)) (hadd : v₂.dirAdd dir name s = some (true, v')) :
      CreateSteps name initialSize v dir true v'

theorem createIn_steps {initialSize : Int} (hr : createIn name initialSize v dir = some (ok, v')) :
    CreateSteps name initialSize v dir ok v' := by
  simp only [createIn] at hr
  split at hr
  · rename_i hlong
    obtain ⟨rfl, rfl⟩ := Prod.mk.inj (Option.some.inj hr)
    exact .long hlong
  simp only [Option.bind_eq_bind, Option.bind_eq_some_iff] at hr
  obtain ⟨⟨r, v₁⟩, halloc, hr⟩ := hr
  cases r with
  | none =>
    obtain ⟨rfl, rfl⟩ := Prod.mk.inj (Option.some.inj hr)
    exact .full halloc
  | some s =>
    obtain ⟨⟨okc, v₂⟩, hcreate, hr⟩ := Option.bind_eq_some_iff.mp hr
    -- what is given back at the end, if anything
    have hend : ∀ oka v₃, (if (!oka && s != 0) = true then (v₃.freeMapRelease s 1).bind fun w => some (oka, w)
          else some (oka, v₃)) = some (ok, v') →
        ok = oka ∧ ((oka = true ∧ v' = v₃) ∨ (oka = false ∧ (v' = v₃ ∨ v₃.freeMapRelease s 1 = some v'))) := by
      intro oka v₃ hres
      cases oka with
      | true =>
        obtain ⟨rfl, rfl⟩ := Prod.mk.inj (Option.some.inj hres)
        exact ⟨rfl, .inl ⟨rfl, rfl⟩⟩
      | false =>
        split at hres
        · simp only [Option.bind_eq_some_iff, Option.some.injEq, Prod.mk.injEq] at hres
          obtain ⟨w, hrel, rfl, rfl⟩ := hres
          exact ⟨rfl, .inr ⟨rfl, .inr hrel⟩⟩
        · obtain ⟨rfl, rfl⟩ := Prod.mk.inj (Option.some.inj hres)
          exact ⟨rfl, .inr ⟨rfl, .inl rfl⟩⟩
    cases okc with
    | false =>
      obtain ⟨rfl, ⟨hno, -⟩ | ⟨-, hback⟩⟩ := hend false v₂ hr
      · cases hno
      · exact .noRoom halloc hcreate hback
    | true =>
      simp only [if_true, Option.bind_eq_some_iff] at hr
      obtain ⟨⟨oka, v₃⟩, hadd, hr⟩ := hr
      obtain ⟨rfl, ⟨rfl, rfl⟩ | ⟨rfl, hback⟩⟩ := hend oka v₃ hr
      · exact .added halloc hcreate hadd
      · exact .notAdded halloc hcreate hadd hback

/-- Every sector that is in use, other than those of the directory and of the
free map, is spared. -/
def Quiet (dir : Inode) (v v' : Volume) : Prop := ∀ x, v.OffMap x → ¬ dir.Has x → v.freeMap.bit x = true → Spares x v v'

/-- So are those of the directory. -/
def Still (v v' : Volume) : Prop := ∀ x, v.OffMap x → v.freeMap.bit x = true → Spares x v v'

theorem Still.quiet (h : Still v v') : Quiet dir v v' := fun x hx _ hu => h x hx hu

/-- What the directory holds is the same. -/
theorem Still.root (hs : Still v v') (h : Inv v ex) (hx : v.Holds rootDirSector x) : Spares x v v' :=
  hs x (h.offMap_of_holds .root (by decide) hx) (h.excl.used .root hx).2

theorem Still.header (hs : Still v v') (h : Inv v ex) (hdir : v.header rootDirSector = some dir) :
    v'.header rootDirSector = some dir :=
  (readInode_congr (hs.root h .self).same).trans hdir

theorem Still.sameData (hs : Still v v') (h : Inv v ex) (hdir : v.header rootDirSector = some dir) : SameData dir v v' :=
  fun _ hx => (hs.root h (.data hdir hx)).same

/-- `filesys_create` up to `inode_create`. -/
structure Begun (v v' : Volume) (ex : Nat → Nat) (s : Nat) (ok : Bool) : Prop where
  inv : Inv v' ex
  keeps : Keeps v v'
  made : ok = true → ∃ i, v'.Made s i
  used : v'.Used s
  unheld : v'.Unheld s
  dead : ¬ v.Live s
  still : Still v v'
  bits : ∀ x, v.freeMap.bit x = true → v'.freeMap.bit x = true

variable {s : Nat} {v₁ v₂ : Volume} {initialSize : Int}

theorem inodeCreate_bits {sector : Nat} {length : Int} (h : Inv v ex) (hr : v.inodeCreate sector length = some (ok, v'))
    (hx : v.freeMap.bit x = true) : v'.freeMap.bit x = true := by
  simp only [Volume.inodeCreate] at hr
  split at hr
  · cases hr
  simp only [Option.bind_eq_bind, Option.bind_eq_some_iff] at hr
  obtain ⟨⟨r, w⟩, halloc, hr⟩ := hr
  obtain ⟨-, -, hmono, -⟩ := h.allocate halloc
  cases r with
  | none =>
    obtain ⟨-, rfl⟩ := Prod.mk.inj (Option.some.inj hr)
    exact hmono x hx
  | some start =>
    simp only [Option.ite_none_right_eq_some, Option.some.injEq, Prod.mk.injEq] at hr
    obtain ⟨-, -, rfl⟩ := hr
    exact hmono x hx

theorem Inv.begin (h : Inv v ex) (hl : initialSize < 2 ^ 31) (halloc : v.freeMapAllocate 1 = some (some s, v₁))
    (hcreate : v₁.inodeCreate s initialSize = some (ok, v₂)) : Begun v v₂ ex s ok := by
  obtain ⟨hinv₁, hkeep₁, hmono, hfound⟩ := h.allocate halloc
  obtain ⟨hle, hbits⟩ := hfound s rfl
  obtain ⟨hclear, hmark⟩ := hbits s (Nat.le_refl _) (Nat.lt_succ_self _)
  have hfree : ¬ v.Used s := fun hu => by cases hclear.symm.trans hu.2
  have hun : v.Unheld s := h.excl.unowned hfree
  have hused₁ : v₁.Used s := ⟨hkeep₁.size ▸ Nat.lt_of_succ_le hle, hmark⟩
  obtain ⟨hinv₂, hkeep₂, hused₂, hmade⟩ := hinv₁.inodeCreate hused₁ (hkeep₁.unheld hun) hl hcreate
  refine ⟨hinv₂, hkeep₁.trans hkeep₂, hmade, hused₂, (hkeep₁.trans hkeep₂).unheld hun, fun hlive => hun s hlive .self,
    fun x hx hu => ?_, fun x hx => inodeCreate_bits hinv₁ hcreate (hmono x hx)⟩
  have hspare := hx.allocate halloc
  refine hspare.trans (hspare.off.inodeCreate ?_ (hmono x hu) hcreate)
  rintro rfl
  cases hclear.symm.trans hu

/-- What was not added is given back. -/
theorem spares_giveBack (h : v₁ = v₂ ∨ v₂.freeMapRelease s 1 = some v₁) (hx : v₂.OffMap x) : Spares x v₂ v₁ := by
  obtain rfl | hrel := h
  · exact .refl hx
  · exact hx.release hrel

theorem Inv.createIn_quiet (h : Inv v ex) (hdir : v.header rootDirSector = some dir) (hl : initialSize < 2 ^ 31)
    (hr : CreateSteps name initialSize v dir ok v') : Quiet dir v v' := by
  intro x hx hnot hu
  cases hr with
  | long => exact .refl hx
  | full halloc => exact hx.allocate halloc
  | noRoom halloc hcreate hback =>
    have hspare := (h.begin hl halloc hcreate).still x hx hu
    exact hspare.trans (spares_giveBack hback hspare.off)
  | notAdded halloc hcreate hadd hback =>
    have b := h.begin hl halloc hcreate
    have hspare := b.still x hx hu
    have hdir₂ := (b.keeps.header _ .root).trans hdir
    have hspare₃ := hspare.trans (b.inv.dirAdd_spares hdir₂ hspare.off hnot hadd)
    exact hspare₃.trans (spares_giveBack hback hspare₃.off)
  | added halloc hcreate hadd =>
    have b := h.begin hl halloc hcreate
    have hspare := b.still x hx hu
    exact hspare.trans (b.inv.dirAdd_spares ((b.keeps.header _ .root).trans hdir) hspare.off hnot hadd)

end PintosKaist.Filesys.Volume
