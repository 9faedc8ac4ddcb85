/-
Every call on a volume returns what it may return of the store that the volume
represents, and leaves it representing the store that results.
-/
import PintosKaist.Filesys.Represents

namespace PintosKaist.Filesys.Volume

open ArrayStore

variable {v v' v₁ v₂ : Volume} {ex ex' : Nat → Nat} {dir : Inode} {r f x : Nat} {ok : Bool} {name : Name} {s : Files}
  {m : Finmap fun _ : Name => Nat} {size ofs : Int} {buf : Nat → Byte} {bytes : List Byte}

/-- What every call does: `v'` keeps the ownership of sectors and represents `s'`. -/
def Leaves (v' : Volume) (dir : Inode) (s' : Files) : Prop := (∃ ex, Inv v' ex) ∧ v'.Represents dir s'

/-! ## The root directory is opened and closed -/

theorem Inv.backing {root : OpenInode} (h : Inv v ex) (hr : v.inodes r = some root) (hsec : root.sector = rootDirSector) :
    v.Backing r root.data := by
  have hhdr : v.header rootDirSector = some root.data := hsec ▸ h.data r root hr
  obtain ⟨i, hi, -, hon⟩ := h.header _ .root
  obtain rfl := Option.some.inj (hhdr.symm.trans hi)
  refine ⟨h.inodes_lt r root hr, fun ino hi => ?_, hon, fun a ha => ?_⟩
  · obtain rfl := Option.some.inj (hr.symm.trans hi)
    rfl
  · obtain ⟨b, fm, hf⟩ := h.freeMap
    obtain rfl : b = a := Option.some.inj (hf.file.symm.trans ha)
    refine ⟨h.inodes_lt b fm hf.inode, fun ino hi => ?_⟩
    obtain rfl := Option.some.inj (hf.inode.symm.trans hi)
    obtain ⟨i, hi', -, hon'⟩ := h.header _ .freeMap
    obtain rfl := Option.some.inj ((h.header_freeMap hf).symm.trans hi')
    exact ⟨hon', fun x hx => h.not_has_both .root hhdr .freeMap (h.header_freeMap hf) (by decide) hx⟩

theorem still_of_open {sector a : Nat} (hr : v.inodeOpen sector = some (a, v')) : Still v v' :=
  fun _ hx _ => hx.inodeOpen hr

theorem still_of_close {a : Nat} (hr : v.inodeClose a = some v') : Still v v' := fun _ hx _ => hx.inodeClose hr

/-- The call in the root directory: what it is called on represents the store, and
closing the directory changes nothing of it. -/
theorem Represents.inRoot {α : Type} {g : Volume → Inode → Option (α × Volume)} {y : α} (hs : v.Represents dir s) (h : Inv v ex)
    (hr : v.withRoot g = some (y, v')) :
    ∃ r root v₁ v₂, Inv v₁ (bump ex r) ∧ v₁.Represents dir s ∧ v₁.inodes r = some root ∧ root.sector = rootDirSector ∧
      root.data = dir ∧ g v₁ dir = some (y, v₂) ∧ ∀ ex' s', Inv v₂ (bump ex' r) → v₂.freeMapFile = v₁.freeMapFile →
        v₂.Represents dir s' → Inv v' ex' ∧ v'.Represents dir s' ∧ Still v₂ v' := by
  simp only [Volume.withRoot, Option.bind_eq_bind, Option.bind_eq_some_iff, Option.some.injEq, Prod.mk.injEq] at hr
  obtain ⟨⟨r, v₁⟩, hopen, root, hroot, ⟨z, v₂⟩, hg, v₃, hclose, rfl, rfl⟩ := hr
  obtain ⟨hinv₁, -, -, -, -, ino, hino, hsec⟩ := h.inodeOpen .root hopen
  obtain rfl := Option.some.inj (hroot.symm.trans hino)
  have hrep₁ := hs.still h hinv₁ (still_of_open hopen)
  have hdata : root.data = dir :=
    Option.some.inj ((hsec ▸ hinv₁.data r root hroot : v₁.header rootDirSector = some root.data).symm.trans
      hrep₁.names.root)
  have hfm := hinv₁.freeMapFile_ne hroot (by rw [hsec]; decide)
  refine ⟨r, root, v₁, v₂, hinv₁, hrep₁, hroot, hsec, hdata, hdata ▸ hg, fun ex' s' hinv₂ hfile hrep₂ => ?_⟩
  obtain ⟨hinv₃, -⟩ := hinv₂.inodeClose (by simp [bump]) (hfile ▸ hfm) hclose
  have hinv' := unbump_bump ex' r ▸ hinv₃
  exact ⟨hinv', hrep₂.still hinv₂ hinv' (still_of_close hclose), still_of_close hclose⟩

/-! ## `filesys_create` -/

/-- The new inode is a file of zeros. -/
theorem inodeCreate_array {sector : Nat} {length : Int} (h : Inv v ex) (hl : length < 2 ^ 31)
    (hused : v.freeMap.bit sector = true) (hr : v.inodeCreate sector length = some (true, v')) :
    v'.Array sector (List.replicate length.toNat 0) := by
  obtain ⟨h₀, start, v₁, halloc, hsec, rfl⟩ := inodeCreate_some hr
  obtain ⟨hle, hfree, d, b, rfl⟩ := freeMapAllocate_some halloc
  have hsize := h.size_lt
  rw [h.map_size] at hle
  have hcnt : sectorCnt length = bytesToSectors length := sectorCnt_eq h₀ hl (by omega)
  rw [hcnt] at hle hfree ⊢
  let i : Inode := ⟨start, length, h₀, hl, by omega⟩
  have hself : ¬ i.Has sector := fun hx => by cases hused.symm.trans (hfree sector hx.1 hx.2)
  refine ⟨i, readInode_created (i := i) (by show start < 2 ^ 32; omega) hself, ?_⟩
  refine List.ext_getElem (by simp [i]) fun k hk hk' => ?_
  rw [List.getElem_replicate, FileBytes.getElem_bytesOf]
  have hlt : (k : Int) < i.length := by
    rw [List.length_replicate] at hk
    show (k : Int) < length
    omega
  exact (zeroSectors_zero (Inode.has_addr hlt)).symm

theorem Still.slotsHold (hq : Still v v') (h : Inv v ex) (hdir : v.header rootDirSector = some dir)
    (hm : v.SlotsHold dir m) : v'.SlotsHold dir m := hm.congr (hq.sameData h hdir)

theorem still_giveBack (h : v₁ = v₂ ∨ v₂.freeMapRelease x 1 = some v₁) : Still v₂ v₁ :=
  fun _ hx _ => spares_giveBack h hx

/-- What the directory holds after `filesys_create`: a new name is of a file of
zeros in a sector that was nobody's. -/
theorem Inv.createIn_names {root : OpenInode} {initialSize : Int} (h : Inv v ex) (hr : v.inodes r = some root)
    (hsec : root.sector = rootDirSector) (hm : v.SlotsHold root.data m) (hl : initialSize < 2 ^ 31)
    (hsteps : CreateSteps name.val initialSize v root.data ok v') :
    (ok = false → v'.SlotsHold root.data m) ∧ (ok = true → CanAdd root.data m name ∧ ∃ x, ¬ v.Live x ∧
      v'.SlotsHold root.data (m.insert name x) ∧ v'.Array x (List.replicate initialSize.toNat 0)) := by
  have hdir : v.header rootDirSector = some root.data := hsec ▸ h.data r root hr
  cases hsteps with
  | long => exact ⟨fun _ => hm, fun hno => by cases hno⟩
  | full halloc => exact ⟨fun _ => Still.slotsHold (fun _ hx _ => hx.allocate halloc) h hdir hm, fun hno => by cases hno⟩
  | noRoom halloc hcreate hback =>
    have b := h.begin hl halloc hcreate
    have hm₂ := b.still.slotsHold h hdir hm
    exact ⟨fun _ => (still_giveBack hback).slotsHold b.inv ((b.keeps.header _ .root).trans hdir) hm₂,
      fun hno => by cases hno⟩
  | @notAdded s v₁ v₂ v₃ _ halloc hcreate hadd hback =>
    have b := h.begin hl halloc hcreate
    have hdir₂ := (b.keeps.header _ .root).trans hdir
    obtain ⟨i, hmade⟩ := b.made rfl
    obtain ⟨-, -, hsame⟩ := b.inv.dirAdd hdir₂ b.used b.unheld hmade hadd
    obtain rfl := hsame rfl
    exact ⟨fun _ => (still_giveBack hback).slotsHold b.inv hdir₂ (b.still.slotsHold h hdir hm), fun hno => by cases hno⟩
  | @added s v₁ v₂ _ halloc hcreate hadd =>
    have b := h.begin hl halloc hcreate
    have hdir₂ := (b.keeps.header _ .root).trans hdir
    have hback₂ := b.inv.backing (b.keeps.inodes ▸ hr) hsec
    have hlt : s < 2 ^ 32 := Nat.lt_trans b.used.1 b.inv.size_lt
    obtain ⟨ok, w, hadd', hcan, -, hm₃⟩ := (b.still.slotsHold h hdir hm).dirAdd name hback₂ hlt
    obtain ⟨rfl, rfl⟩ := Prod.mk.inj (Option.some.inj (hadd.symm.trans hadd'))
    obtain ⟨i, hmade⟩ := b.made rfl
    obtain ⟨hinv₁, -, -, hfound⟩ := h.allocate halloc
    obtain ⟨-, hmark⟩ := (hfound s rfl).2 s (Nat.le_refl _) (Nat.lt_succ_self _)
    have harray := inodeCreate_array hinv₁ hl hmark hcreate
    -- the entry is written to the directory, and nothing of the new file is there
    have hunheld : ∀ y, v₂.Holds s y → v₂.Unheld y := by
      rintro y (rfl | ⟨j, hj, hy⟩)
      · exact b.unheld
      · obtain rfl := Option.some.inj (hj.symm.trans hmade.header)
        exact hmade.unheld y hy
    refine ⟨fun hno => (by cases hno), fun _ => ⟨hcan.mp rfl, s, b.dead, hm₃, harray.spared fun y hy => ?_⟩⟩
    refine b.inv.dirAdd_spares hdir₂ (b.inv.offMap (hunheld y hy _ .freeMap)) (fun hd => ?_) hadd
    exact hunheld y hy _ .root (.data hdir₂ hd)

/-- The calls that succeed are those that `Returns` says, whatever the sector of
the new file. -/
theorem Represents.filesysCreate {initialSize : Int} (hs : v.Represents dir s) (h : Inv v ex)
    (hr : v.filesysCreate name.val (offT initialSize) = some (ok, v')) :
    ∃ s', s.Returns (.create name initialSize) (.bool ok) s' ∧ v'.Leaves dir s' := by
  have hl := offT_lt initialSize
  obtain ⟨r, root, v₁, v₂, hinv₁, hrep₁, hroot, hsec, rfl, hg, hclose⟩ := hs.inRoot h hr
  obtain ⟨hinv₂, hfile⟩ := hinv₁.createIn hrep₁.names.root hl hg
  have hsteps := createIn_steps hg
  obtain ⟨m, hm, hnames⟩ := hrep₁.names.slots
  obtain ⟨hfail, hadd⟩ := hinv₁.createIn_names hroot hsec hm hl hsteps
  have hquiet := hinv₁.createIn_quiet hrep₁.names.root hl hsteps
  cases ok with
  | false =>
    have hrep₂ := hrep₁.quiet hinv₁ hinv₂ hquiet ⟨m, hfail rfl, hnames⟩ fun name x hx => .name hx
    obtain ⟨hinv', hrep', -⟩ := hclose ex _ hinv₂ hfile hrep₂
    exact ⟨s, rfl, ⟨ex, hinv'⟩, hrep'⟩
  | true =>
    obtain ⟨⟨hnil, hshort, hnot, -⟩, x, hdead, hm₂, harray⟩ := hadd rfl
    have hnew : ¬ s.Alive x := fun ha => hdead (hrep₁.live hinv₁ ha).1
    have hrep₂ : v₂.Represents root.data (s.create name x (List.replicate (offT initialSize).toNat 0)) := by
      refine ⟨⟨hquiet.root hinv₁ hrep₁.names.root, _, hm₂, fun other => ?_⟩, fun y hy => ?_,
        hrep₁.quiet_handles hinv₁ hinv₂ hquiet⟩
      · simp only [Store.create, Function.update_apply]
        split
        · rename_i heq
          rw [heq, Finmap.lookup_insert]
        · rename_i hne
          rw [Finmap.lookup_insert_of_ne _ hne]
          exact hnames other
      · simp only [Store.create, Function.update_apply]
        split
        · rename_i heq
          rw [heq]
          exact harray
        · rename_i hne
          exact hrep₁.quiet_bytes hinv₁ hquiet ((Store.alive_create hy).resolve_left hne)
    obtain ⟨hinv', hrep', -⟩ := hclose ex _ hinv₂ hfile hrep₂
    refine ⟨_, ⟨hnil, hshort, ?_, x, hnew, rfl⟩, ⟨ex, hinv'⟩, hrep'⟩
    rw [hnames, Finmap.lookup_eq_none]
    exact hnot

/-! ## `filesys_remove` -/

theorem Represents.filesysRemove (hs : v.Represents dir s) (h : Inv v ex)
    (hr : v.filesysRemove name.val = some (ok, v')) :
    ∃ s', s.Returns (.remove name) (.bool ok) s' ∧ v'.Leaves dir s' := by
  obtain ⟨r, root, v₁, v₂, hinv₁, hrep₁, hroot, hsec, rfl, hg, hclose⟩ := hs.inRoot h hr
  obtain ⟨hinv₂, hfile⟩ := hinv₁.dirRemove hrep₁.names.root hg
  obtain ⟨m, hm, hnames⟩ := hrep₁.names.slots
  obtain ⟨hok, -, hm₂⟩ := hm.dirRemove (hinv₁.backing hroot hsec) hg
  have hquiet : Quiet root.data v₁ v₂ := fun x hx hnot _ => hinv₁.dirRemove_spares hrep₁.names.root hx hnot hg
  have hlook : ∀ other, (s.unlink name).names other = (if ok then m.erase name else m).lookup other := by
    intro other
    simp only [Store.unlink, Function.update_apply]
    cases ok with
    | true =>
      simp only [if_true]
      split
      · rename_i heq
        rw [heq, Finmap.lookup_erase]
      · rename_i hne
        rw [Finmap.lookup_erase_ne hne]
        exact hnames other
    | false =>
      simp only [Bool.false_eq_true, if_false]
      split
      · rename_i heq
        rw [heq, Finmap.lookup_eq_none.mpr]
        exact fun hin => by cases hok.mpr hin
      · exact hnames other
  have hrep₂ := hrep₁.quiet hinv₁ hinv₂ hquiet ⟨_, hm₂, hlook⟩ fun other x hx => Store.alive_unlink (.name hx)
  obtain ⟨hinv', hrep', -⟩ := hclose ex _ hinv₂ hfile hrep₂
  refine ⟨_, ⟨?_, rfl⟩, ⟨ex, hinv'⟩, hrep'⟩
  rw [hnames, Bool.eq_iff_iff, hok, Finmap.lookup_isSome]

/-! ## Files are opened and closed -/

theorem Inv.fileOpen {a : Nat} {ino : OpenInode} {pos : Int} (h : Inv v (bump ex a)) (ha : v.inodes a = some ino)
    (hne₀ : ino.sector ≠ freeMapSector) (hne₁ : ino.sector ≠ rootDirSector) (h₀ : 0 ≤ pos) (h₁ : pos < 2 ^ 31) :
    Inv (v.fileOpen a pos).2 ex := by
  have hnew := (h.addFile ha hne₀ hne₁).moveFile (f := v.nextFile)
    (show _ = some (⟨a, 0⟩ : OpenFile) from Function.update_self ..) h₀ h₁
  simp only [Function.update_idem] at hnew
  exact hnew

theorem Inv.inodeReopen {a : Nat} (h : Inv v ex) (hr : v.inodeReopen a = some v') : Inv v' (bump ex a) := by
  simp only [Volume.inodeReopen, Option.bind_eq_bind, Option.bind_eq_some_iff, Option.some.injEq] at hr
  obtain ⟨ino, ha, rfl⟩ := hr
  refine h.setInode ha rfl rfl (h.removed a ino ha) ?_ (fun b hb => Function.update_of_ne hb ..) fun _ => ?_
  · have := h.refs a ino ha
    simp only [bump, Function.update_self]
    omega
  · simp [bump]

/-- A new file is a new handle. -/
theorem Represents.fileOpen {a : Nat} {ino : OpenInode} (hs : v.Represents dir s) (h : Inv v ex) (ha : v.inodes a = some ino)
    (halive : s.Alive ino.sector) (pos : Int) : s.handles v.nextFile = none ∧
      (v.fileOpen a pos).2.Represents dir (s.setHandle v.nextFile (some (ino.sector, pos.toNat))) := by
  refine ⟨?_, ⟨hs.names.congr rfl, fun y hy => ?_, fun f => ?_⟩⟩
  · rw [hs.handles]
    cases hf : v.files v.nextFile with
    | none => simp only [handle, hf, Option.bind_eq_bind, Option.bind_none]
    | some file => exact absurd (h.files _ file hf).1 (Nat.lt_irrefl _)
  · obtain rfl | hy := Store.alive_setHandle hy
    · exact (hs.bytes _ halive).congr rfl
    · exact (hs.bytes y hy).congr rfl
  · simp only [Store.setHandle, Volume.fileOpen, handle, Function.update_apply]
    split
    · simp only [Option.bind_eq_bind, Option.bind_some, ha]
    · exact hs.handles f

/-- An inode that a call refers to is open. -/
theorem Inv.open_of_bump {a : Nat} (h : Inv v (bump ex a)) : ∃ ino, v.inodes a = some ino := by
  cases ha : v.inodes a with
  | some ino => exact ⟨ino, rfl⟩
  | none =>
    have := h.ex_zero a ha
    simp [bump] at this

/-- `dir_lookup`, with the root directory open. -/
theorem Inv.dirLookup {o : Option Nat} (h : Inv v (bump ex r)) (hdir : v.header rootDirSector = some dir)
    (hr : v.dirLookup name.val dir = some (o, v')) : v'.freeMapFile = v.freeMapFile ∧ Still v v' ∧
      (o = none → Inv v' (bump ex r)) ∧ ∀ a, o = some a → Inv v' (bump (bump ex a) r) := by
  simp only [Volume.dirLookup] at hr
  split at hr
  · obtain ⟨rfl, rfl⟩ := Prod.mk.inj (Option.some.inj hr)
    exact ⟨rfl, fun _ hx _ => .refl hx, fun _ => h, fun a ha => by cases ha⟩
  · rename_i k hlook
    obtain ⟨-, hslot⟩ := lookup_slot hdir hlook
    simp only [Option.bind_eq_bind, Option.bind_eq_some_iff, Option.some.injEq, Prod.mk.injEq] at hr
    obtain ⟨⟨a, v₃⟩, hopen, rfl, rfl⟩ := hr
    obtain ⟨hinv, -, -, -, hfile, -⟩ := h.inodeOpen (.listed ⟨k, hslot⟩) hopen
    refine ⟨hfile, still_of_open hopen, fun hno => (by cases hno), fun b hb => ?_⟩
    obtain rfl := Option.some.inj hb
    exact bump_comm ex r a ▸ hinv

theorem Represents.filesysOpen {o : Option Nat} (hs : v.Represents dir s) (h : Inv v ex)
    (hr : v.filesysOpen name.val = some (o, v')) :
    ∃ s', s.Returns (.open name) (.file o) s' ∧ v'.Leaves dir s' := by
  simp only [Volume.filesysOpen, Option.bind_eq_bind, Option.bind_eq_some_iff] at hr
  obtain ⟨⟨y, w⟩, hin, hr⟩ := hr
  obtain ⟨r, root, v₁, v₂, hinv₁, hrep₁, hroot, hsec, rfl, hg, hclose⟩ := hs.inRoot h hin
  obtain ⟨m, hm, hnames⟩ := hrep₁.names.slots
  obtain ⟨⟨hnone, hsome⟩, -, -⟩ := hm.dirLookup (hinv₁.backing hroot hsec) hg
  obtain ⟨hfile, hstill, hinvn, hinvs⟩ := hinv₁.dirLookup hrep₁.names.root hg
  cases y with
  | none =>
    obtain ⟨rfl, rfl⟩ := Prod.mk.inj (Option.some.inj hr)
    have hinv₂ := hinvn rfl
    obtain ⟨hinv', hrep', -⟩ := hclose ex s hinv₂ hfile (hrep₁.still hinv₁ hinv₂ hstill)
    refine ⟨s, ⟨?_, rfl⟩, ⟨ex, hinv'⟩, hrep'⟩
    rw [hnames, Finmap.lookup_eq_none]
    exact hnone.mp rfl
  | some a =>
    obtain ⟨rfl, rfl⟩ := Prod.mk.inj (Option.some.inj hr)
    have hinv₂ := hinvs a rfl
    obtain ⟨hinv', hrep', hstill'⟩ := hclose (bump ex a) s hinv₂ hfile (hrep₁.still hinv₁ hinv₂ hstill)
    obtain ⟨ino, hi, hlook⟩ := hsome a rfl
    have hname : s.names name = some ino.sector := (hnames name).trans hlook
    -- closing the directory leaves the inode open, in its sector
    obtain ⟨ino', hi'⟩ := hinv'.open_of_bump
    have hsp := hstill'.root hinv₂ .self
    obtain ⟨old, hold, hsec'⟩ := hsp.sector a (hinv₂.inodes_lt a ino hi) ino' hi'
    obtain rfl := Option.some.inj (hi.symm.trans hold)
    obtain ⟨hl, hne₀, hne₁⟩ := hs.live h (.name hname)
    obtain ⟨hfree, hrep⟩ := hrep'.fileOpen hinv' hi' (hsec'.symm ▸ .name hname) 0
    rw [hsec'] at hrep
    refine ⟨_, ⟨ino.sector, hname, hfree, rfl⟩, ⟨ex, ?_⟩, hrep⟩
    exact hinv'.fileOpen hi' (hsec'.symm ▸ hne₀) (hsec'.symm ▸ hne₁) (Int.le_refl 0) (by decide)

/-- `file_reopen` and `file_duplicate`, which differ in where the new file
starts. -/
theorem Represents.reopenAt {file : OpenFile} {pos : Int} {w : Volume} (hs : v.Represents dir s) (h : Inv v ex)
    (hf : v.files f = some file) (hr : v.inodeReopen file.inode = some w) (h₀ : 0 ≤ pos) (h₁ : pos < 2 ^ 31) :
    ∃ x s', s.handles f = some (x, file.pos.toNat) ∧ s.OpensAt x pos.toNat w.nextFile s' ∧
      (w.fileOpen file.inode pos).2.Leaves dir s' := by
  have hinv := h.inodeReopen hr
  have hstill : Still v w := fun x hx _ => hx.inodeReopen hr
  have hrep := hs.still h hinv hstill
  have hsp := hstill.root h .self
  obtain ⟨ino, hi, hh⟩ := hinv.handle_eq (hsp.files ▸ hf)
  have hhandle := (hrep.handles f).trans hh
  obtain ⟨hl, hne₀, hne₁⟩ := hrep.live hinv (.handle hhandle)
  obtain ⟨hfree, hrep'⟩ := hrep.fileOpen hinv hi (.handle hhandle) pos
  exact ⟨ino.sector, _, hhandle, ⟨hfree, rfl⟩, ⟨ex, hinv.fileOpen hi hne₀ hne₁ h₀ h₁⟩, hrep'⟩

theorem Represents.fileReopen {g : Nat} (hs : v.Represents dir s) (h : Inv v ex) (hr : v.fileReopen f = some (g, v')) :
    ∃ s', s.Returns (.reopen f) (.file (some g)) s' ∧ v'.Leaves dir s' := by
  simp only [Volume.fileReopen, Option.bind_eq_bind, Option.bind_eq_some_iff, Option.some.injEq] at hr
  obtain ⟨file, hf, w, hw, hr⟩ := hr
  obtain ⟨x, s', hh, hopens, hleaves⟩ := hs.reopenAt h hf hw (Int.le_refl 0) (by decide)
  obtain ⟨rfl, rfl⟩ := Prod.mk.inj hr
  exact ⟨s', ⟨x, _, hh, hopens⟩, hleaves⟩

theorem Represents.fileDuplicate {g : Nat} (hs : v.Represents dir s) (h : Inv v ex)
    (hr : v.fileDuplicate f = some (g, v')) : ∃ s', s.Returns (.duplicate f) (.file (some g)) s' ∧ v'.Leaves dir s' := by
  simp only [Volume.fileDuplicate, Option.bind_eq_bind, Option.bind_eq_some_iff, Option.some.injEq] at hr
  obtain ⟨file, hf, w, hw, hr⟩ := hr
  obtain ⟨-, ino, hok⟩ := h.files f file hf
  obtain ⟨x, s', hh, hopens, hleaves⟩ := hs.reopenAt h hf hw hok.pos_nonneg hok.pos_lt
  obtain ⟨rfl, rfl⟩ := Prod.mk.inj hr
  exact ⟨s', ⟨x, _, hh, hopens⟩, hleaves⟩

/-- A handle is closed. -/
theorem Represents.dropFile (hs : v.Represents dir s) (f : Nat) :
    Represents { v with files := Function.update v.files f none } dir (s.setHandle f none) := by
  refine ⟨hs.names.congr rfl, fun y hy => (hs.bytes y (Store.alive_close hy)).congr rfl, fun g => ?_⟩
  simp only [Store.setHandle, handle, Function.update_apply]
  split
  · rfl
  · exact hs.handles g

theorem Represents.fileClose (hs : v.Represents dir s) (h : Inv v ex) (hr : v.fileClose f = some v') :
    ∃ s', s.Returns (.close f) .unit s' ∧ v'.Leaves dir s' := by
  have hinv' := h.fileClose hr
  simp only [Volume.fileClose, Option.bind_eq_bind, Option.bind_eq_some_iff] at hr
  obtain ⟨file, hf, hr⟩ := hr
  obtain ⟨ino, -, hh⟩ := h.handle_eq hf
  refine ⟨_, ⟨?_, rfl⟩, ⟨ex, hinv'⟩, (hs.dropFile f).still (h.dropFile hf) hinv' (still_of_close hr)⟩
  rw [hs.handles, hh]
  rfl

end PintosKaist.Filesys.Volume
