/-
The calls of the file system keep the ownership of sectors, and so does every
run of them whose writes are at offsets in the file or past it.
-/
import PintosKaist.Filesys.Format
import PintosKaist.Filesys.OwnedDir

namespace PintosKaist.Filesys.Volume

open Owners

variable {v v' : Volume} {ex : Nat → Nat} {a n x k f : Nat} {i dir : Inode} {file : OpenFile}

/-! ## Calls in the root directory -/

theorem bump_comm (ex : Nat → Nat) (a b : Nat) : bump (bump ex a) b = bump (bump ex b) a := by
  by_cases hab : a = b
  · rw [hab]
  · simp only [bump, Function.update_of_ne (Ne.symm hab), Function.update_of_ne hab]
    exact Function.update_comm hab ..

/-- The inodes that were open are so at the same sector after `inode_open`. -/
theorem Inv.inodeOpen_opened {sector : Nat} {ino : OpenInode} (h : Inv v ex)
    (hr : v.inodeOpen sector = some (a, v')) (hn : v.inodes n = some ino) :
    ∃ ino', v'.inodes n = some ino' ∧ ino'.sector = ino.sector := by
  simp only [Volume.inodeOpen] at hr
  split at hr
  · rename_i a' hfind
    obtain ⟨jno, ha, -⟩ := findOpen_some hfind
    simp only [inodeReopen, ha, Option.bind_eq_bind, Option.bind_some, Option.map_some, Option.some.injEq,
      Prod.mk.injEq] at hr
    obtain ⟨rfl, rfl⟩ := hr
    simp only [setInode_inodes]
    split
    · rename_i hna
      obtain rfl := Option.some.inj ((hna ▸ hn).symm.trans ha)
      exact ⟨_, rfl, rfl⟩
    · exact ⟨ino, hn, rfl⟩
  · simp only [Option.ite_none_right_eq_some, Option.bind_eq_bind, Option.bind_eq_some_iff, Option.some.injEq,
      Prod.mk.injEq] at hr
    obtain ⟨-, data, -, rfl, rfl⟩ := hr
    refine ⟨ino, ?_, rfl⟩
    show (v.setInode _ _).inodes _ = _
    rw [setInode_inodes, if_neg (Nat.ne_of_lt (h.inodes_lt n ino hn))]
    exact hn

/-- What happens in the root directory happens between an `inode_open` and an
`inode_close` of it. -/
theorem Inv.withRoot {α : Type} {g : Volume → Inode → Option (α × Volume)} {y : α} (h : Inv v ex)
    (hr : v.withRoot g = some (y, v')) :
    ∃ r root v₁ v₂, Inv v₁ (bump ex r) ∧ v₁.inodes r = some root ∧ root.sector = rootDirSector ∧
      v₁.header rootDirSector = some root.data ∧ g v₁ root.data = some (y, v₂) ∧
      ∀ ex', Inv v₂ (bump ex' r) → v₂.freeMapFile = v₁.freeMapFile →
        Inv v' ex' ∧ ∀ b, b ≠ r → v'.inodes b = v₂.inodes b := by
  simp only [Volume.withRoot, Option.bind_eq_bind, Option.bind_eq_some_iff, Option.some.injEq, Prod.mk.injEq] at hr
  obtain ⟨⟨r, v₁⟩, hopen, root, hroot, ⟨z, v₂⟩, hg, v₃, hclose, rfl, rfl⟩ := hr
  obtain ⟨hinv₁, -, -, -, -, ino, hino, hsec⟩ := h.inodeOpen .root hopen
  obtain rfl := Option.some.inj (hroot.symm.trans hino)
  have hfm := hinv₁.freeMapFile_ne hroot (by rw [hsec]; decide)
  refine ⟨r, root, v₁, v₂, hinv₁, hroot, hsec, hsec ▸ hinv₁.data r root hroot, hg, fun ex' hinv₂ hfile => ?_⟩
  obtain ⟨hinv₃, -, -, -, hother⟩ := hinv₂.inodeClose (by simp [bump]) (hfile ▸ hfm) hclose
  exact ⟨unbump_bump ex' r ▸ hinv₃, hother⟩

theorem Inv.filesysCreate {name : List Byte} {initialSize : Int} {ok : Bool} (h : Inv v ex) (hsize : initialSize < 2 ^ 31)
    (hr : v.filesysCreate name initialSize = some (ok, v')) : Inv v' ex := by
  obtain ⟨r, root, v₁, v₂, hinv₁, -, -, hdir, hg, hclose⟩ := h.withRoot hr
  obtain ⟨hinv₂, hfile⟩ := hinv₁.createIn hdir hsize hg
  exact (hclose ex hinv₂ hfile).1

theorem Inv.filesysRemove {name : List Byte} {ok : Bool} (h : Inv v ex)
    (hr : v.filesysRemove name = some (ok, v')) : Inv v' ex := by
  obtain ⟨r, root, v₁, v₂, hinv₁, -, -, hdir, hg, hclose⟩ := h.withRoot hr
  obtain ⟨hinv₂, hfile⟩ := hinv₁.dirRemove hdir hg
  exact (hclose ex hinv₂ hfile).1

/-! ## Files -/

/-- Other files on the same inodes. -/
theorem Inv.setFiles {files : Nat → Option OpenFile} {m : Nat} {ex' : Nat → Nat} (h : Inv v ex)
    (hrefs : ∀ b, fileRefs { v with files := files, nextFile := m } b + ex' b = v.fileRefs b + ex b)
    (hzero : ∀ b, v.inodes b = none → ex' b = 0) (hheld : ∀ b, v.freeMapFile = some b → 0 < ex' b)
    (hfiles : ∀ f file, files f = some file → f < m ∧ ∃ ino, v.FileOk file ino) :
    Inv { v with files := files, nextFile := m } ex' where
  excl := h.excl
  header := h.header
  data := h.data
  inj := h.inj
  removed := h.removed
  slots := h.slots
  listed := h.listed
  root := h.root
  refs b ino hb := by
    rw [hrefs]
    exact h.refs b ino hb
  ex_zero := hzero
  inodes_lt := h.inodes_lt
  files f file hf := by
    obtain ⟨hlt, ino, hok⟩ := hfiles f file hf
    exact ⟨hlt, ino, hok.congr rfl⟩
  freeMap := by
    obtain ⟨b, fm, hf⟩ := h.freeMap
    exact ⟨b, fm, hf.file, hf.inode, hf.sector, hf.length, hheld b hf.file, hf.decodes⟩
  map_size := h.map_size
  size_lt := h.size_lt

/-- A new file takes over the reference of the call that opened its inode. -/
theorem Inv.addFile {ino : OpenInode} (h : Inv v (bump ex a)) (ha : v.inodes a = some ino)
    (hne₀ : ino.sector ≠ freeMapSector) (hne₁ : ino.sector ≠ rootDirSector) :
    Inv { v with files := Function.update v.files v.nextFile (some ⟨a, 0⟩), nextFile := v.nextFile + 1 } ex := by
  have hex : ∀ b, b ≠ a → bump ex a b = ex b := fun b hb => Function.update_of_ne hb ..
  refine h.setFiles (fun b => ?_) (fun b hb => ?_) (fun b hb => ?_) fun f file hf => ?_
  · have hold : Count.count (Finset.range v.nextFile)
        (fun f => (Function.update v.files v.nextFile (some ⟨a, 0⟩) f).map OpenFile.inode) (some b) = v.fileRefs b := by
      refine Count.count_congr fun f hf => ?_
      rw [Function.update_of_ne (Nat.ne_of_lt (Finset.mem_range.mp hf))]
    show Count.count (Finset.range (v.nextFile + 1)) _ _ + _ = _
    rw [Finset.range_add_one, Count.count_insert (by simp), hold]
    by_cases hb : b = a
    · subst hb
      simp [bump]
      omega
    · simp [hex b hb, Ne.symm hb]
  · have hba : b ≠ a := by
      rintro rfl
      cases hb.symm.trans ha
    exact hex b hba ▸ h.ex_zero b hb
  · obtain ⟨c, fm, hf⟩ := h.freeMap
    obtain rfl : c = b := Option.some.inj (hf.file.symm.trans hb)
    have hba : c ≠ a := by
      rintro rfl
      exact h.freeMapFile_ne ha hne₀ hb
    exact hex c hba ▸ hf.held
  · rw [Function.update_apply] at hf
    split at hf
    · rename_i hfn
      obtain rfl := Option.some.inj hf
      exact ⟨by omega, ino, ha, hne₀, hne₁, Int.le_refl _, by show (0 : Int) < 2 ^ 31; decide⟩
    · obtain ⟨hlt, hok⟩ := h.files f file hf
      exact ⟨by omega, hok⟩

theorem Inv.filesysOpen {name : List Byte} {r : Option Nat} (h : Inv v ex)
    (hr : v.filesysOpen name = some (r, v')) : Inv v' ex := by
  simp only [Volume.filesysOpen, Option.bind_eq_bind, Option.bind_eq_some_iff] at hr
  obtain ⟨⟨y, w⟩, hroot, hr⟩ := hr
  obtain ⟨q, root, v₁, v₂, hinv₁, hq, hqs, hdir, hg, hclose⟩ := h.withRoot hroot
  simp only [dirLookup] at hg
  split at hg
  · obtain ⟨rfl, rfl⟩ := Prod.mk.inj (Option.some.inj hg)
    obtain ⟨-, rfl⟩ := Prod.mk.inj (Option.some.inj hr)
    exact (hclose ex hinv₁ rfl).1
  · rename_i k hlook
    obtain ⟨-, hslot⟩ := lookup_slot hdir hlook
    obtain ⟨hne₀, hne₁⟩ := hinv₁.listed _ ⟨k, hslot⟩
    simp only [Option.bind_eq_bind, Option.bind_eq_some_iff, Option.some.injEq, Prod.mk.injEq] at hg
    obtain ⟨⟨a, v₃⟩, hopen, rfl, rfl⟩ := hg
    obtain ⟨hinv₂, -, -, -, hfile, ino, hino, hsec⟩ := hinv₁.inodeOpen (.listed ⟨k, hslot⟩) hopen
    rw [bump_comm] at hinv₂
    obtain ⟨hinv, hother⟩ := hclose (bump ex a) hinv₂ hfile
    -- the file is not the directory it is listed in
    have haq : a ≠ q := by
      rintro rfl
      obtain ⟨root', hroot', hs⟩ := hinv₁.inodeOpen_opened hopen hq
      obtain rfl := Option.some.inj (hino.symm.trans hroot')
      exact hne₁ (hsec.symm.trans (hs.trans hqs))
    obtain ⟨-, rfl⟩ := Prod.mk.inj (Option.some.inj hr)
    exact hinv.addFile ((hother a haq).trans hino) (hsec ▸ hne₀) (hsec ▸ hne₁)

/-- A file that is dropped leaves its reference to the call that closes it. -/
theorem Inv.dropFile (h : Inv v ex) (hf : v.files f = some file) :
    Inv { v with files := Function.update v.files f none } (bump ex file.inode) := by
  obtain ⟨hlt, ino, hok⟩ := h.files f file hf
  have hex : ∀ b, b ≠ file.inode → bump ex file.inode b = ex b := fun b hb => Function.update_of_ne hb ..
  refine h.setFiles (fun b => ?_) (fun b hb => ?_) (fun b hb => ?_) fun g other hg => ?_
  · have hmap : (fun g => (Function.update v.files f none g).map OpenFile.inode) =
        Function.update (fun g => (v.files g).map OpenFile.inode) f none := by
      funext g
      simp only [Function.update_apply]
      split <;> rfl
    have hcount := Count.count_update (g := fun g => (v.files g).map OpenFile.inode) (c := none) (b := some b)
      (Finset.mem_range.mpr hlt)
    simp only [hf, Option.map_some, Option.some.injEq, reduceCtorEq, if_false, Nat.add_zero] at hcount
    simp only [fileRefs, hmap]
    by_cases hb : b = file.inode
    · subst hb
      simp [bump] at hcount ⊢
      omega
    · rw [if_neg (Ne.symm hb)] at hcount
      rw [hex b hb]
      omega
  · have hne : b ≠ file.inode := by
      rintro rfl
      cases hb.symm.trans hok.inode
    exact (hex b hne).trans (h.ex_zero b hb)
  · obtain ⟨c, fm, hfm⟩ := h.freeMap
    obtain rfl : c = b := Option.some.inj (hfm.file.symm.trans hb)
    have := hfm.held
    simp only [bump, Function.update_apply]
    split
    · omega
    · exact this
  · rw [Function.update_apply] at hg
    split at hg
    · cases hg
    · exact h.files g other hg

theorem Inv.fileClose (h : Inv v ex) (hr : v.fileClose f = some v') : Inv v' ex := by
  simp only [Volume.fileClose, Option.bind_eq_bind, Option.bind_eq_some_iff] at hr
  obtain ⟨file, hf, hr⟩ := hr
  obtain ⟨-, ino, hok⟩ := h.files f file hf
  have hfm := h.freeMapFile_ne hok.inode hok.ne_freeMap
  obtain ⟨hinv, -⟩ := (h.dropFile hf).inodeClose (by simp [bump]) hfm hr
  exact unbump_bump ex file.inode ▸ hinv

/-- The position of a file moves. -/
theorem Inv.moveFile {pos : Int} (h : Inv v ex) (hf : v.files f = some file) (h₀ : 0 ≤ pos) (h₁ : pos < 2 ^ 31) :
    Inv { v with files := Function.update v.files f (some { file with pos := pos }) } ex := by
  refine h.setFiles (fun b => ?_) h.ex_zero (fun b hb => ?_) fun g other hg => ?_
  · congr 1
    refine Count.count_congr fun g _ => ?_
    simp only [Function.update_apply]
    split
    · rename_i hgf
      rw [hgf, hf]
      rfl
    · rfl
  · obtain ⟨c, fm, hfm⟩ := h.freeMap
    obtain rfl : c = b := Option.some.inj (hfm.file.symm.trans hb)
    exact hfm.held
  · rw [Function.update_apply] at hg
    split at hg
    · rename_i hgf
      obtain rfl := Option.some.inj hg
      obtain ⟨hlt, ino, hok⟩ := h.files f file hf
      exact ⟨hgf ▸ hlt, ino, hok.inode, hok.ne_freeMap, hok.ne_root, h₀, h₁⟩
    · exact h.files g other hg

/-- `file_write_at` at an offset that is not negative writes the data of the
file and nothing else. -/
theorem Inv.fileWriteAt {buf : Nat → Byte} {size ofs written : Int} (h : Inv v ex) (h₀ : 0 ≤ ofs) (h₁ : ofs < 2 ^ 31)
    (hr : v.fileWriteAt f buf size ofs = some (written, v')) :
    Inv v' ex ∧ v'.files = v.files ∧ 0 ≤ written ∧ (written = 0 ∨ ofs + written < 2 ^ 31) := by
  simp only [Volume.fileWriteAt, Option.bind_eq_bind, Option.bind_eq_some_iff] at hr
  obtain ⟨file, hf, ino, hino, ⟨w, d⟩, hw, hr⟩ := hr
  obtain ⟨rfl, rfl⟩ := Prod.mk.inj (Option.some.inj hr)
  obtain ⟨-, jno, hok⟩ := h.files f file hf
  obtain rfl := Option.some.inj (hino.symm.trans hok.inode)
  have hlive : v.Live ino.sector := .opened hino
  have hhdr := h.data _ ino hino
  obtain ⟨i, hi, -, hon⟩ := h.header _ hlive
  obtain rfl := Option.some.inj (hhdr.symm.trans hi)
  rw [inodeWriteAt_eq hon h₀ h₁] at hw
  obtain ⟨rfl, rfl⟩ := Prod.mk.inj (Option.some.inj hw)
  have hlen := ino.data.length_lt
  have hsame : ∀ m x, v.Live m → v.Holds m x → m ≠ ino.sector →
      SameOn v.disk (patch v.disk (ino.data.addr ofs.toNat) (inFile ino.data size ofs).toNat buf) x := by
    intro m x hm hx hne
    by_cases hzero : (inFile ino.data size ofs).toNat = 0
    · rw [hzero, patch_zero]
      exact .refl
    · refine patch_sameOn (fun hy => hne (h.excl.unique hm hlive hx (.data hhdr hy))) ?_
      simp only [inFile] at hzero ⊢
      omega
  have hinode : ∀ m, v.Live m →
      SameOn v.disk (patch v.disk (ino.data.addr ofs.toNat) (inFile ino.data size ofs).toNat buf) m := by
    intro m hm
    by_cases hne : m = ino.sector
    · subst hne
      by_cases hzero : (inFile ino.data size ofs).toNat = 0
      · rw [hzero, patch_zero]
        exact .refl
      · refine patch_sameOn (h.not_has hlive hhdr hlive) ?_
        simp only [inFile] at hzero ⊢
        omega
    · exact hsame m m hm .self hne
  have hkeep : Keeps v { v with disk := patch v.disk (ino.data.addr ofs.toNat) (inFile ino.data size ofs).toNat buf } :=
    keeps_of_sameOn hinode fun dir hdir x hx => hsame _ x .root (.data hdir hx) hok.ne_root.symm
  refine ⟨h.of_keeps hkeep (fun n x hn hx => (h.excl.used hn hx).2) h.map_size fun b fm hfm => ?_, rfl, inFile_nonneg,
    ?_⟩
  · refine hfm.decodes.congr fun x hx => hsame freeMapSector x .freeMap (.data ?_ hx) hok.ne_freeMap.symm
    exact hfm.sector ▸ h.data b fm hfm.inode
  · simp only [inFile]
    omega

theorem Inv.fileWrite {buf : Nat → Byte} {size : Int} (h : Inv v ex) (hr : v.fileWrite f buf size = some v') :
    Inv v' ex := by
  simp only [Volume.fileWrite, Option.bind_eq_bind, Option.bind_eq_some_iff] at hr
  obtain ⟨file, hf, ⟨written, v₁⟩, hw, hr⟩ := hr
  obtain ⟨-, ino, hok⟩ := h.files f file hf
  obtain ⟨hinv, hfiles, hnonneg, hlt⟩ := h.fileWriteAt hok.pos_nonneg hok.pos_lt hw
  have hpos := hok.pos_nonneg
  have hmax := hok.pos_lt
  have hoff : offT (file.pos + written) = file.pos + written := by
    simp only [offT]
    omega
  simp only [Option.some.injEq, hoff] at hr
  obtain rfl := hr
  exact hinv.moveFile (hfiles ▸ hf) (by omega) (by omega)

theorem Inv.fileSeek {newPos : Int} (h : Inv v ex) (hlt : newPos < 2 ^ 31) (hr : v.fileSeek f newPos = some v') :
    Inv v' ex := by
  simp only [Volume.fileSeek, Option.bind_eq_bind, Option.bind_eq_some_iff] at hr
  obtain ⟨file, hf, hr⟩ := hr
  split at hr
  · cases hr
  · obtain rfl := Option.some.inj hr
    exact h.moveFile hf (by omega) hlt

/-! ## Runs -/

/-- The writes do not start before their file. -/
def Forward : Event → Prop
  | .writeAt _ _ size ofs => offT size ≤ 0 ∨ 0 ≤ offT ofs
  | _ => True

instance : DecidablePred Forward
  | .writeAt .. => inferInstanceAs (Decidable (_ ∨ _))
  | .create .. | .open .. | .close .. | .write .. | .seek .. | .remove .. => .isTrue trivial

theorem offT_lt (x : Int) : offT x < 2 ^ 31 := by
  unfold offT
  omega

/-- A write of nothing. -/
theorem fileWriteAt_nil {buf : Nat → Byte} {size ofs written : Int} (hs : size ≤ 0)
    (hr : v.fileWriteAt f buf size ofs = some (written, v')) : v' = v := by
  simp only [Volume.fileWriteAt, Option.bind_eq_bind, Option.bind_eq_some_iff] at hr
  obtain ⟨file, -, ino, -, ⟨w, d⟩, hw, hr⟩ := hr
  have hnil : chunks ino.data size ofs = [] := by
    rw [chunks, Int.toNat_of_nonpos hs]
    rfl
  simp only [inodeWriteAt, hnil, writeChunks, Option.map_some, Option.some.injEq, Prod.mk.injEq] at hw
  obtain ⟨-, rfl⟩ := hw
  obtain ⟨-, rfl⟩ := Prod.mk.inj (Option.some.inj hr)
  rfl

/-- Every call keeps the ownership of sectors. -/
theorem Inv.step {e : Event} (h : Inv v ex) (hf : Forward e) (hr : v.step e = some v') : Inv v' ex := by
  cases e with
  | create name initialSize =>
    obtain ⟨⟨ok, w⟩, hc, rfl⟩ := Option.map_eq_some_iff.mp hr
    exact h.filesysCreate (offT_lt _) hc
  | «open» name =>
    obtain ⟨⟨r, w⟩, hc, rfl⟩ := Option.map_eq_some_iff.mp hr
    exact h.filesysOpen hc
  | close f => exact h.fileClose hr
  | write f buf size => exact h.fileWrite hr
  | writeAt f buf size ofs =>
    obtain ⟨⟨written, w⟩, hc, rfl⟩ := Option.map_eq_some_iff.mp hr
    obtain hs | h₀ := hf
    · exact fileWriteAt_nil hs hc ▸ h
    · exact (h.fileWriteAt h₀ (offT_lt _) hc).1
  | seek f newPos => exact h.fileSeek (offT_lt _) hr
  | remove name =>
    obtain ⟨⟨ok, w⟩, hc, rfl⟩ := Option.map_eq_some_iff.mp hr
    exact h.filesysRemove hc

theorem inv_of_run {size : Fin (2 ^ 32)} {disk : Disk} {es : List Event} (hinit : filesysInit size disk = some v)
    (hrun : Run.run step v es = some v') (hf : ∀ e ∈ es, Forward e) : ∃ ex, Inv v' ex := by
  obtain ⟨ex, hinv⟩ := filesysInit_inv hinit
  refine ⟨ex, Run.run_invariant (G := fun _ e => Forward e) (I := fun v => Inv v ex) ?_ hinv hrun
    (Run.always_of_mem v fun e he _ => hf e he)⟩
  intro s e s' hs hG hstep
  exact hs.step hG hstep

/-- Sectors are owned exclusively. Each of the free map, the root directory, the
files it lists and the open inodes has an inode on the disk; the sectors it
holds, that of the inode and those of its data, are no other owner's and are
marked; and the free map on the disk is that in memory. An owner goes by the
sector of its inode, so two slots, two open inodes, or a slot and an inode that
was removed never have the same one. -/
structure SectorsOwned (v : Volume) : Prop where
  inode : ∀ n, v.Live n → ∃ i, v.header n = some i ∧ ¬ i.Has n
  extent : ∀ a ino, v.inodes a = some ino → v.header ino.sector = some ino.data
  disjoint : ∀ n m x, v.Live n → v.Live m → n ≠ m → v.Holds n x → ¬ v.Holds m x
  used : ∀ n x, v.Live n → v.Holds n x → x < v.size ∧ v.freeMap.bit x = true
  slots : ∀ j k n, v.slot j = some n → v.slot k = some n → j = k
  listed : ∀ n, v.Listed n → n ≠ freeMapSector ∧ n ≠ rootDirSector
  opened : ∀ a b ino jno, v.inodes a = some ino → v.inodes b = some jno → ino.sector = jno.sector → a = b
  removed : ∀ a ino, v.inodes a = some ino → ino.removed = true →
    ¬ v.Listed ino.sector ∧ ino.sector ≠ freeMapSector ∧ ino.sector ≠ rootDirSector
  decodes : ∃ i, v.header freeMapSector = some i ∧ (v.bitmapRead i).1 = true ∧
    ∀ x < v.size, (v.bitmapRead i).2 x = v.freeMap.bit x

theorem Inv.sectorsOwned (h : Inv v ex) : v.SectorsOwned where
  inode n hn := by
    obtain ⟨i, hi, hself, -⟩ := h.header n hn
    exact ⟨i, hi, hself⟩
  extent := h.data
  disjoint _ _ _ hn hm hne hx hy := hne (h.excl.unique hn hm hx hy)
  used _ _ hn hx := h.excl.used hn hx
  slots := h.slots
  listed := h.listed
  opened := h.inj
  removed := h.removed
  decodes := by
    obtain ⟨a, fm, hf⟩ := h.freeMap
    exact ⟨fm.data, hf.sector ▸ h.data a fm hf.inode, hf.decodes⟩

/-- **No sector has two owners** in any state that a formatted disk comes to by
calls whose writes do not start before their file. -/
theorem sectorsOwned_of_run {size : Fin (2 ^ 32)} {disk : Disk} {es : List Event}
    (hinit : filesysInit size disk = some v)
    (hrun : Run.run step v es = some v') (hf : ∀ e ∈ es, Forward e) : v'.SectorsOwned := by
  obtain ⟨ex, hinv⟩ := inv_of_run hinit hrun hf
  exact hinv.sectorsOwned

/-- A file is removed while it is open, its sectors outlive it and then go to
another file. -/
def removedWhileOpen : List Event :=
  [.create [65] 2048, .create [66] 600, .open [65], .remove [65], .create [67] 0, .write 0 (fun _ => 7) 2000,
    .writeAt 0 (fun _ => 7) (-4) (-4096), .close 0, .create [68] 1024, .create [68] 1]

theorem sectorsOwned_removedWhileOpen :
    ∃ v v', filesysInit 32 (fun _ => 0) = some v ∧ Run.run step v removedWhileOpen = some v' ∧ v'.SectorsOwned := by
  have hrun : (filesysInit 32 fun _ => 0).any (fun v => (Run.run step v removedWhileOpen).isSome) = true := by
    decide +kernel
  obtain ⟨v, hv, hv'⟩ := (Option.any_eq_true ..).mp hrun
  obtain ⟨v', hv'⟩ := Option.isSome_iff_exists.mp hv'
  exact ⟨v, v', hv, hv', sectorsOwned_of_run hv hv' (by decide)⟩

/-- What the write-back of a page mapped at offset -4096 does. -/
def writeBefore : List Event := [.create [65] 2048, .create [66] 600, .open [66], .writeAt 0 (fun _ => 0) 4096 (-4096)]

/-- Eight sectors before the file of 600 bytes is the free map: on the disk
sector 0 is now clear. -/
theorem not_sectorsOwned_writeBefore :
    ∃ v v', filesysInit 32 (fun _ => 0) = some v ∧ Run.run step v writeBefore = some v' ∧ ¬ v'.SectorsOwned := by
  have hrun : (filesysInit 32 fun _ => 0).any (fun v => (Run.run step v writeBefore).any fun v' =>
      (v'.header freeMapSector).all fun i => decide (0 < v'.size) &&
        ((v'.bitmapRead i).2 0 != v'.freeMap.bit 0)) = true := by
    decide +kernel
  obtain ⟨v, hv, hv'⟩ := (Option.any_eq_true ..).mp hrun
  obtain ⟨v', hv', hbad⟩ := (Option.any_eq_true ..).mp hv'
  refine ⟨v, v', hv, hv', fun howned => ?_⟩
  obtain ⟨i, hi, -, hbits⟩ := howned.decodes
  simp only [hi, Option.all_some, Bool.and_eq_true, decide_eq_true_eq, bne_iff_ne] at hbad
  exact hbad.2 (hbits 0 hbad.1)

end PintosKaist.Filesys.Volume
