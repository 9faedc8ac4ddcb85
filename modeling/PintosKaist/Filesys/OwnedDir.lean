/-
The root directory keeps the ownership of sectors: an entry that is added hands
an inode just made to a new owner, and one that is erased leaves the inode to
whoever has it open.
-/
import PintosKaist.Filesys.Owned

namespace PintosKaist.Filesys.Volume

open Owners

variable {v v' : Volume} {ex : Nat → Nat} {a n x k : Nat} {i dir : Inode}

/-! ## The root directory -/

theorem slot_eq (hdir : v.header rootDirSector = some dir) : v.slot k = slotOf v.disk dir k := by
  simp only [slot, hdir, Option.bind_some]

/-- An entry is written whole, or there is no room for it. -/
theorem Inv.writeEntry {e : DirEntry} {ok : Bool} (h : Inv v ex) (hdir : v.header rootDirSector = some dir)
    (hk : k ≤ entryCnt dir) (hr : v.writeEntry dir k e = some (ok, v')) :
    (ok = false ∧ v' = v) ∨ (ok = true ∧ k < entryCnt dir ∧
      v' = { v with disk := patch v.disk (dir.addr (entrySize * k)) entrySize e.bytes }) := by
  obtain ⟨j, hj, -, hon⟩ := h.header _ .root
  obtain rfl := Option.some.inj (hdir.symm.trans hj)
  have hlen := h.root _ hdir
  have hcnt : entryCnt dir = 16 := by
    simp only [entryCnt, hlen, entrySize]
    rfl
  simp only [Volume.writeEntry, Option.bind_eq_bind, Option.bind_eq_some_iff, Option.some.injEq, Prod.mk.injEq] at hr
  obtain ⟨⟨written, d⟩, hw, hok, rfl⟩ := hr
  rw [inodeWriteAt_eq hon (by omega) (by simp only [entrySize]; omega)] at hw
  obtain ⟨rfl, rfl⟩ := Prod.mk.inj (Option.some.inj hw)
  rw [hcnt] at hk ⊢
  by_cases hlt : k < 16
  · have hin : inFile dir entrySize (entrySize * k : Nat) = entrySize := by
      simp only [inFile, hlen, entrySize]
      omega
    right
    refine ⟨?_, hlt, ?_⟩
    · rw [← hok, hin]
      exact beq_self_eq_true _
    · rw [hin, Int.toNat_natCast, Int.toNat_natCast]
  · have hin : inFile dir entrySize (entrySize * k : Nat) = 0 := by
      simp only [inFile, hlen, entrySize]
      omega
    left
    refine ⟨?_, ?_⟩
    · rw [← hok, hin]
      rfl
    · rw [hin, Int.toNat_zero, patch_zero]

/-- The directory with another entry in slot `k`. -/
def putEntry (v : Volume) (dir : Inode) (k : Nat) (e : DirEntry) : Volume :=
  { v with disk := patch v.disk (dir.addr (entrySize * k)) entrySize e.bytes }

theorem putEntry_sameOn {e : DirEntry} (hk : k < entryCnt dir) (hx : ¬ dir.Has x) :
    SameOn v.disk (v.putEntry dir k e).disk x := patch_sameOn hx (entry_lt hk)

theorem Inv.putEntry_header {e : DirEntry} (h : Inv v ex) (hdir : v.header rootDirSector = some dir)
    (hk : k < entryCnt dir) (hn : v.Live n) : (v.putEntry dir k e).header n = v.header n :=
  readInode_congr (putEntry_sameOn hk (h.not_has .root hdir hn))

theorem Inv.putEntry_slot {e : DirEntry} {j : Nat} (h : Inv v ex) (hdir : v.header rootDirSector = some dir)
    (hk : k < entryCnt dir) (he : e.inodeSector < 2 ^ 32) :
    (v.putEntry dir k e).slot j = if j = k then (if e.inUse then some e.inodeSector else none) else v.slot j := by
  have hdir' : (v.putEntry dir k e).header rootDirSector = some dir := (h.putEntry_header hdir hk .root).trans hdir
  rw [slot_eq hdir']
  split
  · rename_i hjk
    subst hjk
    exact slotOf_patch_self hk he
  · rename_i hjk
    rw [slot_eq hdir]
    exact slotOf_patch_ne hjk

/-- What does not depend on the directory stays. -/
theorem Inv.putEntry_freeMap {e : DirEntry} (h : Inv v ex) (hdir : v.header rootDirSector = some dir)
    (hk : k < entryCnt dir) : ∃ a fm, (v.putEntry dir k e).FreeMapFile ex a fm := by
  obtain ⟨a, fm, hf⟩ := h.freeMap
  have hhdr : v.header freeMapSector = some fm.data := hf.sector ▸ h.data a fm hf.inode
  refine ⟨a, fm, hf.file, hf.inode, hf.sector, hf.length, hf.held, hf.decodes.congr fun x hx => ?_⟩
  exact putEntry_sameOn hk (h.not_has_both .freeMap hhdr .root hdir (by decide) hx)

theorem Inv.putEntry_files {e : DirEntry} (h : Inv v ex) (f : Nat) (file : OpenFile) (hf : v.files f = some file) :
    f < v.nextFile ∧ ∃ ino, (v.putEntry dir k e).FileOk file ino := by
  obtain ⟨hlt, ino, hok⟩ := h.files f file hf
  exact ⟨hlt, ino, hok.congr rfl⟩

/-- **A new entry** for an inode just made. -/
theorem Inv.addEntry {e : DirEntry} (h : Inv v ex) (hdir : v.header rootDirSector = some dir) (hk : k < entryCnt dir)
    (hs : v.Used e.inodeSector) (hun : v.Unheld e.inodeSector) (hm : v.Made e.inodeSector i)
    (hu : e.inUse = true) : Inv (v.putEntry dir k e) ex := by
  have hdead : ¬ v.Live e.inodeSector := fun hl => hun _ hl .self
  have hlt : e.inodeSector < 2 ^ 32 := Nat.lt_trans hs.1 h.size_lt
  have hslot : ∀ j, (v.putEntry dir k e).slot j = if j = k then some e.inodeSector else v.slot j := by
    intro j
    rw [h.putEntry_slot hdir hk hlt, hu]
    simp
  have hlisted : ∀ n, (v.putEntry dir k e).Listed n → v.Listed n ∨ n = e.inodeSector := by
    rintro n ⟨j, hj⟩
    rw [hslot] at hj
    split at hj
    · exact .inr (Option.some.inj hj).symm
    · exact .inl ⟨j, hj⟩
  have hlive : ∀ n, (v.putEntry dir k e).Live n → v.Live n ∨ n = e.inodeSector := by
    rintro n (hn | hn | hn | hn)
    · exact .inl (.inl hn)
    · exact .inl (.inr (.inl hn))
    · exact (hlisted n hn).imp .listed id
    · exact .inl (.inr (.inr (.inr hn)))
  -- the sectors of the new inode are outside the directory, so it stays as it was made
  have hroot : ∀ n, v.Live n ∨ n = e.inodeSector → ¬ dir.Has n := by
    rintro n (hn | rfl) hx
    · exact h.not_has .root hdir hn hx
    · exact hun _ .root (.data hdir hx)
  have hhdr : ∀ n, v.Live n ∨ n = e.inodeSector → (v.putEntry dir k e).header n = v.header n := fun n hn =>
    readInode_congr (putEntry_sameOn hk (hroot n hn))
  have hadd : Exclusive (fun m => v.Live m ∨ m = e.inodeSector) v.Holds v.Used := by
    refine h.excl.add ?_ ?_
    · rintro x (rfl | ⟨j, hj, hx⟩)
      · exact hun
      · obtain rfl := Option.some.inj (hj.symm.trans hm.header)
        exact hm.unheld x hx
    · rintro x (rfl | ⟨j, hj, hx⟩)
      · exact hs
      · obtain rfl := Option.some.inj (hj.symm.trans hm.header)
        exact hm.used x hx
  have hholds : ∀ n x, v.Live n ∨ n = e.inodeSector → (v.putEntry dir k e).Holds n x → v.Holds n x := by
    intro n x hn
    simp only [Holds, hhdr n hn]
    exact id
  refine ⟨hadd.mono hlive (fun n x hn => hholds n x (hlive n hn)) (fun n x hn hx =>
      hadd.used (hlive n hn) (hholds n x (hlive n hn) hx)), fun n hn => ?_, fun b jno hb => ?_, h.inj,
    fun b jno hb hr => ?_, fun j l m hj hl => ?_, fun n hn => ?_, fun dir' hdir' => ?_, h.refs, h.ex_zero, h.inodes_lt,
    h.putEntry_files, h.putEntry_freeMap hdir hk, h.map_size, h.size_lt⟩
  · rw [hhdr n (hlive n hn)]
    obtain hn | rfl := hlive n hn
    · exact h.header n hn
    · exact ⟨i, hm.header, hm.not_has, hm.on⟩
  · rw [hhdr _ (.inl (.opened hb))]
    exact h.data b jno hb
  · obtain ⟨hlist, hne⟩ := h.removed b jno hb hr
    refine ⟨fun hl => ?_, hne⟩
    obtain hl | heq := hlisted _ hl
    · exact hlist hl
    · exact hdead (heq ▸ .opened hb)
  · rw [hslot] at hj hl
    split at hj <;> split at hl
    · rename_i h₁ h₂
      rw [h₁, h₂]
    · exact absurd (.listed ⟨l, Option.some.inj hj ▸ hl⟩) hdead
    · exact absurd (.listed ⟨j, Option.some.inj hl ▸ hj⟩) hdead
    · exact h.slots j l m hj hl
  · obtain hn | rfl := hlisted n hn
    · exact h.listed n hn
    · exact ⟨fun heq => hdead (heq ▸ .freeMap), fun heq => hdead (heq ▸ .root)⟩
  · exact h.root dir' (h.putEntry_header hdir hk .root ▸ hdir')

/-- **An entry is erased.** -/
theorem Inv.eraseEntry {e : DirEntry} (h : Inv v ex) (hdir : v.header rootDirSector = some dir) (hk : k < entryCnt dir)
    (hslot : v.slot k = some n) (hsec : e.inodeSector = n) (hu : e.inUse = false) :
    Inv (v.putEntry dir k e) ex ∧ ¬ (v.putEntry dir k e).Listed n := by
  obtain ⟨ino, hino, -, -⟩ := h.header n (.listed ⟨k, hslot⟩)
  have hlt : e.inodeSector < 2 ^ 32 := hsec ▸ Nat.lt_trans (h.excl.used (.listed ⟨k, hslot⟩) .self).1 h.size_lt
  have hslots : ∀ j, (v.putEntry dir k e).slot j = if j = k then none else v.slot j := by
    intro j
    rw [h.putEntry_slot hdir hk hlt, hu]
    simp
  have hlisted : ∀ m, (v.putEntry dir k e).Listed m → v.Listed m ∧ m ≠ n := by
    rintro m ⟨j, hj⟩
    rw [hslots] at hj
    split at hj
    · cases hj
    · rename_i hjk
      exact ⟨⟨j, hj⟩, fun heq => hjk (h.slots j k n (heq ▸ hj) hslot)⟩
  have hlive : ∀ m, (v.putEntry dir k e).Live m → v.Live m := by
    rintro m (hm | hm | hm | hm)
    · exact .inl hm
    · exact .inr (.inl hm)
    · exact .listed (hlisted m hm).1
    · exact .inr (.inr (.inr hm))
  have hholds : ∀ m x, (v.putEntry dir k e).Live m → (v.putEntry dir k e).Holds m x → v.Holds m x := by
    intro m x hm
    simp only [Holds, h.putEntry_header hdir hk (hlive m hm)]
    exact id
  refine ⟨⟨h.excl.mono hlive hholds (fun m x hm hx => h.excl.used (hlive m hm) (hholds m x hm hx)), fun m hm => ?_,
    fun b jno hb => ?_, h.inj, fun b jno hb hr => ?_, fun j l m hj hl => ?_, fun m hm => h.listed m (hlisted m hm).1,
    fun dir' hdir' => ?_, h.refs, h.ex_zero, h.inodes_lt, h.putEntry_files, h.putEntry_freeMap hdir hk, h.map_size,
      h.size_lt⟩,
    fun hl => (hlisted n hl).2 rfl⟩
  · rw [h.putEntry_header hdir hk (hlive m hm)]
    exact h.header m (hlive m hm)
  · rw [h.putEntry_header hdir hk (.opened hb)]
    exact h.data b jno hb
  · obtain ⟨hlist, hne⟩ := h.removed b jno hb hr
    exact ⟨fun hl => hlist (hlisted _ hl).1, hne⟩
  · rw [hslots] at hj hl
    split at hj <;> split at hl
    · cases hj
    · cases hj
    · cases hl
    · exact h.slots j l m hj hl
  · exact h.root dir' (h.putEntry_header hdir hk .root ▸ hdir')

/-- `dir_add` of an inode just made: on failure nothing has changed. -/
theorem Inv.dirAdd {name : List Byte} {ok : Bool} (h : Inv v ex) (hdir : v.header rootDirSector = some dir)
    (hs : v.Used n) (hun : v.Unheld n) (hm : v.Made n i) (hr : v.dirAdd dir name n = some (ok, v')) :
    Inv v' ex ∧ v'.freeMapFile = v.freeMapFile ∧ (ok = false → v' = v) := by
  simp only [Volume.dirAdd] at hr
  split at hr
  · simp only [Option.some.injEq, Prod.mk.injEq] at hr
    obtain ⟨-, rfl⟩ := hr
    exact ⟨h, rfl, fun _ => rfl⟩
  split at hr
  · simp only [Option.some.injEq, Prod.mk.injEq] at hr
    obtain ⟨-, rfl⟩ := hr
    exact ⟨h, rfl, fun _ => rfl⟩
  have hk : ((List.range (entryCnt dir)).find? fun k => !(entryAt v.disk dir k).inUse).getD (entryCnt dir) ≤
      entryCnt dir := by
    cases hf : (List.range (entryCnt dir)).find? fun k => !(entryAt v.disk dir k).inUse with
    | none => exact Nat.le_refl _
    | some k => exact Nat.le_of_lt (List.mem_range.mp (List.mem_of_find?_eq_some hf))
  obtain ⟨rfl, rfl⟩ | ⟨rfl, hlt, rfl⟩ := h.writeEntry hdir hk hr
  · exact ⟨h, rfl, fun _ => rfl⟩
  · exact ⟨h.addEntry (e := ⟨n, _, true⟩) hdir hlt hs hun hm rfl, rfl, by simp⟩

/-- The conditions of `filesys_create`, in whatever order they fail. -/
theorem Inv.createIn {name : List Byte} {initialSize : Int} {ok : Bool} (h : Inv v ex)
    (hdir : v.header rootDirSector = some dir) (hsize : initialSize < 2 ^ 31)
    (hr : Volume.createIn name initialSize v dir = some (ok, v')) : Inv v' ex ∧ v'.freeMapFile = v.freeMapFile := by
  simp only [Volume.createIn] at hr
  split at hr
  · simp only [Option.some.injEq, Prod.mk.injEq] at hr
    obtain ⟨-, rfl⟩ := hr
    exact ⟨h, rfl⟩
  simp only [Option.bind_eq_bind, Option.bind_eq_some_iff] at hr
  obtain ⟨⟨r, v₁⟩, halloc, hr⟩ := hr
  obtain ⟨hinv₁, hkeep₁, -, hfound⟩ := h.allocate halloc
  cases r with
  | none =>
    simp only [Option.some.injEq, Prod.mk.injEq] at hr
    obtain ⟨-, rfl⟩ := hr
    exact ⟨hinv₁, hkeep₁.freeMapFile⟩
  | some s =>
    obtain ⟨hle, hbits⟩ := hfound s rfl
    obtain ⟨hclear, hmark⟩ := hbits s (by omega) (by omega)
    have hun₁ : v₁.Unheld s := hkeep₁.unheld (h.excl.unowned fun hu => by
      rw [hu.2] at hclear
      cases hclear)
    have hs₁ : v₁.Used s := ⟨by rw [hkeep₁.size]; omega, hmark⟩
    simp only [Option.bind_eq_some_iff] at hr
    obtain ⟨⟨okc, v₂⟩, hc, hr⟩ := hr
    obtain ⟨hinv₂, hkeep₂, hs₂, hmade⟩ := hinv₁.inodeCreate hs₁ hun₁ hsize hc
    have hun₂ := hkeep₂.unheld hun₁
    have hdir₂ : v₂.header rootDirSector = some dir := by
      rw [hkeep₂.header _ .root, hkeep₁.header _ .root]
      exact hdir
    have hfile₂ : v₂.freeMapFile = v.freeMapFile := hkeep₂.freeMapFile.trans hkeep₁.freeMapFile
    -- after a failure the sector is still nobody's, and goes back
    have hfail : ∀ v₃, v₂.freeMapRelease s 1 = some v₃ → Inv v₃ ex ∧ v₃.freeMapFile = v.freeMapFile := by
      intro v₃ hrel
      obtain ⟨hinv₃, hkeep₃⟩ := hinv₂.release (fun x h₁ h₂ => by
        obtain rfl : x = s := by omega
        exact hun₂) hrel
      exact ⟨hinv₃, hkeep₃.freeMapFile.trans hfile₂⟩
    have hend : ∀ okd v₃, Inv v₃ ex → v₃.freeMapFile = v₂.freeMapFile → (okd = false → v₃ = v₂) →
        (if (!okd && s != 0) = true then (v₃.freeMapRelease s 1).bind fun w => some (okd, w) else some (okd, v₃)) =
          some (ok, v') → Inv v' ex ∧ v'.freeMapFile = v.freeMapFile := by
      intro okd v₃ hinv₃ hfile₃ hsame hres
      split at hres
      · rename_i hno
        rw [hsame (by simpa using (Bool.and_eq_true_iff.mp hno).1)] at hres
        simp only [Option.bind_eq_some_iff, Option.some.injEq, Prod.mk.injEq] at hres
        obtain ⟨w, hrel, -, rfl⟩ := hres
        exact hfail w hrel
      · simp only [Option.some.injEq, Prod.mk.injEq] at hres
        obtain ⟨-, rfl⟩ := hres
        exact ⟨hinv₃, hfile₃.trans hfile₂⟩
    cases okc with
    | false => exact hend false v₂ hinv₂ rfl (fun _ => rfl) hr
    | true =>
      simp only [if_true, Option.bind_eq_some_iff] at hr
      obtain ⟨⟨okd, v₃⟩, hd, hr⟩ := hr
      obtain ⟨j, hm⟩ := hmade rfl
      obtain ⟨hinv₃, hfile₃, hsame⟩ := hinv₂.dirAdd hdir₂ hs₂ hun₂ hm hd
      exact hend okd v₃ hinv₃ hfile₃ hsame hr

theorem unbump_bump (ex : Nat → Nat) (a : Nat) : unbump (bump ex a) a = ex := by
  funext b
  simp only [unbump, bump, Function.update_apply]
  split <;> simp_all

theorem lookup_slot {name : List Byte} (hdir : v.header rootDirSector = some dir)
    (h : lookup v.disk dir name = some k) :
    k < entryCnt dir ∧ v.slot k = some (entryAt v.disk dir k).inodeSector := by
  unfold lookup at h
  have hk := List.mem_range.mp (List.mem_of_find?_eq_some h)
  have hfound := List.find?_some h
  have hu := (Bool.and_eq_true_iff.mp hfound).1
  exact ⟨hk, by rw [slot_eq hdir, slotOf, if_pos ⟨hk, hu⟩]⟩

/-- `dir_remove`: the entry goes, and the inode with it once nobody has it
open. -/
theorem Inv.dirRemove {name : List Byte} {ok : Bool} (h : Inv v ex) (hdir : v.header rootDirSector = some dir)
    (hr : v.dirRemove dir name = some (ok, v')) : Inv v' ex ∧ v'.freeMapFile = v.freeMapFile := by
  simp only [Volume.dirRemove] at hr
  split at hr
  · simp only [Option.some.injEq, Prod.mk.injEq] at hr
    obtain ⟨-, rfl⟩ := hr
    exact ⟨h, rfl⟩
  rename_i k hlook
  obtain ⟨hk, hslot⟩ := lookup_slot hdir hlook
  obtain ⟨hne₀, hne₁⟩ := h.listed _ ⟨k, hslot⟩
  simp only [Option.bind_eq_bind, Option.bind_eq_some_iff] at hr
  obtain ⟨⟨a, v₁⟩, hopen, ⟨okw, v₂⟩, hw, hr⟩ := hr
  obtain ⟨hinv₁, hdisk₁, -, -, hfile₁, ino, hino, hsec⟩ := h.inodeOpen (.listed ⟨k, hslot⟩) hopen
  have hdir₁ : v₁.header rootDirSector = some dir := by
    rw [Volume.header, hdisk₁]
    exact hdir
  have hslot₁ : v₁.slot k = some (entryAt v.disk dir k).inodeSector := by
    rw [slot_eq hdir₁, hdisk₁, ← slot_eq hdir]
    exact hslot
  have hpos : 0 < bump ex a a := by simp [bump]
  have hfm : v₁.freeMapFile ≠ some a := hinv₁.freeMapFile_ne hino (hsec ▸ hne₀)
  obtain ⟨rfl, rfl⟩ | ⟨rfl, -, rfl⟩ := hinv₁.writeEntry hdir₁ (Nat.le_of_lt hk) hw
  · simp only [Bool.false_eq_true, if_false, Option.bind_eq_some_iff, Option.some.injEq, Prod.mk.injEq] at hr
    obtain ⟨v₃, hc, -, rfl⟩ := hr
    obtain ⟨hinv₃, -, -, hfile₃, -⟩ := hinv₁.inodeClose hpos hfm hc
    exact ⟨unbump_bump ex a ▸ hinv₃, hfile₃.trans hfile₁⟩
  · simp only [if_true, Option.bind_eq_some_iff, Option.some.injEq, Prod.mk.injEq] at hr
    obtain ⟨v₃, hrem, v₄, hc, -, rfl⟩ := hr
    obtain ⟨hinv₂, hunlist⟩ := hinv₁.eraseEntry (e := { entryAt v.disk dir k with inUse := false }) hdir₁ hk hslot₁ rfl rfl
    simp only [inodeRemove, Option.bind_eq_bind, Option.bind_eq_some_iff, Option.some.injEq] at hrem
    obtain ⟨ino', hino', rfl⟩ := hrem
    obtain rfl := Option.some.inj (hino.symm.trans hino')
    have hinv₃ : Inv ((v₁.putEntry dir k { entryAt v.disk dir k with inUse := false }).setInode a
        (some { ino with removed := true })) (bump ex a) := by
      refine hinv₂.setInode hino rfl rfl (fun _ => ?_) (hinv₂.refs a ino hino) (fun _ _ => rfl) fun _ => hpos
      rw [hsec]
      exact ⟨hunlist, hne₀, hne₁⟩
    obtain ⟨hinv₄, -, -, hfile₄, -⟩ := hinv₃.inodeClose hpos hfm hc
    exact ⟨unbump_bump ex a ▸ hinv₄, hfile₄.trans hfile₁⟩

end PintosKaist.Filesys.Volume
