/-
The slots of a directory hold a finite map (`Slots.Holds`): what `lookup`,
`dir_add` and `dir_remove` find in the entries, and what writing one entry does
to the slots.
-/
import PintosKaist.Filesys.Directory

namespace PintosKaist.Filesys.Volume

variable {v v' : Volume} {d d' : Disk} {dir : Inode} {k j n : Nat} {b : Nat → Byte} {e : DirEntry} {name : Name}
  {m : Finmap fun _ : Name => Nat}

/-! ## One entry is written -/

/-- A write from entry `k` on that ends before the next leaves the others. -/
theorem entryAt_patch_ne (hj : j < entryCnt dir) (hne : j ≠ k) (hn : n ≤ entrySize) :
    entryAt (patch d (dir.addr (entrySize * k)) n b) dir j = entryAt d dir j := by
  have hle := entry_lt hj
  have hl := dir.length_lt
  have hbytes : inodeReadAt (patch d (dir.addr (entrySize * k)) n b) dir entrySize (entrySize * j : Nat) =
      inodeReadAt d dir entrySize (entrySize * j : Nat) := by
    rw [inodeReadAt_eq (by omega) (by simp only [entrySize] at hle ⊢; omega),
      inodeReadAt_eq (by omega) (by simp only [entrySize] at hle ⊢; omega)]
    refine List.map_congr_left fun x hx => ?_
    have hx := List.mem_range.mp hx
    rw [patch, if_neg]
    simp only [inFile, Inode.addr, entrySize, Int.toNat_natCast] at hx hn ⊢
    omega
  simp only [entryAt, hbytes]

/-- The bytes of an entry that was written. -/
theorem patch_byte (hx : n < entrySize) :
    patch d (dir.addr (entrySize * k)) entrySize e.bytes (dir.addr (entrySize * k) + n) = e.bytes n := by
  rw [patch, if_pos (by omega), Nat.add_sub_cancel_left]

theorem entryAt_patch_inUse (hk : k < entryCnt dir) :
    (entryAt (patch d (dir.addr (entrySize * k)) entrySize e.bytes) dir k).inUse = e.inUse := by
  rw [entryAt_inUse hk, patch_byte (by decide)]
  cases hu : e.inUse <;> simp [DirEntry.bytes, hu]

theorem entryAt_patch_inodeSector (hk : k < entryCnt dir) (he : e.inodeSector < 2 ^ 32) :
    (entryAt (patch d (dir.addr (entrySize * k)) entrySize e.bytes) dir k).inodeSector = e.inodeSector := by
  rw [entryAt_inodeSector hk]
  refine le32_eq he fun x hx => ?_
  rw [patch_byte (by simp only [entrySize]; omega), DirEntry.bytes, if_pos hx]

theorem entryAt_patch_str (hk : k < entryCnt dir) :
    (entryAt (patch d (dir.addr (entrySize * k)) entrySize e.bytes) dir k).str = e.str := by
  have hname : ∀ x < nameMax + 1,
      (entryAt (patch d (dir.addr (entrySize * k)) entrySize e.bytes) dir k).name x = e.name x := by
    intro x hx
    simp only [nameMax] at hx
    simp only [entryAt, entryOf, Nat.zero_add]
    rw [entryAt_byte hk (by simp only [entrySize]; omega), patch_byte (by simp only [entrySize]; omega),
      DirEntry.bytes, if_neg (by omega), if_pos (by omega), Nat.add_sub_cancel_left]
  simp only [DirEntry.str]
  rw [List.map_congr_left fun x hx => hname x (List.mem_range.mp hx)]

/-- The name that `strlcpy` copied, with its NUL, reads back. -/
theorem str_setName (e : DirEntry) (sector : Nat) (inUse : Bool) (hlen : name.val.length ≤ nameMax) :
    (DirEntry.mk sector (e.setName name) inUse).str = name := by
  obtain ⟨name, hnul⟩ := name
  simp only at hlen
  have hsplit : nameMax + 1 = name.length + ((nameMax - name.length) + 1) := by omega
  have hcopy : (List.range name.length).map (e.setName name) = name := by
    refine List.ext_getElem (by simp) fun x h₁ h₂ => ?_
    simp [DirEntry.setName, h₂, List.getD_eq_getElem?_getD]
  have hend : e.setName name name.length = 0 := by
    rw [DirEntry.setName, if_neg (by omega), if_pos rfl]
  have hall : ∀ x ∈ name, (x != 0) = true := by
    intro x hx
    rw [bne_iff_ne]
    rintro rfl
    exact hnul hx
  simp only [DirEntry.str]
  rw [hsplit, List.range_add, List.map_append, hcopy, List.takeWhile_append_of_pos hall, List.range_succ_eq_map]
  simp only [List.map_cons, Nat.add_zero, hend]
  simp

/-! ## The slots -/

theorem slotAt_eq_some {x : Name} {sector : Nat} : slotAt d dir k = some (x, sector) ↔
    (entryAt d dir k).inUse = true ∧ (entryAt d dir k).str = x ∧ (entryAt d dir k).inodeSector = sector := by
  unfold slotAt
  split
  · rename_i hu
    simp only [Option.some.injEq, Prod.mk.injEq, hu, true_and, Subtype.ext_iff]
  · rename_i hu
    simp only [hu, false_and, reduceCtorEq, Bool.false_eq_true]

theorem slotAt_eq_none : slotAt d dir k = none ↔ (entryAt d dir k).inUse = false := by
  unfold slotAt
  split
  · rename_i hu
    simp [hu]
  · rename_i hu
    simpa using hu

/-- `lookup` finds the slot of the name. -/
theorem lookup_eq : lookup d dir name = Slots.find (entryCnt dir) (slotAt d dir) name := by
  unfold lookup Slots.find
  congr 1
  funext k
  unfold slotAt
  split
  · rename_i hu
    simp [hu, Subtype.ext_iff, Bool.beq_eq_decide_eq]
  · rename_i hu
    simp [hu]

theorem slotAt_patch_ne (hj : j < entryCnt dir) (hne : j ≠ k) (hn : n ≤ entrySize) :
    slotAt (patch d (dir.addr (entrySize * k)) n b) dir j = slotAt d dir j := by
  simp only [slotAt, entryAt_patch_ne hj hne hn]

theorem slotAt_congr (h : ∀ x, dir.Has x → SameOn d d' x) (hk : k < entryCnt dir) : slotAt d' dir k = slotAt d dir k := by
  simp only [slotAt, entryAt_congr h hk]

/-- The slot after `dir_add` wrote it. -/
theorem slotAt_patch_add {inodeSector : Nat} (hk : k < entryCnt dir) (hs : inodeSector < 2 ^ 32)
    (hlen : name.val.length ≤ nameMax) :
    slotAt (patch d (dir.addr (entrySize * k)) entrySize (DirEntry.bytes ⟨inodeSector, e.setName name, true⟩)) dir k =
      some (name, inodeSector) :=
  slotAt_eq_some.mpr ⟨entryAt_patch_inUse hk, (entryAt_patch_str hk).trans (str_setName e _ _ hlen),
    entryAt_patch_inodeSector hk hs⟩

/-- The slot after `dir_remove` freed it. -/
theorem slotAt_patch_remove (hk : k < entryCnt dir) :
    slotAt (patch d (dir.addr (entrySize * k)) entrySize (DirEntry.bytes { e with inUse := false })) dir k = none :=
  slotAt_eq_none.mpr (entryAt_patch_inUse hk)

/-! ## `dir_readdir` lists the slots -/

/-- A read of an entry is short at the end of the file only. -/
theorem read_length (h : entrySize * k ≤ dir.length.toNat) :
    (inodeReadAt d dir entrySize (entrySize * k : Nat)).length = entrySize ↔ k < entryCnt dir := by
  have hl₀ := dir.length_nonneg
  have hl₁ := dir.length_lt
  rw [inodeReadAt_eq (by omega) (by omega), List.length_map, List.length_range]
  simp only [inFile, entryCnt, entrySize] at h ⊢
  omega

/-- The first entry in use from `k` on, and where the next is. -/
theorem readdirLoop_eq {fuel : Nat} (h : entrySize * k ≤ dir.length.toNat) (hf : entryCnt dir - k < fuel) :
    readdirLoop d dir fuel (entrySize * k) =
      ((List.range' k (entryCnt dir - k)).find? fun j => (entryAt d dir j).inUse).map fun j =>
        ((entryAt d dir j).str.take nameMax, entrySize * (j + 1)) := by
  induction fuel generalizing k with
  | zero => omega
  | succ fuel ih =>
    simp only [readdirLoop]
    by_cases hk : k < entryCnt dir
    · have hnext : entrySize * (k + 1) ≤ dir.length.toNat := by
        have := entry_lt hk
        simp only [entrySize] at this ⊢
        omega
      rw [if_pos ((read_length h).mpr hk), show entryCnt dir - k = entryCnt dir - (k + 1) + 1 by omega, List.range'_succ,
        List.find?_cons]
      have hentry : entryOf (fun x => (inodeReadAt d dir entrySize (entrySize * k : Nat)).getD x 0) 0 = entryAt d dir k :=
        rfl
      rw [hentry]
      by_cases hu : (entryAt d dir k).inUse = true
      · rw [if_pos hu, hu]
        rfl
      · rw [if_neg hu, Bool.eq_false_iff.mpr hu]
        exact ih hnext (by omega)
    · rw [if_neg fun hr => hk ((read_length h).mp hr), show entryCnt dir - k = 0 by omega]
      rfl

theorem dirReaddir_eq (h : entrySize * k ≤ dir.length.toNat) :
    dirReaddir d dir (entrySize * k) =
      ((List.range' k (entryCnt dir - k)).find? fun j => (entryAt d dir j).inUse).map fun j =>
        ((entryAt d dir j).str.take nameMax, entrySize * (j + 1)) := by
  refine readdirLoop_eq h ?_
  simp only [entryCnt, entrySize]
  omega

/-- **A scan from entry `k` on** gives the names in the slots from there on. -/
theorem readdirAll_eq (d : Disk) (dir : Inode) (k fuel : Nat) (h : entrySize * k ≤ dir.length.toNat)
    (hf : entryCnt dir - k < fuel)
    (hlen : ∀ j < entryCnt dir, (entryAt d dir j).inUse = true → (entryAt d dir j).str.length ≤ nameMax) :
    readdirAll d dir fuel (entrySize * k) =
      some ((List.range' k (entryCnt dir - k)).filterMap fun j => (slotAt d dir j).map fun e => e.1.val) := by
  generalize hn : entryCnt dir - k = n
  induction n generalizing k fuel with
  | zero =>
    cases fuel with
    | zero => omega
    | succ fuel =>
      simp only [readdirAll, dirReaddir_eq h, hn]
      rfl
  | succ n ih =>
    cases fuel with
    | zero => omega
    | succ fuel =>
      have hk : k < entryCnt dir := by omega
      have hnext : entrySize * (k + 1) ≤ dir.length.toNat := by
        have := entry_lt hk
        simp only [entrySize] at this ⊢
        omega
      rw [List.range'_succ]
      by_cases hu : (entryAt d dir k).inUse = true
      · have hslot : (slotAt d dir k).map (fun e => e.1.val) = some (entryAt d dir k).str := by
          simp only [slotAt, if_pos hu, Option.map_some]
        simp only [List.filterMap_cons, hslot]
        simp only [readdirAll, dirReaddir_eq h, hn, List.range'_succ, List.find?_cons, hu, Option.map_some]
        rw [ih _ _ hnext (by omega) (by omega), List.take_of_length_le (hlen k hk hu)]
        rfl
      · have hslot : (slotAt d dir k).map (fun e => e.1.val) = none := by
          simp only [slotAt, if_neg hu, Option.map_none]
        have hskip : dirReaddir d dir (entrySize * k) = dirReaddir d dir (entrySize * (k + 1)) := by
          rw [dirReaddir_eq h, dirReaddir_eq hnext, hn, List.range'_succ, List.find?_cons, Bool.eq_false_iff.mpr hu,
            show entryCnt dir - (k + 1) = n by omega]
        simp only [List.filterMap_cons, hslot]
        rw [← ih _ _ hnext (by omega : entryCnt dir - (k + 1) < fuel + 1) (by omega)]
        simp only [readdirAll, hskip]

end PintosKaist.Filesys.Volume
