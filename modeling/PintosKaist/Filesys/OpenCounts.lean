/-
What every call on the table of open inodes keeps: a sector has one struct
inode at most, its counts are those of its openers, and a removed one gave its
sectors back exactly if its openers are gone.

`Inv` takes the references that are not files as a function, so that it holds
halfway through a call as well: a call that has an inode open counts one more.
-/
import PintosKaist.Filesys.OpenTable
import PintosKaist.Lib.Count

namespace PintosKaist.OpenTable

open Count Filesys

variable {s s' : Fs} {m₀ : Nat → Bool} {r r' : Nat → Nat} {F : Nat → Option StructFile} {n a b f x : Nat}
  {inode inode' : StructInode} {file : StructFile} {p : Option Nat}

/-! ## Openers -/

/-- The number of files for which `g` is the inode at `a`. -/
def held (g : StructFile → Option Nat) (F : Nat → Option StructFile) (n a : Nat) : Nat :=
  count (Finset.range n) (fun f => (F f).bind g) (some a)

/-- The open files on an inode. -/
def fileRefs (F : Nat → Option StructFile) (n a : Nat) : Nat := held (fun file => some file.inode) F n a

def StructFile.denied (file : StructFile) : Option Nat := if file.denyWrite then some file.inode else none

/-- Those of them that deny writes. -/
def deniers (F : Nat → Option StructFile) (n a : Nat) : Nat := held StructFile.denied F n a

/-- One more reference, to what `p` points to. -/
def plus (r : Nat → Nat) (p : Option Nat) : Nat → Nat := fun b => r b + if p = some b then 1 else 0

theorem plus_none : plus r none = r := by
  funext b
  simp [plus]

/-- What is in a table after a write to `a`. -/
theorem update_some {α : Type*} {f : Nat → Option α} {x y : α} (h : Function.update f a (some x) b = some y) :
    (b = a ∧ y = x) ∨ (b ≠ a ∧ f b = some y) := by
  rw [Function.update_apply] at h
  split at h
  · rename_i hba
    exact .inl ⟨hba, (Option.some.inj h).symm⟩
  · rename_i hba
    exact .inr ⟨hba, h⟩

/-- A write below the bound keeps what is in the table below it. -/
theorem lt_of_update {α : Type*} {f : Nat → Option α} {v : Option α} (hf : ∀ b x, f b = some x → b < n) (ha : a < n) :
    ∀ b x, Function.update f a v b = some x → b < n := by
  intro b x h
  rw [Function.update_apply] at h
  split at h
  · rename_i hba
    exact hba ▸ ha
  · exact hf b x h

theorem bind_update (g : StructFile → Option Nat) (o : Option StructFile) :
    (fun h => (Function.update F f o h).bind g) = Function.update (fun h => (F h).bind g) f (o.bind g) := by
  funext h
  by_cases hh : h = f
  · subst hh
    simp
  · simp [Function.update_of_ne hh]

theorem held_update {g : StructFile → Option Nat} {o : Option StructFile} (hf : f < n) :
    held g (Function.update F f o) n b + (if (F f).bind g = some b then 1 else 0) =
      held g F n b + if o.bind g = some b then 1 else 0 := by
  simp only [held, bind_update]
  exact count_update (Finset.mem_range.mpr hf)

theorem held_add {g : StructFile → Option Nat} {o : Option StructFile} :
    held g (Function.update F n o) (n + 1) b = held g F n b + if o.bind g = some b then 1 else 0 := by
  simp only [held, bind_update]
  rw [Finset.range_add_one, count_insert Finset.notMem_range_self, Function.update_self]
  congr 1
  exact count_congr fun i hi => Function.update_of_ne (Nat.ne_of_lt (Finset.mem_range.mp hi)) ..

theorem deniers_le : deniers F n a ≤ fileRefs F n a := by
  unfold deniers fileRefs held
  refine count_le fun i hi h => ⟨hi, ?_⟩
  obtain ⟨file, hfile, hd⟩ := Option.bind_eq_some_iff.mp h
  simp only [StructFile.denied, Option.ite_none_right_eq_some] at hd
  rw [hfile]
  exact hd.2

theorem fileRefs_pos (hf : F f = some file) (hlt : f < n) : 0 < fileRefs F n file.inode :=
  count_pos (Finset.mem_range.mpr hlt) (by rw [hf]; rfl)

/-- A file that does not deny writes is an opener that is no denier. -/
theorem deniers_lt (hf : F f = some file) (hlt : f < n) (hd : file.denyWrite = false) :
    deniers F n file.inode < fileRefs F n file.inode := by
  unfold deniers fileRefs held
  refine count_lt (i := f) (fun i hi h => ⟨hi, ?_⟩) (Finset.mem_range.mpr hlt) (by rw [hf]; rfl) fun _ => ?_
  · obtain ⟨file, hfile, hd⟩ := Option.bind_eq_some_iff.mp h
    simp only [StructFile.denied, Option.ite_none_right_eq_some] at hd
    rw [hfile]
    exact hd.2
  · rw [hf]
    simp [StructFile.denied, hd]

theorem deniers_pos (hf : F f = some file) (hlt : f < n) (hd : file.denyWrite = true) : 0 < deniers F n file.inode :=
  count_pos (Finset.mem_range.mpr hlt) (by rw [hf]; simp [StructFile.denied, hd])

/-! ## The invariant -/

/-- `m₀` is the free map at the start, and `r` counts the openers that are not
files. -/
structure Inv (m₀ : Nat → Bool) (s : Fs) (r : Nat → Nat) : Prop where
  nodup : s.openInodes.Nodup
  listed : ∀ a, a ∈ s.openInodes ↔ ∃ inode, s.inodes a = some inode
  unique : ∀ a b inode inode', s.inodes a = some inode → s.inodes b = some inode' → inode.sector = inode'.sector → a = b
  inodes_lt : ∀ a inode, s.inodes a = some inode → a < s.nextInode
  files_lt : ∀ f file, s.files f = some file → f < s.nextFile
  openCnt : ∀ a inode, s.inodes a = some inode → inode.openCnt = (fileRefs s.files s.nextFile a + r a : Nat)
  pos : ∀ a inode, s.inodes a = some inode → 0 < fileRefs s.files s.nextFile a + r a
  closed : ∀ a, s.inodes a = none → fileRefs s.files s.nextFile a + r a = 0
  denyWriteCnt : ∀ a inode, s.inodes a = some inode → inode.denyWriteCnt = deniers s.files s.nextFile a
  removed : ∀ a inode, s.inodes a = some inode → (inode.removed = true ↔ a ∈ s.removals)
  removals_lt : ∀ a ∈ s.removals, a < s.nextInode
  released : ∀ a, (s.releases.map Release.inode).count a = if a ∈ s.removals ∧ s.inodes a = none then 1 else 0
  bits : ∀ x, s.freeMap.bit x = (m₀ x && !s.releases.any fun rel => rel.covers x)
  once : ∀ x, (s.releases.countP fun rel => rel.covers x) ≤ 1

/-- Neither the disk nor the memory that is left matters. -/
theorem Inv.setDisk {d : Disk} (h : Inv m₀ s r) : Inv m₀ { s with disk := d, mallocs := n } r :=
  ⟨h.nodup, h.listed, h.unique, h.inodes_lt, h.files_lt, h.openCnt, h.pos, h.closed, h.denyWriteCnt, h.removed,
    h.removals_lt, h.released, h.bits, h.once⟩

theorem Inv.tick (h : Inv m₀ s r) : Inv m₀ s.tick r := h.setDisk

/-- An open file is on an open inode. -/
theorem Inv.inode_of_file (h : Inv m₀ s r) (hf : s.files f = some file) : ∃ inode, s.inodes file.inode = some inode := by
  cases hi : s.inodes file.inode with
  | some inode => exact ⟨inode, rfl⟩
  | none =>
    have hpos := fileRefs_pos hf (h.files_lt f file hf)
    have := h.closed _ hi
    omega

/-- One inode and the files change, and the counts and the removed flag of the
inode with them. -/
theorem Inv.change {M : List Nat} (h : Inv m₀ s r) (ha : s.inodes a = some inode) (hsec : inode'.sector = inode.sector)
    (hrem : inode'.removed = true ↔ a ∈ M) (hM : ∀ b, b ≠ a → (b ∈ M ↔ b ∈ s.removals))
    (hF : ∀ f file, F f = some file → f < n)
    (hopen : inode'.openCnt = (fileRefs F n a + r' a : Nat)) (hpos : 0 < fileRefs F n a + r' a)
    (hdeny : inode'.denyWriteCnt = deniers F n a)
    (hrest : ∀ b, b ≠ a → fileRefs F n b + r' b = fileRefs s.files s.nextFile b + r b ∧
      deniers F n b = deniers s.files s.nextFile b) :
    Inv m₀ { s with
      inodes := Function.update s.inodes a (some inode')
      files := F
      nextFile := n
      removals := M } r' := by
  have hold : ∀ b i, Function.update s.inodes a (some inode') b = some i →
      (b = a ∧ i = inode') ∨ (b ≠ a ∧ s.inodes b = some i) := fun _ _ => update_some
  have hnone : ∀ b, Function.update s.inodes a (some inode') b = none ↔ s.inodes b = none := by
    intro b
    rw [Function.update_apply]
    split
    · rename_i hba
      simp [hba, ha]
    · rfl
  -- the sector of a struct inode does not change
  have hsector : ∀ b i, Function.update s.inodes a (some inode') b = some i →
      ∃ i', s.inodes b = some i' ∧ i.sector = i'.sector := by
    intro b i hb
    obtain ⟨rfl, rfl⟩ | ⟨-, hb⟩ := hold b i hb
    · exact ⟨inode, ha, hsec⟩
    · exact ⟨i, hb, rfl⟩
  refine ⟨h.nodup, fun b => ?_, fun b c i j hb hc heq => ?_, fun b i hb => ?_, hF, fun b i hb => ?_, fun b i hb => ?_,
    fun b hb => ?_, fun b i hb => ?_, fun b i hb => ?_, fun b hb => ?_, fun b => ?_, h.bits, h.once⟩
  · rw [h.listed, ← Option.ne_none_iff_exists', ← Option.ne_none_iff_exists']
    exact not_congr (hnone b).symm
  · obtain ⟨i', hi', hs⟩ := hsector b i hb
    obtain ⟨j', hj', hs'⟩ := hsector c j hc
    exact h.unique b c i' j' hi' hj' (by rw [← hs, ← hs', heq])
  · obtain ⟨i', hi', -⟩ := hsector b i hb
    exact h.inodes_lt b i' hi'
  · obtain ⟨rfl, rfl⟩ | ⟨hba, hb⟩ := hold b i hb
    · exact hopen
    · rw [(hrest b hba).1]
      exact h.openCnt b i hb
  · obtain ⟨rfl, rfl⟩ | ⟨hba, hb⟩ := hold b i hb
    · exact hpos
    · rw [(hrest b hba).1]
      exact h.pos b i hb
  · have hgone : s.inodes b = none := (hnone b).mp hb
    have hba : b ≠ a := by
      rintro rfl
      cases hgone.symm.trans ha
    rw [(hrest b hba).1]
    exact h.closed b hgone
  · obtain ⟨rfl, rfl⟩ | ⟨hba, hb⟩ := hold b i hb
    · exact hdeny
    · rw [(hrest b hba).2]
      exact h.denyWriteCnt b i hb
  · obtain ⟨rfl, rfl⟩ | ⟨hba, hb⟩ := hold b i hb
    · exact hrem
    · rw [hM b hba]
      exact h.removed b i hb
  · by_cases hba : b = a
    · exact hba ▸ h.inodes_lt a inode ha
    · exact h.removals_lt b ((hM b hba).mp hb)
  · show _ = if b ∈ M ∧ Function.update s.inodes a (some inode') b = none then 1 else 0
    rw [h.released]
    refine if_congr ?_ rfl rfl
    rw [hnone b]
    by_cases hba : b = a
    · simp [hba, ha]
    · rw [hM b hba]

/-- The removed flag stays. -/
theorem Inv.touch (h : Inv m₀ s r) (ha : s.inodes a = some inode) (hsec : inode'.sector = inode.sector)
    (hrem : inode'.removed = inode.removed) (hF : ∀ f file, F f = some file → f < n)
    (hopen : inode'.openCnt = (fileRefs F n a + r' a : Nat)) (hpos : 0 < fileRefs F n a + r' a)
    (hdeny : inode'.denyWriteCnt = deniers F n a)
    (hrest : ∀ b, b ≠ a → fileRefs F n b + r' b = fileRefs s.files s.nextFile b + r b ∧
      deniers F n b = deniers s.files s.nextFile b) :
    Inv m₀ { s with inodes := Function.update s.inodes a (some inode'), files := F, nextFile := n } r' :=
  h.change ha hsec (hrem ▸ h.removed a inode ha) (fun _ _ => Iff.rfl) hF hopen hpos hdeny hrest

/-- An inode without openers leaves the table, its sectors with it if it was
removed. -/
theorem Inv.gone {R : List Release} {B : Bitmap} (h : Inv m₀ s r) (ha : s.inodes a = some inode)
    (hF : ∀ f file, F f = some file → f < s.nextFile) (hzero : fileRefs F s.nextFile a + r' a = 0)
    (hrest : ∀ b, b ≠ a → fileRefs F s.nextFile b + r' b = fileRefs s.files s.nextFile b + r b)
    (hdeny : ∀ b, deniers F s.nextFile b = deniers s.files s.nextFile b)
    (hR : ∀ b, (R.map Release.inode).count b =
      (s.releases.map Release.inode).count b + if b = a ∧ inode.removed = true then 1 else 0)
    (hbits : ∀ x, B.bit x = (m₀ x && !R.any fun rel => rel.covers x))
    (honce : ∀ x, (R.countP fun rel => rel.covers x) ≤ 1) :
    Inv m₀ { s with
      freeMap := B
      openInodes := s.openInodes.erase a
      inodes := Function.update s.inodes a none
      files := F
      releases := R } r' := by
  have hold : ∀ b i, Function.update s.inodes a none b = some i → b ≠ a ∧ s.inodes b = some i := by
    intro b i hb
    rw [Function.update_apply] at hb
    split at hb
    · cases hb
    · rename_i hba
      exact ⟨hba, hb⟩
  refine ⟨h.nodup.erase a, fun b => ?_, fun b c i j hb hc => h.unique b c i j (hold b i hb).2 (hold c j hc).2,
    fun b i hb => h.inodes_lt b i (hold b i hb).2, hF, fun b i hb => ?_, fun b i hb => ?_, fun b hb => ?_, fun b i hb => ?_,
    fun b i hb => h.removed b i (hold b i hb).2, h.removals_lt, fun b => ?_, hbits, honce⟩
  · rw [h.nodup.mem_erase_iff, h.listed]
    simp only [Function.update_apply]
    split
    · rename_i hba
      simp [hba]
    · rename_i hba
      simp [hba]
  · rw [hrest b (hold b i hb).1]
    exact h.openCnt b i (hold b i hb).2
  · rw [hrest b (hold b i hb).1]
    exact h.pos b i (hold b i hb).2
  · by_cases hba : b = a
    · rw [hba]
      exact hzero
    · rw [hrest b hba]
      refine h.closed b ?_
      have hb : Function.update s.inodes a none b = none := hb
      rwa [Function.update_of_ne hba] at hb
  · rw [hdeny b]
    exact h.denyWriteCnt b i (hold b i hb).2
  · have hcount := h.released b
    show _ = if b ∈ s.removals ∧ Function.update s.inodes a none b = none then 1 else 0
    rw [hR]
    by_cases hba : b = a
    · subst hba
      rw [if_neg (by simp [ha])] at hcount
      rw [hcount, Function.update_self, Nat.zero_add]
      exact if_congr ⟨fun hr => ⟨(h.removed b inode ha).mp hr.2, rfl⟩, fun hr => ⟨rfl, (h.removed b inode ha).mpr hr.1⟩⟩
        rfl rfl
    · have hno : ¬ (b = a ∧ inode.removed = true) := fun hr => hba hr.1
      rw [hcount, if_neg hno, Nat.add_zero, Function.update_of_ne hba]

end PintosKaist.OpenTable
