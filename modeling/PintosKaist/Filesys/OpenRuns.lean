/-
The calls on the table of open inodes keep its invariant, and so do runs of
them (`open_inode_table`).
-/
import PintosKaist.Filesys.OpenCounts
import PintosKaist.Filesys.Format

namespace PintosKaist.OpenTable

open Count Filesys

variable {s s' : Fs} {m₀ : Nat → Bool} {r r' : Nat → Nat} {n a b f x : Nat} {inode : StructInode} {file : StructFile}
  {p : Option Nat}

/-! ## What the calls do to the rest -/

theorem inodeWriteAt_eq {buf : Nat → Byte} {size offset written : Int}
    (hr : s.inodeWriteAt a buf size offset = some (written, s')) : ∃ d n, s' = { s with disk := d, mallocs := n } := by
  simp only [Fs.inodeWriteAt, Option.bind_eq_bind, Option.bind_eq_some_iff] at hr
  obtain ⟨inode, -, hr⟩ := hr
  split at hr
  · obtain ⟨-, rfl⟩ := Prod.mk.inj (Option.some.inj hr)
    exact ⟨s.disk, s.mallocs, rfl⟩
  · simp only [Option.bind_eq_some_iff, Option.some.injEq, Prod.mk.injEq] at hr
    obtain ⟨-, -, d, -, -, rfl⟩ := hr
    exact ⟨d, s.mallocs + 1, rfl⟩

theorem freeMapRelease_eq {sector cnt : Nat} (hr : s.freeMapRelease sector cnt = some s') :
    s.freeMap.all sector cnt = true ∧
      ∃ d n, s' = { s with freeMap := s.freeMap.setMultiple sector cnt false, disk := d, mallocs := n } := by
  simp only [Fs.freeMapRelease, Option.ite_none_right_eq_some, Option.bind_eq_bind, Option.bind_eq_some_iff,
    Option.some.injEq] at hr
  obtain ⟨hall, f, -, file, -, ⟨written, t⟩, hw, rfl⟩ := hr
  obtain ⟨d, n, rfl⟩ := inodeWriteAt_eq hw
  exact ⟨hall, d, n, rfl⟩

theorem lookup_eq {dir : Inode} {name : List Byte} {ks : List Nat} {o : Option Nat}
    (hr : Fs.lookup dir name ks s = some (o, s')) : ∃ n, s' = { s with mallocs := n } := by
  induction ks generalizing s with
  | nil =>
    obtain ⟨-, rfl⟩ := Prod.mk.inj (Option.some.inj hr)
    exact ⟨s.mallocs, rfl⟩
  | cons k ks ih =>
    simp only [Fs.lookup] at hr
    split at hr
    · split at hr
      · split at hr
        · obtain ⟨-, rfl⟩ := Prod.mk.inj (Option.some.inj hr)
          exact ⟨s.mallocs + 1, rfl⟩
        · obtain ⟨n, rfl⟩ := ih hr
          exact ⟨n, rfl⟩
      · cases hr
    · obtain ⟨-, rfl⟩ := Prod.mk.inj (Option.some.inj hr)
      exact ⟨s.mallocs + 1, rfl⟩

/-! ## `inode_reopen` and `inode_open` -/

theorem Inv.inodeReopen (h : Inv m₀ s r) (hr : s.inodeReopen p = some s') : Inv m₀ s' (plus r p) := by
  cases p with
  | none =>
    obtain rfl := Option.some.inj hr
    rwa [plus_none]
  | some a =>
    simp only [Fs.inodeReopen, Option.bind_eq_bind, Option.bind_eq_some_iff, Option.some.injEq] at hr
    obtain ⟨inode, ha, rfl⟩ := hr
    have hcnt := h.openCnt a inode ha
    have hpos := h.pos a inode ha
    refine h.touch ha rfl rfl h.files_lt ?_ ?_ (h.denyWriteCnt a inode ha) fun b hb => ⟨?_, rfl⟩
    · simp only [plus, if_true]
      omega
    · simp only [plus, if_true]
      omega
    · simp only [plus]
      rw [if_neg fun heq => hb (Option.some.inj heq).symm, Nat.add_zero]

theorem findOpen_some {sector : Nat} (h : s.findOpen sector = some a) :
    ∃ inode, s.inodes a = some inode ∧ inode.sector = sector := by
  unfold Fs.findOpen at h
  have hany := List.find?_some h
  obtain ⟨inode, ha, hs⟩ := (Option.any_eq_true ..).mp hany
  exact ⟨inode, ha, by simpa using hs⟩

theorem Inv.findOpen_none {sector : Nat} (h : Inv m₀ s r) (hn : s.findOpen sector = none) (ha : s.inodes a = some inode) :
    inode.sector ≠ sector := by
  intro hs
  have := List.find?_eq_none.mp hn a ((h.listed a).mpr ⟨inode, ha⟩)
  simp [ha, hs] at this

/-- A new struct inode, at an address that nothing refers to. -/
theorem Inv.newInode {sector : Nat} {data : InodeDisk} (h : Inv m₀ s r) (hn : s.findOpen sector = none) :
    Inv m₀ { s with
      inodes := Function.update s.inodes s.nextInode (some ⟨sector, 1, false, 0, data⟩)
      openInodes := s.nextInode :: s.openInodes
      nextInode := s.nextInode + 1 } (plus r (some s.nextInode)) := by
  have hfresh : s.inodes s.nextInode = none := by
    cases hi : s.inodes s.nextInode with
    | none => rfl
    | some inode => exact absurd (h.inodes_lt _ inode hi) (Nat.lt_irrefl _)
  have hzero := h.closed _ hfresh
  have hdeny := deniers_le (F := s.files) (n := s.nextFile) (a := s.nextInode)
  have hold : ∀ b i, Function.update s.inodes s.nextInode (some ⟨sector, 1, false, 0, data⟩) b = some i →
      (b = s.nextInode ∧ i = ⟨sector, 1, false, 0, data⟩) ∨ (b ≠ s.nextInode ∧ s.inodes b = some i) :=
    fun _ _ => update_some
  have hplus : ∀ b, b ≠ s.nextInode → plus r (some s.nextInode) b = r b := by
    intro b hb
    simp only [plus]
    rw [if_neg fun heq => hb (Option.some.inj heq).symm, Nat.add_zero]
  refine ⟨List.nodup_cons.mpr ⟨fun hm => ?_, h.nodup⟩, fun b => ?_, fun b c i j hb hc heq => ?_, fun b i hb => ?_,
    h.files_lt, fun b i hb => ?_, fun b i hb => ?_, fun b hb => ?_, fun b i hb => ?_, fun b i hb => ?_,
    fun b hb => Nat.lt_succ_of_lt (h.removals_lt b hb), fun b => ?_, h.bits, h.once⟩
  · obtain ⟨inode, hi⟩ := (h.listed _).mp hm
    cases hfresh.symm.trans hi
  · show b ∈ s.nextInode :: s.openInodes ↔ ∃ i, Function.update s.inodes s.nextInode _ b = some i
    rw [List.mem_cons, h.listed, Function.update_apply]
    split
    · rename_i hb
      simp [hb]
    · rename_i hb
      simp [hb]
  · obtain ⟨rfl, rfl⟩ | ⟨-, hb⟩ := hold b i hb <;> obtain ⟨rfl, rfl⟩ | ⟨-, hc⟩ := hold c j hc
    · rfl
    · exact absurd heq.symm (h.findOpen_none hn hc)
    · exact absurd heq (h.findOpen_none hn hb)
    · exact h.unique b c i j hb hc heq
  · obtain ⟨rfl, -⟩ | ⟨-, hb⟩ := hold b i hb
    · exact Nat.lt_succ_self _
    · exact Nat.lt_succ_of_lt (h.inodes_lt b i hb)
  · obtain ⟨rfl, rfl⟩ | ⟨hne, hb⟩ := hold b i hb
    · simp only [plus, if_true]
      omega
    · rw [hplus b hne]
      exact h.openCnt b i hb
  · obtain ⟨rfl, rfl⟩ | ⟨hne, hb⟩ := hold b i hb
    · simp only [plus, if_true]
      omega
    · rw [hplus b hne]
      exact h.pos b i hb
  · have hb : Function.update s.inodes s.nextInode _ b = none := hb
    rw [Function.update_apply] at hb
    split at hb
    · cases hb
    · rename_i hne
      rw [hplus b hne]
      exact h.closed b hb
  · obtain ⟨rfl, rfl⟩ | ⟨-, hb⟩ := hold b i hb
    · show (0 : Int) = deniers s.files s.nextFile s.nextInode
      omega
    · exact h.denyWriteCnt b i hb
  · obtain ⟨rfl, rfl⟩ | ⟨-, hb⟩ := hold b i hb
    · simp only [Bool.false_eq_true, false_iff]
      exact fun hm => Nat.lt_irrefl _ (h.removals_lt _ hm)
    · exact h.removed b i hb
  · show _ = if b ∈ s.removals ∧ Function.update s.inodes s.nextInode _ b = none then 1 else 0
    rw [h.released]
    refine if_congr (and_congr_right fun hm => ?_) rfl rfl
    rw [Function.update_of_ne (Nat.ne_of_lt (h.removals_lt b hm))]

theorem Inv.inodeOpen {sector : Nat} (h : Inv m₀ s r) (hr : s.inodeOpen sector = some (p, s')) :
    Inv m₀ s' (plus r p) ∧ ∀ a, p = some a → ∃ inode, s'.inodes a = some inode ∧ inode.sector = sector := by
  simp only [Fs.inodeOpen] at hr
  split at hr
  · rename_i a hfind
    obtain ⟨t, ht, heq⟩ := Option.map_eq_some_iff.mp hr
    obtain ⟨rfl, rfl⟩ := Prod.mk.inj heq
    refine ⟨h.inodeReopen ht, fun b hb => ?_⟩
    obtain rfl := Option.some.inj hb
    obtain ⟨inode, ha, hs⟩ := findOpen_some hfind
    simp only [Fs.inodeReopen, ha, Option.bind_eq_bind, Option.bind_some, Option.some.injEq] at ht
    subst ht
    exact ⟨{ inode with openCnt := inode.openCnt + 1 }, Function.update_self .., hs⟩
  · rename_i hfind
    split at hr
    · simp only [Option.ite_none_right_eq_some, Option.some.injEq, Prod.mk.injEq] at hr
      obtain ⟨-, rfl, rfl⟩ := hr
      refine ⟨h.tick.newInode hfind, fun b hb => ?_⟩
      obtain rfl := Option.some.inj hb
      exact ⟨⟨sector, 1, false, 0, readDisk s.disk sector⟩, Function.update_self .., rfl⟩
    · obtain ⟨rfl, rfl⟩ := Prod.mk.inj (Option.some.inj hr)
      exact ⟨by rw [plus_none]; exact h.tick, by simp⟩

/-! ## `inode_close` and `inode_remove` -/

/-- The last close of a removed inode: what it records, and the bits it found
set and cleared. -/
structure GivesBack (s : Fs) (a : Nat) (inode : StructInode) (R : List Release) (B : Bitmap) : Prop where
  releases : R = ⟨a, inode.sector, inode.data.start, Volume.sectorCnt inode.data.length⟩ :: s.releases
  freeMap : B = (s.freeMap.setMultiple inode.sector 1 false).setMultiple inode.data.start
    (Volume.sectorCnt inode.data.length) false
  sector_set : s.freeMap.all inode.sector 1 = true
  data_set : (s.freeMap.setMultiple inode.sector 1 false).all inode.data.start
    (Volume.sectorCnt inode.data.length) = true

theorem inodeClose_cases (hr : s.inodeClose (some a) = some s') : ∃ inode, s.inodes a = some inode ∧
    ((inode.openCnt - 1 ≠ 0 ∧ s' = s.setInode a (some { inode with openCnt := inode.openCnt - 1 })) ∨
      (inode.openCnt - 1 = 0 ∧ ∃ d n R B, s' = { s with
          disk := d
          mallocs := n
          freeMap := B
          openInodes := s.openInodes.erase a
          inodes := Function.update s.inodes a none
          releases := R } ∧
        ((inode.removed = false ∧ R = s.releases ∧ B = s.freeMap) ∨
            (inode.removed = true ∧ GivesBack s a inode R B)))) := by
  simp only [Fs.inodeClose, Option.bind_eq_bind, Option.bind_eq_some_iff] at hr
  obtain ⟨inode, ha, hr⟩ := hr
  refine ⟨inode, ha, ?_⟩
  split at hr
  · rename_i hlast
    refine .inr ⟨hlast, ?_⟩
    simp only [Fs.lastClose] at hr
    split at hr
    · rename_i hrem
      simp only [Option.bind_eq_bind, Option.bind_eq_some_iff, Option.some.injEq] at hr
      obtain ⟨s₁, h₁, s₂, h₂, rfl⟩ := hr
      obtain ⟨hall₁, d₁, n₁, rfl⟩ := freeMapRelease_eq h₁
      obtain ⟨hall₂, d₂, n₂, rfl⟩ := freeMapRelease_eq h₂
      exact ⟨d₂, n₂, _, _, by simp only [Fs.setInode, Function.update_idem], .inr ⟨hrem, rfl, rfl, hall₁, hall₂⟩⟩
    · rename_i hrem
      obtain rfl := Option.some.inj hr
      exact ⟨s.disk, s.mallocs, _, _, by simp only [Fs.setInode, Function.update_idem],
        .inl ⟨Bool.eq_false_iff.mpr hrem, rfl, rfl⟩⟩
  · rename_i hmore
    exact .inl ⟨hmore, (Option.some.inj hr).symm⟩

theorem inodeClose_files (hr : s.inodeClose (some a) = some s') : s'.files = s.files ∧ s'.nextFile = s.nextFile := by
  obtain ⟨inode, -, ⟨-, rfl⟩ | ⟨-, d, n, R, B, rfl, -⟩⟩ := inodeClose_cases hr
  · exact ⟨rfl, rfl⟩
  · exact ⟨rfl, rfl⟩

theorem setMultiple_clear {m : Bitmap} {i cnt : Nat} :
    (m.setMultiple i cnt false).bit x = (m.bit x && !(decide (i ≤ x) && decide (x < i + cnt))) := by
  rw [Bitmap.setMultiple_bit]
  by_cases h : i ≤ x ∧ x < i + cnt
  · simp [h.1, h.2]
  · rw [if_neg h]
    simp only [not_and] at h
    by_cases hi : i ≤ x
    · simp [hi, h hi]
    · simp [hi]

/-- What is given back was not given back before, and is no longer marked. -/
theorem Inv.givesBack {R : List Release} {B : Bitmap} (h : Inv m₀ s r) (hg : GivesBack s a inode R B) :
    (∀ x, B.bit x = (m₀ x && !R.any fun rel => rel.covers x)) ∧ ∀ x, (R.countP fun rel => rel.covers x) ≤ 1 := by
  obtain ⟨rfl, rfl, hall₁, hall₂⟩ := hg
  constructor
  · intro x
    have hsec : (decide (inode.sector ≤ x) && decide (x < inode.sector + 1)) = decide (x = inode.sector) := by
      rw [Bool.eq_iff_iff]
      simp only [Bool.and_eq_true, decide_eq_true_eq]
      omega
    rw [setMultiple_clear, setMultiple_clear, h.bits, hsec, List.any_cons]
    simp only [Release.covers, Bool.not_or, Bool.and_assoc]
    cases m₀ x <;> cases decide (x = inode.sector) <;> simp [Bool.and_comm]
  · intro x
    rw [List.countP_cons]
    split
    · rename_i hc
      -- the bit was set, so nothing released before covers `x`
      have hbit : s.freeMap.bit x = true := by
        simp only [Release.covers, Bool.or_eq_true, Bool.and_eq_true, decide_eq_true_eq] at hc
        obtain rfl | ⟨h₁, h₂⟩ := hc
        · exact (Bitmap.all_iff.mp hall₁).2 _ (Nat.le_refl _) (Nat.lt_succ_self _)
        · have := (Bitmap.all_iff.mp hall₂).2 x h₁ h₂
          rw [setMultiple_clear, Bool.and_eq_true] at this
          exact this.1
      rw [h.bits, Bool.and_eq_true, Bool.not_eq_true'] at hbit
      have hnone : (s.releases.countP fun rel => rel.covers x) = 0 := by
        rw [List.countP_eq_zero]
        exact fun rel hrel => by simpa using List.any_eq_false.mp hbit.2 rel hrel
      omega
    · exact h.once x

/-- **Closing**: an opener of `a` goes, which is a file or one of those that `r`
counts. -/
theorem Inv.close {F : Nat → Option StructFile} (h : Inv m₀ s r) (hr : s.inodeClose (some a) = some s')
    (hF : ∀ f file, F f = some file → f < s.nextFile)
    (hrefs : ∀ b, fileRefs F s.nextFile b + r' b + (if b = a then 1 else 0) = fileRefs s.files s.nextFile b + r b)
    (hdeny : ∀ b, deniers F s.nextFile b = deniers s.files s.nextFile b) : Inv m₀ { s' with files := F } r' := by
  have hrest : ∀ b, b ≠ a → fileRefs F s.nextFile b + r' b = fileRefs s.files s.nextFile b + r b := by
    intro b hb
    have := hrefs b
    rwa [if_neg hb, Nat.add_zero] at this
  have hself := hrefs a
  rw [if_pos rfl] at hself
  obtain ⟨inode, ha, ⟨hmore, rfl⟩ | ⟨hlast, d, n, R, B, rfl, hgone⟩⟩ := inodeClose_cases hr
  · have hcnt := h.openCnt a inode ha
    have hopen : inode.openCnt - 1 = (fileRefs F s.nextFile a + r' a : Nat) := by omega
    have hdenyCnt : inode.denyWriteCnt = deniers F s.nextFile a := by
      rw [hdeny]
      exact h.denyWriteCnt a inode ha
    have hpos : 0 < fileRefs F s.nextFile a + r' a := by omega
    exact h.touch ha rfl rfl hF hopen hpos hdenyCnt fun b hb => ⟨hrest b hb, hdeny b⟩
  · have hcnt := h.openCnt a inode ha
    have hzero : fileRefs F s.nextFile a + r' a = 0 := by omega
    obtain ⟨hrem, rfl, rfl⟩ | ⟨hrem, hg⟩ := hgone
    · refine Inv.setDisk (s := { s with
        openInodes := s.openInodes.erase a
        inodes := Function.update s.inodes a none
        files := F }) ?_
      exact h.gone ha hF hzero hrest hdeny (fun b => by simp [hrem]) h.bits h.once
    · obtain ⟨hbits, honce⟩ := h.givesBack hg
      refine Inv.setDisk (s := { s with
        freeMap := B
        openInodes := s.openInodes.erase a
        inodes := Function.update s.inodes a none
        files := F
        releases := R }) ?_
      refine h.gone ha hF hzero hrest hdeny (fun b => ?_) hbits honce
      rw [hg.releases, List.map_cons, List.count_cons]
      simp only [hrem, and_true, beq_iff_eq]
      congr 1
      exact if_congr eq_comm rfl rfl

theorem Inv.inodeClose (h : Inv m₀ s (plus r p)) (hr : s.inodeClose p = some s') : Inv m₀ s' r := by
  cases p with
  | none =>
    obtain rfl := Option.some.inj hr
    rwa [plus_none] at h
  | some a =>
    obtain ⟨hfiles, -⟩ := inodeClose_files hr
    have hrefs : ∀ b, fileRefs s.files s.nextFile b + r b + (if b = a then 1 else 0) =
        fileRefs s.files s.nextFile b + plus r (some a) b := by
      intro b
      simp only [plus, Option.some.injEq, eq_comm (a := a)]
      omega
    have hclose : Inv m₀ { s' with files := s.files } r := h.close hr h.files_lt hrefs fun _ => rfl
    rwa [← hfiles] at hclose

theorem Inv.inodeRemove (h : Inv m₀ s r) (hr : s.inodeRemove a = some s') : Inv m₀ s' r := by
  simp only [Fs.inodeRemove, Option.bind_eq_bind, Option.bind_eq_some_iff, Option.some.injEq] at hr
  obtain ⟨inode, ha, rfl⟩ := hr
  refine h.change ha rfl (by simp) (fun b hb => by simp [hb]) h.files_lt (h.openCnt a inode ha) (h.pos a inode ha)
    (h.denyWriteCnt a inode ha) fun _ _ => ⟨rfl, rfl⟩

/-! ## Files -/

/-- A file changes its `deny_write`, and the count of its inode with it. -/
theorem Inv.setDeny {d : Bool} {inode' : StructInode} (h : Inv m₀ s r) (hf : s.files f = some file)
    (ha : s.inodes file.inode = some inode) (hsec : inode'.sector = inode.sector) (hrem : inode'.removed = inode.removed)
    (hopen : inode'.openCnt = inode.openCnt)
    (hdeny : inode'.denyWriteCnt + (if file.denyWrite then 1 else 0) = inode.denyWriteCnt + if d then 1 else 0) :
    Inv m₀ ((s.setFile f (some { file with denyWrite := d })).setInode file.inode (some inode')) r := by
  have hlt := h.files_lt f file hf
  have hrefs : ∀ b, fileRefs (Function.update s.files f (some { file with denyWrite := d })) s.nextFile b =
      fileRefs s.files s.nextFile b := by
    intro b
    have := held_update (g := fun file => some file.inode) (F := s.files) (b := b)
      (o := some { file with denyWrite := d }) hlt
    simp only [hf, Option.bind_some] at this
    exact Nat.add_right_cancel this
  have hdeniers : ∀ b, deniers (Function.update s.files f (some { file with denyWrite := d })) s.nextFile b +
      (if file.denied = some b then 1 else 0) =
      deniers s.files s.nextFile b + if StructFile.denied { file with denyWrite := d } = some b then 1 else 0 := by
    intro b
    have := held_update (g := StructFile.denied) (F := s.files) (b := b) (o := some { file with denyWrite := d }) hlt
    rwa [hf] at this
  have hfiles : ∀ g file', Function.update s.files f (some { file with denyWrite := d }) g = some file' →
      g < s.nextFile := lt_of_update h.files_lt hlt
  generalize hG : Function.update s.files f (some { file with denyWrite := d }) = G at hrefs hdeniers hfiles
  have hopen' : inode'.openCnt = (fileRefs G s.nextFile file.inode + r file.inode : Nat) := by
    rw [hopen, hrefs]
    exact h.openCnt _ inode ha
  have hpos : 0 < fileRefs G s.nextFile file.inode + r file.inode := by
    rw [hrefs]
    exact h.pos _ inode ha
  have hdeny' : inode'.denyWriteCnt = deniers G s.nextFile file.inode := by
    have hcnt := h.denyWriteCnt _ inode ha
    have hself := hdeniers file.inode
    simp only [StructFile.denied] at hself
    cases hd : d <;> cases hd' : file.denyWrite <;> simp only [hd, hd', if_true, if_false, Bool.false_eq_true,
      reduceCtorEq] at hself hdeny <;> omega
  have hrest : ∀ b, b ≠ file.inode → deniers G s.nextFile b = deniers s.files s.nextFile b := by
    intro b hb
    have hb' : (some file.inode : Option Nat) ≠ some b := fun heq => hb (Option.some.inj heq).symm
    have hother := hdeniers b
    simp only [StructFile.denied] at hother
    cases hd : d <;> cases hd' : file.denyWrite <;> simpa [hd, hd', hb', hb.symm] using hother
  have htouch := h.touch ha hsec hrem hfiles hopen' hpos hdeny' fun b hb => ⟨by rw [hrefs b], hrest b hb⟩
  subst hG
  exact htouch

/-- **`file_deny_write` does not fail**: a file that does not deny writes is an
opener that is not counted yet. -/
theorem Inv.fileDenyWrite (h : Inv m₀ s r) (hf : s.files f = some file) : ∃ s', s.fileDenyWrite f = some s' ∧
    Inv m₀ s' r ∧ s'.nextFile = s.nextFile ∧ s'.files f = some { file with denyWrite := true } := by
  obtain ⟨inode, ha⟩ := h.inode_of_file hf
  simp only [Fs.fileDenyWrite, hf, Option.bind_eq_bind, Option.bind_some]
  cases hd : file.denyWrite with
  | true =>
    refine ⟨s, rfl, h, rfl, ?_⟩
    rw [hf, ← hd]
  | false =>
    have hcnt := h.openCnt _ inode ha
    have hden := h.denyWriteCnt _ inode ha
    have hlt := deniers_lt hf (h.files_lt f file hf) hd
    have hle : inode.denyWriteCnt + 1 ≤ inode.openCnt := by omega
    have ha' : (s.setFile f (some { file with denyWrite := true })).inodes file.inode = some inode := ha
    simp only [Bool.false_eq_true, if_false, Fs.inodeDenyWrite, ha', Option.bind_eq_bind, Option.bind_some, if_pos hle]
    refine ⟨_, rfl, h.setDeny hf ha rfl rfl rfl ?_, rfl, Function.update_self ..⟩
    simp [hd]

/-- **`file_allow_write` does not fail**: a file that denies writes is counted. -/
theorem Inv.fileAllowWrite (h : Inv m₀ s r) (hf : s.files f = some file) : ∃ s', s.fileAllowWrite f = some s' ∧
    Inv m₀ s' r ∧ s'.nextFile = s.nextFile ∧ s'.files f = some { file with denyWrite := false } := by
  obtain ⟨inode, ha⟩ := h.inode_of_file hf
  simp only [Fs.fileAllowWrite, hf, Option.bind_eq_bind, Option.bind_some]
  cases hd : file.denyWrite with
  | false =>
    refine ⟨s, rfl, h, rfl, ?_⟩
    rw [hf, ← hd]
  | true =>
    have hcnt := h.openCnt _ inode ha
    have hden := h.denyWriteCnt _ inode ha
    have hpos := deniers_pos hf (h.files_lt f file hf) hd
    have hle := deniers_le (F := s.files) (n := s.nextFile) (a := file.inode)
    have hok : 0 < inode.denyWriteCnt ∧ inode.denyWriteCnt ≤ inode.openCnt := by omega
    have ha' : (s.setFile f (some { file with denyWrite := false })).inodes file.inode = some inode := ha
    simp only [if_true, Fs.inodeAllowWrite, ha', Option.bind_eq_bind, Option.bind_some, if_pos hok]
    refine ⟨_, rfl, h.setDeny hf ha rfl rfl rfl ?_, rfl, Function.update_self ..⟩
    simp [hd]

/-- A file in the place of a reference. -/
theorem Inv.addFile {pos : Int} (h : Inv m₀ s (plus r (some a))) (ha : s.inodes a = some inode) :
    Inv m₀ { s.setFile s.nextFile (some ⟨a, pos, false⟩) with nextFile := s.nextFile + 1 } r := by
  have hrefs : ∀ b, fileRefs (Function.update s.files s.nextFile (some ⟨a, pos, false⟩)) (s.nextFile + 1) b + r b =
      fileRefs s.files s.nextFile b + plus r (some a) b := by
    intro b
    have := held_add (g := fun file => some file.inode) (F := s.files) (n := s.nextFile) (b := b)
      (o := some ⟨a, pos, false⟩)
    simp only [fileRefs, this, Option.bind_some, plus]
    omega
  have hdeniers : ∀ b, deniers (Function.update s.files s.nextFile (some ⟨a, pos, false⟩)) (s.nextFile + 1) b =
      deniers s.files s.nextFile b := by
    intro b
    have := held_add (g := StructFile.denied) (F := s.files) (n := s.nextFile) (b := b) (o := some ⟨a, pos, false⟩)
    simpa [deniers, StructFile.denied] using this
  have hopen := h.openCnt a inode ha
  rw [← hrefs] at hopen
  have hpos := h.pos a inode ha
  rw [← hrefs] at hpos
  have hden := h.denyWriteCnt a inode ha
  rw [← hdeniers] at hden
  have hfiles : ∀ g file', Function.update s.files s.nextFile (some ⟨a, pos, false⟩) g = some file' →
      g < s.nextFile + 1 :=
    lt_of_update (fun g file' hg => Nat.lt_succ_of_lt (h.files_lt g file' hg)) (Nat.lt_succ_self _)
  have htouch := h.touch ha rfl rfl hfiles hopen hpos hden fun b _ => ⟨hrefs b, hdeniers b⟩
  rwa [← ha, Function.update_eq_self] at htouch

/-- A reference is to an open inode. -/
theorem Inv.inode_of_plus (h : Inv m₀ s (plus r (some a))) : ∃ inode, s.inodes a = some inode := by
  cases hi : s.inodes a with
  | some inode => exact ⟨inode, rfl⟩
  | none =>
    have := h.closed a hi
    simp [plus] at this

/-- `file_open` takes the reference, with or without memory for the file. -/
theorem Inv.fileOpen {o : Option Nat} (h : Inv m₀ s (plus r p)) (hr : s.fileOpen p = some (o, s')) : Inv m₀ s' r ∧
    ∀ g, o = some g → ∃ a, p = some a ∧ s'.files g = some ⟨a, 0, false⟩ := by
  cases p with
  | none =>
    obtain ⟨rfl, rfl⟩ := Prod.mk.inj (Option.some.inj hr)
    rw [plus_none] at h
    exact ⟨h.tick, by simp⟩
  | some a =>
    simp only [Fs.fileOpen] at hr
    split at hr
    · obtain ⟨rfl, rfl⟩ := Prod.mk.inj (Option.some.inj hr)
      obtain ⟨inode, ha⟩ := h.inode_of_plus
      refine ⟨Inv.addFile (s := s.tick) h.tick ha, fun g hg => ?_⟩
      obtain rfl := Option.some.inj hg
      exact ⟨a, rfl, Function.update_self ..⟩
    · obtain ⟨t, ht, heq⟩ := Option.map_eq_some_iff.mp hr
      obtain ⟨rfl, rfl⟩ := Prod.mk.inj heq
      exact ⟨h.tick.inodeClose ht, by simp⟩

/-- An opener that is not the last closes without giving anything back. -/
theorem Inv.inodeClose_more (h : Inv m₀ s (plus r (some a))) (hmore : 0 < fileRefs s.files s.nextFile a + r a) :
    ∃ s', s.inodeClose (some a) = some s' := by
  obtain ⟨inode, ha⟩ := h.inode_of_plus
  have hcnt := h.openCnt a inode ha
  simp only [plus, if_true] at hcnt
  have hne : inode.openCnt - 1 ≠ 0 := by omega
  exact ⟨_, by simp only [Fs.inodeClose, ha, Option.bind_eq_bind, Option.bind_some, if_neg hne]; rfl⟩

/-- `file_reopen` always returns: the file it is called on stays an opener. -/
theorem Inv.fileReopen (h : Inv m₀ s r) (hf : s.files f = some file) : ∃ o s', s.fileReopen f = some (o, s') ∧
    Inv m₀ s' r ∧ ∀ g, o = some g → s'.files g = some ⟨file.inode, 0, false⟩ := by
  obtain ⟨inode, ha⟩ := h.inode_of_file hf
  have hopen : s.inodeReopen (some file.inode) =
      some (s.setInode file.inode (some { inode with openCnt := inode.openCnt + 1 })) := by
    simp only [Fs.inodeReopen, ha, Option.bind_eq_bind, Option.bind_some]
  have h₁ := h.inodeReopen hopen
  have hreturns : ∃ o s', (s.setInode file.inode (some { inode with openCnt := inode.openCnt + 1 })).fileOpen
      (some file.inode) = some (o, s') := by
    simp only [Fs.fileOpen]
    split
    · exact ⟨_, _, rfl⟩
    · have hpos := fileRefs_pos hf (h.files_lt f file hf)
      have hmore : 0 < fileRefs (s.setInode file.inode (some { inode with openCnt := inode.openCnt + 1 })).files
          s.nextFile file.inode + r file.inode := Nat.lt_of_lt_of_le hpos (Nat.le_add_right ..)
      obtain ⟨t, ht⟩ := h₁.tick.inodeClose_more hmore
      exact ⟨none, t, by rw [ht]; rfl⟩
  obtain ⟨o, s', hr⟩ := hreturns
  obtain ⟨h₂, hfile⟩ := h₁.fileOpen hr
  refine ⟨o, s', ?_, h₂, fun g hg => ?_⟩
  · simp only [Fs.fileReopen, hf, hopen, Option.bind_eq_bind, Option.bind_some, hr]
  · obtain ⟨a, ha', hg'⟩ := hfile g hg
    rwa [Option.some.inj ha']

/-- The position of a file is nothing to the table. -/
theorem Inv.setPos (h : Inv m₀ s r) (pos : Int) (hf : s.files f = some file) :
    Inv m₀ (s.setFile f (some { file with pos := pos })) r := by
  have hlt := h.files_lt f file hf
  have hheld : ∀ g : StructFile → Option Nat, g { file with pos := pos } = g file → ∀ b,
      held g (Function.update s.files f (some { file with pos := pos })) s.nextFile b = held g s.files s.nextFile b := by
    intro g hg b
    have := held_update (g := g) (F := s.files) (b := b) (o := some { file with pos := pos }) hlt
    simp only [hf, Option.bind_some, hg] at this
    exact Nat.add_right_cancel this
  obtain ⟨inode, ha⟩ := h.inode_of_file hf
  have hfiles : ∀ g file', Function.update s.files f (some { file with pos := pos }) g = some file' → g < s.nextFile :=
    lt_of_update h.files_lt hlt
  have hrefs : ∀ b, fileRefs (Function.update s.files f (some { file with pos := pos })) s.nextFile b =
      fileRefs s.files s.nextFile b := hheld _ rfl
  have hdeniers : ∀ b, deniers (Function.update s.files f (some { file with pos := pos })) s.nextFile b =
      deniers s.files s.nextFile b := hheld _ rfl
  have hopen := h.openCnt _ inode ha
  have hpos := h.pos _ inode ha
  have hden := h.denyWriteCnt _ inode ha
  rw [← hrefs] at hopen hpos
  rw [← hdeniers] at hden
  have htouch := h.touch ha rfl rfl hfiles hopen hpos hden fun b _ => ⟨by rw [hrefs b], hdeniers b⟩
  rwa [← ha, Function.update_eq_self] at htouch

/-- `file_duplicate` always returns: what it copies of a file that denies
writes is one more denier, and one more opener. -/
theorem Inv.fileDuplicate (h : Inv m₀ s r) (hf : s.files f = some file) :
    ∃ o s', s.fileDuplicate f = some (o, s') ∧ Inv m₀ s' r := by
  obtain ⟨o, s₁, hr, h₁, hfile⟩ := h.fileReopen hf
  simp only [Fs.fileDuplicate, hf, hr, Option.bind_eq_bind, Option.bind_some]
  cases o with
  | none => exact ⟨none, s₁, rfl, h₁⟩
  | some g =>
    have hg := hfile g rfl
    have h₂ := h₁.setPos file.pos hg
    simp only [Fs.copyFile, hg, Option.bind_eq_bind, Option.bind_some]
    cases hd : file.denyWrite with
    | false => exact ⟨some g, _, rfl, h₂⟩
    | true =>
      obtain ⟨s₃, hdeny, h₃, -⟩ := h₂.fileDenyWrite (f := g) (Function.update_self ..)
      simp only [if_true, hdeny, Option.bind_some]
      exact ⟨some g, s₃, rfl, h₃⟩

theorem Inv.fileClose (h : Inv m₀ s r) (hr : s.fileClose p = some s') : Inv m₀ s' r := by
  cases p with
  | none =>
    obtain rfl := Option.some.inj hr
    exact h
  | some f =>
    simp only [Fs.fileClose, Option.bind_eq_bind, Option.bind_eq_some_iff, Option.some.injEq] at hr
    obtain ⟨s₁, hallow, file₁, hf₁, s₂, hclose, rfl⟩ := hr
    have hf : ∃ file, s.files f = some file := by
      cases hf : s.files f with
      | some file => exact ⟨file, rfl⟩
      | none => simp [Fs.fileAllowWrite, hf] at hallow
    obtain ⟨file, hf⟩ := hf
    obtain ⟨t, ht, h₁, -, hf₁'⟩ := h.fileAllowWrite hf
    obtain rfl := Option.some.inj (ht.symm.trans hallow)
    obtain rfl := Option.some.inj (hf₁'.symm.trans hf₁)
    have hlt := h₁.files_lt f _ hf₁
    have hrefs : ∀ b, fileRefs (Function.update t.files f none) t.nextFile b + r b + (if b = file.inode then 1 else 0) =
        fileRefs t.files t.nextFile b + r b := by
      intro b
      have := held_update (g := fun file => some file.inode) (F := t.files) (b := b) (o := none) hlt
      simp only [hf₁, Option.bind_some, Option.bind_none, reduceCtorEq, if_false, Option.some.injEq] at this
      simp only [fileRefs, eq_comm (a := b)]
      omega
    have hdeny : ∀ b, deniers (Function.update t.files f none) t.nextFile b = deniers t.files t.nextFile b := by
      intro b
      have := held_update (g := StructFile.denied) (F := t.files) (b := b) (o := none) hlt
      rw [hf₁] at this
      simpa [deniers, StructFile.denied] using this
    have hfiles : ∀ g file', Function.update t.files f none g = some file' → g < t.nextFile :=
      lt_of_update h₁.files_lt hlt
    have hdone := h₁.close hclose hfiles hrefs hdeny
    rwa [← (inodeClose_files hclose).1] at hdone

/-! ## `dir_remove` -/

theorem Inv.removeEntry {d k : Nat} {e : Volume.DirEntry} {ok : Bool} (h : Inv m₀ s (plus r (some a)))
    (hr : s.removeEntry d k e a = some (ok, s')) : Inv m₀ s' r := by
  simp only [Fs.removeEntry, Option.bind_eq_bind, Option.bind_eq_some_iff] at hr
  obtain ⟨⟨written, s₁⟩, hw, hr⟩ := hr
  obtain ⟨disk, n, rfl⟩ := inodeWriteAt_eq hw
  split at hr
  · simp only [Option.bind_eq_some_iff, Option.some.injEq, Prod.mk.injEq] at hr
    obtain ⟨s₂, hrem, s₃, hclose, -, rfl⟩ := hr
    exact (h.setDisk.inodeRemove hrem).inodeClose hclose
  · simp only [Option.bind_eq_some_iff, Option.some.injEq, Prod.mk.injEq] at hr
    obtain ⟨s₃, hclose, -, rfl⟩ := hr
    exact h.setDisk.inodeClose hclose

theorem Inv.dirRemove {d : Nat} {name : List Byte} {ok : Bool} (h : Inv m₀ s r)
    (hr : s.dirRemove d name = some (ok, s')) : Inv m₀ s' r := by
  simp only [Fs.dirRemove, Option.bind_eq_bind, Option.bind_eq_some_iff] at hr
  obtain ⟨inode, -, dir, -, ⟨found, s₁⟩, hfind, hr⟩ := hr
  obtain ⟨n, rfl⟩ := lookup_eq hfind
  have h₁ : Inv m₀ { s with mallocs := n } r := h.setDisk
  cases found with
  | none =>
    obtain ⟨-, rfl⟩ := Prod.mk.inj (Option.some.inj hr)
    exact h₁
  | some k =>
    simp only [Option.bind_eq_some_iff] at hr
    obtain ⟨⟨p, s₂⟩, hopen, hr⟩ := hr
    have h₂ := (h₁.inodeOpen hopen).1
    cases p with
    | none =>
      obtain ⟨-, rfl⟩ := Prod.mk.inj (Option.some.inj hr)
      rwa [plus_none] at h₂
    | some a => exact h₂.removeEntry hr

/-! ## Runs -/

namespace Sys

/-- The openers of the struct inode at `a`: the open files on it, and the
pointers to it that the callers hold. -/
def openers (t : Sys) (a : Nat) : Nat := fileRefs t.fs.files t.fs.nextFile a + t.handles.count a

/-- The open files on it with `deny_write` set. -/
def deniers (t : Sys) (a : Nat) : Nat := OpenTable.deniers t.fs.files t.fs.nextFile a

variable {t t' : Sys} {e : Event} {es : List Event}

/-- The invariant, with what the callers hold. -/
def Ok (m₀ : Nat → Bool) (t : Sys) : Prop := Inv m₀ t.fs fun a => t.handles.count a

theorem gain_count (t : Sys) (p : Option Nat) (fs : Fs) :
    (fun a => (t.gain p fs).handles.count a) = plus (fun a => t.handles.count a) p := by
  funext b
  cases p with
  | none => simp [gain, plus]
  | some a => simp [gain, plus, List.count_cons]

theorem lose_count {p : Option Nat} (fs : Fs) (hp : t.Holds p) :
    (fun a => t.handles.count a) = plus (fun a => (t.lose p fs).handles.count a) p := by
  funext b
  cases p with
  | none => simp [lose, plus]
  | some a =>
    have hmem := hp a rfl
    have hsplit := (List.perm_cons_erase hmem).count_eq b
    simpa [lose, plus, List.count_cons] using hsplit

theorem Ok.step (h : t.Ok m₀) (hr : t.step e = some t') : t'.Ok m₀ := by
  cases e with
  | inodeOpen sector =>
    obtain ⟨⟨p, fs⟩, hopen, rfl⟩ := Option.map_eq_some_iff.mp hr
    unfold Ok
    rw [gain_count]
    exact (Inv.inodeOpen h hopen).1
  | inodeReopen p =>
    obtain ⟨fs, hopen, rfl⟩ := Option.map_eq_some_iff.mp hr
    unfold Ok
    rw [gain_count]
    exact Inv.inodeReopen h hopen
  | inodeClose p =>
    simp only [Sys.step, Option.ite_none_right_eq_some] at hr
    obtain ⟨fs, hclose, rfl⟩ := Option.map_eq_some_iff.mp hr.2
    unfold Ok at h
    rw [lose_count fs hr.1] at h
    exact h.inodeClose hclose
  | fileOpen p =>
    simp only [Sys.step, Option.ite_none_right_eq_some] at hr
    obtain ⟨⟨o, fs⟩, hopen, rfl⟩ := Option.map_eq_some_iff.mp hr.2
    unfold Ok at h
    rw [lose_count fs hr.1] at h
    exact (h.fileOpen hopen).1
  | fileReopen f =>
    obtain ⟨⟨o, fs⟩, hopen, rfl⟩ := Option.map_eq_some_iff.mp hr
    obtain ⟨file, hf⟩ : ∃ file, t.fs.files f = some file := by
      simp only [Fs.fileReopen, Option.bind_eq_bind, Option.bind_eq_some_iff] at hopen
      obtain ⟨file, hf, -⟩ := hopen
      exact ⟨file, hf⟩
    obtain ⟨o', fs', hopen', h', -⟩ := Inv.fileReopen h hf
    obtain ⟨-, rfl⟩ := Prod.mk.inj (Option.some.inj (hopen'.symm.trans hopen))
    exact h'
  | fileDuplicate f =>
    obtain ⟨⟨o, fs⟩, hdup, rfl⟩ := Option.map_eq_some_iff.mp hr
    obtain ⟨file, hf⟩ : ∃ file, t.fs.files f = some file := by
      simp only [Fs.fileDuplicate, Option.bind_eq_bind, Option.bind_eq_some_iff] at hdup
      obtain ⟨file, hf, -⟩ := hdup
      exact ⟨file, hf⟩
    obtain ⟨o', fs', hdup', h'⟩ := Inv.fileDuplicate h hf
    obtain ⟨-, rfl⟩ := Prod.mk.inj (Option.some.inj (hdup'.symm.trans hdup))
    exact h'
  | fileDenyWrite f =>
    obtain ⟨fs, hdeny, rfl⟩ := Option.map_eq_some_iff.mp hr
    obtain ⟨file, hf⟩ : ∃ file, t.fs.files f = some file := by
      simp only [Fs.fileDenyWrite, Option.bind_eq_bind, Option.bind_eq_some_iff] at hdeny
      obtain ⟨file, hf, -⟩ := hdeny
      exact ⟨file, hf⟩
    obtain ⟨fs', hdeny', h', -⟩ := Inv.fileDenyWrite h hf
    obtain rfl := Option.some.inj (hdeny'.symm.trans hdeny)
    exact h'
  | fileAllowWrite f =>
    obtain ⟨fs, hallow, rfl⟩ := Option.map_eq_some_iff.mp hr
    obtain ⟨file, hf⟩ : ∃ file, t.fs.files f = some file := by
      simp only [Fs.fileAllowWrite, Option.bind_eq_bind, Option.bind_eq_some_iff] at hallow
      obtain ⟨file, hf, -⟩ := hallow
      exact ⟨file, hf⟩
    obtain ⟨fs', hallow', h', -⟩ := Inv.fileAllowWrite h hf
    obtain rfl := Option.some.inj (hallow'.symm.trans hallow)
    exact h'
  | fileClose p =>
    obtain ⟨fs, hclose, rfl⟩ := Option.map_eq_some_iff.mp hr
    exact Inv.fileClose h hclose
  | dirRemove d name =>
    simp only [Sys.step, Option.ite_none_right_eq_some] at hr
    obtain ⟨⟨ok, fs⟩, hrem, rfl⟩ := Option.map_eq_some_iff.mp hr.2
    exact Inv.dirRemove h hrem

end Sys

/-- Nothing is open, whatever is on the disk. -/
theorem inv_closed (size : Nat) (disk : Disk) (freeMap : Bitmap) (mem : Nat → Bool) :
    Inv freeMap.bit ⟨size, disk, freeMap, none, [], fun _ => none, 0, fun _ => none, 0, mem, 0, [], []⟩ fun _ => 0 where
  nodup := List.nodup_nil
  listed := by simp
  unique := by simp
  inodes_lt := by simp
  files_lt := by simp
  openCnt := by simp
  pos := by simp
  closed a _ := by simp [fileRefs, held, count]
  denyWriteCnt := by simp
  removed := by simp
  removals_lt := by simp
  released := by simp
  bits := by simp
  once := by simp

theorem boot_ok {size : Nat} {disk : Disk} {freeMap : Bitmap} {mem : Nat → Bool} {t : Sys}
    (hr : boot size disk freeMap mem = some t) : t.Ok freeMap.bit := by
  simp only [boot, Option.bind_eq_bind, Option.bind_eq_some_iff, Option.some.injEq] at hr
  obtain ⟨⟨p, s₁⟩, hopen, ⟨file, s₂⟩, hfile, f, -, rfl⟩ := hr
  have h₁ := ((inv_closed size disk freeMap mem).inodeOpen hopen).1
  have h₂ := (h₁.fileOpen hfile).1
  exact ⟨h₂.nodup, h₂.listed, h₂.unique, h₂.inodes_lt, h₂.files_lt, h₂.openCnt, h₂.pos, h₂.closed, h₂.denyWriteCnt,
    h₂.removed, h₂.removals_lt, h₂.released, h₂.bits, h₂.once⟩

/-- What the table of open inodes is to its callers, with the free map `m₀` at
the start. -/
structure Sys.Exact (m₀ : Nat → Bool) (t : Sys) : Prop where
  listed : t.fs.openInodes.Nodup ∧ ∀ a, a ∈ t.fs.openInodes ↔ ∃ inode, t.fs.inodes a = some inode
  /-- A sector has one struct inode at most. -/
  unique : ∀ a b inode inode', t.fs.inodes a = some inode → t.fs.inodes b = some inode' →
    inode.sector = inode'.sector → a = b
  openCnt : ∀ a inode, t.fs.inodes a = some inode → inode.openCnt = t.openers a
  closed : ∀ a, t.fs.inodes a = none ↔ t.openers a = 0
  denyWriteCnt : ∀ a inode, t.fs.inodes a = some inode → inode.denyWriteCnt = t.deniers a
  /-- The assertions on `deny_write_cnt` hold. -/
  asserts : ∀ f file, t.fs.files f = some file →
    (t.fs.fileDenyWrite f).isSome ∧ (t.fs.fileAllowWrite f).isSome ∧ (t.fs.fileDuplicate f).isSome
  /-- A removed inode gives its sectors back once, when it has no opener any
  more. -/
  released : ∀ a, (t.fs.releases.map Release.inode).count a = if a ∈ t.fs.removals ∧ t.openers a = 0 then 1 else 0
  freeMap : ∀ x, t.fs.freeMap.bit x = (m₀ x && !t.fs.releases.any fun rel => rel.covers x)
  once : ∀ x, (t.fs.releases.countP fun rel => rel.covers x) ≤ 1

theorem Sys.Ok.exact {t : Sys} (h : t.Ok m₀) : t.Exact m₀ where
  listed := ⟨h.nodup, h.listed⟩
  unique := h.unique
  openCnt := h.openCnt
  closed a := by
    refine ⟨h.closed a, fun hzero => ?_⟩
    cases hi : t.fs.inodes a with
    | none => rfl
    | some inode => exact absurd (h.pos a inode hi) (by unfold Sys.openers at hzero; omega)
  denyWriteCnt := h.denyWriteCnt
  asserts f file hf := by
    obtain ⟨s₁, h₁, -⟩ := Inv.fileDenyWrite h hf
    obtain ⟨s₂, h₂, -⟩ := Inv.fileAllowWrite h hf
    obtain ⟨o, s₃, h₃, -⟩ := Inv.fileDuplicate h hf
    rw [h₁, h₂, h₃]
    exact ⟨rfl, rfl, rfl⟩
  released a := by
    rw [h.released]
    refine if_congr (and_congr_right fun _ => ⟨h.closed a, fun hzero => ?_⟩) rfl rfl
    cases hi : t.fs.inodes a with
    | none => rfl
    | some inode => exact absurd (h.pos a inode hi) (by unfold Sys.openers at hzero; omega)
  freeMap := h.bits
  once := h.once

/-- **The open-inode table is exact** after any calls by callers that close what
they opened, with memory or without, whatever is on the disk. -/
theorem open_inode_table {size : Nat} {disk : Disk} {freeMap : Bitmap} {mem : Nat → Bool} {t t' : Sys} {es : List Event}
    (hboot : boot size disk freeMap mem = some t) (hrun : Run.run Sys.step t es = some t') : t'.Exact freeMap.bit := by
  have hok : t'.Ok freeMap.bit :=
    Run.run_invariant (G := fun _ _ => True) (I := fun t => t.Ok freeMap.bit) (fun _ _ _ h _ hr => h.step hr)
      (boot_ok hboot) hrun (Run.always_of_mem _ fun _ _ _ => trivial)
  exact hok.exact

/-- A file is removed while two files that deny writes have it open; it goes
with the last of its openers. -/
def removedWhileRunning : List Event :=
  [.inodeOpen 1, .inodeOpen 4, .fileOpen (some 2), .fileDenyWrite 1, .fileDuplicate 1, .inodeOpen 4, .dirRemove 1 [65],
    .fileClose (some 1), .inodeReopen (some 2), .inodeClose (some 2), .inodeClose (some 2), .fileAllowWrite 2,
    .fileReopen 2, .fileClose (some 2), .fileClose (some 3)]

theorem open_inode_table_removed : ∃ v v' t t', Volume.filesysInit 32 (fun _ => 0) = some v ∧
    Run.run Volume.step v [.create [65] 600] = some v' ∧ boot v'.size v'.disk v'.freeMap (fun _ => true) = some t ∧
    Run.run Sys.step t removedWhileRunning = some t' ∧ t'.fs.releases = [⟨2, 4, 5, 2⟩] ∧ t'.Exact v'.freeMap.bit := by
  have hrun : (Volume.filesysInit 32 fun _ => 0).any (fun v => (Run.run Volume.step v [.create [65] 600]).any fun v' =>
      (boot v'.size v'.disk v'.freeMap fun _ => true).any fun t => (Run.run Sys.step t removedWhileRunning).any fun t' =>
        decide (t'.fs.releases = [⟨2, 4, 5, 2⟩])) = true := by
    decide +kernel
  obtain ⟨v, hv, hrun⟩ := (Option.any_eq_true ..).mp hrun
  obtain ⟨v', hv', hrun⟩ := (Option.any_eq_true ..).mp hrun
  obtain ⟨t, ht, hrun⟩ := (Option.any_eq_true ..).mp hrun
  obtain ⟨t', ht', hrel⟩ := (Option.any_eq_true ..).mp hrun
  exact ⟨v, v', t, t', hv, hv', ht, ht', of_decide_eq_true hrel, open_inode_table ht ht'⟩

end PintosKaist.OpenTable
