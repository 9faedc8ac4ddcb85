/-
`sys_open` over the life of a process. `find_unused_fd` begins at `fd_idx`,
where its last search ended, and `sys_close` does not move that back; when the
search fails nothing closes the file that was opened for it.
-/
import PintosKaist.Userprog.FdAlias

namespace PintosKaist.FdTable

variable {s s' t : State} {p q c i n fd : Nat} {v : Slot}

/-- Some descriptor that is not of the console is free. -/
def HasFree (s : State) (p : Nat) : Prop := ∃ n < maxFd, 2 ≤ n ∧ s.slot p n = .null

/-- `sys_open` of an existing file, the inode `i`, ended in `s'` with the value
`r`: it takes a free descriptor if there is one and changes no other slot, and
without one it changes nothing. -/
structure OpensOrNot (s : State) (p i : Nat) (r : Int) (s' : State) : Prop where
  free : HasFree s p → ∃ n < maxFd, 2 ≤ n ∧ s.slot p n = .null ∧ r = n ∧ s'.slot p n = .file s.nextFile ∧
    ∀ q m, ¬ (q = p ∧ m = n) → s'.slot q m = s.slot q m
  full : ¬ HasFree s p → r = -1 ∧ (∀ q m, s'.slot q m = s.slot q m) ∧
    (s'.inodes i).openCnt = (s.inodes i).openCnt

/-! ## One call -/

theorem le_nextFree {tab : Nat → Slot} : ∀ {n i : Nat}, i ≤ nextFree tab n i
  | 0, _ => Nat.le_refl _
  | n + 1, i => by
    unfold nextFree
    split
    · exact Nat.le_refl _
    · exact (Nat.le_succ i).trans le_nextFree

/-- The file goes into the first free slot from `fd_idx` on, where `fd_idx` is
then. -/
theorem sysOpen_room (h : Room s p) (i : Nat) : ∃ n < maxFd, (s.procs p).fdIdx ≤ n ∧ s.slot p n = .null ∧
    (∀ m < maxFd, (s.procs p).fdIdx ≤ m → s.slot p m = .null → n ≤ m) ∧
    (sysOpen s p (some i)).1 = n ∧ ((sysOpen s p (some i)).2.procs p).fdIdx = n ∧
    ∀ q m, (sysOpen s p (some i)).2.slot q m = if q = p ∧ m = n then .file s.nextFile else s.slot q m := by
  obtain ⟨fd, hlt, hle, hnull⟩ := h
  have first : ∀ m < maxFd, (s.procs p).fdIdx ≤ m → s.slot p m = .null →
      nextFree (s.procs p).fdTable (maxFd - (s.procs p).fdIdx) (s.procs p).fdIdx ≤ m := fun m hm hidx hfree =>
    (nextFree_spec (t := (s.procs p).fdTable) hfree hidx (by omega)).1
  have hjn := (nextFree_spec (t := (s.procs p).fdTable) hnull (n := maxFd - (s.procs p).fdIdx) hle (by omega)).2
  have hin : ¬ maxFd ≤ nextFree (s.procs p).fdTable (maxFd - (s.procs p).fdIdx) (s.procs p).fdIdx :=
    Nat.not_le.mpr (Nat.lt_of_le_of_lt (first fd hlt hle hnull) hlt)
  refine ⟨_, Nat.not_le.mp hin, le_nextFree, hjn, first, ?_, ?_, fun q m => ?_⟩
  · show (findUnusedFd (fileOpen (inodeReopen s i) i).2 p s.nextFile).1 = _
    exact congrArg Prod.fst (if_neg hin)
  · show ((findUnusedFd (fileOpen (inodeReopen s i) i).2 p s.nextFile).2.procs p).fdIdx = _
    rw [show (findUnusedFd (fileOpen (inodeReopen s i) i).2 p s.nextFile).2 = _ from congrArg Prod.snd (if_neg hin)]
    simp only [State.setSlot, State.setProc, Function.update_self]
    rfl
  · show (findUnusedFd (fileOpen (inodeReopen s i) i).2 p s.nextFile).2.slot q m = _
    rw [show (findUnusedFd (fileOpen (inodeReopen s i) i).2 p s.nextFile).2 = _ from congrArg Prod.snd (if_neg hin),
      slot_setSlot]
    exact if_congr Iff.rfl rfl (setFdIdx_slot (fileOpen (inodeReopen s i) i).2 p _ q m)

theorem sysOpen_pids (i : Nat) : (sysOpen s p (some i)).2.pids = s.pids := by
  show (findUnusedFd (fileOpen (inodeReopen s i) i).2 p s.nextFile).2.pids = s.pids
  unfold findUnusedFd
  dsimp only
  split <;> rfl

/-- Without one the table stays, and the inode has one opener more. -/
theorem sysOpen_noRoom (h : ¬ Room s p) (i : Nat) : (sysOpen s p (some i)).1 = -1 ∧
    (∀ q m, (sysOpen s p (some i)).2.slot q m = s.slot q m) ∧
      ((sysOpen s p (some i)).2.inodes i).openCnt = (s.inodes i).openCnt + 1 := by
  have hout : maxFd ≤ nextFree (s.procs p).fdTable (maxFd - (s.procs p).fdIdx) (s.procs p).fdIdx := by
    by_contra hlt
    have hle : (s.procs p).fdIdx ≤ nextFree (s.procs p).fdTable (maxFd - (s.procs p).fdIdx) (s.procs p).fdIdx :=
          le_nextFree
    exact h ⟨_, Nat.not_le.mp hlt, hle, nextFree_null (by omega)⟩
  refine ⟨?_, fun q m => ?_, ?_⟩
  · show (findUnusedFd (fileOpen (inodeReopen s i) i).2 p s.nextFile).1 = _
    exact congrArg Prod.fst (if_pos hout)
  · show (findUnusedFd (fileOpen (inodeReopen s i) i).2 p s.nextFile).2.slot q m = _
    rw [show (findUnusedFd (fileOpen (inodeReopen s i) i).2 p s.nextFile).2 = _ from congrArg Prod.snd (if_pos hout)]
    exact setFdIdx_slot (fileOpen (inodeReopen s i) i).2 p _ q m
  · show ((findUnusedFd (fileOpen (inodeReopen s i) i).2 p s.nextFile).2.inodes i).openCnt = _
    rw [show (findUnusedFd (fileOpen (inodeReopen s i) i).2 p s.nextFile).2 = _ from congrArg Prod.snd (if_pos hout)]
    show ((inodeReopen s i).inodes i).openCnt = _
    simp [inodeReopen, State.setInode]

/-! ## `fd_idx` over a run -/

/-- The search never begins at a descriptor of the console. -/
def Started (s : State) : Prop := ∀ q, 2 ≤ (s.procs q).fdIdx

theorem Started.setProc {pr : Proc} (h : Started s) (hpr : 2 ≤ pr.fdIdx) : Started (s.setProc p pr) := by
  intro q
  simp only [State.setProc, Function.update_apply]
  split
  · exact hpr
  · exact h q

theorem Started.setSlot (h : Started s) : Started (s.setSlot p n v) := h.setProc (h p)

theorem Started.same (h : Started s) (hp : t.procs = s.procs) : Started t := fun q => by
  rw [hp]
  exact h q

theorem Started.sysOpen {ino : Option Nat} (h : Started s) : Started (sysOpen s p ino).2 := by
  cases ino with
  | none => exact h
  | some i =>
    have hidx : Started (s.setProc p { s.procs p with
        fdIdx := nextFree (s.procs p).fdTable (maxFd - (s.procs p).fdIdx) (s.procs p).fdIdx }) :=
      h.setProc ((h p).trans le_nextFree)
    simp only [FdTable.sysOpen, findUnusedFd]
    split
    · exact hidx.same rfl
    · exact (hidx.setSlot (p := p) (v := .file s.nextFile)).same rfl

theorem dropStd_fdIdx (pr : Proc) (v : Slot) : (dropStd pr v).fdIdx = pr.fdIdx := by
  cases v <;> rfl

theorem Started.sysClose {fd : Int} (h : Started s) (hs : sysClose s p fd = some s') : Started s' := by
  simp only [FdTable.sysClose] at hs
  split at hs
  · exact Option.some.inj hs ▸ h
  · have hdrop : Started (s.setProc p (dropStd (s.procs p) (s.slot p fd.toNat))) :=
      h.setProc ((h p).trans (dropStd_fdIdx ..).ge)
    cases hv : s.slot p fd.toNat with
    | file f =>
      simp only [hv, Option.bind_eq_bind, Option.bind_eq_some_iff, Option.pure_def, Option.some.injEq] at hs hdrop
      obtain ⟨fl, -, rfl⟩ := hs
      split
      · exact (hdrop.same ((sameTables_setFile _).trans (sameTables_fileClose _)).procs).setSlot
      · exact (hdrop.same (sameTables_setFile _).procs).setSlot
    | null | stdin | stdout =>
      simp only [hv, Option.some.injEq] at hs hdrop
      exact hs ▸ hdrop.setSlot

theorem Started.shareSlot (h : Started s) (hs : shareSlot s p v = some s') : Started s' := by
  cases v with
  | null => exact Option.some.inj hs ▸ h
  | stdin | stdout => exact Option.some.inj hs ▸ h.setProc (h p)
  | file f =>
    obtain ⟨fl, -, rfl⟩ := Option.map_eq_some_iff.mp hs
    exact h.same rfl

theorem Started.sysDup2 {oldfd newfd r : Int} (h : Started s) (hs : sysDup2 s p oldfd newfd = some (r, s')) :
    Started s' := by
  simp only [FdTable.sysDup2] at hs
  split at hs
  · exact (Prod.mk.inj (Option.some.inj hs)).2 ▸ h
  split at hs
  · exact (Prod.mk.inj (Option.some.inj hs)).2 ▸ h
  split at hs
  · exact (Prod.mk.inj (Option.some.inj hs)).2 ▸ h
  split at hs
  · cases hs
  · simp only [Option.bind_eq_bind, Option.bind_eq_some_iff, Option.pure_def, Option.some.injEq, Prod.mk.injEq] at hs
    obtain ⟨s₁, h₁, s₂, h₂, -, rfl⟩ := hs
    have hshare := h.shareSlot h₁
    simp only [closeNew] at h₂
    split at h₂
    · obtain rfl := Option.some.inj h₂
      exact hshare.setSlot
    · exact (hshare.sysClose h₂).setSlot

theorem Started.processExit (h : Started s) (hs : processExit s p = some s') : Started s' := by
  simp only [FdTable.processExit, Option.bind_eq_bind, Option.bind_eq_some_iff, Option.pure_def, Option.some.injEq] at hs
  obtain ⟨t, ht, rfl⟩ := hs
  have keep : ∀ k u u', k < maxFd → Started u → exitFd p u k = some u' → Started u' := by
    intro k u u' _ hu hs
    simp only [exitFd] at hs
    split at hs
    · exact Option.some.inj hs ▸ hu
    · obtain ⟨w, hw, rfl⟩ := Option.map_eq_some_iff.mp hs
      exact (hu.sysClose hw).setSlot
  have hall : Started t := Run.run_range (I := fun _ => Started) keep h ht
  exact hall.same rfl

theorem Started.copyFd {ok : Nat → Bool} (h : Started s) (hs : copyFd p c ok s n = some s') : Started s' := by
  simp only [FdTable.copyFd] at hs
  split at hs
  · exact Option.some.inj hs ▸ h.setSlot
  · split at hs
    · exact Option.some.inj hs ▸ h
    · exact Option.some.inj hs ▸ h.setSlot
    · exact Option.some.inj hs ▸ h.setSlot
    · simp only [Option.bind_eq_bind, Option.bind_eq_some_iff, Option.pure_def] at hs
      obtain ⟨fl, -, hs⟩ := hs
      split at hs
      · obtain ⟨-, -, -, hdup, -⟩ := fileDuplicate_spec s fl
        exact Option.some.inj hs ▸ (h.same hdup).setSlot
      · exact Option.some.inj hs ▸ h.setSlot

theorem Started.doFork {ok : Nat → Bool} (h : Started s) (hs : doFork s p c ok = some s') : Started s' := by
  have hidx : 2 ≤ procInit.fdIdx := by decide
  have hinit : Started (processInit s c) := (h.setProc hidx).same rfl
  simp only [FdTable.doFork] at hs
  split at hs
  · exact hinit.processExit hs
  · simp only [Option.bind_eq_bind, Option.bind_eq_some_iff, Option.pure_def, Option.some.injEq] at hs
    obtain ⟨t, ht, rfl⟩ := hs
    have hall : Started t :=
      Run.run_range (I := fun _ => Started) (fun k u u' _ hu hs => hu.copyFd hs) hinit ht
    exact hall.setProc (hall p)

theorem Started.step {e : Event} (h : Started s) (hs : step s e = some s') : Started s' := by
  simp only [FdTable.step] at hs
  split at hs
  · cases hs
  · cases e with
    | sysOpen p ino => exact Option.some.inj hs ▸ h.sysOpen
    | sysDup2 p oldfd newfd =>
      obtain ⟨⟨r, _⟩, hd, rfl⟩ := Option.map_eq_some_iff.mp hs
      exact h.sysDup2 hd
    | sysClose p fd => exact h.sysClose hs
    | fork p c ok =>
      simp only at hs
      split at hs
      · cases hs
      · exact h.doFork hs
    | processExit p => exact h.processExit hs

theorem Started.run {p₀ : Nat} {es : List Event} (h : Run.run FdTable.step (boot p₀) es = some s) : Started s := by
  refine Run.run_invariant (G := fun _ _ => True) (I := Started) (fun _ _ _ hI _ hs => hI.step hs) (fun q => ?_) h
    (Run.always_of_mem _ fun _ _ _ => trivial)
  simp only [boot, processInit, State.setProc, Function.update_apply]
  split <;> decide

/-- A file that gets no slot stays open, or a free slot is not found. -/
theorem not_opensOrNot (h : ¬ Room s p) (i : Nat) :
    ¬ OpensOrNot s p i (sysOpen s p (some i)).1 (sysOpen s p (some i)).2 := by
  intro ho
  obtain ⟨hr, -, hcnt⟩ := sysOpen_noRoom h i
  by_cases hfree : HasFree s p
  · obtain ⟨n, -, -, -, hn, -⟩ := ho.free hfree
    omega
  · have := (ho.full hfree).2.2
    omega

/-- **`sys_open` finds a free descriptor, or leaks nothing**, exactly when some
slot from `fd_idx` on is free: then it takes the first of them. -/
theorem open_complete_iff {p₀ : Nat} {es : List Event} (hrun : Run.run step (boot p₀) es = some s) (p i : Nat) :
    OpensOrNot s p i (sysOpen s p (some i)).1 (sysOpen s p (some i)).2 ↔ Room s p := by
  refine ⟨fun h => by_contra fun hroom => not_opensOrNot hroom i h, fun hroom => ?_⟩
  obtain ⟨n, hlt, hle, hnull, -, hr, -, hslot⟩ := sysOpen_room hroom i
  have h2 : 2 ≤ n := (Started.run hrun p).trans hle
  refine ⟨fun _ => ⟨n, hlt, h2, hnull, hr, ?_, fun q m hne => ?_⟩, fun hfull => ?_⟩
  · rw [hslot, if_pos ⟨rfl, rfl⟩]
  · rw [hslot, if_neg hne]
  · exact absurd ⟨n, hlt, h2, hnull⟩ hfull

theorem open_complete_iff_reopen : ∃ s, Run.run step (boot 0) [.sysOpen 0 (some 7), .sysClose 0 2] = some s ∧
    (OpensOrNot s 0 7 (sysOpen s 0 (some 7)).1 (sysOpen s 0 (some 7)).2 ↔ Room s 0) := by
  obtain ⟨s, hs⟩ : ∃ s, Run.run step (boot 0) [.sysOpen 0 (some 7), .sysClose 0 2] = some s :=
    Option.isSome_iff_exists.mp (by decide)
  exact ⟨s, hs, open_complete_iff hs 0 7⟩

theorem boot_slot (n : Nat) : (boot 0).slot 0 n = .null ↔ 2 ≤ n := by
  show Function.update (Function.update (fun _ => Slot.null) 0 .stdin) 1 .stdout n = .null ↔ _
  simp only [Function.update_apply]
  split
  · simp_all
  · split
    · simp_all
    · simp only [true_iff]
      omega

/-- After `k` calls of `sys_open` the slots below `k + 2` are taken. -/
theorem open_fills (k : Nat) (hk : k + 2 ≤ maxFd) :
    ∃ s, Run.run step (boot 0) (List.replicate k (.sysOpen 0 (some 7))) = some s ∧ 0 ∈ s.pids ∧
      (s.procs 0).fdIdx ≤ k + 2 ∧ ∀ n, s.slot 0 n = .null ↔ k + 2 ≤ n := by
  induction k with
  | zero => exact ⟨boot 0, rfl, by decide, by decide, boot_slot⟩
  | succ k ih =>
    obtain ⟨s, hs, hp, hidx, hslots⟩ := ih (by omega)
    have hlt : k + 2 < maxFd := by omega
    have hnull : s.slot 0 (k + 2) = .null := (hslots _).mpr (Nat.le_refl _)
    obtain ⟨n, -, -, hn, hfirst, -, hidx', hslot⟩ := sysOpen_room ⟨k + 2, hlt, hidx, hnull⟩ 7
    obtain rfl : n = k + 2 := Nat.le_antisymm (hfirst _ hlt hidx hnull) ((hslots n).mp hn)
    have hstep : step s (.sysOpen 0 (some 7)) = some (sysOpen s 0 (some 7)).2 := if_neg (not_not_intro hp)
    refine ⟨(sysOpen s 0 (some 7)).2, ?_, by rwa [sysOpen_pids], by rw [hidx']; omega, fun m => ?_⟩
    · rw [List.replicate_succ', Run.run_append, hs, Option.bind_some]
      exact Run.run_cons.mpr ⟨_, hstep, rfl⟩
    · rw [hslot]
      by_cases hm : m = k + 2
      · rw [if_pos ⟨rfl, hm⟩, hm]
        simp
      · rw [if_neg fun e => hm e.2, hslots]
        omega

/-- 1534 files are open; one more is opened, and stays so. -/
theorem not_opensOrNot_full : ∃ s, Run.run step (boot 0) (List.replicate 1534 (.sysOpen 0 (some 7))) = some s ∧
    ¬ OpensOrNot s 0 7 (sysOpen s 0 (some 7)).1 (sysOpen s 0 (some 7)).2 := by
  obtain ⟨s, hs, -, -, hslots⟩ := open_fills 1534 (by decide)
  refine ⟨s, hs, not_opensOrNot ?_ 7⟩
  rintro ⟨fd, hlt, -, hnull⟩
  exact absurd ((hslots fd).mp hnull) (Nat.not_le.mpr hlt)

end PintosKaist.FdTable
