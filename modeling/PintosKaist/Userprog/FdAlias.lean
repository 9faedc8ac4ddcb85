/-
Which descriptors of a process share one open file, and what `fork` makes of
it: `__do_fork` copies slots 0 and 1 as they are and gives every other slot
that holds a file a file of its own.

`Wrote` is what a call does to the tables, a slot at a time. In every state
the processes reach, a slot holds an address that has been handed out and the
console counts are exact (`Tabled`).
-/
import PintosKaist.Userprog.FdTableFacts

namespace PintosKaist.FdTable

open Count

variable {s s' t : State} {p q c fd f : Nat} {v w : Slot} {ok : Nat → Bool}

/-- `STDIN` or `STDOUT`. -/
def Slot.isStd : Slot → Bool
  | .stdin | .stdout => true
  | _ => false

/-- `stdin_count` or `stdout_count`, by the sentinel it counts. -/
def Proc.uses (pr : Proc) : Slot → Int
  | .stdin => pr.stdinCount
  | .stdout => pr.stdoutCount
  | _ => 0

/-- One for a slot with the sentinel `w` in it. -/
def one (v w : Slot) : Int := if v = w then 1 else 0

/-- From `s` to `s'`, slot `fd` of `p` is set to `v`, and the console counts
of `p` are kept up. -/
structure Wrote (s s' : State) (p fd : Nat) (v : Slot) : Prop where
  slot : ∀ q n, s'.slot q n = if q = p ∧ n = fd then v else s.slot q n
  pids : s'.pids = s.pids
  nextFile : s.nextFile ≤ s'.nextFile
  uses : ∀ q w, w.isStd = true → (s'.procs q).uses w =
    (s.procs q).uses w + if q = p then one v w - one (s.slot p fd) w else 0

/-- Slots hold addresses that have been handed out, and the console counts of
a process say how many of its slots hold each sentinel. -/
structure Tabled (s : State) : Prop where
  fresh : ∀ p fd f, s.slot p fd = .file f → f < s.nextFile
  uses : ∀ p ∈ s.pids, ∀ w, w.isStd = true → (s.procs p).uses w = count (Finset.range maxFd) (s.slot p) w

theorem Tabled.wrote (h : Tabled s) (hw : Wrote s s' p fd v) (hfd : fd < maxFd)
    (hv : ∀ f, v = .file f → f < s'.nextFile) : Tabled s' := by
  refine ⟨fun q n f hf => ?_, fun q hq w hstd => ?_⟩
  · rw [hw.slot] at hf
    split at hf
    · exact hv f hf
    · exact Nat.lt_of_lt_of_le (h.fresh q n f hf) hw.nextFile
  · rw [hw.uses q w hstd, h.uses q (hw.pids ▸ hq) w hstd]
    by_cases hqp : q = p
    · subst hqp
      have hfun : s'.slot q = Function.update (s.slot q) fd v := by
        funext n
        rw [hw.slot, Function.update_apply]
        simp
      have := count_update (S := Finset.range maxFd) (g := s.slot q) (b := w) (c := v) (Finset.mem_range.mpr hfd)
      rw [hfun, if_pos rfl, one, one]
      split_ifs at this ⊢ <;> omega
    · have hcount : count (Finset.range maxFd) (s.slot q) w = count (Finset.range maxFd) (s'.slot q) w :=
        count_congr fun n _ => by rw [hw.slot, if_neg fun hn => hqp hn.1]
      rw [if_neg hqp, Int.add_zero, hcount]

theorem Tabled.congr (h : Tabled s) (hp : s'.procs = s.procs) (hpids : s'.pids ⊆ s.pids)
    (hn : s.nextFile ≤ s'.nextFile) : Tabled s' := by
  have hslot (q n : Nat) : s'.slot q n = s.slot q n := by rw [State.slot, State.slot, hp]
  refine ⟨fun q n f hf => ?_, fun q hq w hstd => ?_⟩
  · rw [hslot] at hf
    exact Nat.lt_of_lt_of_le (h.fresh q n f hf) hn
  · have hcount : count (Finset.range maxFd) (s.slot q) w = count (Finset.range maxFd) (s'.slot q) w :=
      count_congr fun n _ => (hslot q n).symm
    rw [hp, h.uses q (hpids hq) w hstd, hcount]

/-- A process that has a sentinel in a slot has a count for it. -/
theorem Tabled.uses_pos (h : Tabled s) (hp : p ∈ s.pids) (hfd : fd < maxFd) (hs : s.slot p fd = w)
    (hstd : w.isStd = true) : (s.procs p).uses w ≠ 0 := by
  rw [h.uses p hp w hstd]
  have := count_pos (S := Finset.range maxFd) (g := s.slot p) (Finset.mem_range.mpr hfd) hs
  omega

/-! ## What each call writes -/

theorem uses_dropStd (pr : Proc) (v : Slot) (h : w.isStd = true) : (dropStd pr v).uses w = pr.uses w - one v w := by
  cases v <;> cases w <;> simp_all [dropStd, Proc.uses, one, Slot.isStd]

/-- Only the files of `s` change, and the counters of inodes. -/
structure SameTables (s s' : State) : Prop where
  procs : s'.procs = s.procs
  pids : s'.pids = s.pids
  nextFile : s.nextFile ≤ s'.nextFile

theorem SameTables.trans (h : SameTables s t) (h' : SameTables t s') : SameTables s s' :=
  ⟨h'.procs.trans h.procs, h'.pids.trans h.pids, h.nextFile.trans h'.nextFile⟩

theorem SameTables.tabled (h : SameTables s s') (ht : Tabled s) : Tabled s' :=
  ht.congr h.procs h.pids.subset h.nextFile

theorem SameTables.slot (h : SameTables s s') (q n : Nat) : s'.slot q n = s.slot q n := by
  rw [State.slot, State.slot, h.procs]

theorem sameTables_setFile (fl : Option File) : SameTables s (s.setFile f fl) := ⟨rfl, rfl, le_rfl⟩

theorem sameTables_fileClose (fl : File) : SameTables s (fileClose s f fl) := by
  refine ⟨?_, fileClose_pids s f fl, (fileClose_nextFile s f fl).ge⟩
  unfold fileClose inodeClose fileAllowWrite State.setFile State.setInode
  split <;> rfl

theorem sysClose_wrote (hfd : fd < maxFd) (hs : sysClose s p fd = some s') : Wrote s s' p fd .null := by
  have hin : ¬ ((fd : Int) < 0 ∨ (maxFd : Int) ≤ fd) := by omega
  simp only [sysClose, if_neg hin, Int.toNat_natCast] at hs
  -- the sentinel is counted down first, then the file goes, then the slot
  have close : ∀ t, SameTables (s.setProc p (dropStd (s.procs p) (s.slot p fd))) t →
      Wrote s (t.setSlot p fd .null) p fd .null := by
    intro t ht
    refine ⟨fun q n => ?_, ht.pids, ht.nextFile, fun q w hw => ?_⟩
    · rw [slot_setSlot, ht.slot, slot_setProc s p q n (dropStd_fdTable _ _)]
    · by_cases hq : q = p
      · subst hq
        have hu : ((t.setSlot q fd .null).procs q).uses w = (t.procs q).uses w := by
          cases w <;> simp [Proc.uses, State.setSlot, State.setProc]
        have ho : one .null w = 0 := by cases w <;> simp_all [one, Slot.isStd]
        rw [hu, ht.procs, if_pos rfl, ho]
        simp only [State.setProc, Function.update_self]
        rw [uses_dropStd _ _ hw]
        omega
      · rw [if_neg hq, Int.add_zero]
        simp [State.setSlot, State.setProc, hq, ht.procs]
  cases hv : s.slot p fd with
  | file f =>
    simp only [hv, Option.bind_eq_bind, Option.bind_eq_some_iff, Option.pure_def, Option.some.injEq] at hs close
    obtain ⟨fl, -, rfl⟩ := hs
    split
    · exact close _ ((sameTables_setFile _).trans (sameTables_fileClose _))
    · exact close _ (sameTables_setFile _)
  | null | stdin | stdout =>
    simp only [hv, Option.some.injEq] at hs close
    exact hs ▸ close _ ⟨rfl, rfl, le_rfl⟩

theorem one_null (h : w.isStd = true) : one .null w = 0 := by
  cases w <;> simp_all [one, Slot.isStd]

/-- `sys_dup2` raises the count of the sentinel that is about to have one more
slot. -/
theorem shareSlot_spec {t : State} (ht : shareSlot s p v = some t) : (∀ q n, t.slot q n = s.slot q n) ∧
    t.pids = s.pids ∧ t.nextFile = s.nextFile ∧
      ∀ q w, w.isStd = true → (t.procs q).uses w = (s.procs q).uses w + if q = p then one v w else 0 := by
  cases v with
  | null =>
    obtain rfl : s = t := by simpa [shareSlot] using ht
    refine ⟨fun _ _ => rfl, rfl, rfl, fun q w hw => ?_⟩
    rw [one_null hw]
    split <;> omega
  | stdin | stdout =>
    simp only [shareSlot, Option.some.injEq] at ht
    subst ht
    refine ⟨fun q n => slot_setProc s p q n rfl, rfl, rfl, fun q w hw => ?_⟩
    simp only [State.setProc, Function.update_apply]
    by_cases hq : q = p
    · subst hq
      cases w <;> simp_all [Proc.uses, one, Slot.isStd]
    · simp [hq]
  | file f =>
    simp only [shareSlot, Option.map_eq_some_iff] at ht
    obtain ⟨fl, -, rfl⟩ := ht
    refine ⟨fun _ _ => rfl, rfl, rfl, fun q w hw => ?_⟩
    have ho : one (.file f) w = 0 := by cases w <;> simp_all [one, Slot.isStd]
    rw [ho]
    split <;> simp [State.setFile]

theorem uses_setSlot {t : State} {q : Nat} : ((t.setSlot p fd v).procs q).uses w = (t.procs q).uses w := by
  simp only [State.setSlot, State.setProc, Function.update_apply]
  split
  · rename_i hq
    subst hq
    cases w <;> rfl
  · rfl

/-- A `sys_dup2` that does something puts what is in `oldfd` into `newfd`. -/
theorem sysDup2_wrote {oldfd newfd : Nat} {r : Int} (ho : oldfd < maxFd) (hn : newfd < maxFd) (hne : oldfd ≠ newfd)
    (hs : s.slot p oldfd ≠ .null) (hd : sysDup2 s p oldfd newfd = some (r, s')) :
    r = newfd ∧ Wrote s s' p newfd (s.slot p oldfd) := by
  simp only [sysDup2] at hd
  rw [if_neg (by omega), if_neg (by simpa using hs), if_neg (by omega), if_neg (by omega)] at hd
  simp only [Int.toNat_natCast, Option.bind_eq_bind, Option.bind_eq_some_iff, Option.pure_def, Option.some.injEq,
    Prod.mk.injEq] at hd
  obtain ⟨s₁, h₁, s₂, h₂, rfl, rfl⟩ := hd
  obtain ⟨hslot, hpids, hnext, huses⟩ := shareSlot_spec h₁
  -- the slot that is closed, and what it counted
  obtain ⟨hslot₂, hpids₂, hnext₂, huses₂⟩ : (∀ q n, ¬ (q = p ∧ n = newfd) → s₂.slot q n = s₁.slot q n) ∧
      s₂.pids = s₁.pids ∧ s₁.nextFile ≤ s₂.nextFile ∧ ∀ q w, w.isStd = true →
        (s₂.procs q).uses w = (s₁.procs q).uses w - if q = p then one (s₁.slot p newfd) w else 0 := by
    simp only [closeNew, Int.toNat_natCast] at h₂
    split at h₂
    · rename_i hnull
      obtain rfl := Option.some.inj h₂
      refine ⟨fun _ _ _ => rfl, rfl, le_rfl, fun q w hw => ?_⟩
      rw [hnull, one_null hw]
      split <;> omega
    · have hw := sysClose_wrote hn h₂
      refine ⟨fun q n h => by rw [hw.slot, if_neg h], hw.pids, hw.nextFile, fun q w hstd => ?_⟩
      rw [hw.uses q w hstd, one_null hstd]
      split <;> omega
  have hold : s₂.slot p oldfd = s.slot p oldfd := by rw [hslot₂ p oldfd fun h => hne h.2, hslot]
  refine ⟨rfl, fun q n => ?_, by rw [pids_setSlot, hpids₂, hpids], ?_, fun q w hw => ?_⟩
  · rw [slot_setSlot, hold]
    split
    · rfl
    · rename_i h
      rw [hslot₂ q n h, hslot]
  · rw [nextFile_setSlot, ← hnext]
    exact hnext₂
  · rw [uses_setSlot, huses₂ q w hw, huses q w hw, hslot]
    split <;> omega

theorem nextFree_null {tab : Nat → Slot} : ∀ {n i : Nat}, nextFree tab n i < i + n → tab (nextFree tab n i) = .null
  | 0, i, h => by simp [nextFree] at h
  | n + 1, i, h => by
    unfold nextFree at h ⊢
    split
    · assumption
    · rename_i hne
      rw [if_neg hne] at h
      exact nextFree_null (by omega)

theorem setFdIdx_slot (s : State) (p i q n : Nat) :
    (s.setProc p { s.procs p with fdIdx := i }).slot q n = s.slot q n := slot_setProc s p q n rfl

theorem setFdIdx_uses (s : State) (p i q : Nat) :
    ((s.setProc p { s.procs p with fdIdx := i }).procs q).uses w = (s.procs q).uses w := by
  simp only [State.setProc, Function.update_apply]
  split
  · rename_i hq
    subst hq
    cases w <;> rfl
  · rfl

/-- `find_unused_fd` puts the file into an empty slot, or finds none. -/
theorem findUnusedFd_cases (s : State) (p f : Nat) : (∃ i < maxFd, Wrote s (findUnusedFd s p f).2 p i (.file f)) ∨
    ∃ i, (findUnusedFd s p f).2 = s.setProc p { s.procs p with fdIdx := i } := by
  simp only [findUnusedFd]
  generalize hi : nextFree (s.procs p).fdTable (maxFd - (s.procs p).fdIdx) (s.procs p).fdIdx = i
  split
  · exact .inr ⟨i, rfl⟩
  · have hnull : s.slot p i = .null := by
      rw [← hi]
      exact nextFree_null (by omega)
    refine .inl ⟨i, by omega, fun q n => ?_, rfl, le_rfl, fun q w hw => ?_⟩
    · rw [slot_setSlot, setFdIdx_slot]
    · have ho : one (.file f) w = 0 := by cases w <;> simp_all [one, Slot.isStd]
      rw [uses_setSlot, setFdIdx_uses, hnull, one_null hw, ho]
      split <;> omega

theorem Tabled.setFdIdx {i : Nat} (h : Tabled s) : Tabled (s.setProc p { s.procs p with fdIdx := i }) := by
  refine ⟨fun q n f hf => h.fresh q n f (by rwa [setFdIdx_slot] at hf), fun q hq w hw => ?_⟩
  have hcount : count (Finset.range maxFd) (s.slot q) w =
      count (Finset.range maxFd) ((s.setProc p { s.procs p with fdIdx := i }).slot q) w :=
    count_congr fun n _ => (setFdIdx_slot s p i q n).symm
  rw [setFdIdx_uses, h.uses q hq w hw, hcount]

theorem Tabled.sysOpen {ino : Option Nat} (h : Tabled s) : Tabled (sysOpen s p ino).2 := by
  cases ino with
  | none => exact h
  | some i =>
    have h₁ : Tabled (fileOpen (inodeReopen s i) i).2 := h.congr rfl subset_rfl (Nat.le_succ _)
    obtain ⟨fd, hfd, hw⟩ | ⟨j, hj⟩ := findUnusedFd_cases (fileOpen (inodeReopen s i) i).2 p s.nextFile
    · refine h₁.wrote hw hfd fun f hf => Nat.lt_of_lt_of_le ?_ hw.nextFile
      cases hf
      exact Nat.lt_succ_self _
    · show Tabled (findUnusedFd (fileOpen (inodeReopen s i) i).2 p s.nextFile).2
      rw [hj]
      exact h₁.setFdIdx

theorem Tabled.sysClose {fd : Int} (h : Tabled s) (hs : sysClose s p fd = some s') : Tabled s' := by
  by_cases hin : fd < 0 ∨ maxFd ≤ fd
  · simp only [FdTable.sysClose, if_pos hin, Option.some.injEq] at hs
    exact hs ▸ h
  · obtain ⟨n, rfl⟩ := Int.eq_ofNat_of_zero_le (by omega : 0 ≤ fd)
    have hn : n < maxFd := by omega
    exact h.wrote (sysClose_wrote hn hs) hn (by simp)

theorem Tabled.sysDup2 {oldfd newfd r : Int} (h : Tabled s) (hs : sysDup2 s p oldfd newfd = some (r, s')) :
    Tabled s' := by
  by_cases ho : oldfd < 0 ∨ maxFd ≤ oldfd
  · simp only [FdTable.sysDup2, if_pos ho, Option.some.injEq, Prod.mk.injEq] at hs
    exact hs.2 ▸ h
  obtain ⟨o, rfl⟩ := Int.eq_ofNat_of_zero_le (by omega : 0 ≤ oldfd)
  by_cases hnull : s.slot p o = .null
  · simp only [FdTable.sysDup2, if_neg ho, Int.toNat_natCast, if_pos hnull, Option.some.injEq, Prod.mk.injEq] at hs
    exact hs.2 ▸ h
  by_cases heq : (o : Int) = newfd
  · simp only [FdTable.sysDup2, if_neg ho, Int.toNat_natCast, if_neg hnull, if_pos heq, Option.some.injEq,
      Prod.mk.injEq] at hs
    exact hs.2 ▸ h
  by_cases hn : newfd < 0 ∨ maxFd ≤ newfd
  · simp only [FdTable.sysDup2, if_neg ho, Int.toNat_natCast, if_neg hnull, if_neg heq, if_pos hn] at hs
    cases hs
  obtain ⟨n, rfl⟩ := Int.eq_ofNat_of_zero_le (by omega : 0 ≤ newfd)
  obtain ⟨-, hw⟩ := sysDup2_wrote (by omega) (by omega) (fun e => heq (by rw [e])) hnull hs
  exact h.wrote hw (by omega) fun f hf => Nat.lt_of_lt_of_le (h.fresh p o f hf) hw.nextFile

theorem Tabled.processExit (h : Tabled s) (hs : processExit s p = some s') : Tabled s' := by
  simp only [FdTable.processExit, Option.bind_eq_bind, Option.bind_eq_some_iff, Option.pure_def,
    Option.some.injEq] at hs
  obtain ⟨t, ht, rfl⟩ := hs
  have keep : ∀ k u u', k < maxFd → Tabled u → exitFd p u k = some u' → Tabled u' := by
    intro k u u' hk hu hs
    simp only [exitFd] at hs
    split at hs
    · exact Option.some.inj hs ▸ hu
    · obtain ⟨v, hv, rfl⟩ := Option.map_eq_some_iff.mp hs
      have hw := sysClose_wrote hk hv
      have hnull : v.slot p k = .null := by rw [hw.slot, if_pos ⟨rfl, rfl⟩]
      have hw' : Wrote v (v.setSlot p k .null) p k .null := by
        refine ⟨fun q n => slot_setSlot .., rfl, le_rfl, fun q w hstd => ?_⟩
        rw [uses_setSlot, hnull, one_null hstd]
        split <;> omega
      exact (hu.wrote hw hk (by simp)).wrote hw' hk (by simp)
  have htab : Tabled t := Run.run_range (I := fun _ => Tabled) keep h ht
  exact htab.congr rfl (Finset.erase_subset ..) le_rfl

/-! ## `fork` -/

theorem procInit_uses (h : w.isStd = true) : procInit.uses w = count (Finset.range maxFd) procInit.fdTable w := by
  have h₀ : count (Finset.range maxFd) (fun _ => Slot.null) w = 0 :=
    count_eq_zero.mpr fun _ _ e => by simp [← e, Slot.isStd] at h
  have h₁ := count_update (S := Finset.range maxFd) (g := fun _ => Slot.null) (i := 0) (b := w) (c := .stdin)
    (Finset.mem_range.mpr (by decide))
  have h₂ := count_update (S := Finset.range maxFd) (g := Function.update (fun _ => Slot.null) 0 .stdin) (i := 1) (b := w)
    (c := .stdout) (Finset.mem_range.mpr (by decide))
  rw [h₀] at h₁
  simp only [Function.update_apply] at h₂
  cases w with
  | stdin | stdout => simp_all [procInit, Proc.uses]
  | null | file _ => simp [Slot.isStd] at h

/-- A process that gets its table has the console in it, once each way. -/
theorem Tabled.processInit (h : Tabled s) : Tabled (processInit s c) := by
  have hslot (q n : Nat) : (FdTable.processInit s c).slot q n = if q = c then procInit.fdTable n else s.slot q n := by
    simp only [FdTable.processInit, State.slot, State.setProc, Function.update_apply]
    split <;> rfl
  refine ⟨fun q n f hf => ?_, fun q hq w hw => ?_⟩
  · rw [hslot] at hf
    split at hf
    · simp only [procInit, Function.update_apply] at hf
      split at hf
      · cases hf
      · split at hf <;> cases hf
    · exact h.fresh q n f hf
  · by_cases hqc : q = c
    · subst hqc
      have hu : ((FdTable.processInit s q).procs q).uses w = procInit.uses w := by
        simp [FdTable.processInit, State.setProc]
      have hcount : count (Finset.range maxFd) ((FdTable.processInit s q).slot q) w =
          count (Finset.range maxFd) procInit.fdTable w := count_congr fun n _ => by rw [hslot, if_pos rfl]
      rw [hu, hcount, procInit_uses hw]
    · have hu : ((FdTable.processInit s c).procs q).uses w = (s.procs q).uses w := by
        simp [FdTable.processInit, State.setProc, hqc]
      have hcount : count (Finset.range maxFd) ((FdTable.processInit s c).slot q) w =
          count (Finset.range maxFd) (s.slot q) w := count_congr fun n _ => by rw [hslot, if_neg hqc]
      have hq' : q ∈ s.pids := by simpa [FdTable.processInit, hqc] using hq
      rw [hu, hcount, h.uses q hq' w hw]

/-- What the copy loop of `__do_fork` has done to the child `c` when slots
below `k` are done: `t` is the state, `s` the one before the fork. -/
structure Copies (s : State) (p c : Nat) (ok : Nat → Bool) (k : Nat) (t : State) : Prop where
  pids : t.pids = insert c s.pids
  other : ∀ q, q ≠ c → t.procs q = s.procs q
  nextFile : s.nextFile ≤ t.nextFile
  low : ∀ n < k, n ≤ 1 → t.slot c n = s.slot p n
  noFile : ∀ n < k, (s.slot p n).isFile = false → t.slot c n = s.slot p n
  /-- A file is duplicated, if there is memory for it. -/
  file : ∀ n < k, 2 ≤ n → (s.slot p n).isFile = true →
    if ok n then ∃ f, t.slot c n = .file f ∧ s.nextFile ≤ f ∧ f < t.nextFile else t.slot c n = .null
  /-- No two slots get the same duplicate. -/
  apart : ∀ m < k, ∀ n < k, 2 ≤ m → 2 ≤ n → ∀ f, t.slot c m = .file f → t.slot c n = .file f → m = n
  rest : ∀ n, k ≤ n → 2 ≤ n → t.slot c n = .null

/-- A file in a slot that is done was there when the slot was done. -/
theorem Copies.file_lt {k n f : Nat} (h : Copies s p c ok k t) (hk : n < k) (h2 : 2 ≤ n) (hf : t.slot c n = .file f) :
    f < t.nextFile := by
  cases hs : (s.slot p n).isFile with
  | false =>
    rw [h.noFile n hk hs] at hf
    simp [hf, Slot.isFile] at hs
  | true =>
    have := h.file n hk h2 hs
    split at this
    · obtain ⟨g, hg, -, hlt⟩ := this
      rw [hg] at hf
      cases hf
      exact hlt
    · rw [this] at hf
      cases hf

theorem Copies.setSlot {k : Nat} {t' : State} (h : Copies s p c ok k t) (hprocs : t'.procs = t.procs)
    (hpids : t'.pids = t.pids) (hn : t.nextFile ≤ t'.nextFile) (hlow : k ≤ 1 → v = s.slot p k)
    (hno : (s.slot p k).isFile = false → v = s.slot p k)
    (hfile : 2 ≤ k → (s.slot p k).isFile = true →
      if ok k then v = .file t.nextFile ∧ t.nextFile < t'.nextFile else v = .null) :
    Copies s p c ok (k + 1) (t'.setSlot c k v) := by
  have hslot (n : Nat) : (t'.setSlot c k v).slot c n = if n = k then v else t.slot c n := by
    rw [slot_setSlot, State.slot, State.slot, hprocs]
    simp
  have hnew {f : Nat} (h2 : 2 ≤ k) (hf : v = .file f) : f = t.nextFile := by
    cases hs : (s.slot p k).isFile with
    | false =>
      rw [hno hs] at hf
      simp [hf, Slot.isFile] at hs
    | true =>
      have := hfile h2 hs
      split at this
      · rw [this.1] at hf
        cases hf
        rfl
      · rw [this] at hf
        cases hf
  refine ⟨hpids.trans h.pids, fun q hq => ?_, h.nextFile.trans hn, fun n hk h1 => ?_, fun n hk hs => ?_,
    fun n hk h2 hs => ?_, fun m hm n hk h2 h2' f hf hf' => ?_, fun n hk h2 => ?_⟩
  · rw [← h.other q hq, ← hprocs]
    simp [State.setSlot, State.setProc, hq]
  · rw [hslot]
    split
    · rename_i e
      exact e ▸ hlow (e ▸ h1)
    · exact h.low n (by omega) h1
  · rw [hslot]
    split
    · rename_i e
      exact e ▸ hno (e ▸ hs)
    · exact h.noFile n (by omega) hs
  · rw [hslot, nextFile_setSlot]
    by_cases e : n = k
    · subst e
      have := hfile h2 hs
      rw [if_pos rfl]
      split
      · rename_i hok
        rw [if_pos hok] at this
        exact ⟨_, this.1, h.nextFile, this.2⟩
      · rename_i hok
        rwa [if_neg hok] at this
    · have := h.file n (by omega) h2 hs
      rw [if_neg e]
      split
      · rename_i hok
        rw [if_pos hok] at this
        obtain ⟨f, hf, hle, hlt⟩ := this
        exact ⟨f, hf, hle, by omega⟩
      · rename_i hok
        rwa [if_neg hok] at this
  · rw [hslot] at hf hf'
    split at hf <;> split at hf'
    · omega
    · rename_i e e'
      have h₁ := hnew (by omega) hf
      have h₂ := h.file_lt (by omega) h2' hf'
      omega
    · rename_i e e'
      have h₁ := hnew (by omega) hf'
      have h₂ := h.file_lt (by omega) h2 hf
      omega
    · exact h.apart m (by omega) n (by omega) h2 h2' f hf hf'
  · rw [hslot, if_neg (by omega)]
    exact h.rest n (by omega) h2

theorem Copies.congr {k : Nat} {t' : State} (h : Copies s p c ok k t) (hpids : t'.pids = t.pids)
    (hother : ∀ q, q ≠ c → t'.procs q = t.procs q) (hn : t'.nextFile = t.nextFile)
    (hslot : ∀ n, t'.slot c n = t.slot c n) : Copies s p c ok k t' where
  pids := hpids.trans h.pids
  other q hq := (hother q hq).trans (h.other q hq)
  nextFile := hn ▸ h.nextFile
  low n := hslot n ▸ h.low n
  noFile n := hslot n ▸ h.noFile n
  file n := by
    rw [hslot, hn]
    exact h.file n
  apart m hm n hk := by
    rw [hslot, hslot]
    exact h.apart m hm n hk
  rest n := hslot n ▸ h.rest n

theorem setSlot_self (h : s.slot p fd = v) : s.setSlot p fd v = s := by
  have hfun : Function.update (s.procs p).fdTable fd v = (s.procs p).fdTable := h ▸ Function.update_eq_self ..
  rw [State.setSlot, hfun, State.setProc]
  exact congrArg (fun procs => { s with procs := procs }) (Function.update_eq_self ..)

theorem copyFd_copies {k : Nat} {u : State} (hpc : p ≠ c) (h : Copies s p c ok k t)
    (hu : copyFd p c ok t k = some u) : Copies s p c ok (k + 1) u := by
  have hsrc : t.slot p k = s.slot p k := by rw [State.slot, State.slot, h.other p hpc]
  simp only [copyFd, hsrc] at hu
  split at hu
  · rename_i hk
    obtain rfl := Option.some.inj hu
    exact h.setSlot rfl rfl le_rfl (fun _ => rfl) (fun _ => rfl) fun h2 => absurd hk (by omega)
  rename_i hk
  cases hv : s.slot p k with
  | null =>
    simp only [hv, Option.some.injEq] at hu
    subst hu
    rw [← setSlot_self (h.rest k le_rfl (by omega))]
    exact h.setSlot rfl rfl le_rfl (fun hk' => absurd hk' hk) (fun _ => hv.symm)
      fun _ hs => by simp [hv, Slot.isFile] at hs
  | stdin | stdout =>
    simp only [hv, Option.some.injEq] at hu
    subst hu
    exact h.setSlot rfl rfl le_rfl (fun hk' => absurd hk' hk) (fun _ => hv.symm)
      fun _ hs => by simp [hv, Slot.isFile] at hs
  | file f =>
    simp only [hv, Option.bind_eq_bind, Option.bind_eq_some_iff, Option.pure_def] at hu
    obtain ⟨fl, -, hu⟩ := hu
    split at hu
    · rename_i hok
      obtain rfl := Option.some.inj hu
      obtain ⟨hg, hn, hpids, hprocs, -⟩ := fileDuplicate_spec t fl
      rw [hg]
      refine h.setSlot hprocs hpids (by omega) (fun hk' => absurd hk' hk) (fun hs => by simp [hv, Slot.isFile] at hs)
        fun _ _ => ?_
      rw [if_pos hok]
      exact ⟨rfl, by omega⟩
    · rename_i hok
      obtain rfl := Option.some.inj hu
      refine h.setSlot rfl rfl le_rfl (fun hk' => absurd hk' hk) (fun hs => by simp [hv, Slot.isFile] at hs)
        fun _ _ => ?_
      rw [if_neg hok]

/-- The console counts of the child are those of the parent. -/
theorem doFork_copies (hp : p ∈ s.pids) (hc : c ∉ s.pids) (hi : (s.procs p).fdIdx ≠ maxFd)
    (hs : doFork s p c ok = some s') :
    Copies s p c ok maxFd s' ∧ ∀ w, w.isStd = true → (s'.procs c).uses w = (s.procs p).uses w := by
  have hpc : p ≠ c := fun e => hc (e ▸ hp)
  simp only [doFork, if_neg hi, Option.bind_eq_bind, Option.bind_eq_some_iff, Option.pure_def, Option.some.injEq] at hs
  obtain ⟨t, ht, rfl⟩ := hs
  have h₀ : Copies s p c ok 0 (processInit s c) := by
    refine ⟨rfl, fun q hq => ?_, le_rfl, by simp, by simp, by simp, by simp, fun n _ h2 => ?_⟩
    · simp [processInit, State.setProc, hq]
    · have h₀ : n ≠ 0 := by omega
      have h₁ : n ≠ 1 := by omega
      simp [processInit, State.slot, State.setProc, procInit, h₀, h₁]
  have h := Run.run_range (fun k t u _ hI hu => copyFd_copies hpc hI hu) h₀ ht
  have hparent : t.procs p = s.procs p := h.other p hpc
  refine ⟨h.congr rfl (fun q hq => ?_) rfl fun n => slot_setProc _ _ _ _ rfl, fun w hw => ?_⟩
  · simp [State.setProc, hq]
  · rw [← hparent]
    cases w <;> simp_all [Proc.uses, State.setProc, Slot.isStd]

/-- The files of the child are known to the state after the fork. -/
theorem Copies.fresh {n f : Nat} (h : Copies s p c ok maxFd t) (ht : Tabled s) (hf : t.slot c n = .file f) :
    f < t.nextFile := by
  by_cases hn : n < maxFd
  · by_cases h1 : n ≤ 1
    · exact Nat.lt_of_lt_of_le (ht.fresh p n f (h.low n hn h1 ▸ hf)) h.nextFile
    · exact h.file_lt hn (by omega) hf
  · have hmax : maxFd = 1536 := rfl
    rw [h.rest n (by omega) (by omega)] at hf
    cases hf

theorem Tabled.doFork (h : Tabled s) (hp : p ∈ s.pids) (hc : c ∉ s.pids) (hs : doFork s p c ok = some s') :
    Tabled s' := by
  by_cases hi : (s.procs p).fdIdx = maxFd
  · rw [FdTable.doFork, if_pos hi] at hs
    exact h.processInit.processExit hs
  obtain ⟨hcop, huses⟩ := doFork_copies hp hc hi hs
  have hother {q : Nat} (hq : q ≠ c) (n : Nat) : s'.slot q n = s.slot q n := by
    rw [State.slot, State.slot, hcop.other q hq]
  -- a slot of the child holds a sentinel exactly when that of the parent does
  have hstd {n : Nat} {w : Slot} (hn : n < maxFd) (hw : w.isStd = true) : s.slot p n = w ↔ s'.slot c n = w := by
    cases hf : (s.slot p n).isFile with
    | false => rw [hcop.noFile n hn hf]
    | true =>
      by_cases h1 : n ≤ 1
      · rw [hcop.low n hn h1]
      · have := hcop.file n hn (by omega) hf
        refine iff_of_false (fun e => ?_) fun e => ?_
        · subst e
          cases hv : s.slot p n <;> simp_all [Slot.isFile, Slot.isStd]
        · subst e
          split at this
          · obtain ⟨f, hf', -⟩ := this
            simp [hf', Slot.isStd] at hw
          · simp [this, Slot.isStd] at hw
  refine ⟨fun q n f hf => ?_, fun q hq w hw => ?_⟩
  · by_cases hqc : q = c
    · subst hqc
      exact hcop.fresh h hf
    · rw [hother hqc] at hf
      exact Nat.lt_of_lt_of_le (h.fresh q n f hf) hcop.nextFile
  · by_cases hqc : q = c
    · subst hqc
      have hcount : count (Finset.range maxFd) (s'.slot q) w = count (Finset.range maxFd) (s.slot p) w :=
        count_congr_iff fun n hn => (hstd (Finset.mem_range.mp hn) hw).symm
      rw [huses w hw, hcount, h.uses p hp w hw]
    · have hcount : count (Finset.range maxFd) (s'.slot q) w = count (Finset.range maxFd) (s.slot q) w :=
        count_congr fun n _ => hother hqc n
      have hq' : q ∈ s.pids := by simpa [hcop.pids, hqc] using hq
      rw [hcop.other q hqc, hcount, h.uses q hq' w hw]

theorem Tabled.step {e : Event} (h : Tabled s) (hs : step s e = some s') : Tabled s' := by
  unfold FdTable.step at hs
  split at hs
  · cases hs
  rename_i hp
  simp only [not_not] at hp
  cases e with
  | sysOpen p ino =>
    obtain rfl := Option.some.inj hs
    exact h.sysOpen
  | sysDup2 p oldfd newfd =>
    obtain ⟨⟨r, t⟩, ht, rfl⟩ := Option.map_eq_some_iff.mp hs
    exact h.sysDup2 ht
  | sysClose p fd => exact h.sysClose hs
  | fork p c ok =>
    simp only [Option.ite_none_left_eq_some] at hs
    exact h.doFork hp hs.1 hs.2
  | processExit p => exact h.processExit hs

theorem boot_tabled (p : Nat) : Tabled (boot p) := by
  have h : Tabled ⟨fun _ => none, 0, fun _ => ⟨0, 0⟩, fun _ => procInit, ∅⟩ := by
    refine ⟨fun q n f hf => ?_, fun q hq => absurd hq (Finset.notMem_empty q)⟩
    simp only [State.slot, procInit, Function.update_apply] at hf
    split at hf
    · cases hf
    · split at hf <;> cases hf
  exact h.processInit

theorem Tabled.run {p₀ : Nat} {es : List Event} (h : Run.run FdTable.step (boot p₀) es = some s) : Tabled s :=
  Run.run_invariant (G := fun _ _ => True) (fun _ _ _ hs _ hr => hs.step hr) (boot_tabled p₀) h
    (Run.always_of_mem _ fun _ _ _ => trivial)

/-! ## Aliases -/

/-- Descriptors `i` and `j` of `p` are one open file. -/
def Shares (s : State) (p i j : Nat) : Prop := (s.slot p i).isFile = true ∧ s.slot p i = s.slot p j

/-- No file is held by two slots of `p`, one of them a slot that is duplicated,
and there is memory for the duplicates. -/
def Unaliased (s : State) (p : Nat) (ok : Nat → Bool) : Prop :=
  (∀ i < maxFd, ∀ j < maxFd, 2 ≤ j → i ≠ j → ¬ Shares s p i j) ∧
    ∀ i < maxFd, 2 ≤ i → (s.slot p i).isFile = true → ok i = true

/-- A duplicate is held by the one slot it was made for. -/
theorem Copies.alone {i j : Nat} (h : Copies s p c ok maxFd t) (ht : Tabled s) (hi : i < maxFd) (hj : j < maxFd)
    (h2 : 2 ≤ j) (hs : Shares t c i j) : i = j := by
  obtain ⟨hf, he⟩ := hs
  -- what is in slot `j` is a duplicate
  obtain ⟨f, hjf, hle⟩ : ∃ f, t.slot c j = .file f ∧ s.nextFile ≤ f := by
    cases hsj : (s.slot p j).isFile with
    | false =>
      rw [he, h.noFile j hj hsj, hsj] at hf
      cases hf
    | true =>
      have := h.file j hj h2 hsj
      split at this
      · obtain ⟨f, hjf, hle, -⟩ := this
        exact ⟨f, hjf, hle⟩
      · rw [he, this] at hf
        cases hf
  by_cases h2i : 2 ≤ i
  · exact h.apart i hi j hj h2i h2 f (he.trans hjf) hjf
  · have hlow := h.low i hi (by omega)
    have := ht.fresh p i f (hlow.symm.trans (he.trans hjf))
    omega

/-- The child has a file where its parent has, except for want of memory. -/
theorem Copies.isFile {i : Nat} (h : Copies s p c ok maxFd t) (hi : i < maxFd) :
    (t.slot c i).isFile = true ↔ (s.slot p i).isFile = true ∧ (2 ≤ i → ok i = true) := by
  cases hs : (s.slot p i).isFile with
  | false =>
    rw [h.noFile i hi hs, hs]
    simp
  | true =>
    by_cases h1 : i ≤ 1
    · rw [h.low i hi h1, hs]
      simp
      omega
    · have := h.file i hi (by omega) hs
      split at this
      · rename_i hok
        obtain ⟨f, hf, -⟩ := this
        simp [hf, Slot.isFile, hok]
      · rename_i hok
        simp [this, Slot.isFile, hok]
        omega

/-- `fork` keeps the aliases of the parent's descriptors exactly when every
file of the parent is in one slot, slots 0 and 1 apart, and every file can be
duplicated. -/
theorem fork_shares_iff {p₀ : Nat} {es : List Event} (hr : Run.run step (boot p₀) es = some s)
    (hs : step s (.fork p c ok) = some s') (hi : (s.procs p).fdIdx ≠ maxFd) :
    (∀ i < maxFd, ∀ j < maxFd, Shares s' c i j ↔ Shares s p i j) ↔ Unaliased s p ok := by
  have ht := Tabled.run hr
  obtain ⟨hp, hc, hf⟩ : p ∈ s.pids ∧ c ∉ s.pids ∧ doFork s p c ok = some s' := by
    unfold step at hs
    split at hs
    · cases hs
    · rename_i hp
      simp only [Option.ite_none_left_eq_some] at hs
      exact ⟨not_not.mp hp, hs.1, hs.2⟩
  obtain ⟨h, -⟩ := doFork_copies hp hc hi hf
  constructor
  · intro hall
    refine ⟨fun i hi' j hj h2 hne hsh => ?_, fun i hi' h2 hfile => ?_⟩
    · exact hne (h.alone ht hi' hj h2 ((hall i hi' j hj).mpr hsh))
    · have := (hall i hi' i hi').mpr ⟨hfile, rfl⟩
      exact ((h.isFile hi').mp this.1).2 h2
  · intro ⟨halone, hok⟩ i hi' j hj
    by_cases hij : i = j
    · subst hij
      simp only [Shares, h.isFile hi', and_true]
      exact ⟨fun hx => hx.1, fun hx => ⟨hx, fun h2 => hok i hi' h2 hx⟩⟩
    by_cases hlow : i ≤ 1 ∧ j ≤ 1
    · simp only [Shares, h.low i hi' hlow.1, h.low j hj hlow.2]
    · -- one of the two slots is duplicated
      have symm {u : State} {q a b : Nat} (hsh : Shares u q a b) : Shares u q b a := ⟨hsh.2 ▸ hsh.1, hsh.2.symm⟩
      by_cases h2 : 2 ≤ j
      · exact iff_of_false (fun hsh => hij (h.alone ht hi' hj h2 hsh)) (halone i hi' j hj h2 hij)
      · have h2i : 2 ≤ i := by omega
        refine iff_of_false (fun hsh => hij (h.alone ht hj hi' h2i (symm hsh)).symm) fun hsh => ?_
        exact halone j hj i hi' h2i (Ne.symm hij) (symm hsh)

/-- Two files, and the console under another number. -/
def forkRun : List Event := [.sysOpen 0 (some 7), .sysOpen 0 (some 8), .sysDup2 0 1 9]

theorem fork_shares_sample : ∃ s s', Run.run step (boot 0) forkRun = some s ∧
    step s (.fork 0 1 fun _ => true) = some s' ∧
      ((∀ i < maxFd, ∀ j < maxFd, Shares s' 1 i j ↔ Shares s 0 i j) ↔ Unaliased s 0 fun _ => true) := by
  have h : (Run.run step (boot 0) forkRun).any (fun s => decide ((s.procs 0).fdIdx ≠ maxFd) &&
      (step s (.fork 0 1 fun _ => true)).isSome) = true := by decide +kernel
  obtain ⟨s, hr, he⟩ := Option.any_eq_true _ _ |>.mp h
  simp only [Bool.and_eq_true, decide_eq_true_eq, Option.isSome_iff_exists] at he
  obtain ⟨hi, s', hs⟩ := he
  exact ⟨s, s', hr, hs, fork_shares_iff hr hs hi⟩

/-- A file under two numbers: the child has two. -/
theorem not_fork_shares : ¬ ∀ (p₀ : Nat) (es : List Event) (s s' : State) (p c : Nat),
    Run.run step (boot p₀) es = some s → step s (.fork p c fun _ => true) = some s' →
    (s.procs p).fdIdx ≠ maxFd → ∀ i < maxFd, ∀ j < maxFd, Shares s' c i j ↔ Shares s p i j := by
  intro hall
  have h : (Run.run step (boot 0) [.sysOpen 0 (some 7), .sysDup2 0 2 3]).any (fun s =>
      decide ((s.procs 0).fdIdx ≠ maxFd) && decide (s.slot 0 2 = .file 0 ∧ s.slot 0 3 = .file 0) &&
        (step s (.fork 0 1 fun _ => true)).any fun s' => decide (s'.slot 1 2 = .file 1 ∧ s'.slot 1 3 = .file 2)) =
      true := by decide +kernel
  obtain ⟨s, hr, he⟩ := Option.any_eq_true _ _ |>.mp h
  simp only [Bool.and_eq_true, decide_eq_true_eq, Option.any_eq_true] at he
  obtain ⟨⟨hi, h2, h3⟩, s', hs, h2', h3'⟩ := he
  have hsh : Shares s 0 2 3 := by simp [Shares, h2, h3, Slot.isFile]
  have := (hall 0 _ s s' 0 1 hr hs hi 2 (by decide) 3 (by decide)).mpr hsh
  simp [Shares, h2', h3'] at this

end PintosKaist.FdTable
