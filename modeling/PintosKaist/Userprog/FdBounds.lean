/-
Every access of a handler to `fd_table`, as it is made: `fdAt` gives the slot,
or the index if the table has no such slot, and what the handler does then is
not looked at. `sys_dup2` does not test `newfd`, the loop of `find_unused_fd`
reads a slot before it tests the index, and the bound of `process_get_file` is
off by one.
-/
import PintosKaist.Userprog.FileCalls

namespace PintosKaist.FdTable

variable {s : State} {io : Files} {p : Nat} {fd oldfd newfd : Int} {v : Slot}

/-- The descriptor is not in `[0, MAX_FD)`. -/
def Outside (fd : Int) : Prop := fd < 0 ∨ maxFd ≤ fd

instance : Decidable (Outside fd) := inferInstanceAs (Decidable (_ ∨ _))

/-- `cur->fd_table[fd]`. -/
def fdAt (s : State) (p : Nat) (fd : Int) : Except Int Slot :=
  if Outside fd then .error fd else .ok (s.slot p fd.toNat)

/-- A handler that begins with `if (fd < 0 || fd >= MAX_FD) return`. -/
def tested (fd : Int) (body : Except Int Unit) : Except Int Unit :=
  if fd < 0 ∨ maxFd ≤ fd then .ok () else body

/-! ## The accesses of each handler -/

/-- `process_get_file`. -/
def processGetFileFds (s : State) (p : Nat) (fd : Int) : Except Int Unit :=
  if fd < 2 ∨ maxFd < fd then .ok ()
  else do
    let _ ← fdAt s p fd
    .ok ()

/-- `sys_write`. -/
def sysWriteFds (s : State) (p : Nat) (fd : Int) : Except Int Unit :=
  tested fd do
    let v ← fdAt s p fd
    if v = .stdout ∧ (s.procs p).stdoutCount ≠ 0 then .ok () else processGetFileFds s p fd

/-- `sys_filesize` and `sys_tell`. -/
def oneFd (s : State) (p : Nat) (fd : Int) : Except Int Unit :=
  tested fd do
    let _ ← fdAt s p fd
    .ok ()

/-- `sys_read`. -/
def sysReadFds (s : State) (p : Nat) (fd : Int) (size : Nat) : Except Int Unit :=
  if size = 0 then .ok ()
  else
    tested fd do
      let v ← fdAt s p fd
      if v = .stdin then .ok ()
      else
        let _ ← fdAt s p fd
        .ok ()

/-- `sys_seek`. -/
def sysSeekFds (s : State) (p : Nat) (fd : Int) : Except Int Unit :=
  tested fd do
    let v ← fdAt s p fd
    if v = .stdin then .ok ()
    else
      let v ← fdAt s p fd
      if v = .stdout then .ok ()
      else
        let _ ← fdAt s p fd
        .ok ()

/-- `sys_close`: three reads, and the slot is set to NULL. -/
def sysCloseFds (s : State) (p : Nat) (fd : Int) : Except Int Unit :=
  tested fd do
    let _ ← fdAt s p fd
    let _ ← fdAt s p fd
    let _ ← fdAt s p fd
    let _ ← fdAt s p fd
    .ok ()

/-- The counts of `oldfd`: the slot is read for each `else`. -/
def shareFds (s : State) (p : Nat) (oldfd : Int) : Except Int Unit := do
  let v ← fdAt s p oldfd
  if v = .stdin then .ok ()
  else
    let v ← fdAt s p oldfd
    if v = .stdout then .ok ()
    else
      let _ ← fdAt s p oldfd
      .ok ()

/-- `sys_dup2`. -/
def sysDup2Fds (s : State) (p : Nat) (oldfd newfd : Int) : Except Int Unit :=
  tested oldfd do
    let v ← fdAt s p oldfd
    if v = .null then .ok ()
    else if oldfd = newfd then .ok ()
    else
      shareFds s p oldfd
      let w ← fdAt s p newfd
      if w ≠ .null then sysCloseFds s p newfd
      let _ ← fdAt s p oldfd
      let _ ← fdAt s p newfd
      .ok ()

/-- The loop of `find_unused_fd` from `i` on, `n` slots from the end of the
table. -/
def findUnusedLoop (s : State) (p : Nat) : Nat → Nat → Except Int Nat
  | 0, i => do
    let _ ← fdAt s p i
    .ok i
  | n + 1, i => do
    let v ← fdAt s p i
    if v = .null then .ok i else findUnusedLoop s p n (i + 1)

/-- `find_unused_fd`. -/
def findUnusedFds (s : State) (p : Nat) : Except Int Unit := do
  let i ← findUnusedLoop s p (maxFd - (s.procs p).fdIdx) (s.procs p).fdIdx
  if maxFd ≤ i then .ok ()
  else
    let _ ← fdAt s p i
    .ok ()

/-- `sys_mmap`, where the file in the slot is one. -/
def sysMmapFds (s : Files) (p addr length : Nat) (fd offset : Int) : Except Int Unit :=
  if addr = 0 ∨ kernBase ≤ addr ∨ addr % pgSize ≠ 0 then .ok ()
  else if fd < 2 ∨ maxFd ≤ fd then .ok ()
  else do
    let v ← fdAt s.fds p fd
    match deref s.fds v with
    | .error _ => .ok ()
    | .ok (_, fl) =>
      if offset.tmod pgSize ≠ 0 then .ok ()
      else
        oneFd s.fds p fd
        if fileLength s fl = 0 ∨ length = 0 ∨ addr < length ∨ (pagesOf addr length).any (s.mapped p) then .ok ()
        else (pagesOf addr length).forM fun _ => oneFd s.fds p fd

/-- The functions that index the table. -/
inductive FdCall where
  | sysRead (fd : Int) (size : Nat)
  | sysWrite (fd : Int)
  | sysFilesize (fd : Int)
  | sysSeek (fd : Int)
  | sysTell (fd : Int)
  | sysClose (fd : Int)
  | sysDup2 (oldfd newfd : Int)
  | sysMmap (addr length : Nat) (fd offset : Int)
  | findUnusedFd
  | processGetFile (fd : Int)

def FdCall.fds (s : Files) (p : Nat) : FdCall → Except Int Unit
  | .sysRead fd size => sysReadFds s.fds p fd size
  | .sysWrite fd => sysWriteFds s.fds p fd
  | .sysFilesize fd | .sysTell fd => oneFd s.fds p fd
  | .sysSeek fd => sysSeekFds s.fds p fd
  | .sysClose fd => sysCloseFds s.fds p fd
  | .sysDup2 oldfd newfd => sysDup2Fds s.fds p oldfd newfd
  | .sysMmap addr length fd offset => sysMmapFds s p addr length fd offset
  | .findUnusedFd => findUnusedFds s.fds p
  | .processGetFile fd => processGetFileFds s.fds p fd

/-- Each access is to a slot of the table, and `sys_dup2` refuses descriptors
outside of it and changes nothing then. -/
def Bounded (s : Files) (p : Nat) (call : FdCall) : Prop :=
  call.fds s p = .ok () ∧
    ∀ oldfd newfd, call = .sysDup2 oldfd newfd → Outside oldfd ∨ Outside newfd →
      sysDup2 s.fds p oldfd newfd = some (-1, s.fds)

/-- `newfd` is in the table, or `sys_dup2` does not come to it; some slot from
`fd_idx` on is empty; `process_get_file` is not asked for `MAX_FD`. -/
def FdOk (s : State) (p : Nat) : FdCall → Prop
  | .sysDup2 oldfd newfd => Outside newfd → Outside oldfd ∨ s.slot p oldfd.toNat = .null
  | .findUnusedFd => ∃ i < maxFd, (s.procs p).fdIdx ≤ i ∧ s.slot p i = .null
  | .processGetFile fd => fd ≠ maxFd
  | _ => True

/-! ## Which of them stay inside -/

theorem fdAt_ok (h : ¬ Outside fd) : fdAt s p fd = .ok (s.slot p fd.toNat) := if_neg h

theorem fdAt_outside (h : Outside fd) : fdAt s p fd = .error fd := if_pos h

theorem tested_ok {body : Except Int Unit} (h : ¬ Outside fd → body = .ok ()) : tested fd body = .ok () := by
  unfold tested
  split
  · rfl
  · rename_i hin
    exact h hin

theorem oneFd_ok : oneFd s p fd = .ok () := tested_ok fun h => by rw [fdAt_ok h]; rfl

theorem sysWriteFds_ok : sysWriteFds s p fd = .ok () := by
  refine tested_ok fun h => ?_
  simp only [fdAt_ok h, processGetFileFds, bind, Except.bind]
  split
  · rfl
  · split <;> rfl

theorem sysReadFds_ok {size : Nat} : sysReadFds s p fd size = .ok () := by
  unfold sysReadFds
  split
  · rfl
  · refine tested_ok fun h => ?_
    simp only [fdAt_ok h, bind, Except.bind]
    split <;> rfl

theorem shareFds_ok (h : ¬ Outside fd) : shareFds s p fd = .ok () := by
  simp only [shareFds, fdAt_ok h, bind, Except.bind]
  split
  · rfl
  · split <;> rfl

theorem sysSeekFds_ok : sysSeekFds s p fd = .ok () := tested_ok fun h => shareFds_ok h

theorem sysCloseFds_ok : sysCloseFds s p fd = .ok () := tested_ok fun h => by simp only [fdAt_ok h]; rfl

theorem sysMmapFds_ok {addr length : Nat} {offset : Int} : sysMmapFds io p addr length fd offset = .ok () := by
  have hloop : ∀ l : List Nat, (l.forM fun _ => (.ok () : Except Int Unit)) = .ok () := by
    intro l
    induction l with
    | nil => rfl
    | cons _ l ih => exact ih
  unfold sysMmapFds
  split
  · rfl
  split
  · rfl
  · rename_i hfd
    have hin : ¬ Outside fd := fun h => hfd (h.imp (fun h => by omega) id)
    rw [fdAt_ok hin]
    simp only [oneFd_ok, hloop, bind, Except.bind, ite_self]
    split <;> rfl

/-- The loop ends at the first empty slot, and leaves the table if there is
none. -/
theorem findUnusedLoop_ok {n i : Nat} (hn : maxFd ≤ i + n) :
    (∃ j, findUnusedLoop s p n i = .ok j) ↔ ∃ j < maxFd, i ≤ j ∧ s.slot p j = .null := by
  induction n generalizing i with
  | zero =>
    have hout : Outside (i : Int) := .inr (by exact_mod_cast hn)
    simp only [findUnusedLoop, fdAt_outside hout, bind, Except.bind, reduceCtorEq, exists_false, false_iff, not_exists]
    rintro j ⟨hj, hle, -⟩
    omega
  | succ n ih =>
    by_cases hout : Outside (i : Int)
    · have hge : maxFd ≤ i := by
        rcases hout with h | h <;> omega
      simp only [findUnusedLoop, fdAt_outside hout, bind, Except.bind, reduceCtorEq, exists_false, false_iff, not_exists]
      rintro j ⟨hj, hle, -⟩
      omega
    · have hlt : i < maxFd := by
        simp only [Outside] at hout
        omega
      simp only [findUnusedLoop, fdAt_ok hout, bind, Except.bind, Int.toNat_natCast]
      split
      · rename_i hnull
        exact ⟨fun _ => ⟨i, hlt, Nat.le_refl _, hnull⟩, fun _ => ⟨i, rfl⟩⟩
      · rename_i hfull
        rw [ih (by omega)]
        refine exists_congr fun j => and_congr_right fun _ => ⟨fun h => ⟨by omega, h.2⟩, fun h => ⟨?_, h.2⟩⟩
        have hne : i ≠ j := by
          rintro rfl
          exact hfull h.2
        omega

/-- Where the loop ends is in the table. -/
theorem findUnusedLoop_lt {n i j : Nat} (h : findUnusedLoop s p n i = .ok j) : ¬ Outside (j : Int) := by
  induction n generalizing i with
  | zero =>
    by_cases hout : Outside (i : Int)
    · simp only [findUnusedLoop, fdAt_outside hout, bind, Except.bind, reduceCtorEq] at h
    · simp only [findUnusedLoop, fdAt_ok hout, bind, Except.bind, Except.ok.injEq] at h
      exact h ▸ hout
  | succ n ih =>
    by_cases hout : Outside (i : Int)
    · simp only [findUnusedLoop, fdAt_outside hout, bind, Except.bind, reduceCtorEq] at h
    · simp only [findUnusedLoop, fdAt_ok hout, bind, Except.bind] at h
      split at h
      · exact Except.ok.inj h ▸ hout
      · exact ih h

theorem findUnusedFds_ok : findUnusedFds s p = .ok () ↔ FdOk s p .findUnusedFd := by
  have hloop := @findUnusedLoop_ok s p (maxFd - (s.procs p).fdIdx) (s.procs p).fdIdx (by omega)
  rw [FdOk, ← hloop]
  unfold findUnusedFds
  cases hend : findUnusedLoop s p (maxFd - (s.procs p).fdIdx) (s.procs p).fdIdx with
  | error i => simp [bind, Except.bind]
  | ok i =>
    have hin := findUnusedLoop_lt hend
    simp only [fdAt_ok hin, bind, Except.bind, ite_self, Except.ok.injEq, exists_eq']

theorem processGetFileFds_ok : processGetFileFds s p fd = .ok () ↔ fd ≠ maxFd := by
  unfold processGetFileFds
  split
  · rename_i h
    refine iff_of_true rfl ?_
    rcases h with h | h
    · exact ne_of_lt (h.trans (by decide))
    · exact ne_of_gt h
  · rename_i h
    by_cases hout : Outside fd
    · simp only [fdAt_outside hout, bind, Except.bind, reduceCtorEq, false_iff, not_not]
      simp only [Outside] at hout
      omega
    · simp only [fdAt_ok hout, bind, Except.bind, true_iff]
      rintro rfl
      exact hout (.inr (Int.le_refl _))

/-- `sys_dup2` of a `newfd` in the table. -/
theorem sysDup2Fds_ok (h : FdOk s p (.sysDup2 oldfd newfd)) : sysDup2Fds s p oldfd newfd = .ok () := by
  refine tested_ok fun hold => ?_
  rw [fdAt_ok hold]
  simp only [bind, Except.bind]
  split
  · rfl
  · rename_i hslot
    have hnew : ¬ Outside newfd := fun hout => (h hout).elim hold hslot
    simp only [shareFds_ok hold, sysCloseFds_ok, fdAt_ok hnew, ite_self]

/-- `sys_dup2` of a `newfd` that is not. -/
theorem sysDup2Fds_outside (hold : ¬ Outside oldfd) (hslot : s.slot p oldfd.toNat ≠ .null) (hnew : Outside newfd) :
    sysDup2Fds s p oldfd newfd = .error newfd := by
  have hne : oldfd ≠ newfd := by
    rintro rfl
    exact hold hnew
  have hin : ¬ (oldfd < 0 ∨ maxFd ≤ oldfd) := hold
  simp only [sysDup2Fds, tested]
  rw [if_neg hin, fdAt_ok hold]
  simp only [bind, Except.bind, if_neg hslot, if_neg hne, shareFds_ok hold, fdAt_outside hnew]

/-- **The table is indexed inside** exactly by the calls that `FdOk` names, in
every state. -/
theorem bounded_iff (s : Files) (p : Nat) (call : FdCall) : Bounded s p call ↔ FdOk s.fds p call := by
  cases call with
  | sysDup2 oldfd newfd =>
    by_cases hok : FdOk s.fds p (.sysDup2 oldfd newfd)
    · refine iff_of_true ⟨sysDup2Fds_ok hok, ?_⟩ hok
      rintro _ _ ⟨⟩ hout
      unfold sysDup2
      split
      · rfl
      · rename_i hold
        have hold : ¬ Outside oldfd := hold
        rw [if_pos ((hok (hout.resolve_left hold)).resolve_left hold)]
    · refine iff_of_false ?_ hok
      simp only [FdOk, Classical.not_imp, not_or] at hok
      obtain ⟨hnew, hold, hslot⟩ := hok
      rintro ⟨hfds, -⟩
      cases (sysDup2Fds_outside hold hslot hnew).symm.trans hfds
  | findUnusedFd => exact ⟨fun h => findUnusedFds_ok.mp h.1, fun h => ⟨findUnusedFds_ok.mpr h, by simp⟩⟩
  | processGetFile fd => exact ⟨fun h => processGetFileFds_ok.mp h.1, fun h => ⟨processGetFileFds_ok.mpr h, by simp⟩⟩
  | sysRead => exact iff_of_true ⟨sysReadFds_ok, by simp⟩ trivial
  | sysWrite => exact iff_of_true ⟨sysWriteFds_ok, by simp⟩ trivial
  | sysFilesize | sysTell => exact iff_of_true ⟨oneFd_ok, by simp⟩ trivial
  | sysSeek => exact iff_of_true ⟨sysSeekFds_ok, by simp⟩ trivial
  | sysClose => exact iff_of_true ⟨sysCloseFds_ok, by simp⟩ trivial
  | sysMmap => exact iff_of_true ⟨sysMmapFds_ok, by simp⟩ trivial

/-- `dup2(0, 1536)` in the first process. -/
theorem not_bounded_dup2 : ¬ ∀ es s, Run.run step (boot 0) es = some s → ∀ p ∈ s.pids, ∀ data out input mapped call,
    Bounded ⟨s, data, out, input, mapped⟩ p call := by
  intro h
  obtain ⟨hfds, -⟩ := h [] (boot 0) rfl 0 (by decide) (fun _ => []) [] (fun _ => 0) (fun _ _ => false) (.sysDup2 0 1536)
  cases (sysDup2Fds_outside (by decide) (by decide) (by decide)).symm.trans hfds

end PintosKaist.FdTable
