/-
Which system calls keep the discipline of `filesys_lock`. All do but those
that touch user memory with the lock held: `sys_create`, which checks its
argument only then, and the calls whose file-system code reads a name or moves
bytes from or to a buffer.
-/
import PintosKaist.Userprog.FsLockFacts

namespace PintosKaist.FsLock

variable {α β : Type} {s : Sys} {p : Nat}

/-- The discipline: no acquisition by the holder, and the lock free when the
handler returns and when the thread exits, where `process_exit` keeps to it
too. -/
def Disciplined (p : Nat) : Out α → Prop
  | .ok _ s => s.held = false
  | .exit s => s.held = false ∧ Clean (processExit p s)
  | .reacquire => False
  | .stop => True

/-- The address passes `check_address`, or faults the same way, without the
lock: the verdict of `vm_try_handle_fault` and memory after it. -/
def checkVm (p rsp addr : Nat) (vm : Vm.State) : Option (Bool × Vm.State) :=
  if present vm p addr then some (true, vm) else Vm.vmTryHandleFault vm p addr rsp true true

/-- When the call keeps the discipline. For `sys_create` the address is one
`check_address` accepts without needing the lock; for it and the other calls
into the file system, no access to user memory that happens under the lock, in
the state the checks before have left, needs the lock. -/
def Safe (p : Nat) (s : Sys) : Call → Prop
  | .create file fs =>
    file ≠ 0 ∧ file < Vm.kernBase ∧ (present s.vm p file = true ∨ faultLocks s.vm p file = false) ∧
      ∀ ok vm, checkVm p s.userRsp file s.vm = some (ok, vm) →
        ok = true ∧ accessesLock p s.userRsp fs.acc vm = false
  | .remove file fs =>
    ∀ s', checkAddress p file s = .ok () s' → accessesLock p s'.userRsp fs.acc s'.vm = false
  | .open file name fs =>
    ∀ s', openChecks p file name s = .ok true s' → accessesLock p s'.userRsp fs.acc s'.vm = false
  | .read fd buffer size console fs =>
    ∀ s', readChecks p fd buffer size console s = .ok none s' → accessesLock p s'.userRsp fs.acc s'.vm = false
  | .write fd buffer size console fs =>
    ∀ s', writeChecks p fd buffer size console s = .ok none s' → accessesLock p s'.userRsp fs.acc s'.vm = false
  | _ => True

/-- `process_exit` keeps the discipline when it starts without the lock. -/
theorem disciplined_iff_clean (o : Out α) : Disciplined p o ↔ Clean o := by
  cases o with
  | ok a s => exact clean_ok.symm
  | exit s =>
    rw [clean_exit]
    constructor
    · intro h
      exact h.1
    · intro h
      exact ⟨h, processExit_balanced.clean s h⟩
  | reacquire => exact ⟨False.elim, not_clean_reacquire⟩
  | stop => exact ⟨fun _ => .stop, fun _ => trivial⟩

/-- Code after code that ended clean. -/
theorem clean_bind_iff {m : K α} {k : α → K β} (hm : Clean (m s)) :
    Clean ((m >>= k) s) ↔ ∀ a s', m s = .ok a s' → Clean (k a s') := by
  rw [bind_apply]
  cases hms : m s with
  | ok a s' =>
    constructor
    · intro h a' s'' heq
      cases heq
      exact h
    · intro h
      exact h a s' rfl
  | exit s' =>
    rw [hms, clean_exit] at hm
    simpa using hm
  | reacquire =>
    rw [hms] at hm
    exact (not_clean_reacquire hm).elim
  | stop => simp

/-- Dropping the result changes nothing. -/
theorem clean_void_iff (m : K α) : Clean ((m >>= fun _ => (pure () : K Unit)) s) ↔ Clean (m s) := by
  rw [bind_apply]
  cases m s <;> simp [pure_apply]

/-- With the lock held, accesses and then code that releases it: clean just
when no access needs the lock. -/
theorem clean_accesses_iff {acc : List Access} {k : K α} (hs : s.held = true)
    (hk : ∀ s, s.held = true → Clean (k s)) :
    Clean ((accesses p acc >>= fun _ => k) s) ↔ accessesLock p s.userRsp acc s.vm = false := by
  rw [bind_apply, accesses_nests acc s rfl, hs, Bool.true_and]
  cases accessesLock p s.userRsp acc s.vm with
  | true => simp
  | false =>
    cases hv : accessesVm p s.userRsp acc s.vm with
    | none => simp [onVm, hv]
    | some vm => simpa [onVm, hv] using hk { s with vm := vm } hs

theorem lockRelease_clean {k : K α} (hk : Balanced k) (hs : s.held = true) : Clean ((lockRelease >>= fun _ => k) s) := by
  have : (lockRelease >>= fun _ => k) s = k { s with held := false } := by
    simp [bind_apply, lockRelease, hs]
  rw [this]
  exact hk.clean _ rfl

/-- `lock_acquire`, accesses, and code that releases the lock. -/
theorem clean_section_iff {acc : List Access} {k : K α} (hs : s.held = false) (hk : ∀ s, s.held = true → Clean (k s)) :
    Clean ((lockAcquire >>= fun _ => accesses p acc >>= fun _ => k) s) ↔
      accessesLock p s.userRsp acc s.vm = false := by
  have : (lockAcquire >>= fun _ => accesses p acc >>= fun _ => k) s =
      (accesses p acc >>= fun _ => k) { s with held := true } := by
    simp [bind_apply, lockAcquire, hs]
  rw [this]
  exact clean_accesses_iff rfl hk

theorem clean_locked_iff (fs : Fs α) (hs : s.held = false) :
    Clean (locked p fs s) ↔ accessesLock p s.userRsp fs.acc s.vm = false :=
  clean_section_iff hs fun _ => lockRelease_clean (.pure _)

/-! ## The handlers -/

/-- `check_address` of a user address, with the lock held. -/
theorem checkAddress_held {addr : Nat} (hs : s.held = true) (haddr : ¬ (addr = 0 ∨ Vm.kernBase ≤ addr)) :
    checkAddress p addr s =
      if !present s.vm p addr && faultLocks s.vm p addr then .reacquire
      else
        match checkVm p s.userRsp addr s.vm with
        | some (true, vm) => .ok () { s with vm := vm }
        | some (false, vm) => .exit { s with vm := vm }
        | none => .stop := by
  simp only [checkAddress, if_neg haddr, ask_bind, checkVm]
  by_cases hp : present s.vm p addr = true
  · simp [hp, pure_apply]
  · have hp' := Bool.eq_false_iff.mpr hp
    simp only [if_neg hp, bind_apply, vmTryHandleFault_nests s.userRsp p addr s rfl]
    simp only [hp', hs, Bool.true_and, Bool.not_false]
    cases faultLocks s.vm p addr with
    | true => simp
    | false =>
      simp only [onVm, Bool.false_eq_true, if_false]
      cases Vm.vmTryHandleFault s.vm p addr s.userRsp true true with
      | none => rfl
      | some r =>
        obtain ⟨ok, vm⟩ := r
        cases ok <;> simp [pure_apply, sysExit, hs]

theorem clean_create_iff {file : Nat} {fs : Fs Bool} (hs : s.held = false) :
    Clean (sysCreate p file fs s) ↔ Safe p s (.create file fs) := by
  -- all of it runs with the lock held
  let t : Sys := { s with held := true }
  let rest : K Bool := accesses p fs.acc >>= fun _ => lockRelease >>= fun _ => pure fs.result
  have hrest : ∀ vm, Clean (rest { t with vm := vm }) ↔ accessesLock p s.userRsp fs.acc vm = false := fun vm =>
    clean_accesses_iff rfl fun _ => lockRelease_clean (.pure _)
  have hrun : sysCreate p file fs s =
      (checkAddress p file >>= fun _ => if file = 0 then sysExit else rest) t := by
    simp [sysCreate, bind_apply, lockAcquire, hs, t, rest]
  rw [hrun, bind_apply]
  by_cases hbad : file = 0 ∨ Vm.kernBase ≤ file
  · have : checkAddress p file t = .exit t := by simp [checkAddress, hbad, sysExit]
    rw [this]
    simp only [clean_exit, t, Bool.true_eq_false, false_iff, Safe]
    intro h
    omega
  · have hlt : file < Vm.kernBase := by omega
    have h0 : file ≠ 0 := by omega
    rw [checkAddress_held rfl hbad]
    simp only [Safe, h0, ne_eq, not_false_eq_true, hlt, true_and, if_false]
    by_cases hlock : (!present s.vm p file && faultLocks s.vm p file) = true
    · have hno : ¬ (present s.vm p file = true ∨ faultLocks s.vm p file = false) := by
        rw [Bool.and_eq_true, Bool.not_eq_true'] at hlock
        simp [hlock.1, hlock.2]
      rw [if_pos hlock]
      simp [hno]
    · have hyes : present s.vm p file = true ∨ faultLocks s.vm p file = false := by
        by_contra hno
        simp_all
      rw [if_neg hlock]
      simp only [hyes, true_and]
      simp only [t]
      cases hc : checkVm p s.userRsp file s.vm with
      | none => simp
      | some r =>
        obtain ⟨ok, vm⟩ := r
        cases ok with
        | false => simp
        | true => simpa using hrest vm

/-- A handler that checks without the lock, and then, if the checks let it,
calls the file system with it. -/
theorem clean_after_checks_iff {ρ : Type} {m : K ρ} {k : ρ → K α} {acc : List Access} (go : ρ) (hs : s.held = false)
    (hm : Balanced m) (hback : ∀ r, r ≠ go → Balanced (k r))
    (hgo : ∀ s, s.held = false → (Clean (k go s) ↔ accessesLock p s.userRsp acc s.vm = false)) :
    Clean ((m >>= k) s) ↔ ∀ s', m s = .ok go s' → accessesLock p s'.userRsp acc s'.vm = false := by
  have hheld : ∀ r s', m s = .ok r s' → s'.held = false := by
    intro r s' hr
    have := hm.clean s hs
    rwa [hr, clean_ok] at this
  rw [clean_bind_iff (hm.clean s hs)]
  constructor
  · intro h s' hr
    exact (hgo s' (hheld _ s' hr)).mp (h go s' hr)
  · intro h r s' hr
    by_cases hgo' : r = go
    · subst hgo'
      exact (hgo s' (hheld _ s' hr)).mpr (h s' hr)
    · exact (hback r hgo').clean s' (hheld _ s' hr)

theorem clean_remove_iff {file : Nat} {fs : Fs Bool} (hs : s.held = false) :
    Clean (sysRemove p file fs s) ↔ Safe p s (.remove file fs) :=
  clean_after_checks_iff () hs checkAddress_balanced (fun _ hr => (hr rfl).elim) fun _ => clean_locked_iff fs

theorem clean_open_iff {file : Nat} {name : List Access} {fs : Fs (Option Nat)} (hs : s.held = false) :
    Clean (sysOpen p file name fs s) ↔ Safe p s (.open file name fs) := by
  refine clean_after_checks_iff true hs openChecks_balanced (fun r hr => ?_) fun s' hs' => ?_
  · rw [if_neg hr]
    exact .pure _
  · refine clean_section_iff hs' fun t ht => ?_
    cases fs.result with
    | none => exact lockRelease_clean (.pure _) ht
    | some ino =>
      exact lockRelease_clean (.pure _) (s := { t with fds := (FdTable.sysOpen t.fds p (some ino)).2 }) ht

theorem clean_read_iff {fd : Int} {buffer size : Nat} {console : List Access} {fs : Fs Int} (hs : s.held = false) :
    Clean (sysRead p fd buffer size console fs s) ↔ Safe p s (.read fd buffer size console fs) := by
  refine clean_after_checks_iff none hs readChecks_balanced (fun r hr => ?_) fun s' => clean_locked_iff fs
  cases r with
  | none => exact (hr rfl).elim
  | some r => exact .pure r

theorem clean_write_iff {fd : Int} {buffer size : Nat} {console : List Access} {fs : Fs Int} (hs : s.held = false) :
    Clean (sysWrite p fd buffer size console fs s) ↔ Safe p s (.write fd buffer size console fs) := by
  refine clean_after_checks_iff none hs writeChecks_balanced (fun r hr => ?_) fun s' => clean_locked_iff fs
  cases r with
  | none => exact (hr rfl).elim
  | some r => exact .pure r

/-- **The discipline holds just of the safe calls**, in every memory state. -/
theorem disciplined_iff_safe (p : Nat) (c : Call) (vm : Vm.State) (fds : FdTable.State) (rsp : Nat) :
    Disciplined p (syscallHandler p c ⟨vm, fds, rsp, false⟩) ↔ Safe p ⟨vm, fds, rsp, false⟩ c := by
  rw [disciplined_iff_clean]
  have htrue : ∀ {m : K Unit} {P : Prop}, Balanced m → P → (Clean (m ⟨vm, fds, rsp, false⟩) ↔ P) :=
    fun hm hP => ⟨fun _ => hP, fun _ => hm.clean _ rfl⟩
  cases c with
  | halt => exact htrue .stop trivial
  | exit => exact htrue .sysExit trivial
  | fork name => exact htrue (accesses_balanced name) trivial
  | exec file name img => exact htrue sysExec_balanced trivial
  | wait => exact htrue (.pure ()) trivial
  | create file fs => exact (clean_void_iff _).trans (clean_create_iff rfl)
  | remove file fs => exact (clean_void_iff _).trans (clean_remove_iff rfl)
  | «open» file name fs => exact (clean_void_iff _).trans (clean_open_iff rfl)
  | filesize fd => exact htrue (sysFilesize_balanced.bind fun _ => .pure ()) trivial
  | read fd buffer size console fs => exact (clean_void_iff _).trans (clean_read_iff rfl)
  | write fd buffer size console fs => exact (clean_void_iff _).trans (clean_write_iff rfl)
  | seek fd position => exact htrue sysSeek_balanced trivial
  | tell fd => exact htrue (sysTell_balanced.bind fun _ => .pure ()) trivial
  | close fd => exact htrue sysClose_balanced trivial
  | dup2 oldfd newfd => exact htrue (sysDup2_balanced.bind fun _ => .pure ()) trivial
  | mmap addr length writable fd ofs => exact htrue (sysMmap_balanced.bind fun _ => .pure ()) trivial
  | munmap addr garbage => exact htrue sysMunmap_balanced trivial
  | unknown => exact htrue .sysExit trivial

/-- `sys_create(NULL)` exits with the lock held. -/
theorem not_disciplined_create_null :
    ¬ Disciplined 0 (syscallHandler 0 (.create 0 ⟨[], true⟩)
      ⟨Vm.boot 1 1 (fun _ => Vm.zeroPage) (fun _ _ => 0) (fun _ => ⟨[], false⟩), FdTable.boot 0, 0, false⟩) := by
  rw [disciplined_iff_clean]
  intro h
  exact ((clean_create_iff rfl).mp ((clean_void_iff _).mp h)).1 rfl

end PintosKaist.FsLock
