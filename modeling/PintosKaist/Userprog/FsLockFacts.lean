/-
The discipline of `filesys_lock`: a handler does not take the lock while it
holds it, and has given it back when it returns or the thread exits. Nested in
a section that holds the lock, a page fault takes it again just when it brings
in a file-backed page or evicts one that is dirty.
-/
import PintosKaist.Userprog.FsLock

namespace PintosKaist.FsLock

variable {α β : Type} {s : Sys} {p q addr kva rsp : Nat} {page : Vm.Page} {aux : Option Vm.FileInfo}

theorem bind_apply (m : K α) (f : α → K β) (s : Sys) : (m >>= f) s =
    match m s with
    | .ok a s => f a s
    | .exit s => .exit s
    | .reacquire => .reacquire
    | .stop => .stop := rfl

theorem pure_apply (a : α) (s : Sys) : (pure a : K α) s = .ok a s := rfl

theorem ask_apply (f : Sys → α) (s : Sys) : ask f s = .ok (f s) s := rfl

/-- What comes after a question is run in the same state. -/
theorem ask_bind (f : Sys → α) (k : α → K β) (s : Sys) : (ask f >>= k) s = k (f s) s := rfl

/-! ## When a fault takes the lock -/

/-- A file-backed page, past its first claim. -/
def fileBacked (page : Vm.Page) : Bool :=
  match page.kind with
  | .file (some _) => true
  | _ => false

/-- `vm_evict_frame` takes the lock: the page of the frame at the front is
file-backed, and dirty in the page table of `p`. -/
def evictLocks (vm : Vm.State) (p : Nat) : Bool :=
  (((vm.frameList.head?.bind vm.frames).bind (·.page)).bind vm.pages).any fun page =>
    fileBacked page && (vm.pte p page.va).dirty

/-- `vm_get_frame` takes the lock: no page of the pool is free, and the eviction
takes it. -/
def frameLocks (vm : Vm.State) (p : Nat) : Bool := vm.userPool.scanAndFlip.isNone && evictLocks vm p

/-- `vm_do_claim_page` takes the lock: `vm_get_frame` does, or the page is
file-backed. -/
def claimLocks (vm : Vm.State) (p q : Nat) : Bool :=
  frameLocks vm p || (Vm.vmGetFrame vm p).any fun r => (r.2.pages q).any fileBacked

/-- `vm_try_handle_fault` takes the lock. -/
def faultLocks (vm : Vm.State) (p addr : Nat) : Bool :=
  decide (addr < Vm.kernBase) && (Vm.sptFindPage vm p addr).any (claimLocks vm p)

/-- `m`, run with the user stack pointer `rsp`, does what `f` does, except that
it takes the lock when `locks` says so. -/
def Nests (rsp : Nat) (m : K α) (locks : Vm.State → Bool) (f : Vm.State → Option (α × Vm.State)) : Prop :=
  ∀ s, s.userRsp = rsp → m s = if s.held && locks s.vm then .reacquire else onVm f s

section Nests

variable {m : K α} {k : α → K β} {l l' : Vm.State → Bool} {f f' : Vm.State → Option (α × Vm.State)}
  {lk : α → Vm.State → Bool} {fk : α → Vm.State → Option (β × Vm.State)}

theorem Nests.onVm (f : Vm.State → Option (α × Vm.State)) : Nests rsp (onVm f) (fun _ => false) f := fun s _ => by simp

theorem Nests.pure (a : α) : Nests rsp (pure a) (fun _ => false) (fun vm => some (a, vm)) := fun s _ => by
  simp [pure_apply, FsLock.onVm]

theorem Nests.stop : Nests rsp (stop : K α) (fun _ => false) (fun _ => none) := fun s _ => by
  simp [FsLock.stop, FsLock.onVm]

theorem Nests.deref (o : Option α) : Nests rsp (deref o) (fun _ => false) (fun vm => o.map (·, vm)) := fun s _ => by
  cases o <;> simp [FsLock.deref, FsLock.onVm]

/-- One piece of code after another. -/
theorem Nests.bind (hm : Nests rsp m l f) (hk : ∀ a, Nests rsp (k a) (lk a) (fk a)) :
    Nests rsp (m >>= k) (fun vm => l vm || (f vm).any fun r => lk r.1 r.2)
      (fun vm => (f vm).bind fun r => fk r.1 r.2) := by
  intro s hs
  rw [bind_apply, hm s hs]
  by_cases hl : (s.held && l s.vm) = true
  · have : (s.held && (l s.vm || (f s.vm).any fun r => lk r.1 r.2)) = true := by
      rw [Bool.and_eq_true] at hl
      rw [hl.1, hl.2]
      rfl
    rw [if_pos hl, if_pos this]
  · rw [if_neg hl]
    have hdrop : (s.held && (l s.vm || (f s.vm).any fun r => lk r.1 r.2)) =
        (s.held && (f s.vm).any fun r => lk r.1 r.2) := by
      cases hh : s.held <;> simp_all
    rw [hdrop]
    cases hf : f s.vm with
    | none => simp [FsLock.onVm, hf]
    | some r =>
      obtain ⟨a, vm⟩ := r
      simp only [FsLock.onVm, hf, Option.any_some, Option.bind_some]
      exact hk a _ hs

/-- A look at memory first. -/
theorem Nests.ask (g : Vm.State → α) (hk : ∀ a, Nests rsp (k a) (lk a) (fk a)) :
    Nests rsp (ask (fun s => g s.vm) >>= k) (fun vm => lk (g vm) vm) (fun vm => fk (g vm) vm) :=
  fun s hs => hk (g s.vm) s hs

theorem Nests.congr (h : Nests rsp m l f) (hl : ∀ vm, l vm = l' vm) (hf : ∀ vm, f vm = f' vm) : Nests rsp m l' f' := by
  intro s hs
  rw [h s hs, hl]
  simp only [FsLock.onVm, hf]

end Nests

theorem writeBack_nests : Nests rsp (writeBack p page aux) (fun vm => aux.isSome && (vm.pte p page.va).dirty)
    (fun vm => (Vm.writeBack vm p page aux).map fun vm => ((), vm)) := by
  intro s hs
  cases aux with
  | none => simp [writeBack, deref, bind_apply, onVm, Vm.writeBack]
  | some fi =>
    simp only [writeBack, deref, bind_apply, ask_apply]
    by_cases hd : (s.vm.pte p page.va).dirty
    · cases hh : s.held with
      | true => simp [hd, hh, lockAcquire, bind_apply]
      | false =>
        cases hw : Vm.writeBack s.vm p page (some fi) with
        | none => simp [hd, hh, lockAcquire, bind_apply, vmDo, onVm, hw]
        | some vm =>
          simp only [hd, hh, lockAcquire, bind_apply, vmDo, onVm, hw, lockRelease, Option.map_some, if_true,
            Bool.false_eq_true, if_false, Bool.false_and]
    · simp [hd, pure_apply, onVm, Vm.writeBack]

theorem fileBackedSwapIn_nests : Nests rsp (fileBackedSwapIn aux kva) (fun _ => aux.isSome)
    (fun vm => Vm.fileBackedSwapIn vm aux kva) := by
  intro s hs
  cases aux with
  | none => simp [fileBackedSwapIn, deref, bind_apply, onVm, Vm.fileBackedSwapIn]
  | some fi =>
    simp only [fileBackedSwapIn, deref, bind_apply]
    cases hh : s.held with
    | true => simp [hh, lockAcquire]
    | false =>
      cases hw : Vm.fileBackedSwapIn s.vm (some fi) kva with
      | none => simp [hh, lockAcquire, onVm, hw]
      | some r => simp [hh, lockAcquire, onVm, hw, lockRelease, pure_apply]

theorem swapInPage_nests (page : Vm.Page) : Nests rsp
    (match page.kind with
      | .uninit type init aux => onVm fun vm => Vm.uninitInitialize vm q page type init aux
      | .anon swapIdx aux => onVm fun vm => Vm.anonSwapIn vm q page swapIdx aux kva
      | .file aux => fileBackedSwapIn aux kva)
    (fun _ => fileBacked page)
    (fun vm => match page.kind with
      | .uninit type init aux => Vm.uninitInitialize vm q page type init aux
      | .anon swapIdx aux => Vm.anonSwapIn vm q page swapIdx aux kva
      | .file aux => Vm.fileBackedSwapIn vm aux kva) := by
  cases hk : page.kind with
  | uninit type init aux => simpa only [fileBacked, hk] using Nests.onVm _
  | anon swapIdx aux => simpa only [fileBacked, hk] using Nests.onVm _
  | file aux =>
    refine fileBackedSwapIn_nests.congr (fun vm => ?_) fun vm => rfl
    cases aux <;> simp [fileBacked, hk]

theorem swapIn_nests : Nests rsp (swapIn q kva) (fun vm => (vm.pages q).any fileBacked)
    (fun vm => Vm.swapIn vm q kva) := by
  refine (Nests.ask (·.pages q) fun o => (Nests.deref o).bind swapInPage_nests).congr (fun vm => ?_) (fun vm => ?_)
  · cases vm.pages q <;> simp
  · unfold Vm.swapIn
    cases vm.pages q <;> rfl

theorem Nests.vmDo (f : Vm.State → Option Vm.State) :
    Nests rsp (vmDo f) (fun _ => false) (fun vm => (f vm).map fun vm => ((), vm)) := Nests.onVm _

theorem swapOutPage_nests (page : Vm.Page) : Nests rsp
    (match page.kind with
      | .uninit .. => stop
      | .anon _ aux => FsLock.vmDo fun vm => Vm.anonSwapOut vm q page aux
      | .file aux => writeBack p page aux)
    (fun vm => fileBacked page && (vm.pte p page.va).dirty)
    (fun vm => (match page.kind with
      | .uninit .. => none
      | .anon _ aux => Vm.anonSwapOut vm q page aux
      | .file aux => Vm.writeBack vm p page aux).map fun vm => ((), vm)) := by
  cases hk : page.kind with
  | uninit type init aux => exact Nests.stop.congr (fun vm => by simp [fileBacked, hk]) fun vm => rfl
  | anon swapIdx aux => exact (Nests.vmDo _).congr (fun vm => by simp [fileBacked, hk]) fun vm => rfl
  | file aux =>
    refine writeBack_nests.congr (fun vm => ?_) fun vm => rfl
    cases aux <;> simp [fileBacked, hk]

theorem swapOut_nests (rsp p q : Nat) : Nests rsp (swapOut p q)
    (fun vm => (vm.pages q).any fun page => fileBacked page && (vm.pte p page.va).dirty)
    (fun vm => (Vm.swapOut vm p q).map fun vm => ((), vm)) := by
  refine (Nests.ask (·.pages q) fun o => (Nests.deref o).bind swapOutPage_nests).congr (fun vm => ?_) (fun vm => ?_)
  · cases vm.pages q <;> simp
  · unfold Vm.swapOut
    cases vm.pages q <;> rfl

/-- The rule where the code looks at memory and goes on by cases. -/
theorem Nests.apply {m : K α} {l : Vm.State → Bool} {f f' : Vm.State → Option (α × Vm.State)} {b : Bool}
    (h : Nests rsp m l f) (hs : s.userRsp = rsp) (hl : l s.vm = b) (hf : f s.vm = f' s.vm) :
    m s = if s.held && b then .reacquire else FsLock.onVm f' s := by
  rw [h s hs, hl]
  simp only [FsLock.onVm, hf]

theorem vmEvictFrame_nests (rsp p : Nat) : Nests rsp (vmEvictFrame p) (evictLocks · p) (Vm.vmEvictFrame · p) := by
  have hcons := fun (v : Nat) (rest : List Nat) =>
    Nests.ask (·.frames v) fun o => (Nests.deref o).bind fun victim => (Nests.deref victim.page).bind fun q =>
      (Nests.vmDo fun vm => some { vm with frameList := rest }).bind fun _ => (swapOut_nests rsp p q).bind fun _ =>
        Nests.ask (·.pages q) fun o => (Nests.deref o).bind fun page =>
          (Nests.vmDo fun vm => some ((Vm.pml4ClearPage vm p page.va).setPage q { page with frame := none })).bind
            fun _ => Nests.pure v
  intro s hs
  cases hl : s.vm.frameList with
  | nil => simp [vmEvictFrame, ask_bind, hl, evictLocks, stop, onVm, Vm.vmEvictFrame]
  | cons v rest =>
    simp only [vmEvictFrame, ask_bind, hl]
    refine (hcons v rest).apply hs ?_ ?_
    · simp only [evictLocks, hl]
      cases hv : s.vm.frames v with
      | none => simp [hv]
      | some victim =>
        cases hp : victim.page with
        | none => simp [hv, hp]
        | some q =>
          simp only [hv, hp, Option.map_some, Option.any_some, Bool.false_or, Bool.or_false,
            Option.any_false, List.head?_cons, Option.bind_some]
          rfl
    · simp only [Vm.vmEvictFrame, hl]
      cases hv : s.vm.frames v with
      | none => simp
      | some victim =>
        cases hp : victim.page with
        | none => simp [hp]
        | some q =>
          simp only [hp, Option.map_some, Option.bind_some, Option.bind_eq_bind]
          cases hs : Vm.swapOut { s.vm with frameList := rest } p q with
          | none => simp
          | some vm => cases hq : vm.pages q <;> simp [hq]

theorem vmGetFrame_nests : Nests rsp (vmGetFrame p) (frameLocks · p) (Vm.vmGetFrame · p) := by
  have hevict := (vmEvictFrame_nests rsp p).bind fun v =>
    Nests.onVm fun vm => (vm.frames v).map fun victim => Vm.pushFrame (vm.freeFrame v) victim.kva
  intro s hs
  cases hscan : s.vm.userPool.scanAndFlip with
  | some r =>
    obtain ⟨kva', pool⟩ := r
    simp [vmGetFrame, ask_bind, hscan, frameLocks, onVm, Vm.vmGetFrame]
  | none =>
    simp only [vmGetFrame, ask_bind, hscan]
    refine hevict.apply hs ?_ ?_
    · simp [frameLocks, hscan]
    · simp only [Vm.vmGetFrame, hscan, Option.bind_eq_bind]
      congr 1
      funext r
      cases r.2.frames r.1 <;> rfl

theorem frames_pushFrame (vm : Vm.State) (kva : Nat) :
    (Vm.pushFrame vm kva).2.frames (Vm.pushFrame vm kva).1 = some ⟨kva, none, 0⟩ := by
  simp [Vm.pushFrame, Vm.State.setFrame]

/-- The frame `vm_get_frame` returns exists. -/
theorem frames_vmGetFrame {vm : Vm.State} {r : Nat × Vm.State} (h : Vm.vmGetFrame vm p = some r) :
    ∃ frame, r.2.frames r.1 = some frame := by
  simp only [Vm.vmGetFrame] at h
  split at h
  · obtain rfl := Option.some.inj h
    exact ⟨_, frames_pushFrame ..⟩
  · simp only [Option.bind_eq_bind, Option.bind_eq_some_iff] at h
    obtain ⟨⟨v, vm'⟩, -, victim, -, hr⟩ := h
    obtain rfl := Option.some.inj hr
    exact ⟨_, frames_pushFrame ..⟩

/-- Linking a page to its frame leaves its kind. -/
theorem linkPage_fileBacked {vm : Vm.State} {f : Nat} {frame : Vm.Frame} (hf : vm.frames f = some frame) :
    ((linkPage p q f vm).any fun r => (r.2.pages q).any fileBacked) = (vm.pages q).any fileBacked := by
  cases hq : vm.pages q with
  | none => simp [linkPage, hf, hq]
  | some page =>
    simp [linkPage, hf, hq, Vm.linkFrame, Vm.pml4SetPage, Vm.State.setPage, fileBacked]

/-- **A claim does what it does without the lock, except that it takes it.** -/
theorem vmDoClaimPage_nests : Nests rsp (vmDoClaimPage p q) (claimLocks · p q) (Vm.vmDoClaimPage · p q) := by
  refine (vmGetFrame_nests.bind fun f => (Nests.onVm (linkPage p q f)).bind fun kva => swapIn_nests).congr
    (fun vm => ?_) (fun vm => ?_)
  · simp only [claimLocks]
    congr 1
    cases hf : Vm.vmGetFrame vm p with
    | none => rfl
    | some r =>
      obtain ⟨frame, hframe⟩ := frames_vmGetFrame hf
      simp only [Option.any_some, Bool.false_or, linkPage_fileBacked hframe]
  · simp only [Vm.vmDoClaimPage, linkPage, Option.bind_eq_bind]
    congr 1
    funext r
    cases r.2.frames r.1 with
    | none => rfl
    | some frame => cases r.2.pages q <;> rfl

/-- A page in the table exists. -/
theorem pages_sptFindPage {vm : Vm.State} (h : Vm.sptFindPage vm p addr = some q) : ∃ page, vm.pages q = some page := by
  simp only [Vm.sptFindPage, Vm.hashFind] at h
  split at h
  · cases h
  · have := List.find?_some h
    obtain ⟨page, hpage, -⟩ := (Option.any_eq_true ..).mp this
    exact ⟨page, hpage⟩

/-- So does a fault on a page that is not present. -/
theorem vmTryHandleFault_nests (rsp p addr : Nat) : Nests rsp (vmTryHandleFault p addr) (faultLocks · p addr)
    (Vm.vmTryHandleFault · p addr rsp true true) := by
  intro s hs
  subst hs
  by_cases hk : Vm.kernBase ≤ addr
  · simp [vmTryHandleFault, hk, pure_apply, faultLocks, onVm, Vm.vmTryHandleFault]
  · simp only [vmTryHandleFault, if_neg hk, ask_bind]
    cases hf : Vm.sptFindPage s.vm p addr with
    | none =>
      simp only [ask_bind]
      by_cases hw : Vm.inStackWindow addr s.userRsp
      · simp [hw, bind_apply, pure_apply, faultLocks, hf, hk, onVm, vmDo, Vm.vmTryHandleFault]
      · simp [hw, pure_apply, faultLocks, hf, hk, onVm, Vm.vmTryHandleFault]
    | some q =>
      have hlock : faultLocks s.vm p addr = claimLocks s.vm p q := by simp [faultLocks, hf, Nat.lt_of_not_le hk]
      obtain ⟨page, hpage⟩ := pages_sptFindPage hf
      refine vmDoClaimPage_nests.apply rfl hlock.symm ?_
      simp [Vm.vmTryHandleFault, hk, hf, hpage]

/-! ## Accesses to user memory -/

/-- The access takes the lock. -/
def accessLocks (p : Nat) (vm : Vm.State) : Access → Bool
  | .load addr | .store addr _ => !present vm p addr && faultLocks vm p addr
  | .other _ => false

/-- What a tried access does to memory, without the lock. -/
def touchVm (p rsp addr : Nat) (f : Vm.State → Vm.State) (vm : Vm.State) : Option Vm.State :=
  if Vm.kernBase ≤ addr then some vm
  else if present vm p addr then some (f vm)
  else (Vm.vmTryHandleFault vm p addr rsp true true).bind fun r => if r.1 then some r.2 else none

def accessVm (p rsp : Nat) (vm : Vm.State) : Access → Option Vm.State
  | .load addr => touchVm p rsp addr id vm
  | .store addr b => touchVm p rsp addr (storeByte p addr b) vm
  | .other vm => some vm

/-- One of the accesses takes the lock: it faults, and the claim brings in a
file-backed page or evicts a dirty one. -/
def accessesLock (p rsp : Nat) : List Access → Vm.State → Bool
  | [], _ => false
  | a :: as, vm => accessLocks p vm a || (accessVm p rsp vm a).any (accessesLock p rsp as)

/-- What the accesses do to memory, without the lock. -/
def accessesVm (p rsp : Nat) : List Access → Vm.State → Option Vm.State
  | [], vm => some vm
  | a :: as, vm => (accessVm p rsp vm a).bind (accessesVm p rsp as)

theorem touch_nests (f : Vm.State → Vm.State) : Nests rsp (touch p addr f)
    (fun vm => !present vm p addr && faultLocks vm p addr)
      (fun vm => (touchVm p rsp addr f vm).map fun vm => ((), vm)) := by
  have hfault := vmTryHandleFault_nests rsp p addr
  intro s hs
  by_cases hk : Vm.kernBase ≤ addr
  · simp [touch, hk, pure_apply, faultLocks, Nat.not_lt.mpr hk, onVm, touchVm]
  · simp only [touch, if_neg hk, ask_bind]
    by_cases hp : present s.vm p addr = true
    · simp [vmDo, onVm, touchVm, hk, hp]
    · have hp' := Bool.eq_false_iff.mpr hp
      simp only [if_neg hp, bind_apply, hfault s hs]
      simp only [hp', Bool.not_false, Bool.true_and]
      by_cases hl : (s.held && faultLocks s.vm p addr) = true
      · simp only [if_pos hl]
      · simp only [if_neg hl, onVm, touchVm, if_neg hk, if_neg hp]
        cases hv : Vm.vmTryHandleFault s.vm p addr rsp true true with
        | none => rfl
        | some r =>
          obtain ⟨ok, vm⟩ := r
          cases ok <;> rfl

theorem access_nests (a : Access) : Nests rsp (access p a) (accessLocks p · a)
    (fun vm => (accessVm p rsp vm a).map fun vm => ((), vm)) := by
  cases a with
  | load addr => exact touch_nests id
  | store addr b => exact touch_nests _
  | other vm => exact Nests.vmDo _

theorem accesses_nests (acc : List Access) : Nests rsp (accesses p acc) (accessesLock p rsp acc)
    (fun vm => (accessesVm p rsp acc vm).map fun vm => ((), vm)) := by
  induction acc with
  | nil => exact Nests.pure ()
  | cons a as ih =>
    refine ((access_nests a).bind fun _ => ih).congr (fun vm => ?_) (fun vm => ?_)
    · cases ha : accessVm p rsp vm a <;> simp [accessesLock, ha]
    · cases ha : accessVm p rsp vm a <;> simp [accessesVm, ha]

/-! ## Code that gives back what it takes -/

/-- The lock is free when the code returns or exits, and was not taken twice. -/
inductive Clean : Out α → Prop where
  | ok {a : α} {s : Sys} (h : s.held = false) : Clean (.ok a s)
  | exit {s : Sys} (h : s.held = false) : Clean (.exit s)
  | stop : Clean .stop

@[simp] theorem clean_ok {a : α} : Clean (.ok a s) ↔ s.held = false :=
  ⟨fun h => by cases h; assumption, .ok⟩

@[simp] theorem clean_exit : Clean (.exit s : Out α) ↔ s.held = false :=
  ⟨fun h => by cases h; assumption, .exit⟩

@[simp] theorem clean_stop : Clean (.stop : Out α) := .stop

@[simp] theorem not_clean_reacquire : ¬ Clean (.reacquire : Out α) := fun h => by cases h

/-- Started without the lock, the code ends without it. -/
structure Balanced (m : K α) : Prop where
  clean : ∀ s, s.held = false → Clean (m s)

theorem Nests.balanced {m : K α} {l : Nat → Vm.State → Bool} {f : Nat → Vm.State → Option (α × Vm.State)}
    (h : ∀ rsp, Nests rsp m (l rsp) (f rsp)) : Balanced m := by
  refine ⟨fun s hs => ?_⟩
  rw [h s.userRsp s rfl]
  cases hf : f s.userRsp s.vm <;> simp [hs, FsLock.onVm, hf]

namespace Balanced

variable {m : K α} {k : α → K β}

theorem pure (a : α) : Balanced (pure a) := ⟨fun _ hs => .ok hs⟩

theorem stop : Balanced (stop : K α) := ⟨fun _ _ => .stop⟩

theorem sysExit : Balanced (sysExit : K α) := ⟨fun _ hs => .exit hs⟩

theorem deref (o : Option α) : Balanced (deref o) := by
  refine ⟨fun s hs => ?_⟩
  cases o
  · exact .stop
  · exact .ok hs

theorem onVm (f : Vm.State → Option (α × Vm.State)) : Balanced (onVm f) := by
  refine ⟨fun s hs => ?_⟩
  cases hf : f s.vm <;> simp [FsLock.onVm, hf, hs]

theorem vmDo (f : Vm.State → Option Vm.State) : Balanced (vmDo f) := onVm _

theorem onFds (f : FdTable.State → Option (α × FdTable.State)) : Balanced (onFds f) := by
  refine ⟨fun s hs => ?_⟩
  cases hf : f s.fds <;> simp [FsLock.onFds, hf, hs]

theorem bind (hm : Balanced m) (hk : ∀ a, Balanced (k a)) : Balanced (m >>= k) := by
  refine ⟨fun s hs => ?_⟩
  have := hm.clean s hs
  rw [bind_apply]
  cases hms : m s with
  | ok a s' =>
    rw [hms, clean_ok] at this
    exact (hk a).clean s' this
  | exit s' =>
    rw [hms, clean_exit] at this
    exact .exit this
  | reacquire =>
    rw [hms] at this
    exact (not_clean_reacquire this).elim
  | stop => exact .stop

theorem ask (f : Sys → α) (hk : ∀ a, Balanced (k a)) : Balanced (ask f >>= k) :=
  ⟨fun s hs => (hk (f s)).clean s hs⟩

theorem ite {c : Prop} [Decidable c] {m m' : K α} (h : Balanced m) (h' : Balanced m') :
    Balanced (if c then m else m') := by
  split
  · exact h
  · exact h'

/-- `lock_acquire`, descriptors, `lock_release`. -/
theorem section_ (f : FdTable.State → Option (Unit × FdTable.State)) :
    Balanced (lockAcquire >>= fun _ => FsLock.onFds f >>= fun _ => lockRelease) := by
  refine ⟨fun s hs => ?_⟩
  cases hf : f s.fds <;> simp [bind_apply, lockAcquire, lockRelease, FsLock.onFds, hs, hf]

end Balanced

theorem writeBack_balanced : Balanced (writeBack p page aux) := Nests.balanced fun _ => writeBack_nests

theorem vmTryHandleFault_balanced : Balanced (vmTryHandleFault p addr) :=
  Nests.balanced fun rsp => vmTryHandleFault_nests rsp p addr

theorem accesses_balanced (acc : List Access) : Balanced (accesses p acc) :=
  Nests.balanced fun _ => accesses_nests acc

theorem fileBackedDestroy_balanced : Balanced (fileBackedDestroy p q page aux) := by
  refine writeBack_balanced.bind fun _ => ?_
  cases page.frame with
  | none => exact .vmDo _
  | some f => exact .ask _ fun o => (Balanced.deref o).bind fun frame => (Balanced.vmDo _).bind fun _ => .vmDo _

theorem destroy_balanced : Balanced (destroy p q page) := by
  unfold destroy
  split
  · exact .pure ()
  · exact .vmDo _
  · exact fileBackedDestroy_balanced

theorem vmDeallocPage_balanced : Balanced (vmDeallocPage p q) :=
  .ask _ fun o => (Balanced.deref o).bind fun _ => destroy_balanced.bind fun _ => .vmDo _

theorem killLoop_balanced (l : List Nat) : Balanced (killLoop p l) := by
  induction l with
  | nil => exact .pure ()
  | cons q qs ih => exact (Balanced.vmDo _).bind fun _ => vmDeallocPage_balanced.bind fun _ => ih

theorem processCleanup_balanced : Balanced (processCleanup p) :=
  .ask _ fun l => (killLoop_balanced l).bind fun _ => .vmDo _

/-- **`process_exit` writes every dirty page back and ends without the lock.** -/
theorem processExit_balanced : Balanced (processExit p) :=
  (Balanced.onFds _).bind fun _ => processCleanup_balanced

theorem checkAddress_balanced : Balanced (checkAddress p addr) :=
  .ite .sysExit (.ask _ fun _ => .ite (.pure ()) (vmTryHandleFault_balanced.bind fun _ => .ite (.pure ()) .sysExit))

theorem checkPage_balanced {va : Nat} {write : Bool} : Balanced (checkPage p va write) := by
  refine .ite .sysExit (.ask _ fun _ => .ite (.ite (.pure ()) ?_)
    (vmTryHandleFault_balanced.bind fun _ => .ite (.pure ()) .sysExit))
  exact .ask _ fun o => (Balanced.deref o).bind fun q => .ask _ fun o => (Balanced.deref o).bind fun page =>
    .ask _ fun e => .ite .sysExit (.pure ())

theorem checkPages_balanced {write : Bool} (vas : List Nat) : Balanced (checkPages p write vas) := by
  induction vas with
  | nil => exact .pure ()
  | cons va vas ih => exact checkPage_balanced.bind fun _ => ih

theorem openChecks_balanced {file : Nat} {name : List Access} : Balanced (openChecks p file name) :=
  checkAddress_balanced.bind fun _ => .ite (.pure _) ((accesses_balanced name).bind fun _ =>
    .ask _ fun o => (Balanced.deref o).bind fun _ => .pure _)

theorem readChecks_balanced {fd : Int} {buffer size : Nat} {console : List Access} :
    Balanced (readChecks p fd buffer size console) := by
  refine .ite (.pure _) ((checkPages_balanced _).bind fun _ => .ite (.pure _) (.ask _ fun v => ?_))
  cases v with
  | stdin => exact .ask _ fun n => .ite ((accesses_balanced console).bind fun _ => .pure _) (.pure _)
  | null | stdout | file => exact .pure _

theorem writeChecks_balanced {fd : Int} {buffer size : Nat} {console : List Access} :
    Balanced (writeChecks p fd buffer size console) := by
  refine (checkPages_balanced _).bind fun _ => .ite (.pure _) (.ask _ fun v => .ask _ fun n => .ite
    ((accesses_balanced console).bind fun _ => .pure _) (.ite (.pure _) ?_))
  cases v with
  | null | file => exact .pure _
  | stdin | stdout => exact .stop

theorem loadSegments_balanced (l : List (Nat × Bool × Vm.FileInfo)) : Balanced (loadSegments p l) := by
  induction l with
  | nil => exact .pure _
  | cons x rest ih => exact (Balanced.onVm _).bind fun _ => .ite ih (.pure _)

theorem vmClaimPage_balanced : Balanced (vmClaimPage p addr) := by
  refine .ask _ fun o => ?_
  cases o with
  | none => exact .pure _
  | some q => exact Nests.balanced fun _ => vmDoClaimPage_nests

theorem setupStack_balanced : Balanced (setupStack p) := by
  exact (Balanced.onVm _).bind fun _ => .ite vmClaimPage_balanced (.pure _)

/-- `lock_acquire`, a call that touches no user memory, `lock_release`. -/
theorem acquireRelease_balanced {k : K α} (hk : Balanced k) :
    Balanced (lockAcquire >>= fun _ => lockRelease >>= fun _ => k) := by
  refine ⟨fun s hs => ?_⟩
  have : (lockAcquire >>= fun _ => lockRelease >>= fun _ => k) s = k s := by
    obtain ⟨vm, fds, rsp, held⟩ := s
    subst hs
    rfl
  rw [this]
  exact hk.clean s hs

theorem load_balanced {img : Image} : Balanced (load p img) :=
  acquireRelease_balanced (.ite (.pure _) ((loadSegments_balanced _).bind fun _ => .ite (.pure _) (.ite (.pure _)
    (setupStack_balanced.bind fun _ => .ite (.pure _) ((accesses_balanced _).bind fun _ => .pure _)))))

theorem sysExec_balanced {file : Nat} {name : List Access} {img : Image} : Balanced (sysExec p file name img) := by
  have hexec : Balanced (processExec p img) :=
    processCleanup_balanced.bind fun _ => load_balanced.bind fun _ =>
      .ite (acquireRelease_balanced (.pure _)) (.pure _)
  exact checkAddress_balanced.bind fun _ => (accesses_balanced _).bind fun _ => hexec.bind fun _ =>
    .ite (.pure ()) .sysExit

theorem fileLength_balanced {fd : Int} : Balanced (fileLength p fd) := by
  refine .ask _ fun v => ?_
  cases v with
  | file f => exact .ask _ fun o => (Balanced.deref o).bind fun fl => ⟨fun _ hs => .ok hs⟩
  | null | stdin | stdout => exact .stop

theorem sysFilesize_balanced {fd : Int} : Balanced (sysFilesize p fd) :=
  .ite (.pure _) (.ask _ fun _ => .ite (.pure _) (fileLength_balanced.bind fun _ => .pure _))

theorem sysSeek_balanced {fd : Int} {position : Nat} : Balanced (sysSeek p fd position) := by
  refine .ite (.pure _) (.ask _ fun v => ?_)
  cases v with
  | file f => exact fileLength_balanced.bind fun _ => .onFds _
  | null | stdin | stdout => exact .pure _

theorem sysTell_balanced {fd : Int} : Balanced (sysTell p fd) := by
  refine .ite (.pure _) (.ask _ fun v => ?_)
  cases v with
  | file f => exact .ask _ fun o => (Balanced.deref o).bind fun _ => .pure _
  | null => exact .pure _
  | stdin | stdout => exact .stop

theorem sysClose_balanced {fd : Int} : Balanced (sysClose p fd) := .onFds _

theorem closeNew_balanced {newfd : Int} : Balanced (closeNew p newfd) :=
  .ask _ fun _ => .ite (.pure _) (.section_ _)

theorem sysDup2_balanced {oldfd newfd : Int} : Balanced (sysDup2 p oldfd newfd) := by
  refine .ite (.pure _) (.ask _ fun v => .ite (.pure _) (.ite (.pure _) (.ite .stop ?_)))
  exact (Balanced.onFds _).bind fun _ => closeNew_balanced.bind fun _ => (Balanced.onFds _).bind fun _ => .pure _

theorem mmapLoop_balanced {writable : Bool} {file mmapLength : Nat} (l : List (Nat × Nat × Nat)) :
    Balanced (mmapLoop p writable file mmapLength l) := by
  induction l with
  | nil => exact .pure _
  | cons x rest ih => exact (Balanced.onVm _).bind fun _ => .ite ih (.pure _)

theorem sysMmap_balanced {length ofs : Nat} {writable : Bool} {fd : Int} :
    Balanced (sysMmap p addr length writable fd ofs) := by
  refine .ite (.pure _) (.ite (.pure _) (.ask _ fun v => ?_))
  cases v with
  | null => exact .pure _
  | stdin | stdout => exact .stop
  | file f =>
    exact .ask _ fun o => (Balanced.deref o).bind fun fl => .ite (.pure _) (fileLength_balanced.bind fun n =>
      .ite (.pure _) (.ask _ fun _ => .ite (.pure _) (mmapLoop_balanced _)))

theorem munmapLoop_balanced (l : List Nat) : Balanced (munmapLoop p l) := by
  induction l with
  | nil => exact .pure _
  | cons addr addrs ih =>
    have hdo : Balanced (doMunmap p addr) :=
      .ask _ fun o => (Balanced.deref o).bind fun q => .ask _ fun o => (Balanced.deref o).bind fun page =>
        (Balanced.vmDo _).bind fun _ => writeBack_balanced.bind fun _ => .vmDo _
    exact hdo.bind fun _ => ih

theorem sysMunmap_balanced {garbage : Nat} : Balanced (sysMunmap p addr garbage) :=
  .ask _ fun o => (Balanced.deref o).bind fun _ => .ask _ fun o => (Balanced.deref o).bind fun _ =>
    munmapLoop_balanced _

end PintosKaist.FsLock
