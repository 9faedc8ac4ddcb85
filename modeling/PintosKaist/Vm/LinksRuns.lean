/-
The frame list along whole runs: from boot, over any events of any processes,
as long as each event meets `LinksOk`. The condition is on the state before
the event and names what the code leaves out: a frame is evicted without
looking at who else holds it, a page is claimed over a frame it still has,
`do_munmap` and `file_backed_destroy` drop a page whose frame stays on the
list, and `anon_destroy` leaves a shared frame pointing at the page it frees.
-/
import PintosKaist.Vm.Links

namespace PintosKaist.Vm

open RefTable

variable {s s' : State} {p c q va : Nat} {page : Page} {b : Bool}

def LinksOk (s : State) : Ev → Prop
  | .setupStack _ => EvictOk s
  | .fault p addr _ _ => ∀ q ∈ sptFindPage s p addr,
    if (s.pte p (addr / pgsize)).present then ∀ page ∈ s.pages q, page.writable = true → WpOk s q else ClaimOk s q
  | .copyPage _ _ q => ∀ page ∈ s.pages q, page.kind.isFile = true → EvictOk s
  | .munmap p va => ∀ q ∈ sptFindPage s p (va * pgsize), frameOf s q = none ∧ NoBack s q
  | .destroy _ q => DestroyOk s q
  | _ => True

instance : ∀ s e, Decidable (LinksOk s e)
  | s, .setupStack _ => inferInstanceAs (Decidable (EvictOk s))
  | _, .fault .. => inferInstanceAs (Decidable (∀ _ ∈ _, _))
  | _, .copyPage .. => inferInstanceAs (Decidable (∀ _ ∈ _, _))
  | _, .munmap .. => inferInstanceAs (Decidable (∀ _ ∈ _, _ ∧ ∀ _ ∈ _, ∀ _ ∈ _, _))
  | _, .destroy .. => inferInstanceAs (Decidable (_ ∧ _))
  | _, .spawn | _, .alloc .. | _, .load .. | _, .store .. | _, .reap _ => inferInstanceAs (Decidable True)

/-! ## Each event -/

/-- A new page is nobody's victim. -/
theorem EvictOk.inserted (h : Links s) (hok : EvictOk s) : EvictOk (inserted s p page) := by
  intro h0 v hv victim hvictim q hq
  have := hok h0 v hv victim hvictim q hq
  have hmem := h.back_mem (List.mem_of_mem_head? hv) hvictim hq
  obtain ⟨p', -, hmem⟩ := mem_sptPages.mp hmem
  have hne : q ≠ s.nextPage := Nat.ne_of_lt (h.spts.lt p' q hmem)
  refine ⟨?_, this.2⟩
  simpa [frameOf, Vm.inserted, State.setSpt, State.setPage, Function.update_of_ne hne] using this.1

/-- A page is put in a table and claimed at once. -/
theorem Links.claimNew (h : Links s) (hp : p < s.nextPid) (hok : EvictOk s)
    (hc : vmDoClaimPage (Vm.inserted s p page) p s.nextPage = some (b, s')) (h0 : page.va ≠ 0)
    (hnone : hashFind s p page.va = none) (hfr : page.frame = none) : Links s' := by
  refine (h.inserted hp h0 hnone hfr).claim (by simp [spt_inserted]) ⟨hok.inserted h, .inl ?_⟩ hc
  simp [frameOf, Vm.inserted, State.setSpt, State.setPage, hfr]

theorem Links.alloc {type : VmType} {writable init : Bool} {aux : Option FileInfo} (h : Links s)
    (hp : p < s.nextPid) (h0 : va ≠ 0) : Links (vmAllocPageWithInitializer s p type va writable init aux).2 := by
  rcases vmAlloc_cases s p type va writable init aux with hs | ⟨hnone, -, hs⟩
  · rw [hs]
    exact h
  · rw [hs]
    exact h.inserted hp h0 hnone rfl

/-- `setup_stack` fails where there is a page, or puts one at the top of user
space and claims it. -/
theorem setupStack_cases (h : setupStack s p = some (b, s')) :
    ((hashFind s p (userStack / pgsize - 1)).isSome = true ∧ s' = s) ∨
    (hashFind s p (userStack / pgsize - 1) = none ∧
      vmDoClaimPage (inserted s p ⟨userStack / pgsize - 1, none, true, .uninit .anon false none⟩) p s.nextPage =
        some (b, s')) := by
  simp only [setupStack, vmAllocPage] at h
  cases hfind : hashFind s p (userStack / pgsize - 1) with
  | some q =>
    rw [vmAlloc_old hfind] at h
    simp only [Option.some.injEq, Prod.mk.injEq] at h
    exact .inl ⟨rfl, h.2.symm⟩
  | none =>
    rw [vmAlloc_new (.inl rfl) hfind] at h
    have hfound : sptFindPage (inserted s p ⟨userStack / pgsize - 1, none, true, .uninit .anon false none⟩) p
        ((userStack / pgsize - 1) * pgsize) = some s.nextPage := sptFindPage_inserted (by decide)
    simp only [vmClaimPage, hfound] at h
    exact .inr ⟨rfl, h⟩

theorem Links.setupStack (h : Links s) (hp : p < s.nextPid) (hok : EvictOk s)
    (hs : setupStack s p = some (b, s')) : Links s' := by
  rcases setupStack_cases hs with ⟨-, rfl⟩ | ⟨hnone, hc⟩
  · exact h
  · exact h.claimNew hp hok hc (by decide) hnone rfl

theorem Links.copyPage (h : Links s) (hc : c < s.nextPid) (hq : q ∈ s.spt p)
    (hok : ∀ page ∈ s.pages q, page.kind.isFile = true → EvictOk s)
    (hcopy : copyPage s c q = some (b, s')) : Links s' := by
  rcases copyPage_cases h.spts hq hcopy with ⟨-, rfl⟩ | ⟨src, type, init, fi, hsrc, hk, hnone, -, rfl⟩ |
    ⟨src, fi, hsrc, hk, hnone, hclaim⟩ | ⟨src, f, frame, hsrc, hk, hf, hframe, hnone, -, rfl⟩
  · exact h
  all_goals have h0 : src.va ≠ 0 := h.spts.va_ne_zero hq hsrc
  · exact h.inserted hc h0 hnone rfl
  · exact h.claimNew hc (hok src hsrc (by simp [hk, Kind.isFile])) hclaim h0 hnone rfl
  · have hlist : f ∈ s.frameList :=
      h.table.ref_listed q (h.spts.mem_sptPages hq) f (by simp [view, frameOf, hsrc, hf])
    exact h.shared hc hlist hframe h0 hnone

/-- The stack window starts far above page 0. -/
theorem inStackWindow_ne_zero {addr rsp : Nat} (h : inStackWindow addr rsp = true) : addr / pgsize ≠ 0 := by
  simp only [inStackWindow, Bool.and_eq_true, decide_eq_true_eq] at h
  exact (Nat.div_pos (Nat.le_trans (by decide) h.1.2) (by decide)).ne'

theorem Links.fault {addr rsp : Nat} {write : Bool} (h : Links s) (hp : p < s.nextPid)
    (hok : LinksOk s (.fault p addr rsp write))
    (hf : vmTryHandleFault s p addr rsp write (!(s.pte p (addr / pgsize)).present) = some (b, s')) : Links s' := by
  rcases vmTryHandleFault_cases hf with ⟨-, rfl⟩ | ⟨q, page, hq, hpage, -, hpres, hw, hwp⟩ | ⟨q, hq, hpres, hc⟩ |
    ⟨-, hnone, hwin, rfl⟩
  · exact h
  · simp only [Bool.not_eq_false'] at hpres
    have := hok q hq
    rw [if_pos hpres] at this
    exact h.wp (sptFindPage_some hq).1 (this page hpage hw) hwp
  · simp only [Bool.not_eq_true'] at hpres
    have := hok q hq
    rw [if_neg (by simp [hpres])] at this
    exact h.claim (sptFindPage_some hq).1 this hc
  · exact h.alloc hp (inStackWindow_ne_zero hwin)

/-- `pml4_destroy` frees pages of the pool only. -/
theorem pml4DestroyLoop_spec (p : Nat) : ∀ {vas : List Nat} {s s' : State}, pml4DestroyLoop p s vas = some s' →
    s' = { s with mem := s'.mem, userPool := s'.userPool }
  | [], s, s', h => by
    simp only [pml4DestroyLoop, Option.some.injEq] at h
    subst h
    rfl
  | va :: vas, s, s', h => by
    simp only [pml4DestroyLoop] at h
    split at h
    · simp only [Option.bind_eq_bind, Option.bind_eq_some_iff, pallocFreePage] at h
      obtain ⟨s₁, h₁, h₂⟩ := h
      split at h₁
      · obtain rfl := Option.some.inj h₁
        rw [pml4DestroyLoop_spec p h₂]
        rfl
      · exact absurd h₁ (by simp)
    · exact pml4DestroyLoop_spec p h

theorem SameSpts.emptied (hnil : s.spt p = []) :
    SameSpts s { s with procs := Function.update s.procs p Proc.empty } := by
  refine ⟨rfl, rfl, fun p' => ?_, fun _ => rfl⟩
  by_cases he : p' = p
  · subst he
    rw [hnil]
    simp [State.spt, Proc.empty]
  · simp [State.spt, Function.update_of_ne he]

theorem Links.reap (h : Links s) (hnil : s.spt p = []) (hr : pml4Destroy s p = some s') : Links s' := by
  simp only [pml4Destroy, Option.bind_eq_bind, Option.bind_eq_some_iff, Option.some.injEq] at hr
  obtain ⟨s₁, hloop, rfl⟩ := hr
  rw [pml4DestroyLoop_spec p hloop]
  exact (h.congr (.emptied hnil) (fun _ => rfl) rfl rfl rfl).congr ⟨rfl, rfl, fun _ => rfl, fun _ => rfl⟩
    (fun _ => rfl) rfl rfl rfl

/-! ## Every run -/

theorem links_boot {frames slots : Nat} {mem : Nat → Bytes} {disk : Nat → Sector} {inodes : Nat → Inode} :
    Links (boot frames slots mem disk inodes) where
  spts := ⟨fun _ _ => rfl, fun _ _ h => absurd h (List.not_mem_nil), fun _ _ h => absurd h (List.not_mem_nil),
    fun _ => List.nodup_nil, fun _ _ _ h => absurd h (List.not_mem_nil), fun _ _ h => absurd h (List.not_mem_nil)⟩
  frame_lt _ h := absurd h (List.not_mem_nil)
  table := ⟨List.nodup_nil, fun _ _ _ h => absurd h (by simp [view, frameOf, boot]),
    fun _ h => absurd h (List.not_mem_nil), fun _ h => absurd h (List.not_mem_nil),
    fun _ h => absurd h (List.not_mem_nil)⟩

/-- Every event that meets `LinksOk` keeps the tables. -/
theorem Links.step {e : Ev} (h : Links s) (hok : LinksOk s e) (hs : step s e = some s') : Links s' := by
  cases step_took hs with
  | spawn =>
    have hview : view { s with nextPid := s.nextPid + 1 } = view s := Table.ext h.spts.sptPages_spawn rfl rfl rfl
    exact ⟨h.spts.spawn, h.frame_lt, hview ▸ h.table⟩
  | alloc hp h0 => exact h.alloc hp h0
  | setupStack hp hst => exact h.setupStack hp hok hst
  | load => exact h
  | store hp hst =>
    obtain ⟨-, rfl⟩ := storeByte_eq hst
    exact h.congr ⟨rfl, rfl, State.spt_setPte _ _ _ _, fun _ => rfl⟩ (fun _ => rfl) rfl rfl rfl
  | fault hp hno hf => exact h.fault hp hok hf
  | copyPage hc hq hcopy => exact h.copyPage hc hq hok hcopy
  | munmap hp hm => exact h.munmap hok hm
  | destroy hp hq hd => exact h.destroy hq hok hd
  | reap hp hnil hr => exact h.reap hnil hr

/-- **The frame table.** In every run whose events meet `LinksOk`, every frame
on the list is allocated, points at a page of a live table, and counts the
pages that refer to it. -/
theorem frameTable_of_run {frames slots : Nat} {mem : Nat → Bytes} {disk : Nat → Sector} {inodes : Nat → Inode}
    {es : List Ev} (hrun : Run.run step (boot frames slots mem disk inodes) es = some s)
    (hok : Run.Always step LinksOk (boot frames slots mem disk inodes) es) : FrameTable s :=
  (Run.run_invariant (fun _ _ _ h hG hs => Links.step h hG hs) links_boot hrun hok).frameTable

/-- A machine with `n` frames and `m` slots, memory and disk zeroed, and one
file of three bytes. -/
def small (n m : Nat) : State :=
  boot n m (fun _ => zeroPage) (fun _ _ => 0) fun _ => ⟨[1, 2, 3], false⟩

/-- The last byte of the stack. -/
def stackTop : Nat := userStack - 1

/-- A parent shares its stack with a child, the child's write splits the
frames, the parent's is evicted, and the child exits. -/
def forkEvictExit : List Ev :=
  [.spawn, .setupStack 0, .spawn, .copyPage 1 0 0, .fault 1 stackTop 0 true, .alloc 0 .anon 5 true false none,
    .fault 0 (5 * pgsize) 0 false, .destroy 1 1, .reap 1]

theorem frameTable_forkEvictExit : ∃ s, Run.run step (small 2 1) forkEvictExit = some s ∧ FrameTable s := by
  obtain ⟨s, hs⟩ : ∃ s, Run.run step (small 2 1) forkEvictExit = some s :=
    Option.isSome_iff_exists.mp (by decide +kernel)
  exact ⟨s, hs, frameTable_of_run hs (by decide +kernel)⟩

/-- A mapped file of the three bytes. -/
def smallFile : FileInfo := ⟨0, 0, 1, 3, 4093, true, 3⟩

/-- A process maps a file, touches it and exits: the frame is freed, and is
still on the list. -/
theorem not_frameTable_of_file_exit : ¬ ∀ es s, Run.run step (small 1 1) es = some s → FrameTable s := by
  intro h
  obtain ⟨s, hs, hc⟩ : ∃ s, Run.run step (small 1 1) [.spawn, .alloc 0 .file 1 true true (some smallFile),
      .fault 0 pgsize 0 false, .destroy 0 0] = some s ∧ (s.frameList == [0] && (s.frames 0).isNone) = true :=
    (Option.any_eq_true ..).mp (by decide +kernel)
  simp only [Bool.and_eq_true, beq_iff_eq, Option.isNone_iff_eq_none] at hc
  obtain ⟨frame, hframe, -⟩ := h _ s hs 0 (by simp [hc.1])
  exact absurd (hc.2.symm.trans hframe) (by simp)

end PintosKaist.Vm
