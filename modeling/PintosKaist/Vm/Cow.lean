/-
Copy-on-write after `fork`, with no eviction. `page_table_copy` maps the
shared frame read-only in the child and leaves the parent's entry as it was,
so a store of the parent goes straight into the frame the child reads. When no
store goes straight into a frame that another page shares, what one process
does is never seen in the anonymous pages of another.
-/
import PintosKaist.Vm.Reads

namespace PintosKaist.Vm

variable {s s' s₁ t : State} {p q f kva va a b : Nat} {page : Page} {r : Bool}

/-- Processes access memory and fork, and no event evicts. -/
def CowRun (s : State) : Ev → Prop
  | .setupStack _ => 0 < s.userPool.free
  | .fault p addr _ _ => (sptFindPage s p addr).isSome = true → 0 < s.userPool.free
  | .copyPage _ _ q => ∀ page ∈ s.pages q, page.kind.isFile = true → 0 < s.userPool.free
  | .munmap .. | .destroy .. | .reap _ => False
  | .spawn | .alloc .. | .load .. | .store .. => True

/-- A store that does not fault goes into a frame that one page has. -/
def StoreAlone (s : State) : Ev → Prop
  | .store p addr _ => ∀ q ∈ hashFind s p (addr / pgsize), ∀ f ∈ frameOf s q, ∀ frame ∈ s.frames f, frame.rCnt ≤ 1
  | _ => True

instance : ∀ s e, Decidable (CowRun s e)
  | _, .munmap .. | _, .destroy .. | _, .reap _ => inferInstanceAs (Decidable False)
  | _, .setupStack _ => inferInstanceAs (Decidable (0 < _))
  | _, .fault .. => inferInstanceAs (Decidable (_ → 0 < _))
  | _, .copyPage .. => inferInstanceAs (Decidable (∀ _ ∈ _, _ → 0 < _))
  | _, .spawn | _, .alloc .. | _, .load .. | _, .store .. => inferInstanceAs (Decidable True)

instance : ∀ s e, Decidable (StoreAlone s e)
  | _, .store .. => inferInstanceAs (Decidable (∀ _ ∈ _, _))
  | _, .munmap .. | _, .destroy .. | _, .reap _ | _, .spawn | _, .alloc .. | _, .setupStack _ | _, .load ..
  | _, .fault .. | _, .copyPage .. => inferInstanceAs (Decidable True)

theorem EvictOk.of_free (h : 0 < s.userPool.free) : EvictOk s := fun h0 => by omega

theorem EvictOwn.of_free (h : 0 < s.userPool.free) : EvictOwn s p := fun h0 => by omega

/-! ## What is left alone -/

/-- The page `q` of process `b`, the memory behind it, the files and the swap
disk are as they were. -/
structure Keeps (s s' : State) (b q : Nat) : Prop where
  spt : q ∈ s'.spt b
  page : s'.pages q = s.pages q
  mem : ∀ f, frameOf s q = some f → ∀ frame, s.frames f = some frame →
    ∃ frame', s'.frames f = some frame' ∧ frame'.kva = frame.kva ∧ s'.mem frame.kva = s.mem frame.kva
  inodes : s'.inodes = s.inodes
  disk : s'.swapDisk = s.swapDisk

theorem Keeps.refl (hq : q ∈ s.spt b) : Keeps s s b q :=
  ⟨hq, rfl, fun _ _ frame hf => ⟨frame, hf, rfl, rfl⟩, rfl, rfl⟩

theorem Keeps.trans (h : Keeps s s₁ b q) (h' : Keeps s₁ s' b q) : Keeps s s' b q := by
  refine ⟨h'.spt, h'.page.trans h.page, fun f hf frame hframe => ?_, h'.inodes.trans h.inodes, h'.disk.trans h.disk⟩
  obtain ⟨frame₁, hframe₁, hk₁, hm₁⟩ := h.mem f hf frame hframe
  obtain ⟨frame₂, hframe₂, hk₂, hm₂⟩ := h'.mem f (by rw [frameOf, h.page]; exact hf) frame₁ hframe₁
  exact ⟨frame₂, hframe₂, hk₂.trans hk₁, by rw [← hk₁, hm₂, hk₁, hm₁]⟩

/-- What `b` reads in a page is then what it read before. -/
theorem Keeps.readByte {o : Fin pgsize} (h : Keeps s s' b q) (hw : Wf s) (hw' : Wf s') (hq : q ∈ s.spt b)
    (hpage : s.pages q = some page) (hfree : page.frame = none → 0 < s.userPool.free ∧ 0 < s'.userPool.free) :
    readByte s' b (page.va * pgsize + o.val) = readByte s b (page.va * pgsize + o.val) := by
  have hpage' : s'.pages q = some page := h.page.trans hpage
  cases hfr : page.frame with
  | some f =>
    have hqf : frameOf s q = some f := by simp [frameOf, hpage, hfr]
    obtain ⟨-, frame, hframe⟩ := hw.links.resident hq hqf
    obtain ⟨frame', hframe', hkva, hmem⟩ := h.mem f hqf frame hframe
    rw [hw.readByte_resident hq hpage hfr hframe, hw'.readByte_resident h.spt hpage' hfr hframe', hkva, hmem]
  | none =>
    obtain ⟨hf, hf'⟩ := hfree hfr
    rw [hw.readByte_absent hf hq hpage hfr, hw'.readByte_absent hf' h.spt hpage' hfr, h.inodes, h.disk]

/-- A call that process `a` makes keeps the tables and leaves the other
processes alone. -/
def Apart (s s' : State) (a : Nat) : Prop := Wf s' ∧ ∀ b, a ≠ b → ∀ q ∈ s.spt b, Keeps s s' b q

theorem Wf.same (h : Wf s) : Apart s s a := ⟨h, fun _ _ _ hq => .refl hq⟩

/-- A page of process `a` is none of another. -/
theorem Spts.ne_of_other {q' : Nat} (h : Spts s) (hq : q ∈ s.spt a) (hab : a ≠ b) (hq' : q' ∈ s.spt b) : q' ≠ q := by
  rintro rfl
  exact hab (h.apart a b q' hq hq')

/-! ## Each call -/

/-- Mapping the page `q` leaves another page `q'`. -/
theorem Keeps.mapFrame {pool : Bitmap} {rw : Bool} {page' : Page} {q' : Nat} (h : Wf s)
    (hscan : s.userPool.scanAndFlip = some (kva, pool)) (hq' : q' ∈ s.spt b) (hne : q' ≠ q) :
    Keeps s (mapFrame { s.setMem kva zeroPage with userPool := pool } p q page' kva rw) b q' := by
  have hspt : ∀ p', (Vm.mapFrame { s.setMem kva zeroPage with userPool := pool } p q page' kva rw).spt p' = s.spt p' :=
    spt_pml4SetPage { s.setMem kva zeroPage with userPool := pool } p _ _ _
  refine ⟨by rwa [hspt], Function.update_of_ne hne .., fun f hf frame hframe => ⟨frame, ?_, rfl, ?_⟩, rfl, rfl⟩
  · have hne : f ≠ s.nextFrame := Nat.ne_of_lt (h.links.frameLt b q' hq' f hf)
    exact (Function.update_of_ne hne ..).trans hframe
  · exact Function.update_of_ne (h.kva_ne hscan hq' hf hframe) ..

theorem Keeps.filled {q' : Nat} (h : Keeps s t b q') (hw : Wf s) {pool : Bitmap}
    (hscan : s.userPool.scanAndFlip = some (kva, pool)) (hq' : q' ∈ s.spt b) (hf : Filled t q kva page r s')
    (hpage : t.pages q = some page) (hne : q' ≠ q) : Keeps s s' b q' := by
  have hrest := hf.rest
  obtain ⟨k, hk⟩ := hf.pages hpage
  refine ⟨by rw [hrest]; exact h.spt, by rw [hk, Function.update_of_ne hne, h.page], fun f hqf frame hframe => ?_,
    by rw [hrest]; exact h.inodes, by rw [hrest]; exact h.disk⟩
  obtain ⟨frame', hframe', hkva, hmem⟩ := h.mem f hqf frame hframe
  refine ⟨frame', by rw [hrest]; exact hframe', hkva, ?_⟩
  rw [hf.mem_ne (hw.kva_ne hscan hq' hqf hframe), hmem]

/-- A claim with a free frame leaves every other page. -/
theorem Wf.keeps_claim {q' : Nat} (h : Wf s) (hfree : 0 < s.userPool.free) (hc : vmDoClaimPage s a q = some (r, s'))
    (hq' : q' ∈ s.spt b) (hne : q' ≠ q) : Keeps s s' b q' := by
  obtain ⟨s₁, kva, page, hroom, hpage, hfill⟩ := vmDoClaimPage_cases (EvictOk.of_free hfree).linked hc
  cases hroom with
  | anon hfull | file hfull => exact absurd (Bitmap.free_eq_zero hfull) hfree.ne'
  | free hscan =>
    exact (Keeps.mapFrame h hscan hq' hne).filled h hscan hq' hfill (by simp [Vm.mapFrame, State.setMem]) hne

theorem Wf.claimApart (h : Wf s) (hfree : 0 < s.userPool.free) (hq : q ∈ s.spt a) (hnone : frameOf s q = none)
    (hc : vmDoClaimPage s a q = some (r, s')) : Apart s s' a :=
  ⟨h.claim hq ⟨.of_free hfree, .inl hnone⟩ (.of_free hfree) hc, fun _ hab _ hq' =>
    h.keeps_claim hfree hc hq' (h.links.spts.ne_of_other hq hab hq')⟩

theorem Keeps.inserted {q' : Nat} (h : Spts s) (hq' : q' ∈ s.spt b) : Keeps s (inserted s a page) b q' := by
  refine ⟨?_, ?_, fun _ _ frame hframe => ⟨frame, hframe, rfl, rfl⟩, rfl, rfl⟩
  · rw [spt_inserted]
    split
    · rename_i e
      exact List.mem_cons_of_mem _ (e ▸ hq')
    · exact hq'
  · have hne : q' ≠ s.nextPage := Nat.ne_of_lt (h.lt b q' hq')
    simp [Vm.inserted, State.setSpt, State.setPage, Function.update_of_ne hne]

theorem Wf.allocApart {type : VmType} {writable init : Bool} {aux : Option FileInfo} (h : Wf s)
    (hp : a < s.nextPid) (h0 : va ≠ 0) : Apart s (vmAllocPageWithInitializer s a type va writable init aux).2 a := by
  refine ⟨h.alloc hp h0, fun b _ q hq => ?_⟩
  rcases vmAlloc_cases s a type va writable init aux with hs | ⟨-, -, hs⟩
  · rw [hs]
    exact .refl hq
  · rw [hs]
    exact .inserted h.links.spts hq

/-- A page put in a table and claimed leaves every page there was. -/
theorem Wf.keeps_claimNew {q' : Nat} (h : Wf s) (hp : a < s.nextPid) (hfree : 0 < s.userPool.free)
    (hc : vmDoClaimPage (Vm.inserted s a page) a s.nextPage = some (r, s')) (h0 : page.va ≠ 0)
    (hnone : hashFind s a page.va = none) (hfr : page.frame = none) (hq' : q' ∈ s.spt b) : Keeps s s' b q' := by
  have hins : Keeps s (Vm.inserted s a page) b q' := .inserted h.links.spts hq'
  exact hins.trans ((h.inserted hp h0 hnone hfr).keeps_claim hfree hc hins.spt
    (Nat.ne_of_lt (h.links.spts.lt b q' hq')))

theorem Wf.claimNewApart (h : Wf s) (hp : a < s.nextPid) (hfree : 0 < s.userPool.free)
    (hc : vmDoClaimPage (Vm.inserted s a page) a s.nextPage = some (r, s')) (h0 : page.va ≠ 0)
    (hnone : hashFind s a page.va = none) (hfr : page.frame = none) : Apart s s' a :=
  ⟨h.claimNew hp (.of_free hfree) (.of_free hfree) hc h0 hnone hfr, fun _ _ _ hq' =>
    h.keeps_claimNew hp hfree hc h0 hnone hfr hq'⟩

theorem Wf.wpApart (h : Wf s) (hfree : 0 < s.userPool.free) (hq : q ∈ s.spt a)
    (hw : vmHandleWp s a q = some (r, s')) : Apart s s' a := by
  refine ⟨h.wp hq (fun _ _ _ _ _ _ => EvictOk.of_free hfree) (.of_free hfree) hw, fun b hab q' hq' => ?_⟩
  obtain ⟨page, hpage, f₀, hf, old, hold⟩ := vmHandleWp_old hw
  obtain ⟨-, s₁, kva, page', hroom, hpage', rfl⟩ := vmHandleWp_cases hpage hf hold (fun h0 => absurd h0 hfree.ne') hw
  cases hroom with
  | anon hfull | file hfull => exact absurd (Bitmap.free_eq_zero hfull) hfree.ne'
  | free hscan =>
    rename_i pool
    have hspt := spt_pml4SetPage { (s.setFrame f₀ { old with rCnt := old.rCnt - 1 }).setMem kva zeroPage with
      userPool := pool } a page'.va kva true b
    refine ⟨hspt.symm ▸ hq', ?_, fun f hqf frame hframe => ?_, rfl, rfl⟩
    · have hne := h.links.spts.ne_of_other hq hab hq'
      simp only [Vm.mapFrame, State.setMem, State.setFrame, Function.update_of_ne hne]
    · have hkva := h.kva_ne hscan hq' hqf hframe
      have hlt : f ≠ s.nextFrame := Nat.ne_of_lt (h.links.frameLt b q' hq' f hqf)
      by_cases he : f = f₀
      · subst he
        obtain rfl := Option.some.inj (hold.symm.trans hframe)
        refine ⟨{ old with rCnt := old.rCnt - 1 }, ?_, rfl, ?_⟩
        · simp [Vm.mapFrame, State.setMem, State.setFrame, Function.update_of_ne hlt]
        · simp [Vm.mapFrame, State.setMem, State.setFrame, Function.update_of_ne hkva]
      · refine ⟨frame, ?_, rfl, ?_⟩
        · simp [Vm.mapFrame, State.setMem, State.setFrame, Function.update_of_ne hlt, Function.update_of_ne he, hframe]
        · simp [Vm.mapFrame, State.setMem, State.setFrame, Function.update_of_ne hkva]

theorem Keeps.shared {src : Page} {frame : Frame} {q' : Nat} (h : Spts s) (hframe : s.frames f = some frame)
    (hq' : q' ∈ s.spt b) : Keeps s (shared s a src f frame) b q' := by
  refine ⟨?_, Function.update_of_ne (Nat.ne_of_lt (h.lt b q' hq')) .., fun g hg frame' hframe' => ?_, rfl, rfl⟩
  · rw [spt_shared]
    split
    · rename_i e
      exact List.mem_cons_of_mem _ (e ▸ hq')
    · exact hq'
  · by_cases he : g = f
    · subst he
      obtain rfl := Option.some.inj (hframe.symm.trans hframe')
      exact ⟨_, Function.update_self .., rfl, rfl⟩
    · exact ⟨frame', (Function.update_of_ne he ..).trans hframe', rfl, rfl⟩

/-- A turn of the copy leaves every page there was, those of the child too. -/
theorem Wf.keeps_copyPage {q' : Nat} (h : Wf s) (hc : a < s.nextPid) (hq : q ∈ s.spt p)
    (hfree : ∀ page ∈ s.pages q, page.kind.isFile = true → 0 < s.userPool.free)
    (hcopy : Vm.copyPage s a q = some (r, s')) (hq' : q' ∈ s.spt b) : Keeps s s' b q' := by
  rcases copyPage_cases h.links.spts hq hcopy with ⟨-, rfl⟩ | ⟨src, type, init, fi, hsrc, hk, hnone, -, rfl⟩ |
    ⟨src, fi, hsrc, hk, hnone, hclaim⟩ | ⟨src, f, frame, hsrc, hk, hf, hframe, hnone, -, rfl⟩
  · exact .refl hq'
  · exact .inserted h.links.spts hq'
  · have hf := hfree src hsrc (by simp [hk, Kind.isFile])
    have h0 : src.va ≠ 0 := h.links.spts.va_ne_zero hq hsrc
    exact h.keeps_claimNew hc hf hclaim h0 hnone rfl hq'
  · exact .shared h.links.spts hframe hq'

theorem Wf.copyPageApart (h : Wf s) (hc : a < s.nextPid) (hq : q ∈ s.spt p)
    (hfree : ∀ page ∈ s.pages q, page.kind.isFile = true → 0 < s.userPool.free)
    (hcopy : Vm.copyPage s a q = some (r, s')) : Apart s s' a :=
  ⟨h.copyPage hc hq (fun page hpage hk => ⟨.of_free (hfree page hpage hk), .of_free (hfree page hpage hk)⟩) hcopy,
    fun _ _ _ hq' => h.keeps_copyPage hc hq hfree hcopy hq'⟩

/-- A store into a frame that one page has is a store into no page of another
process. -/
theorem Wf.storeApart {addr : Nat} {c : Byte} (h : Wf s) (hal : StoreAlone s (.store a addr c))
    (hs : storeByte s a addr c = some s') : Apart s s' a := by
  refine ⟨h.store hs, fun b hab q hq => ?_⟩
  simp only [storeByte] at hs
  split at hs
  · rename_i hperm
    obtain rfl := Option.some.inj hs
    refine ⟨by rwa [State.spt_setPte], rfl, fun f hqf frame hframe => ⟨frame, hframe, rfl, ?_⟩, rfl, rfl⟩
    have hp : (s.pte a (addr / pgsize)).present = true := by
      simp only [permits, Bool.and_eq_true] at hperm
      exact hperm.1
    obtain ⟨q', page', f', frame', hq', hpage', hva', hf', hlist', hframe', hk'⟩ := h.present hp
    refine Function.update_of_ne (fun e => ?_) ..
    -- the same page of memory is the same frame, which would have two users
    have hff : f = f' := h.pool.inj f (h.links.resident hq hqf).1 f' hlist' frame frame' hframe hframe' (by rw [e, hk'])
    subst hff
    obtain rfl := Option.some.inj (hframe.symm.trans hframe')
    have hqf' : frameOf s q' = some f := by simp [frameOf, hpage', hf']
    have hle := hal q' (h.links.spts.hashFind_iff.mpr ⟨hq', by rw [vaOf_eq hpage', hva']⟩) f hqf' frame hframe
    have h1 : frame.rCnt = 1 := by
      have hcnt := h.links.table.cnt f hlist' (toObj frame) (by simp [view, hframe])
      have hpos : 0 < (view s).users f :=
        Finset.card_pos.mpr ⟨q, Finset.mem_filter.mpr ⟨h.links.spts.mem_sptPages hq, hqf⟩⟩
      simp only [toObj] at hcnt
      omega
    have := h.links.sole (h.links.spts.mem_sptPages hq) hqf hframe h1 (h.links.spts.mem_sptPages hq') hqf'
    subst this
    exact hab (h.links.spts.apart a b q' hq' hq)
  · exact absurd hs (by simp)

theorem Wf.faultApart {addr rsp : Nat} {write : Bool} (h : Wf s) (hp : a < s.nextPid)
    (hfree : (sptFindPage s a addr).isSome = true → 0 < s.userPool.free)
    (hf : vmTryHandleFault s a addr rsp write (!(s.pte a (addr / pgsize)).present) = some (r, s')) : Apart s s' a := by
  rcases vmTryHandleFault_cases hf with ⟨-, rfl⟩ | ⟨q, page, hq, hpage, -, hpres, hw, hwp⟩ | ⟨q, hq, hpres, hc⟩ |
    ⟨-, hnone, hwin, rfl⟩
  · exact h.same
  · exact h.wpApart (hfree (by simp [hq])) (sptFindPage_some hq).1 hwp
  · obtain ⟨hm, page, hpage, hva⟩ := sptFindPage_some hq
    simp only [Bool.not_eq_true'] at hpres
    refine h.claimApart (hfree (by simp [hq])) hm ?_ hc
    exact h.not_resident hm (by rw [vaOf_eq hpage, hva]) hpres
  · exact h.allocApart hp (inStackWindow_ne_zero hwin)

/-! ## Every run -/

/-- Every event of a process leaves the others alone. -/
theorem Wf.stepApart {e : Ev} (h : Wf s) (hc : CowRun s e) (hal : StoreAlone s e) (hs : Vm.step s e = some s') :
    Wf s' ∧ ∀ a, e.pid = some a → Apart s s' a := by
  have of_apart : ∀ {p}, Apart s s' p → Wf s' ∧ ∀ a, some p = some a → Apart s s' a := fun h =>
    ⟨h.1, fun _ e => Option.some.inj e ▸ h⟩
  cases step_took hs with
  | spawn => exact ⟨h.step (e := .spawn) trivial trivial hs, fun a e => absurd e (by simp [Ev.pid])⟩
  | alloc hp h0 => exact of_apart (h.allocApart hp h0)
  | setupStack hp hst =>
    rcases setupStack_cases hst with ⟨-, rfl⟩ | ⟨hnone, hclaim⟩
    · exact of_apart h.same
    · exact of_apart (h.claimNewApart hp hc hclaim (by decide) hnone rfl)
  | load => exact of_apart h.same
  | store hp hst => exact of_apart (h.storeApart hal hst)
  | fault hp hno hf => exact of_apart (h.faultApart hp hc hf)
  | copyPage hp hq hcopy => exact of_apart (h.copyPageApart hp hq hc hcopy)
  | munmap | destroy | reap => exact hc.elim

/-- **Isolation.** Take any state that events meeting `LinksOk` and `OwnOk`
lead to. In every run from there that makes no eviction and stores straight
into no shared frame, what one process does next changes no byte another reads
in a page of its table. -/
theorem readByte_of_other {frames slots : Nat} {mem : Nat → Bytes} {disk : Nat → Sector} {inodes : Nat → Inode}
    {es₀ es : List Ev} {s₀ : State} {e : Ev} (hrun₀ : Run.run step (boot frames slots mem disk inodes) es₀ = some s₀)
    (hok : Run.Always step (fun s e => LinksOk s e ∧ OwnOk s e) (boot frames slots mem disk inodes) es₀)
    (hrun : Run.run step s₀ es = some s)
    (hcow : Run.Always step (fun s e => CowRun s e ∧ StoreAlone s e) s₀ es)
    (hs : step s e = some s') (hc : CowRun s e) (hal : StoreAlone s e) (ha : e.pid = some a) (hab : a ≠ b)
    (hq : q ∈ s.spt b) (hpage : s.pages q = some page)
    (hfree : page.frame = none → 0 < s.userPool.free ∧ 0 < s'.userPool.free) (o : Fin pgsize) :
    readByte s' b (page.va * pgsize + o.val) = readByte s b (page.va * pgsize + o.val) := by
  have h₀ : Wf s₀ := Run.run_invariant (fun _ _ _ h hG hs => h.step hG.1 hG.2 hs) wf_boot hrun₀ hok
  have h : Wf s := Run.run_invariant (fun _ _ _ h hG hs => (h.stepApart hG.1 hG.2 hs).1) h₀ hrun hcow
  obtain ⟨hw, hkeep⟩ := (h.stepApart hc hal hs).2 a ha
  exact (hkeep b hab q hq).readByte h hw hq hpage hfree

/-- A parent, its stack and a child. -/
def parentAndChild : List Ev := [.spawn, .setupStack 0, .store 0 stackTop 7, .spawn]

/-- The parent forks, and the child's write faults and gets a frame of its
own. -/
def forkWrite : List Ev := [.copyPage 1 0 0, .fault 1 stackTop 0 true]

/-- The child's store is then not seen by the parent. -/
theorem readByte_forkWrite : ∃ s₀ s s', Run.run step (small 3 1) parentAndChild = some s₀ ∧
    Run.run step s₀ forkWrite = some s ∧ step s (.store 1 stackTop 9) = some s' ∧
    readByte s' 0 stackTop = readByte s 0 stackTop := by
  obtain ⟨s₀, hs₀, hc⟩ : ∃ s₀, Run.run step (small 3 1) parentAndChild = some s₀ ∧
      (decide (Run.Always step (fun s e => CowRun s e ∧ StoreAlone s e) s₀ forkWrite) &&
        (Run.run step s₀ forkWrite).any fun s => decide (StoreAlone s (.store 1 stackTop 9)) &&
          ((step s (.store 1 stackTop 9)).isSome && (s.spt 0 == [0] &&
            (s.pages 0).any fun page => page.va == userStack / pgsize - 1 && page.frame.isSome))) = true :=
    (Option.any_eq_true ..).mp (by decide +kernel)
  simp only [Bool.and_eq_true, beq_iff_eq, decide_eq_true_eq, Option.any_eq_true] at hc
  obtain ⟨hcow, s, hs, hal, hsome, hspt, page, hpage, hva, hfr⟩ := hc
  obtain ⟨s', hs'⟩ := Option.isSome_iff_exists.mp hsome
  refine ⟨s₀, s, s', hs₀, hs, hs', ?_⟩
  have hq : 0 ∈ s.spt 0 := by simp [hspt]
  have hab : 1 ≠ 0 := by decide
  have := readByte_of_other hs₀ (by decide +kernel) hs hcow hs' trivial hal rfl hab hq hpage
    (fun e => by simp [e] at hfr) ⟨pgsize - 1, by decide⟩
  rw [hva] at this
  exact this

/-- Right after the fork the parent's store goes into the frame it shares. -/
theorem not_readByte_of_parent_store : ¬ ∀ es s s' e a b, Run.run step (small 3 1) es = some s →
    Run.Always step CowRun (small 3 1) es → step s e = some s' → CowRun s e → e.pid = some a → a ≠ b →
    ∀ q ∈ s.spt b, ∀ page, s.pages q = some page → page.kind.isAnon = true → ∀ o : Fin pgsize,
      readByte s' b (page.va * pgsize + o.val) = readByte s b (page.va * pgsize + o.val) := by
  intro h
  obtain ⟨s, hs, hc⟩ : ∃ s, Run.run step (small 3 1) [.spawn, .setupStack 0, .spawn, .copyPage 1 0 0] = some s ∧
      ((s.spt 1 == [1] && (s.pages 1).any fun page => page.va == userStack / pgsize - 1 && page.kind.isAnon) &&
        (step s (.store 0 stackTop 9)).any fun s' => readByte s' 1 stackTop != readByte s 1 stackTop) = true :=
    (Option.any_eq_true ..).mp (by decide +kernel)
  simp only [Bool.and_eq_true, beq_iff_eq, Option.any_eq_true, bne_iff_ne] at hc
  obtain ⟨⟨hspt, page, hpage, hva, hk⟩, s', hs', hne⟩ := hc
  have := h _ s s' _ 0 1 hs (by decide +kernel) hs' trivial rfl (by decide) 1 (by simp [hspt]) page hpage hk
    ⟨pgsize - 1, by decide⟩
  rw [hva] at this
  exact hne this

end PintosKaist.Vm
