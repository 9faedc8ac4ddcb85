/-
`supplemental_page_table_copy` as a snapshot. It reads the `aux` of an uninit
page and the frame of an anonymous one without a look whether they are there,
and fills the child's copy of a file-backed page from the file, whatever the
parent has written to the page. The copy succeeds, and the child reads what
the parent read, exactly when no page of the parent is in one of these states.
-/
import PintosKaist.Vm.Cow
import PintosKaist.Vm.Paging

namespace PintosKaist.Vm

variable {s s' s₁ t : State} {p c q d f kva va : Nat} {page src : Page} {b : Bool}

/-! ## Pages not yet claimed -/

/-- An uninit page has no frame, and will be anonymous or file-backed. -/
def PageFresh (page : Page) : Prop :=
  ∀ type init aux, page.kind = .uninit type init aux → page.frame = none ∧ (type = .anon ∨ type = .file)

def Fresh (s : State) : Prop := ∀ q page, s.pages q = some page → PageFresh page

theorem Fresh.congr (h : Fresh s) (hp : s'.pages = s.pages) : Fresh s' := fun q page hpage => h q page (hp ▸ hpage)

theorem Fresh.update (page : Page) (h : Fresh s) (hpage : PageFresh page)
    (hp : s'.pages = Function.update s.pages q (some page)) :
    Fresh s' := by
  intro q' page' hpage'
  rw [hp] at hpage'
  by_cases he : q' = q
  · subst he
    rw [Function.update_self, Option.some.injEq] at hpage'
    exact hpage' ▸ hpage
  · rw [Function.update_of_ne he] at hpage'
    exact h q' page' hpage'

/-- A page that has been claimed is no uninit page any more. -/
theorem pageFresh_claimed (h : ∀ type init aux, page.kind ≠ .uninit type init aux) : PageFresh page :=
  fun type init aux hk => absurd hk (h type init aux)

theorem Fresh.room (h : Fresh s) (hr : Room s p s₁ kva) : Fresh s₁ := by
  cases hr with
  | free => exact h
  | anon => exact h.update _ (pageFresh_claimed fun _ _ _ => by simp) rfl
  | file _ _ _ _ _ _ hkind => exact h.update _ (pageFresh_claimed fun _ _ _ => by simp [hkind]) rfl

theorem pageInitializer_ne {type type' : VmType} {init : Bool} {aux aux' : Option FileInfo} :
    pageInitializer type aux ≠ .uninit type' init aux' := by
  cases type <;> simp [pageInitializer]

/-- `swap_in` leaves the page claimed. -/
theorem Filled.claimed (hf : Filled s q kva page b s') (hpage : s.pages q = some page) :
    ∃ k, (∀ type init aux, k ≠ .uninit type init aux) ∧
      s'.pages = Function.update s.pages q (some { page with kind := k }) := by
  have hself : s.pages = Function.update s.pages q (some { page with kind := page.kind }) :=
    (Function.update_eq_self_iff.mpr hpage.symm).symm
  cases hf with
  | bare | load => exact ⟨_, fun _ _ _ => pageInitializer_ne, rfl⟩
  | swap => exact ⟨_, fun _ _ _ => by simp, rfl⟩
  | resident hk | short hk | reload hk => exact ⟨_, fun _ _ _ => by simp [hk], hself⟩

theorem Fresh.claim (h : Fresh s) (hv : s.userPool.free = 0 → VictimLinked s) (hc : vmDoClaimPage s p q = some (b, s')) :
    Fresh s' := by
  obtain ⟨s₁, kva, page, hroom, hpage, hfill⟩ := vmDoClaimPage_cases hv hc
  obtain ⟨k, hk, hpages⟩ := hfill.claimed (by simp [mapFrame])
  simp only [mapFrame, Function.update_idem] at hpages
  exact (h.room hroom).update _ (pageFresh_claimed hk) hpages

theorem Fresh.wp (h : Fresh s) (hok : WpOk s q) (hw : vmHandleWp s p q = some (b, s')) : Fresh s' := by
  obtain ⟨page, hpage, f₀, hf, old, hold⟩ := vmHandleWp_old hw
  have hev := hok page hpage f₀ hf old hold
  obtain ⟨-, s₁, kva, page', hroom, hpage', rfl⟩ := vmHandleWp_cases hpage hf hold hev.linked_of_unlinked hw
  have h₀ : Fresh (s.setFrame f₀ { old with rCnt := old.rCnt - 1 }) := h.congr rfl
  refine (h₀.room hroom).update { page' with frame := some s₁.nextFrame } (fun type init aux hk => ?_) rfl
  -- the page that faulted had a frame, so it was claimed before
  have hne : s.userPool.free = 0 → ∀ v ∈ s.frameList.head?,
      ∀ victim ∈ (s.setFrame f₀ { old with rCnt := old.rCnt - 1 }).frames v, victim.page ≠ some q :=
    fun h0 v hv victim hvictim e => (hev.victim_ne h0 hv hvictim e).1 rfl
  have hsame : s₁.pages q = s.pages q := hroom.pages_ne hne
  obtain rfl := Option.some.inj (hpage.symm.trans (hsame.symm.trans hpage'))
  have hnone := (h q page hpage type init aux hk).1
  exact absurd (hf.symm.trans hnone) (by simp)

theorem Fresh.alloc {type : VmType} {writable init : Bool} {aux : Option FileInfo} (h : Fresh s) :
    Fresh (vmAllocPageWithInitializer s p type va writable init aux).2 := by
  rcases vmAlloc_cases s p type va writable init aux with hs | ⟨-, ht, hs⟩
  · rw [hs]
    exact h
  · rw [hs]
    refine h.update ⟨va, none, writable, .uninit type init aux⟩ (fun type' init' aux' hk => ?_) rfl
    cases hk
    exact ⟨rfl, ht⟩

theorem Fresh.claimNew (h : Fresh s) (hv : s.userPool.free = 0 → VictimLinked (inserted s p page)) (hp : PageFresh page)
    (hc : vmDoClaimPage (inserted s p page) p s.nextPage = some (b, s')) : Fresh s' := by
  have hins : Fresh (inserted s p page) := h.update page hp rfl
  exact hins.claim hv hc

theorem pageFresh_new {type : VmType} {writable init : Bool} {aux : Option FileInfo} (ht : type = .anon ∨ type = .file) :
    PageFresh ⟨va, none, writable, .uninit type init aux⟩ := by
  intro type' init' aux' hk
  cases hk
  exact ⟨rfl, ht⟩

theorem Fresh.destroy (h : Fresh s) (hd : vmDeallocPage s p q = some s') : Fresh s' := by
  simp only [vmDeallocPage, Option.bind_eq_bind, Option.bind_eq_some_iff, Option.some.injEq] at hd
  obtain ⟨page, hpage, s₂, hd, rfl⟩ := hd
  -- the pages but for `q` are as they were
  have hold : ∀ {q'}, q' ≠ q → s₂.pages q' = s.pages q' := by
    intro q' hne
    cases hk : page.kind with
    | uninit =>
      simp only [Vm.destroy, hk, Option.some.injEq] at hd
      rw [hd]
    | anon =>
      simp only [Vm.destroy, hk] at hd
      rcases anonDestroy_cases hd with ⟨-, rfl⟩ | ⟨f, frame, -, -, ⟨-, -, rfl⟩ | ⟨-, rfl⟩⟩
      · rfl
      · rfl
      · rfl
    | file aux =>
      simp only [Vm.destroy, hk, fileBackedDestroy, Option.bind_eq_bind, Option.bind_eq_some_iff] at hd
      obtain ⟨s₃, hw, hd⟩ := hd
      have hs := (writeBack_spec hw).1
      split at hd
      · obtain rfl := Option.some.inj hd
        rw [hs]
        rfl
      · simp only [Option.bind_eq_some_iff, pallocFreePage, Option.ite_none_right_eq_some, Option.some.injEq] at hd
        obtain ⟨frame, -, s₄, ⟨-, rfl⟩, rfl⟩ := hd
        rw [hs]
        exact Function.update_of_ne hne ..
  intro q' page' hpage'
  by_cases he : q' = q
  · subst he
    simp [State.freePage] at hpage'
  · simp only [State.freePage, Function.update_of_ne he, hold he] at hpage'
    exact h q' page' hpage'

theorem Fresh.munmap (h : Fresh s) (hm : doMunmap s p va = some s') : Fresh s' := by
  simp only [doMunmap, Option.bind_eq_bind, Option.bind_eq_some_iff, Option.some.injEq] at hm
  obtain ⟨q, hfind, page, hpage, s₂, hw, rfl⟩ := hm
  exact h.congr (by rw [(writeBack_spec hw).1]; rfl)

theorem Fresh.copyPage (h : Fresh s) (hw : Wf s) (hq : q ∈ s.spt p)
    (hok : ∀ page ∈ s.pages q, page.kind.isFile = true → EvictOk s) (hcopy : Vm.copyPage s c q = some (b, s')) :
    Fresh s' := by
  rcases copyPage_cases hw.links.spts hq hcopy with ⟨-, rfl⟩ | ⟨src, type, init, fi, hsrc, hk, hnone, -, rfl⟩ |
    ⟨src, fi, hsrc, hk, hnone, hclaim⟩ | ⟨src, f, frame, hsrc, hk, hf, hframe, hnone, -, rfl⟩
  · exact h
  · exact h.update _ (pageFresh_new (h q src hsrc type init _ hk).2) rfl
  · have hev := hok src hsrc (by simp [hk, Kind.isFile])
    exact h.claimNew (hev.inserted hw.links).linked (pageFresh_new (.inr rfl)) hclaim
  · exact h.update _ (pageFresh_claimed fun _ _ _ => by simp) rfl

/-- Every event that meets `LinksOk` keeps it. -/
theorem Fresh.step {e : Ev} (h : Fresh s) (hw : Wf s) (hok : LinksOk s e) (hs : step s e = some s') : Fresh s' := by
  cases step_took hs with
  | spawn => exact h
  | alloc hp h0 => exact h.alloc
  | setupStack hp hst =>
    rcases setupStack_cases hst with ⟨-, rfl⟩ | ⟨hnone, hc⟩
    · exact h
    · exact h.claimNew (EvictOk.inserted hw.links hok).linked (pageFresh_new (.inl rfl)) hc
  | load => exact h
  | store hp hst =>
    obtain ⟨-, rfl⟩ := storeByte_eq hst
    exact h
  | fault hp hno hf =>
    rcases vmTryHandleFault_cases hf with ⟨-, rfl⟩ | ⟨q, page, hq, hpage, -, hpres, hwr, hwp⟩ | ⟨q, hq, hpres, hc⟩ |
      ⟨-, hnone, hwin, rfl⟩
    · exact h
    · simp only [Bool.not_eq_false'] at hpres
      have := hok q hq
      rw [if_pos hpres] at this
      exact h.wp (this page hpage hwr) hwp
    · simp only [Bool.not_eq_true'] at hpres
      have := hok q hq
      rw [if_neg (by simp [hpres])] at this
      exact h.claim this.1.linked hc
    · exact h.alloc
  | copyPage hc hq hcopy => exact h.copyPage hw hq hok hcopy
  | munmap hp hm => exact h.munmap hm
  | @destroy p q _ hp hq hd =>
    have hset : Fresh (s.setSpt p ((s.spt p).erase q)) := h
    exact hset.destroy hd
  | reap hp hnil hr =>
    obtain rfl := Option.some.inj ((pml4Destroy_absent (hw.absent hnil)).symm.trans hr)
    exact h

/-! ## What is read -/

theorem Keeps.content (h : Keeps s s' p q) (hw : Wf s) (hq : q ∈ s.spt p) : contentOf s' q = contentOf s q := by
  obtain ⟨va, hva, -⟩ := hw.links.spts.live p q hq
  obtain ⟨page, hpage, -⟩ := vaOf_some hva
  have hpage' : s'.pages q = some page := h.page.trans hpage
  cases hfr : page.frame with
  | none => rw [contentOf_absent hpage hfr, contentOf_absent hpage' hfr, h.inodes, h.disk]
  | some f =>
    have hqf : frameOf s q = some f := by simp [frameOf, hpage, hfr]
    obtain ⟨-, frame, hframe⟩ := hw.links.resident hq hqf
    obtain ⟨frame', hframe', hkva, hmem⟩ := h.mem f hqf frame hframe
    rw [contentOf_resident hpage hfr hframe, contentOf_resident hpage' hfr hframe', hkva, hmem]

/-- A page of user space reads as its content. -/
theorem Wf.readByte_content {o : Fin pgsize} (h : Wf s) (hfree : 0 < s.userPool.free) (hq : q ∈ s.spt p)
    (hpage : s.pages q = some page) (hlt : page.va * pgsize < kernBase) :
    readByte s p (page.va * pgsize + o.val) = (contentOf s q).map fun bytes => bytes o := by
  cases hfr : page.frame with
  | some f =>
    have hqf : frameOf s q = some f := by simp [frameOf, hpage, hfr]
    obtain ⟨-, frame, hframe⟩ := h.links.resident hq hqf
    rw [h.readByte_resident hq hpage hfr hframe, contentOf_resident hpage hfr hframe]
    rfl
  | none =>
    have ho := o.2
    have hnot : ¬ kernBase ≤ page.va * pgsize + o.val := by
      simp only [kernBase, pgsize] at *
      omega
    rw [h.readByte_absent hfree hq hpage hfr, if_neg hnot, contentOf_absent hpage hfr]

/-! ## One turn -/

/-- What a turn dereferences is there. -/
def Copies (src : Page) : Prop :=
  match src.kind with
  | .uninit _ _ aux => aux.isSome = true
  | .anon .. => src.frame.isSome = true
  | .file aux => aux.isSome = true

/-- What the child's copy of the page `q` holds. -/
def copiedBytes (s : State) (q : Nat) (src : Page) : Option Bytes :=
  match src.kind with
  | .file aux => aux.map fun fi => segmentBytes (s.inodes fi.file) fi
  | _ => contentOf s q

/-- The page `d` of `c` stands where `src` does and holds `bytes`. -/
structure CopyOf (src : Page) (bytes : Option Bytes) (s : State) (c d : Nat) : Prop where
  spt : d ∈ s.spt c
  page : ∃ page, s.pages d = some page ∧ page.va = src.va ∧ page.writable = src.writable
  content : contentOf s d = bytes

/-- A claim with a free frame takes that frame. -/
theorem free_claim (hfree : 0 < s.userPool.free) (hc : vmDoClaimPage s p q = some (b, s')) :
    s'.userPool.free + 1 = s.userPool.free := by
  obtain ⟨s₁, kva, page, hroom, hpage, hfill⟩ := vmDoClaimPage_cases (EvictOk.of_free hfree).linked hc
  have hrest := hfill.rest
  cases hroom with
  | anon hfull | file hfull => exact absurd (Bitmap.free_eq_zero hfull) hfree.ne'
  | free hscan =>
    rw [hrest]
    exact Bitmap.free_scanAndFlip hscan

/-- A file-backed page of the child is claimed at once, and filled from the
file. -/
theorem content_claimFile {fi : FileInfo} {writable : Bool} (hfree : 0 < s.userPool.free)
    (hpage : s.pages q = some ⟨va, none, writable, .uninit .file true (some fi)⟩)
    (hc : vmDoClaimPage s p q = some (b, s')) :
    (∃ page, s'.pages q = some page ∧ page.va = va ∧ page.writable = writable) ∧
      contentOf s' q = some (segmentBytes (s.inodes fi.file) fi) := by
  obtain ⟨kva, pool, hscan⟩ := Bitmap.exists_scanAndFlip hfree
  rw [vmDoClaimPage_free hscan hpage] at hc
  have hpg : (mapFrame { s.setMem kva zeroPage with userPool := pool } p q
      ⟨va, none, writable, .uninit .file true (some fi)⟩ kva writable).pages q =
      some ⟨va, some s.nextFrame, writable, .uninit .file true (some fi)⟩ := by simp [mapFrame, State.setMem]
  have hfr : (some s.nextFrame).bind (mapFrame { s.setMem kva zeroPage with userPool := pool } p q
      ⟨va, none, writable, .uninit .file true (some fi)⟩ kva writable).frames = some ⟨kva, some q, 1⟩ := by
    simp [mapFrame, State.setMem]
  have hfill := swapIn_filled hpg hfr rfl hc
  cases hfill with
  | load hkind =>
    cases hkind
    exact ⟨⟨_, Function.update_self .., rfl, rfl⟩, by
      simp [contentOf, State.setMem, State.setPage, mapFrame]⟩
  | bare hkind | swap hkind | resident hkind | short hkind | reload hkind => simp at hkind

theorem Wf.turn (h : Wf s) (hf : Fresh s) (hq : q ∈ s.spt p) (hsrc : s.pages q = some src)
    (hfree : 0 < s.userPool.free) (hcopy : Vm.copyPage s c q = some (true, s₁)) :
    Copies src ∧ s.userPool.free ≤ s₁.userPool.free + 1 ∧ s₁.spt c = s.nextPage :: s.spt c ∧
      CopyOf src (copiedBytes s q src) s₁ c s.nextPage := by
  rcases copyPage_cases h.links.spts hq hcopy with ⟨e, -⟩ | ⟨src', type, init, fi, hsrc', hk, hnone, -, rfl⟩ |
    ⟨src', fi, hsrc', hk, hnone, hclaim⟩ | ⟨src', f, frame, hsrc', hk, hfr, hframe, hnone, -, rfl⟩
  · exact absurd e (by simp)
  all_goals obtain rfl := Option.some.inj (hsrc.symm.trans hsrc')
  · have hnew : (Vm.inserted s c ⟨src.va, none, src.writable, .uninit type init (some fi)⟩).pages s.nextPage =
        some ⟨src.va, none, src.writable, .uninit type init (some fi)⟩ := Function.update_self ..
    refine ⟨by simp [Copies, hk], Nat.le_succ _, by rw [spt_inserted, if_pos rfl],
      by simp [spt_inserted], ⟨_, hnew, rfl, rfl⟩, ?_⟩
    have hnone := (hf q src hsrc type init _ hk).1
    simp only [copiedBytes, hk]
    rw [contentOf_absent hnew rfl, contentOf_absent hsrc hnone, hk]
    rfl
  · have hnew : (Vm.inserted s c ⟨src.va, none, src.writable, .uninit .file true (some fi)⟩).pages s.nextPage =
        some ⟨src.va, none, src.writable, .uninit .file true (some fi)⟩ := Function.update_self ..
    have hfree' : 0 < (Vm.inserted s c ⟨src.va, none, src.writable, .uninit .file true (some fi)⟩).userPool.free := hfree
    have hfr := free_claim hfree' hclaim
    change s₁.userPool.free + 1 = s.userPool.free at hfr
    obtain ⟨hpage, hcontent⟩ := content_claimFile hfree' hnew hclaim
    have hspt : s₁.spt c = s.nextPage :: s.spt c := by
      obtain ⟨s₂, kva, page, hroom, hpage₂, hfill⟩ := vmDoClaimPage_cases (EvictOk.of_free hfree').linked hclaim
      have hsame := (SameSpts.room hroom).trans ((SameSpts.mapFrame hpage₂).trans (.filled hfill (by simp [mapFrame])))
      rw [hsame.spt, spt_inserted, if_pos rfl]
    refine ⟨by simp [Copies, hk], by omega, hspt, by simp [hspt], hpage, ?_⟩
    rw [hcontent]
    simp only [copiedBytes, hk]
    rfl
  · have hqf : frameOf s q = some f := by simp [frameOf, hsrc, hfr]
    refine ⟨?_, Nat.le_succ _, by rw [spt_shared, if_pos rfl], by simp [spt_shared],
      ⟨_, Function.update_self .., rfl, rfl⟩, ?_⟩
    · cases hk' : src.kind with
      | uninit | file => simp [hk', Kind.isAnon] at hk
      | anon => simp [Copies, hk', hfr]
    · have hbytes : copiedBytes s q src = contentOf s q := by
        cases hk' : src.kind with
        | uninit | file => simp [hk', Kind.isAnon] at hk
        | anon => simp [copiedBytes, hk']
      rw [hbytes, contentOf_resident hsrc hfr hframe]
      simp [contentOf, Vm.shared]

theorem Wf.turn_some (h : Wf s) (hf : Fresh s) (hq : q ∈ s.spt p) (hsrc : s.pages q = some src)
    (hfree : 0 < s.userPool.free) (hnone : hashFind s c src.va = none) (hcp : Copies src) :
    ∃ s₁, Vm.copyPage s c q = some (true, s₁) := by
  have h0 : src.va ≠ 0 := h.links.spts.va_ne_zero hq hsrc
  cases hk : src.kind with
  | uninit type init aux =>
    simp only [Copies, hk] at hcp
    obtain ⟨fi, rfl⟩ := Option.isSome_iff_exists.mp hcp
    rw [copyPage_uninit hsrc hk, Option.map_some, vmAlloc_new (hf q src hsrc _ _ _ hk).2 hnone]
    exact ⟨_, rfl⟩
  | anon i aux =>
    simp only [Copies, hk] at hcp
    obtain ⟨f, hfr⟩ := Option.isSome_iff_exists.mp hcp
    obtain ⟨-, frame, hframe⟩ := h.links.resident hq (f := f) (by simp [frameOf, hsrc, hfr])
    rw [copyPage_anon hsrc hk (Nat.ne_of_lt (h.links.spts.lt p q hq)) h0 hnone, hfr, Option.bind_some, hframe]
    exact ⟨_, rfl⟩
  | file aux =>
    simp only [Copies, hk] at hcp
    obtain ⟨fi, rfl⟩ := Option.isSome_iff_exists.mp hcp
    obtain ⟨kva, pool, hscan⟩ := Bitmap.exists_scanAndFlip hfree
    have hnew : (Vm.inserted s c ⟨src.va, none, src.writable, .uninit .file true (some fi)⟩).pages s.nextPage =
        some ⟨src.va, none, src.writable, .uninit .file true (some fi)⟩ := Function.update_self ..
    rw [copyPage_file hsrc hk h0 hnone, Option.bind_some]
    have hscan' : (Vm.inserted s c ⟨src.va, none, src.writable, .uninit .file true (some fi)⟩).userPool.scanAndFlip =
        some (kva, pool) := hscan
    rw [vmDoClaimPage_free hscan' hnew]
    simp [swapIn, mapFrame, uninitInitialize, lazyLoadSegment, State.setPage, State.setMem]

/-! ## The whole copy -/

theorem CopyOf.keeps {bytes : Option Bytes} (h : CopyOf src bytes s c d) (hw : Wf s) (hk : Keeps s s' c d) :
    CopyOf src bytes s' c d := by
  obtain ⟨page, hpage, hva, hwr⟩ := h.page
  exact ⟨hk.spt, ⟨page, hk.page.trans hpage, hva, hwr⟩, (hk.content hw h.spt).trans h.content⟩

theorem Keeps.copiedBytes (h : Keeps s s' p q) (hw : Wf s) (hq : q ∈ s.spt p) :
    Vm.copiedBytes s' q src = Vm.copiedBytes s q src := by
  simp only [Vm.copiedBytes, h.inodes, h.content hw hq]

/-- After a turn the copy can go on. -/
theorem Wf.turn_next (h : Wf s) (hf : Fresh s) (hc : c < s.nextPid) (hq : q ∈ s.spt p) (hsrc : s.pages q = some src)
    (hfree : 0 < s.userPool.free) (hcopy : Vm.copyPage s c q = some (true, s₁)) :
    Wf s₁ ∧ Fresh s₁ ∧ c < s₁.nextPid ∧ ∀ b, ∀ q' ∈ s.spt b, Keeps s s₁ b q' := by
  have h₁ : Wf s₁ := (h.copyPageApart hc hq (fun _ _ _ => hfree) hcopy).1
  refine ⟨h₁, hf.copyPage h hq (fun _ _ _ => .of_free hfree) hcopy, ?_, fun b q' hq' =>
    h.keeps_copyPage hc hq (fun _ _ _ => hfree) hcopy hq'⟩
  by_contra hlt
  have hd := (h.turn hf hq hsrc hfree hcopy).2.2.2.spt
  rw [h₁.links.spts.idle c (by omega)] at hd
  exact absurd hd (by simp)

/-- What a copy that returned true has done: every page there was is as it
was, and the child has a copy of each. -/
theorem Wf.copyLoop_spec : ∀ {qs : List Nat} {s s' : State}, Wf s → Fresh s → c < s.nextPid →
    qs.length < s.userPool.free → (∀ q ∈ qs, q ∈ s.spt p) → copyLoop c s qs = some (true, s') →
    Wf s' ∧ 0 < s'.userPool.free ∧ (∀ b, ∀ q ∈ s.spt b, Keeps s s' b q) ∧
      ∀ q ∈ qs, ∀ src, s.pages q = some src → Copies src ∧ ∃ d, CopyOf src (copiedBytes s q src) s' c d
  | [], s, s', h, _, _, hfree, _, hcopy => by
    simp only [copyLoop, Option.some.injEq, Prod.mk.injEq, true_and] at hcopy
    subst hcopy
    exact ⟨h, by simpa using hfree, fun _ _ hq => .refl hq, fun _ hq => absurd hq (by simp)⟩
  | q :: qs, s, s', h, hf, hc, hfree, hqs, hcopy => by
    simp only [copyLoop, Option.bind_eq_bind, Option.bind_eq_some_iff, Prod.exists] at hcopy
    obtain ⟨ok, s₁, hturn, hcopy⟩ := hcopy
    cases ok with
    | false => simp at hcopy
    | true =>
      simp only [if_true] at hcopy
      simp only [List.length_cons] at hfree
      have hpos : 0 < s.userPool.free := by omega
      have hq := hqs q (by simp)
      obtain ⟨va, hva, -⟩ := h.links.spts.live p q hq
      obtain ⟨src, hsrc, -⟩ := vaOf_some hva
      obtain ⟨hcp, hle, hspt, hof⟩ := h.turn hf hq hsrc hpos hturn
      obtain ⟨h₁, hf₁, hc₁, hkeep⟩ := h.turn_next hf hc hq hsrc hpos hturn
      have hqs₁ : ∀ q' ∈ qs, q' ∈ s₁.spt p := fun q' hq' => (hkeep p q' (hqs q' (by simp [hq']))).spt
      obtain ⟨h', hfree', hkeep', hrest⟩ := Wf.copyLoop_spec h₁ hf₁ hc₁ (by omega) hqs₁ hcopy
      refine ⟨h', hfree', fun b q' hq' => (hkeep b q' hq').trans (hkeep' b q' (hkeep b q' hq').spt),
        fun q' hq' src' hsrc' => ?_⟩
      rcases List.mem_cons.mp hq' with rfl | hq'
      · obtain rfl := Option.some.inj (hsrc.symm.trans hsrc')
        exact ⟨hcp, s.nextPage, hof.keeps h₁ (hkeep' c s.nextPage hof.spt)⟩
      · have hk := hkeep p q' (hqs q' (by simp [hq']))
        have := hrest q' hq' src' (hk.page.trans hsrc')
        rwa [hk.copiedBytes h (hqs q' (by simp [hq']))] at this

/-- The copy returns true when what it dereferences is there. -/
theorem Wf.copyLoop_some : ∀ {qs : List Nat} {s : State}, Wf s → Fresh s → c < s.nextPid →
    qs.length < s.userPool.free → (∀ q ∈ qs, q ∈ s.spt p) → qs.Nodup →
    (∀ q ∈ qs, ∀ va, vaOf s q = some va → hashFind s c va = none) →
    (∀ q ∈ qs, ∀ src, s.pages q = some src → Copies src) → ∃ s', copyLoop c s qs = some (true, s')
  | [], s, _, _, _, _, _, _, _, _ => ⟨s, rfl⟩
  | q :: qs, s, h, hf, hc, hfree, hqs, hnodup, hnone, hcp => by
    simp only [List.length_cons] at hfree
    have hpos : 0 < s.userPool.free := by omega
    have hq := hqs q (by simp)
    obtain ⟨va, hva, -⟩ := h.links.spts.live p q hq
    obtain ⟨src, hsrc, rfl⟩ := vaOf_some hva
    obtain ⟨s₁, hturn⟩ := h.turn_some hf hq hsrc hpos (hnone q (by simp) _ hva) (hcp q (by simp) src hsrc)
    obtain ⟨-, hle, hspt, hof⟩ := h.turn hf hq hsrc hpos hturn
    obtain ⟨h₁, hf₁, hc₁, hkeep⟩ := h.turn_next hf hc hq hsrc hpos hturn
    have hvaOf : ∀ {b q'}, q' ∈ s.spt b → vaOf s₁ q' = vaOf s q' := fun {b q'} hq' => by
      rw [vaOf, (hkeep b q' hq').page]
      rfl
    have hqs₁ : ∀ q' ∈ qs, q' ∈ s₁.spt p := fun q' hq' => (hkeep p q' (hqs q' (by simp [hq']))).spt
    have hnone₁ : ∀ q' ∈ qs, ∀ va, vaOf s₁ q' = some va → hashFind s₁ c va = none := by
      intro q' hq' va hva'
      have hmem := hqs q' (by simp [hq'])
      rw [hvaOf hmem] at hva'
      refine hashFind_none.mpr fun d hd => ?_
      rw [hspt] at hd
      rcases List.mem_cons.mp hd with rfl | hd
      · -- the new page stands at the address of `q`, which no later page has
        obtain ⟨page, hpage, hpva, -⟩ := hof.page
        rw [vaOf_eq hpage, hpva]
        intro e
        have : q' = q := h.links.spts.keyed p q' hmem q hq (by rw [hva', vaOf_eq hsrc, e])
        exact (List.nodup_cons.mp hnodup).1 (this ▸ hq')
      · rw [hvaOf hd]
        exact hashFind_none.mp (hnone q' (by simp [hq']) va hva') d hd
    have hcp₁ : ∀ q' ∈ qs, ∀ src, s₁.pages q' = some src → Copies src := by
      intro q' hq' src' hsrc'
      rw [(hkeep p q' (hqs q' (by simp [hq']))).page] at hsrc'
      exact hcp q' (by simp [hq']) src' hsrc'
    obtain ⟨s', hs'⟩ := Wf.copyLoop_some h₁ hf₁ hc₁ (by omega) hqs₁ (List.nodup_cons.mp hnodup).2 hnone₁ hcp₁
    refine ⟨s', ?_⟩
    simp only [copyLoop, hturn, Option.bind_eq_bind, Option.bind_some, if_true]
    exact hs'

/-! ## Every reachable parent -/

/-- The child has a page for every page of the parent, with the same
permission, and reads there what the parent read. -/
def Snapshot (s : State) (p : Nat) (s' : State) (c : Nat) : Prop :=
  ∀ q ∈ s.spt p, ∀ page, s.pages q = some page → ∃ d ∈ s'.spt c, ∃ page', s'.pages d = some page' ∧
    page'.va = page.va ∧ page'.writable = page.writable ∧
    ∀ o : Fin pgsize, readByte s' c (page.va * pgsize + o.val) = readByte s p (page.va * pgsize + o.val)

/-- The states of a page that the copy is right for: an uninit page with an
`aux`, an anonymous page with a frame, a file-backed page that holds what its
file does. -/
def Copyable (s : State) (q : Nat) (page : Page) : Prop :=
  match page.kind with
  | .uninit _ _ aux => aux.isSome = true
  | .anon .. => page.frame.isSome = true
  | .file aux => ∃ fi, aux = some fi ∧ contentOf s q = some (segmentBytes (s.inodes fi.file) fi)

theorem Copyable.copies (h : Copyable s q page) : Copies page ∧ copiedBytes s q page = contentOf s q := by
  cases hk : page.kind with
  | uninit | anon =>
    simp only [Copyable, hk] at h
    exact ⟨by simpa only [Copies, hk] using h, by simp only [copiedBytes, hk]⟩
  | file aux =>
    simp only [Copyable, hk] at h
    obtain ⟨fi, rfl, he⟩ := h
    exact ⟨by simp [Copies, hk], by simp [copiedBytes, hk, he]⟩

/-- A copy that did not trap and holds what the page held was of a page in one
of these states. -/
theorem copyable_of_copies (hcp : Copies page) (hb : copiedBytes s q page = contentOf s q) : Copyable s q page := by
  cases hk : page.kind with
  | uninit | anon => simpa only [Copies, Copyable, hk] using hcp
  | file aux =>
    simp only [Copies, hk] at hcp
    obtain ⟨fi, rfl⟩ := Option.isSome_iff_exists.mp hcp
    simp only [copiedBytes, hk] at hb
    simpa only [Copyable, hk] using ⟨fi, rfl, hb.symm⟩

/-- **The snapshot.** In every state that events meeting `LinksOk` and `OwnOk`
lead to, with frames enough that the copy evicts nothing: the copy into a new
child returns true and is a snapshot exactly when every page of the parent is
in one of the states `Copyable` names. -/
theorem snapshot_iff {frames slots : Nat} {mem : Nat → Bytes} {disk : Nat → Sector} {inodes : Nat → Inode} {es : List Ev}
    (hrun : Run.run step (boot frames slots mem disk inodes) es = some s)
    (hok : Run.Always step (fun s e => LinksOk s e ∧ OwnOk s e) (boot frames slots mem disk inodes) es)
    (hc : c < s.nextPid) (hempty : s.spt c = []) (hfree : (s.spt p).length < s.userPool.free)
    (huser : ∀ q ∈ s.spt p, ∀ page, s.pages q = some page → page.va * pgsize < kernBase) :
    (∃ s', supplementalPageTableCopy s c p = some (true, s') ∧ Snapshot s p s' c) ↔
      ∀ q ∈ s.spt p, ∀ page, s.pages q = some page → Copyable s q page := by
  obtain ⟨h, hf⟩ : Wf s ∧ Fresh s := Run.run_invariant (I := fun s => Wf s ∧ Fresh s)
    (fun _ _ _ h hG hs => ⟨h.1.step hG.1 hG.2 hs, h.2.step h.1 hG.1 hs⟩)
    ⟨wf_boot, fun _ _ h => absurd h (by simp [boot])⟩ hrun hok
  have hpos : 0 < s.userPool.free := by omega
  have hmem : ∀ q ∈ s.spt p, q ∈ s.spt p := fun _ hq => hq
  -- the child's copy reads as what the turn put in it
  have hread : ∀ {s' q page}, Wf s' → 0 < s'.userPool.free → q ∈ s.spt p → s.pages q = some page →
      ∀ {d page'}, d ∈ s'.spt c → s'.pages d = some page' → page'.va = page.va → ∀ o : Fin pgsize,
      readByte s' c (page.va * pgsize + o.val) = (contentOf s' d).map fun bytes => bytes o := by
    intro s' q page h' hfree' hq hpage d page' hd hpage' hva o
    rw [← hva]
    exact h'.readByte_content hfree' hd hpage' (hva ▸ huser q hq page hpage)
  constructor
  · rintro ⟨s', hcopy, hsnap⟩ q hq page hpage
    obtain ⟨h', hfree', -, hof⟩ := h.copyLoop_spec hf hc hfree hmem hcopy
    obtain ⟨hcp, d, hd⟩ := hof q hq page hpage
    refine copyable_of_copies hcp ?_
    obtain ⟨dpage, hdpage, hdva, -⟩ := hd.page
    obtain ⟨-, -, -, -, -, -, hbytes⟩ := hsnap q hq page hpage
    have heq : ∀ o : Fin pgsize, (copiedBytes s q page).map (fun bytes => bytes o) =
        (contentOf s q).map fun bytes => bytes o := fun o => by
      rw [← hd.content, ← hread h' hfree' hq hpage hd.spt hdpage hdva o, hbytes o,
        h.readByte_content hpos hq hpage (huser q hq page hpage)]
    cases h₁ : copiedBytes s q page with
    | none =>
      have := heq ⟨0, by decide⟩
      rw [h₁, Option.map_none, eq_comm, Option.map_eq_none_iff] at this
      exact this.symm
    | some x =>
      cases h₂ : contentOf s q with
      | none =>
        have := heq ⟨0, by decide⟩
        simp [h₁, h₂] at this
      | some y =>
        refine congrArg some (funext fun o => ?_)
        have := heq o
        simpa [h₁, h₂] using this
  · intro hall
    have hnone : ∀ q ∈ s.spt p, ∀ va, vaOf s q = some va → hashFind s c va = none := fun _ _ _ _ =>
      hashFind_none.mpr (by simp [hempty])
    obtain ⟨s', hcopy⟩ := h.copyLoop_some hf hc hfree hmem (h.links.spts.nodup p) hnone fun q hq page hpage =>
      (hall q hq page hpage).copies.1
    obtain ⟨h', hfree', -, hof⟩ := h.copyLoop_spec hf hc hfree hmem hcopy
    refine ⟨s', hcopy, fun q hq page hpage => ?_⟩
    obtain ⟨-, d, hd⟩ := hof q hq page hpage
    obtain ⟨dpage, hdpage, hdva, hdw⟩ := hd.page
    refine ⟨d, hd.spt, dpage, hdpage, hdva, hdw, fun o => ?_⟩
    rw [hread h' hfree' hq hpage hd.spt hdpage hdva o, hd.content, (hall q hq page hpage).copies.2,
      h.readByte_content hpos hq hpage (huser q hq page hpage)]

/-- A parent with a written stack and a segment it has not touched, and a
child. -/
def stackAndSegment : List Ev :=
  [.spawn, .setupStack 0, .store 0 stackTop 7, .alloc 0 .anon 5 true true (some smallFile), .spawn]

theorem snapshot_stackAndSegment : ∃ s s', Run.run step (small 4 1) stackAndSegment = some s ∧
    supplementalPageTableCopy s 1 0 = some (true, s') ∧ Snapshot s 0 s' 1 := by
  obtain ⟨s, hs, hc⟩ : ∃ s, Run.run step (small 4 1) stackAndSegment = some s ∧
      (s.nextPid == 2 && (s.spt 1 == [] && (decide ((s.spt 0).length < s.userPool.free) && (s.spt 0 == [1, 0] &&
        (s.pages 1 == some ⟨5, none, true, .uninit .anon true (some smallFile)⟩ &&
          s.pages 0 == some ⟨userStack / pgsize - 1, some 0, true, .anon none none⟩))))) = true :=
    (Option.any_eq_true ..).mp (by decide +kernel)
  simp only [Bool.and_eq_true, beq_iff_eq, decide_eq_true_eq] at hc
  obtain ⟨hpid, hempty, hfree, hspt, h1, h0⟩ := hc
  have hall : ∀ q ∈ s.spt 0, ∀ page, s.pages q = some page → page.va * pgsize < kernBase ∧ Copyable s q page := by
    intro q hq page hpage
    rw [hspt, List.mem_cons, List.mem_singleton] at hq
    rcases hq with rfl | rfl
    · obtain rfl := Option.some.inj (h1.symm.trans hpage)
      exact ⟨by decide, rfl⟩
    · obtain rfl := Option.some.inj (h0.symm.trans hpage)
      exact ⟨by decide, rfl⟩
  obtain ⟨s', hs'⟩ := (snapshot_iff hs (by decide +kernel) (by omega) hempty hfree fun q hq page hpage =>
    (hall q hq page hpage).1).mpr fun q hq page hpage => (hall q hq page hpage).2
  exact ⟨s, s', hs, hs'⟩

/-- The stack grew by a page that was not touched yet: it has no `aux`. -/
theorem not_snapshot_of_grown_stack : ¬ ∀ es s, Run.run step (small 3 1) es = some s → s.spt 1 = [] →
    (s.spt 0).length < s.userPool.free → ∃ s', supplementalPageTableCopy s 1 0 = some (true, s') ∧ Snapshot s 0 s' 1 := by
  intro h
  obtain ⟨s, hs, hc⟩ : ∃ s, Run.run step (small 3 1) [.spawn, .fault 0 stackTop stackTop true, .spawn] = some s ∧
      (s.spt 1 == [] && (decide ((s.spt 0).length < s.userPool.free) && (supplementalPageTableCopy s 1 0).isNone)) =
        true := (Option.any_eq_true ..).mp (by decide +kernel)
  simp only [Bool.and_eq_true, beq_iff_eq, decide_eq_true_eq, Option.isNone_iff_eq_none] at hc
  obtain ⟨s', hs', -⟩ := h _ s hs hc.1 hc.2.1
  exact absurd (hc.2.2.symm.trans hs') (by simp)

end PintosKaist.Vm
