/-
An entry of a page table that is present belongs to a page of the table beside
it, one that has been brought in, and lets stores through only if the page
does. That holds along every run, whichever frames are shared and whoever
evicts them: evictions and exits only clear entries, and each entry is set for
a page just claimed or copied.
-/
import PintosKaist.Vm.Lazy
import PintosKaist.Vm.Tenancy

namespace PintosKaist.Vm

variable {s s' s₁ : State} {p c q f kva va : Nat} {page page' : Page} {b : Bool}

/-- The page behind a present entry. -/
def Backs (s : State) (p va q : Nat) (page : Page) : Prop :=
  q ∈ s.spt p ∧ s.pages q = some page ∧ page.va = va ∧ page.kind.isUninit = false ∧
    ((s.pte p va).writable = true → page.writable = true)

structure Entries (s : State) : Prop where
  spts : Spts s
  back : ∀ p va, (s.pte p va).present = true → ∃ q page, Backs s p va q page

/-- The same page later on: it may have been brought in. -/
def Page.Ages (page page' : Page) : Prop :=
  page'.va = page.va ∧ page'.writable = page.writable ∧ (page.kind.isUninit = false → page'.kind.isUninit = false)

theorem Page.Ages.refl (page : Page) : page.Ages page := ⟨rfl, rfl, id⟩

theorem Page.Ages.trans {page'' : Page} (h : page.Ages page') (h' : page'.Ages page'') : page.Ages page'' :=
  ⟨h'.1.trans h.1, h'.2.1.trans h.2.1, fun hu => h'.2.2 (h.2.2 hu)⟩

/-- The tables are the same, the pages have aged and the entries narrowed. -/
structure Narrows (s s' : State) : Prop extends SameSpts s s' where
  pages : ∀ q page, s.pages q = some page → ∃ page', s'.pages q = some page' ∧ page.Ages page'
  entry : ∀ p va, (s.pte p va).Narrows (s'.pte p va)

/-- The same but for the page `q` of `p`, which has been brought in. -/
structure Brought (s : State) (p q : Nat) (s' : State) : Prop extends SameSpts s s' where
  pages : ∀ q page, s.pages q = some page → ∃ page', s'.pages q = some page' ∧ page.Ages page'
  entry : ∀ p' va, (p' = p ∧ vaOf s q = some va) ∨ (s.pte p' va).Narrows (s'.pte p' va)
  brought : ∃ page, s'.pages q = some page ∧ page.kind.isUninit = false ∧
    ((s'.pte p page.va).writable = true → page.writable = true)

theorem Narrows.trans (h : Narrows s s₁) (h' : Narrows s₁ s') : Narrows s s' where
  toSameSpts := h.toSameSpts.trans h'.toSameSpts
  pages q page hpage := by
    obtain ⟨page₁, hpage₁, ha₁⟩ := h.pages q page hpage
    obtain ⟨page', hpage', ha'⟩ := h'.pages q page₁ hpage₁
    exact ⟨page', hpage', ha₁.trans ha'⟩
  entry p va := (h.entry p va).trans (h'.entry p va)

theorem Narrows.brought (h : Narrows s s₁) (h' : Brought s₁ p q s') : Brought s p q s' where
  toSameSpts := h.toSameSpts.trans h'.toSameSpts
  pages q page hpage := by
    obtain ⟨page₁, hpage₁, ha₁⟩ := h.pages q page hpage
    obtain ⟨page', hpage', ha'⟩ := h'.pages q page₁ hpage₁
    exact ⟨page', hpage', ha₁.trans ha'⟩
  entry p' va := (h'.entry p' va).imp (fun he => ⟨he.1, (h.va q).symm.trans he.2⟩) (h.entry p' va).trans
  brought := h'.brought

/-- Whatever leaves the pages and the entries alone. -/
theorem Narrows.of_pages (hspt : ∀ p, s'.spt p = s.spt p) (hpages : s'.pages = s.pages) (hpid : s'.nextPid = s.nextPid)
    (hnext : s'.nextPage = s.nextPage) (hpte : ∀ p va, (s.pte p va).Narrows (s'.pte p va)) : Narrows s s' :=
  ⟨⟨hpid, hnext, hspt, fun q => by rw [vaOf, hpages, vaOf]⟩, fun _ page h => ⟨page, hpages ▸ h, .refl page⟩, hpte⟩

theorem pages_update (hpage : s.pages q = some page) (hs : s'.pages = Function.update s.pages q (some page'))
    (ha : page.Ages page') (r : Nat) (pr : Page) (hr : s.pages r = some pr) :
    ∃ pr', s'.pages r = some pr' ∧ pr.Ages pr' := by
  by_cases he : r = q
  · subst he
    obtain rfl := Option.some.inj (hpage.symm.trans hr)
    exact ⟨page', by rw [hs, Function.update_self], ha⟩
  · exact ⟨pr, by rw [hs, Function.update_of_ne he, hr], .refl pr⟩

theorem Entries.narrows (h : Entries s) (hn : Narrows s s') : Entries s' where
  spts := h.spts.same hn.toSameSpts
  back p va hp := by
    obtain ⟨hpres, hwr⟩ := hn.entry p va hp
    obtain ⟨q, page, hq, hpage, hva, hun, hw⟩ := h.back p va hpres
    obtain ⟨page', hpage', ha⟩ := hn.pages q page hpage
    exact ⟨q, page', hn.spt p ▸ hq, hpage', ha.1.trans hva, ha.2.2 hun, fun h' => ha.2.1 ▸ hw (hwr h')⟩

theorem Entries.brought (h : Entries s) (hq : q ∈ s.spt p) (hn : Brought s p q s') : Entries s' where
  spts := h.spts.same hn.toSameSpts
  back p' va hp := by
    rcases hn.entry p' va with ⟨rfl, hva⟩ | hnar
    · obtain ⟨page', hpage', hun, hw⟩ := hn.brought
      have hva' : page'.va = va := Option.some.inj ((vaOf_eq hpage').symm.trans ((hn.va q).trans hva))
      exact ⟨q, page', hn.spt p' ▸ hq, hpage', hva', hun, fun h' => hw (hva' ▸ h')⟩
    · obtain ⟨hpres, hwr⟩ := hnar hp
      obtain ⟨r, page, hr, hpage, hva, hun, hw⟩ := h.back p' va hpres
      obtain ⟨page', hpage', ha⟩ := hn.pages r page hpage
      exact ⟨r, page', hn.spt p' ▸ hr, hpage', ha.1.trans hva, ha.2.2 hun, fun h' => ha.2.1 ▸ hw (hwr h')⟩

/-! ## Claims -/

theorem Page.Stays.ages (h : page.Stays page') : page.Ages page' := by
  refine ⟨h.va, h.writable, fun hun => ?_⟩
  rcases h.kind with e | ⟨-, ha⟩
  · rw [e]
    exact hun
  · exact Kind.not_uninit_of_anon ha

theorem Narrows.of_steady (h : Steady s s') : Narrows s s' := by
  refine ⟨h.toSameSpts, fun q page hpage => ?_, h.entry⟩
  obtain ⟨page', hpage', hs⟩ := h.later hpage
  exact ⟨page', hpage', hs.ages⟩

theorem Kind.resident_not_uninit (k : Kind) : k.resident.isUninit = false := by
  cases k with
  | uninit type init aux => cases type <;> rfl
  | anon | file => rfl

/-- The page of an entry that is new is the one that was brought in. -/
theorem entry_brought {rw : Bool} (hpage : s.pages q = some page)
    (hpte : ∀ p' va', s'.pte p' va' = if p' = p ∧ va' = page.va then ⟨kva, true, rw, false⟩ else s.pte p' va')
    (p' va' : Nat) : (p' = p ∧ vaOf s q = some va') ∨ (s.pte p' va').Narrows (s'.pte p' va') := by
  rw [hpte]
  split
  next he => exact .inl ⟨he.1, he.2 ▸ vaOf_eq hpage⟩
  next => exact .inr (.refl _)

theorem Brought.claim (h : vmDoClaimPage s p q = some (b, s')) : Brought s p q s' := by
  obtain ⟨f, s₁, kva, page, hst, hpage, hpid, hnext, hspt, hpages, hpte⟩ := vmDoClaimPage_brings h
  have hun := page.kind.resident_not_uninit
  have hage : page.Ages { page with frame := some f, kind := page.kind.resident } := ⟨rfl, rfl, fun _ => hun⟩
  refine (Narrows.of_steady hst).brought ⟨⟨hpid, hnext, hspt, vaOf_update hpage hpages rfl⟩,
    pages_update hpage hpages hage, entry_brought hpage hpte, _, by rw [hpages, Function.update_self], hun,
    fun hw => ?_⟩
  rwa [hpte, if_pos ⟨rfl, rfl⟩] at hw

/-- A page that is resident gets a frame of its own. -/
theorem Brought.wp (hpage : s.pages q = some page) (hun : page.kind.isUninit = false) (hw : page.writable = true)
    (h : vmHandleWp s p q = some (b, s')) : Brought s p q s' := by
  obtain ⟨f, s₁, kva, page₁, hst, hpage₁, hpid, hnext, hspt, hpages, hpte⟩ := vmHandleWp_brings h
  have hnar := Narrows.of_steady hst
  obtain ⟨page₂, hpage₂, hold⟩ := hnar.pages q page hpage
  obtain rfl := Option.some.inj (hpage₁.symm.trans hpage₂)
  have hage : page₁.Ages { page₁ with frame := some f } := ⟨rfl, rfl, id⟩
  exact hnar.brought ⟨⟨hpid, hnext, hspt, vaOf_update hpage₁ hpages rfl⟩, pages_update hpage₁ hpages hage,
    entry_brought hpage₁ hpte, { page₁ with frame := some f }, by rw [hpages, Function.update_self], hold.2.2 hun,
    fun _ => hold.2.1.trans hw⟩

/-! ## Pages that come and go -/

theorem pte_inserted (page : Page) (p' va' : Nat) : (inserted s p page).pte p' va' = s.pte p' va' :=
  State.pte_setSpt ..

/-- A page that is new to the table: the entries are those of the others, or
its own. -/
theorem Entries.joined {page : Page} (h : Entries s) (hs : Spts s')
    (hspt : ∀ p', s'.spt p' = if p' = p then s.nextPage :: s.spt p else s.spt p')
    (hpages : s'.pages = Function.update s.pages s.nextPage (some page))
    (hpte : ∀ p' va', s'.pte p' va' = s.pte p' va' ∨ p' = p ∧ va' = page.va ∧ page.kind.isUninit = false ∧
      (s'.pte p' va').writable = false) : Entries s' where
  spts := hs
  back p' va' hp := by
    rcases hpte p' va' with he | ⟨rfl, rfl, hun, hw⟩
    · rw [he] at hp
      obtain ⟨q, pq, hq, hpq, hva, hun, hw⟩ := h.back p' va' hp
      refine ⟨q, pq, ?_, ?_, hva, hun, he ▸ hw⟩
      · rw [hspt]
        split
        next e => exact List.mem_cons_of_mem _ (e ▸ hq)
        next => exact hq
      · rw [hpages, Function.update_of_ne (Nat.ne_of_lt (h.spts.lt p' q hq)), hpq]
    · exact ⟨s.nextPage, page, by simp [hspt], by rw [hpages, Function.update_self],
          rfl, hun, fun h' => by simp [hw] at h'⟩

theorem Entries.inserted (h : Entries s) (page : Page) (hp : p < s.nextPid) (h0 : page.va ≠ 0)
    (hnone : hashFind s p page.va = none) : Entries (inserted s p page) :=
  h.joined (h.spts.inserted hp h0 hnone) (spt_inserted page) rfl fun p' va' => .inl (pte_inserted page p' va')

theorem Entries.shared {src : Page} {frame : Frame} (h : Entries s) (hc : c < s.nextPid) (h0 : src.va ≠ 0)
    (hnone : hashFind s c src.va = none) : Entries (shared s c src f frame) := by
  have hins : Spts (Vm.inserted s c ⟨src.va, none, src.writable, .anon none none⟩) := h.spts.inserted hc h0 hnone
  refine h.joined (hins.same .shared) spt_shared rfl fun p' va' => ?_
  rw [pte_shared]
  split
  next he => exact .inr ⟨he.1, he.2, rfl, rfl⟩
  next => exact .inl rfl

theorem Entries.alloc {type : VmType} {writable init : Bool} {aux : Option FileInfo} (h : Entries s) (hp : p < s.nextPid)
    (h0 : va ≠ 0) : Entries (vmAllocPageWithInitializer s p type va writable init aux).2 := by
  rcases vmAlloc_cases s p type va writable init aux with e | ⟨hnone, -, e⟩
  · rw [e]
    exact h
  · rw [e]
    exact h.inserted _ hp h0 hnone

/-- A page is put in a table and claimed at once. -/
theorem Entries.claimNew (h : Entries s) (page : Page) (hp : p < s.nextPid) (h0 : page.va ≠ 0)
    (hnone : hashFind s p page.va = none)
    (hc : vmDoClaimPage (Vm.inserted s p page) p s.nextPage = some (b, s')) : Entries s' :=
  (h.inserted page hp h0 hnone).brought (by rw [spt_inserted, if_pos rfl]; exact List.mem_cons_self ..) (.claim hc)

/-- The page `q` leaves the table of `p`, and no entry of `p` is left at its
address. -/
theorem Entries.left (h : Entries s) (hq : q ∈ s.spt p) (hpage : s.pages q = some page) (hs : Spts s')
    (hspt : ∀ p', s'.spt p' = if p' = p then (s.spt p).erase q else s.spt p')
    (hpages : ∀ r pr, r ≠ q → s.pages r = some pr → ∃ pr', s'.pages r = some pr' ∧ pr.Ages pr')
    (hpte : ∀ p' va', (s.pte p' va').Narrows (s'.pte p' va')) (hgone : (s'.pte p page.va).present = false) :
    Entries s' where
  spts := hs
  back p' va' hp := by
    obtain ⟨hpres, hwr⟩ := hpte p' va' hp
    obtain ⟨r, pr, hr, hpr, hva, hun, hw⟩ := h.back p' va' hpres
    have hne : r ≠ q := by
      rintro rfl
      obtain rfl := Option.some.inj (hpage.symm.trans hpr)
      obtain rfl := h.spts.apart p' p r hr hq
      rw [hva, hp] at hgone
      cases hgone
    obtain ⟨pr', hpr', ha⟩ := hpages r pr hne hpr
    refine ⟨r, pr', ?_, hpr', ha.1.trans hva, ha.2.2 hun, fun h' => ha.2.1 ▸ hw (hwr h')⟩
    rw [hspt]
    split
    next e => exact (List.mem_erase_of_ne hne).mpr (e ▸ hr)
    next => exact hr

theorem Entries.munmap (h : Entries s) (hm : doMunmap s p va = some s') : Entries s' := by
  have hm' := hm
  simp only [doMunmap, Option.bind_eq_bind, Option.bind_eq_some_iff, Option.some.injEq] at hm'
  obtain ⟨q, hfind, page, hpage, s₂, hw, rfl⟩ := hm'
  obtain ⟨hq, page', hpage', hva⟩ := sptFindPage_some hfind
  obtain rfl := Option.some.inj (hpage.symm.trans hpage')
  rw [Nat.mul_div_cancel _ (by decide)] at hva
  subst hva
  obtain ⟨q', hfind', hleft⟩ := Left.munmap h.spts hm
  obtain rfl := Option.some.inj (hfind.symm.trans hfind')
  have hnar := Narrows.of_steady ((Steady.writeBack hw).trans (.clear s₂ p page.va))
  refine h.left hq hpage hleft.spts hleft.spt (fun r pr _ hpr => hnar.pages r pr hpr) (fun p' va' => ?_) ?_
  · have := hnar.entry p' va'
    rwa [State.pte_setSpt] at this
  · rw [pte_pml4ClearPage, if_pos ⟨rfl, rfl⟩]

theorem Entries.destroy (h : Entries s) (hq : q ∈ s.spt p)
    (hd : vmDeallocPage (s.setSpt p ((s.spt p).erase q)) p q = some s') : Entries s' := by
  obtain ⟨hleft, -⟩ := Left.destroy h.spts hq hd
  simp only [vmDeallocPage, Option.bind_eq_bind, Option.bind_eq_some_iff, Option.some.injEq] at hd
  obtain ⟨page, hpage, s₂, hd, rfl⟩ := hd
  obtain ⟨hsteady, hgone⟩ := Steady.destroy hpage hd
  have hnar := Narrows.of_steady hsteady
  have hpte : ∀ p' va', (s.pte p' va').Narrows (s₂.pte p' va') := fun p' va' => by
    have := hnar.entry p' va'
    rwa [State.pte_setSpt] at this
  refine h.left hq hpage hleft.spts hleft.spt (fun r pr hne hpr => ?_) hpte ?_
  · obtain ⟨pr', hpr', ha⟩ := hnar.pages r pr hpr
    exact ⟨pr', (Function.update_of_ne hne ..).trans hpr', ha⟩
  · -- an uninit page has no entry
    show (s₂.pte p page.va).present = false
    by_contra hpres
    rw [Bool.not_eq_false] at hpres
    obtain ⟨r, pr, hr, hpr, hva, hun, -⟩ := h.back p page.va (hpte p page.va hpres).1
    obtain rfl := h.spts.keyed p r hr q hq (by rw [vaOf_eq hpr, vaOf_eq (s := s) hpage, hva])
    obtain rfl := Option.some.inj (hpr.symm.trans hpage)
    rcases hgone with ⟨type, init, aux, hkind⟩ | habsent
    · cases hun.symm.trans (congrArg Kind.isUninit hkind)
    · cases habsent.symm.trans hpres

theorem Entries.reap (h : Entries s) (hnil : s.spt p = []) (hr : pml4Destroy s p = some s') : Entries s' := by
  simp only [pml4Destroy, Option.bind_eq_bind, Option.bind_eq_some_iff, Option.some.injEq] at hr
  obtain ⟨s₁, hloop, rfl⟩ := hr
  have hloop : Narrows s s₁ := by
    rw [pml4DestroyLoop_spec p hloop]
    exact .of_pages (fun _ => rfl) rfl rfl rfl fun _ _ => .refl _
  refine h.narrows (hloop.trans ⟨.emptied ((hloop.spt p).trans hnil),
      fun _ page hp => ⟨page, hp, .refl page⟩, fun p' va => ?_⟩)
  by_cases he : p' = p
  · subst he
    simp only [State.pte, Function.update_self, Proc.empty]
    intro hpresent
    cases hpresent
  · simp only [State.pte, Function.update_of_ne he]
    exact .refl _

/-! ## Runs -/

/-- A present entry is that of the page at the address. -/
theorem Entries.found {addr : Nat} (h : Entries s) (hfind : sptFindPage s p addr = some q) (hpage : s.pages q = some page)
    (hpres : (s.pte p (addr / pgsize)).present = true) : Backs s p (addr / pgsize) q page := by
  obtain ⟨hq, page', hpage', hva⟩ := sptFindPage_some hfind
  obtain rfl := Option.some.inj (hpage.symm.trans hpage')
  obtain ⟨r, pr, hback⟩ := h.back p _ hpres
  have hr := hback
  obtain ⟨hr, hpr, hva', -⟩ := hr
  obtain rfl := h.spts.keyed p r hr q hq (by rw [vaOf_eq hpr, vaOf_eq hpage, hva, hva'])
  obtain rfl := Option.some.inj (hpr.symm.trans hpage)
  exact hback

theorem Entries.fault {addr rsp : Nat} {write notPresent : Bool} (h : Entries s) (hp : p < s.nextPid)
    (hpres : notPresent = false → (s.pte p (addr / pgsize)).present = true)
    (hr : vmTryHandleFault s p addr rsp write notPresent = some (b, s')) : Entries s' := by
  rcases vmTryHandleFault_cases hr with ⟨-, rfl⟩ | ⟨q, page, hfind, hpage, -, hnp, hw, hwp⟩ | ⟨q, hfind, -, hclaim⟩ |
    ⟨-, -, hwin, rfl⟩
  · exact h
  · obtain ⟨hq, -, -, hun, -⟩ := h.found hfind hpage (hpres hnp)
    exact h.brought hq (.wp hpage hun hw hwp)
  · exact h.brought (sptFindPage_some hfind).1 (.claim hclaim)
  · exact h.alloc hp (inStackWindow_ne_zero hwin)

theorem Entries.copyPage (h : Entries s) (hc : c < s.nextPid) (hq : q ∈ s.spt p)
    (hr : copyPage s c q = some (b, s')) : Entries s' := by
  rcases copyPage_cases h.spts hq hr with ⟨-, rfl⟩ | ⟨src, type, init, fi, hsrc, -, hnone, -, rfl⟩ |
    ⟨src, fi, hsrc, -, hnone, hclaim⟩ | ⟨src, f, frame, hsrc, -, -, -, hnone, -, rfl⟩
  · exact h
  · have h0 := h.spts.va_ne_zero hq hsrc
    exact h.inserted ⟨src.va, none, src.writable, .uninit type init (some fi)⟩ hc h0 hnone
  · have h0 := h.spts.va_ne_zero hq hsrc
    exact h.claimNew ⟨src.va, none, src.writable, .uninit .file true (some fi)⟩ hc h0 hnone hclaim
  · exact h.shared hc (h.spts.va_ne_zero hq hsrc) hnone

theorem Entries.setupStack (h : Entries s) (hp : p < s.nextPid) (hr : setupStack s p = some (b, s')) : Entries s' := by
  rcases setupStack_cases hr with ⟨-, rfl⟩ | ⟨hnone, hclaim⟩
  · exact h
  · exact h.claimNew ⟨userStack / pgsize - 1, none, true, .uninit .anon false none⟩ hp (by decide) hnone hclaim

/-- **One step** keeps the entries backed. -/
theorem Entries.step {e : Ev} (h : Entries s) (hs : step s e = some s') : Entries s' := by
  cases step_took hs with
  | spawn => exact ⟨h.spts.spawn, h.back⟩
  | alloc hp h0 => exact h.alloc hp h0
  | setupStack hp hst => exact h.setupStack hp hst
  | load => exact h
  | @store p addr c _ hp hst =>
    obtain ⟨-, rfl⟩ := storeByte_eq hst
    refine h.narrows (.of_pages (fun _ => State.spt_setPte ..) rfl rfl rfl fun p' va' => ?_)
    rw [State.pte_setPte]
    split
    next he => rw [he.1, he.2]; exact .of_eq rfl rfl
    next => exact .refl _
  | @fault p addr rsp write b _ hp hno hf => exact h.fault hp (fun hn => by simpa using hn) hf
  | copyPage hc hq hcopy => exact h.copyPage hc hq hcopy
  | munmap hp hm => exact h.munmap hm
  | destroy hp hq hd => exact h.destroy hq hd
  | reap hp hnil hr => exact h.reap hnil hr

theorem entries_boot {frames slots : Nat} {mem : Nat → Bytes} {disk : Nat → Sector} {inodes : Nat → Inode} :
    Entries (boot frames slots mem disk inodes) :=
  ⟨links_boot.spts, fun _ _ h => absurd h (by simp [boot, State.pte, Proc.empty])⟩

/-- **Along every run** the entries are backed. -/
theorem Entries.run {es : List Ev} (h : Entries s) (hr : Run.run Vm.step s es = some s') : Entries s' :=
  Run.run_invariant (G := fun _ _ => True) (I := Entries) (fun _ _ _ hI _ hs => hI.step hs) h hr
    (Run.always_of_mem s fun _ _ _ => trivial)

end PintosKaist.Vm
