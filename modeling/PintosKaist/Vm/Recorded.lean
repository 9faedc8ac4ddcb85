/-
What is behind a page stays good to bring it in with: `lazy_load_segment` and
the operations of a file-backed page find the `aux` they read, with no more
than a page of the file in it, as long as whoever allocates a page puts it
there. Claims, evictions and copies hand it on.
-/
import PintosKaist.Vm.Entries

namespace PintosKaist.Vm

variable {s s' s₁ : State} {p c q f kva va : Nat} {page page' : Page} {b : Bool}

/-- The page can be brought in from what its kind holds. -/
def Kind.Recorded : Kind → Prop
  | .uninit type init aux => (init = true → aux ≠ none) ∧ (type = .file → ∃ fi, aux = some fi ∧ fi.readBytes ≤ pgsize)
  | .anon .. => True
  | .file aux => ∃ fi, aux = some fi ∧ fi.readBytes ≤ pgsize

/-- Every page that has been allocated can be brought in, and its address was
handed out. -/
structure Recorded (s : State) : Prop where
  kind : ∀ q page, s.pages q = some page → page.kind.Recorded
  lt : ∀ q page, s.pages q = some page → q < s.nextPage

/-- No page came, and the pages that are left are as good as they were. -/
structure Retains (s s' : State) : Prop where
  next : s'.nextPage = s.nextPage
  pages : ∀ q page', s'.pages q = some page' →
    ∃ page, s.pages q = some page ∧ (page.kind.Recorded → page'.kind.Recorded)

theorem Recorded.retains (h : Recorded s) (hr : Retains s s') : Recorded s' where
  kind q page' hpage' := by
    obtain ⟨page, hpage, hk⟩ := hr.pages q page' hpage'
    exact hk (h.kind q page hpage)
  lt q page' hpage' := by
    obtain ⟨page, hpage, -⟩ := hr.pages q page' hpage'
    rw [hr.next]
    exact h.lt q page hpage

theorem Retains.trans (h : Retains s s₁) (h' : Retains s₁ s') : Retains s s' where
  next := h'.next.trans h.next
  pages q page' hpage' := by
    obtain ⟨page₁, hpage₁, hk'⟩ := h'.pages q page' hpage'
    obtain ⟨page, hpage, hk⟩ := h.pages q page₁ hpage₁
    exact ⟨page, hpage, fun hp => hk' (hk hp)⟩

theorem Retains.of_pages (hnext : s'.nextPage = s.nextPage) (hpages : s'.pages = s.pages) : Retains s s' :=
  ⟨hnext, fun _ page h => ⟨page, hpages ▸ h, id⟩⟩

/-- One page was written. -/
theorem Retains.of_update (hpage : s.pages q = some page) (hnext : s'.nextPage = s.nextPage)
    (hpages : s'.pages = Function.update s.pages q (some page'))
    (hk : page.kind.Recorded → page'.kind.Recorded) : Retains s s' := by
  refine ⟨hnext, fun r pr hr => ?_⟩
  rw [hpages] at hr
  by_cases he : r = q
  · subst he
    rw [Function.update_self, Option.some.injEq] at hr
    exact ⟨page, hpage, hr ▸ hk⟩
  · rw [Function.update_of_ne he] at hr
    exact ⟨pr, hr, id⟩

/-- A page that is new. -/
theorem Recorded.joined (h : Recorded s) (hk : page.kind.Recorded) (hnext : s'.nextPage = s.nextPage + 1)
    (hpages : s'.pages = Function.update s.pages s.nextPage (some page)) : Recorded s' := by
  have hcase : ∀ q page', s'.pages q = some page' → (q = s.nextPage ∧ page' = page) ∨ s.pages q = some page' := by
    intro q page' hq
    rw [hpages] at hq
    by_cases he : q = s.nextPage
    · subst he
      rw [Function.update_self, Option.some.injEq] at hq
      exact .inl ⟨rfl, hq.symm⟩
    · exact .inr (by rwa [Function.update_of_ne he] at hq)
  refine ⟨fun q page' hq => ?_, fun q page' hq => ?_⟩
  · rcases hcase q page' hq with ⟨-, rfl⟩ | hq
    · exact hk
    · exact h.kind q page' hq
  · rw [hnext]
    rcases hcase q page' hq with ⟨rfl, -⟩ | hq
    · exact Nat.lt_succ_self _
    · exact Nat.lt_succ_of_lt (h.lt q page' hq)

theorem Recorded.inserted (h : Recorded s) (hk : page.kind.Recorded) : Recorded (inserted s p page) :=
  h.joined hk rfl rfl

/-! ## Claims -/

theorem Page.Stays.recorded (h : page.Stays page') (hk : page.kind.Recorded) : page'.kind.Recorded := by
  rcases h.kind with e | ⟨-, ha⟩
  · rw [e]
    exact hk
  · cases hkind : page'.kind with
    | anon => trivial
    | uninit | file => cases ha.symm.trans (congrArg Kind.isAnon hkind)

theorem Retains.of_steady (h : Steady s s') : Retains s s' := by
  refine ⟨h.page, fun q page' hpage' => ?_⟩
  obtain ⟨page, hpage, hs⟩ := h.earlier hpage'
  exact ⟨page, hpage, hs.recorded⟩

theorem Kind.Recorded.resident {k : Kind} (h : k.Recorded) : k.resident.Recorded := by
  cases k with
  | uninit type init aux =>
    cases type with
    | file => exact h.2 rfl
    | uninit | anon | pageCache => trivial
  | anon => trivial
  | file => exact h

theorem Retains.claim (h : vmDoClaimPage s p q = some (b, s')) : Retains s s' := by
  obtain ⟨f, s₁, kva, page, hst, hpage, -, hnext, -, hpages, -⟩ := vmDoClaimPage_brings h
  exact (Retains.of_steady hst).trans (.of_update hpage hnext hpages Kind.Recorded.resident)

theorem Retains.wp (h : vmHandleWp s p q = some (b, s')) : Retains s s' := by
  obtain ⟨f, s₁, kva, page, hst, hpage, -, hnext, -, hpages, -⟩ := vmHandleWp_brings h
  exact (Retains.of_steady hst).trans (.of_update hpage hnext hpages id)

/-! ## The events -/

/-- What the kernel passes to `vm_alloc_page_with_initializer`: with
`lazy_load_segment` goes the `aux` it reads, and with a page that is to be
file-backed one that has at most a page of the file. -/
def AllocRecorded : Ev → Prop
  | .alloc _ type _ _ init aux => (Kind.uninit type init aux).Recorded
  | _ => True

theorem bare_recorded : (Kind.uninit .anon false none).Recorded := ⟨by simp, by simp⟩

theorem Recorded.alloc {type : VmType} {writable init : Bool} {aux : Option FileInfo} (h : Recorded s)
    (hk : (Kind.uninit type init aux).Recorded) :
    Recorded (vmAllocPageWithInitializer s p type va writable init aux).2 := by
  rcases vmAlloc_cases s p type va writable init aux with e | ⟨-, -, e⟩
  · rw [e]
    exact h
  · rw [e]
    exact h.inserted hk

theorem Recorded.fault {addr rsp : Nat} {write notPresent : Bool} (h : Recorded s)
    (hr : vmTryHandleFault s p addr rsp write notPresent = some (b, s')) : Recorded s' := by
  rcases vmTryHandleFault_cases hr with ⟨-, rfl⟩ | ⟨q, page, -, -, -, -, -, hwp⟩ | ⟨q, -, -, hclaim⟩ | ⟨-, -, -, rfl⟩
  · exact h
  · exact h.retains (.wp hwp)
  · exact h.retains (.claim hclaim)
  · exact h.alloc bare_recorded

theorem Recorded.setupStack (h : Recorded s) (hr : setupStack s p = some (b, s')) : Recorded s' := by
  rcases setupStack_cases hr with ⟨-, rfl⟩ | ⟨-, hclaim⟩
  · exact h
  · have hins : Recorded (Vm.inserted s p ⟨userStack / pgsize - 1, none, true, .uninit .anon false none⟩) :=
      h.inserted bare_recorded
    exact hins.retains (.claim hclaim)

theorem Recorded.copyPage (h : Recorded s) (hs : Spts s) (hq : q ∈ s.spt p)
    (hr : copyPage s c q = some (b, s')) : Recorded s' := by
  rcases copyPage_cases hs hq hr with ⟨-, rfl⟩ | ⟨src, type, init, fi, hsrc, hkind, -, -, rfl⟩ |
    ⟨src, fi, hsrc, hkind, -, hclaim⟩ | ⟨src, f, frame, -, -, -, -, -, -, rfl⟩
  · exact h
  · have hk : (Kind.uninit type init (some fi)).Recorded := hkind ▸ h.kind q src hsrc
    exact h.inserted hk
  · obtain ⟨fi', e, hle⟩ : (Kind.file (some fi)).Recorded := hkind ▸ h.kind q src hsrc
    have hins : Recorded (Vm.inserted s c ⟨src.va, none, src.writable, .uninit .file true (some fi)⟩) :=
      h.inserted ⟨fun _ => by simp, fun _ => ⟨fi', e, hle⟩⟩
    exact hins.retains (.claim hclaim)
  · have hk : (Kind.anon none none).Recorded := trivial
    exact h.joined hk rfl rfl

theorem Retains.munmap (hm : doMunmap s p va = some s') : Retains s s' := by
  simp only [doMunmap, Option.bind_eq_bind, Option.bind_eq_some_iff, Option.some.injEq] at hm
  obtain ⟨q, -, page, -, s₂, hw, rfl⟩ := hm
  have herase : Retains s (s.setSpt p ((s.spt p).erase q)) := .of_pages rfl rfl
  exact herase.trans (.of_steady ((Steady.writeBack hw).trans (.clear ..)))

theorem Retains.destroy (hd : vmDeallocPage s p q = some s') : Retains s s' := by
  simp only [vmDeallocPage, Option.bind_eq_bind, Option.bind_eq_some_iff, Option.some.injEq] at hd
  obtain ⟨page, hpage, s₂, hd, rfl⟩ := hd
  refine (Retains.of_steady (Steady.destroy hpage hd).1).trans ⟨rfl, fun r pr hr => ⟨pr, ?_, id⟩⟩
  have hne : r ≠ q := by
    rintro rfl
    exact absurd hr (by simp [State.freePage])
  exact (Function.update_of_ne hne ..).symm.trans hr

theorem Retains.reap (hr : pml4Destroy s p = some s') : Retains s s' := by
  simp only [pml4Destroy, Option.bind_eq_bind, Option.bind_eq_some_iff, Option.some.injEq] at hr
  obtain ⟨s₁, hloop, rfl⟩ := hr
  rw [pml4DestroyLoop_spec p hloop]
  exact .of_pages rfl rfl

/-- **One step** keeps the pages recorded. -/
theorem Recorded.step {e : Ev} (h : Recorded s) (hs : Spts s) (he : AllocRecorded e) (hr : step s e = some s') :
    Recorded s' := by
  cases step_took hr with
  | spawn => exact h.retains (.of_pages rfl rfl)
  | alloc hp h0 => exact h.alloc he
  | setupStack hp hst => exact h.setupStack hst
  | load => exact h
  | store hp hst =>
    obtain ⟨-, rfl⟩ := storeByte_eq hst
    exact h.retains (.of_pages rfl rfl)
  | fault hp hno hf => exact h.fault hf
  | copyPage hc hq hcopy => exact h.copyPage hs hq hcopy
  | munmap hp hm => exact h.retains (.munmap hm)
  | @destroy p q _ hp hq hd =>
    have herase : Retains s (s.setSpt p ((s.spt p).erase q)) := .of_pages rfl rfl
    exact h.retains (herase.trans (.destroy hd))
  | reap hp hnil hr => exact h.retains (.reap hr)

theorem recorded_boot {frames slots : Nat} {mem : Nat → Bytes} {disk : Nat → Sector} {inodes : Nat → Inode} :
    Recorded (boot frames slots mem disk inodes) :=
  ⟨nofun, nofun⟩

/-- **Along every run** whose pages are allocated so, they stay recorded. -/
theorem Recorded.run {es : List Ev} (h : Recorded s) (hs : Entries s) (he : ∀ e ∈ es, AllocRecorded e)
    (hr : Run.run Vm.step s es = some s') : Recorded s' :=
  (Run.run_invariant (G := fun _ e => AllocRecorded e) (I := fun s => Entries s ∧ Recorded s)
    (fun _ _ _ hI hG hs => ⟨hI.1.step hs, hI.2.step hI.1.spts hG hs⟩) ⟨hs, h⟩ hr
    (Run.always_of_mem s fun e hmem _ => he e hmem)).2

end PintosKaist.Vm
