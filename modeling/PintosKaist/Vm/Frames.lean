/-
What the functions of `vm.c` can do, said once. `Room` is what `vm_get_frame`
leaves before it makes the new `struct frame`: a page of the pool, or the page
of the frame it evicted. `Filled` is what `swap_in` leaves. The later modules
take `vm_do_claim_page` and `vm_handle_wp` apart through these two.
-/
import PintosKaist.Vm.Machine

namespace PintosKaist.Vm

variable {s s' : State} {p q f kva va : Nat}

/-! ## The tables of a process under each update -/

namespace State

@[simp] theorem spt_setPte (s : State) (p va : Nat) (e : Pte) (p' : Nat) : (s.setPte p va e).spt p' = s.spt p' := by
  by_cases h : p' = p
  · subst h; simp [spt, setPte]
  · simp [spt, setPte, Function.update_of_ne h]

@[simp] theorem spt_setSpt_self (s : State) (p : Nat) (l : List Nat) : (s.setSpt p l).spt p = l := by
  simp [spt, setSpt]

theorem spt_setSpt_ne (s : State) {p p' : Nat} (l : List Nat) (h : p' ≠ p) : (s.setSpt p l).spt p' = s.spt p' := by
  simp [spt, setSpt, Function.update_of_ne h]

@[simp] theorem pte_setSpt (s : State) (p : Nat) (l : List Nat) (p' va : Nat) :
    (s.setSpt p l).pte p' va = s.pte p' va := by
  by_cases h : p' = p
  · subst h; simp [pte, setSpt]
  · simp [pte, setSpt, Function.update_of_ne h]

theorem pte_setPte (s : State) (p va : Nat) (e : Pte) (p' va' : Nat) :
    (s.setPte p va e).pte p' va' = if p' = p ∧ va' = va then e else s.pte p' va' := by
  by_cases h : p' = p
  · subst h
    simp [pte, setPte, Function.update_apply]
  · simp [pte, setPte, h]

end State

@[simp] theorem spt_pml4SetPage (s : State) (p va kva : Nat) (rw : Bool) (p' : Nat) :
    (pml4SetPage s p va kva rw).spt p' = s.spt p' := by
  by_cases h : p' = p
  · subst h; simp [State.spt, pml4SetPage]
  · simp [State.spt, pml4SetPage, Function.update_of_ne h]

theorem pte_pml4SetPage (s : State) (p va kva : Nat) (rw : Bool) (p' va' : Nat) :
    (pml4SetPage s p va kva rw).pte p' va' =
      if p' = p ∧ va' = va then ⟨kva, true, rw, false⟩ else s.pte p' va' := by
  by_cases h : p' = p
  · subst h
    simp [State.pte, pml4SetPage, Function.update_apply]
  · simp [State.pte, pml4SetPage, h]

@[simp] theorem spt_pml4ClearPage (s : State) (p va p' : Nat) : (pml4ClearPage s p va).spt p' = s.spt p' :=
  s.spt_setPte ..

theorem pte_pml4ClearPage (s : State) (p va p' va' : Nat) :
    (pml4ClearPage s p va).pte p' va' =
      if p' = p ∧ va' = va then { s.pte p va with present := false } else s.pte p' va' := s.pte_setPte ..

/-! ## Write-back -/

/-- A write-back touches a file and the dirty bit only. -/
theorem writeBack_spec {page : Page} {aux : Option FileInfo} (h : writeBack s p page aux = some s') :
    s' = { s with procs := s'.procs, inodes := s'.inodes } ∧ (∀ p', s'.spt p' = s.spt p') ∧
      ∀ p' va', (s'.pte p' va').present = (s.pte p' va').present ∧ (s'.pte p' va').kva = (s.pte p' va').kva ∧
        (s'.pte p' va').writable = (s.pte p' va').writable := by
  simp only [writeBack, Option.bind_eq_bind, Option.bind_eq_some_iff] at h
  obtain ⟨fi, -, h⟩ := h
  split at h
  · simp only [Option.bind_eq_some_iff, Option.some.injEq] at h
    obtain ⟨frame, -, rfl⟩ := h
    refine ⟨rfl, fun p' => by rw [State.spt_setPte]; rfl, fun p' va' => ?_⟩
    rw [State.pte_setPte]
    split
    · rename_i e
      rw [e.1, e.2]
      exact ⟨rfl, rfl, rfl⟩
    · exact ⟨rfl, rfl, rfl⟩
  · obtain rfl := Option.some.inj h
    exact ⟨rfl, fun _ => rfl, fun _ _ => ⟨rfl, rfl, rfl⟩⟩

/-! ## Room for a frame -/

/-- The frame field of a page. -/
def frameOf (s : State) (q : Nat) : Option Nat := (s.pages q).bind (·.frame)

/-- The frame at the front of the list is the frame of its page. -/
def VictimLinked (s : State) : Prop :=
  ∀ v ∈ s.frameList.head?, ∀ victim ∈ s.frames v, ∀ q ∈ victim.page, frameOf s q = some v

/-- `kva` has been found for a new frame: free in the pool, or that of the
frame `v` at the front of the list, whose page `q` went to swap or back to its
file. `v` is freed. -/
inductive Room (s : State) (p : Nat) : State → Nat → Prop
  | free {kva : Nat} {pool : Bitmap} (hscan : s.userPool.scanAndFlip = some (kva, pool)) :
    Room s p { s.setMem kva zeroPage with userPool := pool } kva
  | anon {v q idx : Nat} {rest : List Nat} {victim : Frame} {page : Page} {i : Option Nat}
    {aux : Option FileInfo} {slots : Bitmap}
    (hfull : s.userPool.scanAndFlip = none) (hlist : s.frameList = v :: rest)
    (hvictim : s.frames v = some victim) (hback : victim.page = some q) (hpage : s.pages q = some page)
    (hframe : page.frame = some v) (hkind : page.kind = .anon i aux)
    (hslot : s.swapTable.scanAndFlip = some (idx, slots)) :
    Room s p
      { s with
        pages := Function.update s.pages q (some { page with frame := none, kind := .anon (some idx) aux })
        frames := Function.update s.frames v none
        frameList := rest
        procs := (pml4ClearPage s p page.va).procs
        swapTable := slots
        swapDisk := writeSlot s.swapDisk idx (s.mem victim.kva) } victim.kva
  | file {v q : Nat} {rest : List Nat} {victim : Frame} {page : Page} {aux : Option FileInfo} {s₁ : State}
    (hfull : s.userPool.scanAndFlip = none) (hlist : s.frameList = v :: rest)
    (hvictim : s.frames v = some victim) (hback : victim.page = some q) (hpage : s.pages q = some page)
    (hframe : page.frame = some v) (hkind : page.kind = .file aux) (hwrite : writeBack s p page aux = some s₁) :
    Room s p
      { s₁ with
        pages := Function.update s.pages q (some { page with frame := none })
        frames := Function.update s.frames v none
        frameList := rest
        procs := (pml4ClearPage s₁ p page.va).procs } victim.kva

/-- A write-back looks neither at the list nor at the other pages. -/
theorem writeBack_with {page : Page} {aux : Option FileInfo} {l : List Nat} {pages : Nat → Option Page} :
    writeBack { s with frameList := l, pages := pages } p page aux =
      (writeBack s p page aux).map fun s => { s with frameList := l, pages := pages } := by
  simp only [writeBack, Option.bind_eq_bind]
  cases aux with
  | none => rfl
  | some fi =>
    simp only [Option.bind_some]
    show (if (s.pte p page.va).dirty then _ else _) = _
    split
    · show Option.bind (page.frame.bind s.frames) _ = _
      cases page.frame.bind s.frames <;> rfl
    · rfl

/-- `vm_get_frame`, when the frame it may evict is that of its page. -/
theorem vmGetFrame_room (hv : s.userPool.free = 0 → VictimLinked s) (h : vmGetFrame s p = some (f, s')) :
    ∃ s₁ kva, Room s p s₁ kva ∧ (f, s') = pushFrame s₁ kva := by
  simp only [vmGetFrame] at h
  split at h
  · rename_i kva pool hscan
    exact ⟨_, _, .free hscan, (Option.some.inj h).symm⟩
  · rename_i hfull
    simp only [Option.bind_eq_bind, Option.bind_eq_some_iff, Option.some.injEq, Prod.exists] at h
    obtain ⟨v', s₂, hev, frame₂, hfr₂, h⟩ := h
    simp only [vmEvictFrame] at hev
    split at hev
    · exact absurd hev (by simp)
    · rename_i v rest hlist
      simp only [Option.bind_eq_bind, Option.bind_eq_some_iff, Option.some.injEq, Prod.mk.injEq] at hev
      obtain ⟨victim, hvictim, q, hback, s₃, hout, page₃, hpage₃, rfl, rfl⟩ := hev
      have hq := hv (Bitmap.free_eq_zero hfull) v (by simp [hlist]) victim hvictim q hback
      simp only [swapOut, Option.bind_eq_bind, Option.bind_eq_some_iff] at hout
      obtain ⟨page, hpage, hout⟩ := hout
      change s.pages q = some page at hpage
      have hframe : page.frame = some v := by simpa [frameOf, hpage] using hq
      split at hout
      · exact absurd hout (by simp)
      · rename_i i aux hkind
        simp only [anonSwapOut, hframe, Option.bind_eq_bind, Option.bind_eq_some_iff, Option.some.injEq,
          Prod.exists] at hout
        obtain ⟨idx, slots, hslot, v', rfl, frame, hfr, rfl⟩ := hout
        obtain rfl := Option.some.inj (hvictim.symm.trans hfr)
        refine ⟨_, _, .anon hfull hlist hvictim hback hpage hframe hkind hslot, ?_⟩
        simp only [State.setPage, State.setFrame, Function.update_self, Option.some.injEq] at hpage₃ hfr₂
        subst hpage₃
        simp only [pml4ClearPage, State.setPte, Function.update_self, Option.some.injEq] at hfr₂
        subst hfr₂
        rw [← h]
        simp only [State.freeFrame, State.setPage, State.setFrame, pml4ClearPage, State.setPte,
          Function.update_idem]
        rfl
      · rename_i aux hkind
        have hout : writeBack { s with frameList := rest, pages := s.pages } p page aux = some s₃ := hout
        rw [writeBack_with, Option.map_eq_some_iff] at hout
        obtain ⟨s₁, hwrite, rfl⟩ := hout
        refine ⟨_, _, .file hfull hlist hvictim hback hpage hframe hkind hwrite, ?_⟩
        have hs₁ := (writeBack_spec hwrite).1
        rw [hs₁] at hpage₃
        change s.pages q = some page₃ at hpage₃
        obtain rfl := Option.some.inj (hpage.symm.trans hpage₃)
        rw [hs₁] at hfr₂
        change s.frames v = some frame₂ at hfr₂
        obtain rfl := Option.some.inj (hvictim.symm.trans hfr₂)
        rw [← h, hs₁]
        rfl

/-! ## The new frame and its page -/

/-- A new frame for `kva`, linked with the page `q` and mapped at its address. -/
def mapFrame (s : State) (p q : Nat) (page : Page) (kva : Nat) (rw : Bool) : State :=
  { s with
    pages := Function.update s.pages q (some { page with frame := some s.nextFrame })
    frames := Function.update s.frames s.nextFrame (some ⟨kva, some q, 1⟩)
    nextFrame := s.nextFrame + 1
    frameList := s.frameList ++ [s.nextFrame]
    procs := (pml4SetPage s p page.va kva rw).procs }

theorem pushFrame_link (s : State) (p q : Nat) (page : Page) (kva : Nat) (rw : Bool) :
    pml4SetPage (linkFrame (pushFrame s kva).2 q page s.nextFrame ⟨kva, none, 0⟩) p page.va kva rw =
      mapFrame s p q page kva rw := by
  simp only [linkFrame, pushFrame, State.setFrame, State.setPage, Function.update_idem, pml4SetPage, mapFrame]
  rfl

/-- `swap_in` of the page `q` into `kva`, by what the page is. -/
inductive Filled (s : State) (q kva : Nat) (page : Page) : Bool → State → Prop
  | bare {type : VmType} {aux : Option FileInfo} (hkind : page.kind = .uninit type false aux) :
    Filled s q kva page true (s.setPage q { page with kind := pageInitializer type aux })
  | load {type : VmType} {fi : FileInfo} (hkind : page.kind = .uninit type true (some fi)) :
    Filled s q kva page true
      ((s.setPage q { page with kind := pageInitializer type (some fi) }).setMem kva
        (segmentBytes (s.inodes fi.file) fi))
  | swap {i : Nat} {aux : Option FileInfo} (hkind : page.kind = .anon (some i) aux) :
    Filled s q kva page true
      ({ s.setMem kva (readSlot s.swapDisk i (s.mem kva)) with swapTable := s.swapTable.set i false }.setPage q
        { page with kind := .anon none aux })
  | resident {aux : Option FileInfo} (hkind : page.kind = .anon none aux) : Filled s q kva page false s
  | short {fi : FileInfo} (hkind : page.kind = .file (some fi))
    (hlen : ((s.inodes fi.file).readAt fi.readBytes fi.ofs).length ≠ fi.readBytes) :
    Filled s q kva page false
      (s.setMem kva (overlay ((s.inodes fi.file).readAt fi.readBytes fi.ofs) (s.mem kva)))
  | reload {fi : FileInfo} (hkind : page.kind = .file (some fi))
    (hlen : ((s.inodes fi.file).readAt fi.readBytes fi.ofs).length = fi.readBytes) (hle : fi.readBytes ≤ pgsize) :
    Filled s q kva page true
      (s.setMem kva (overlay ((s.inodes fi.file).readAt fi.readBytes fi.ofs) zeroPage))

/-- `swap_in` into the frame of the page. -/
theorem swapIn_filled {page : Page} {frame : Frame} {b : Bool} (hpage : s.pages q = some page)
    (hf : page.frame.bind s.frames = some frame) (hkva : frame.kva = kva)
    (h : swapIn s q kva = some (b, s')) : Filled s q kva page b s' := by
  simp only [swapIn, hpage, Option.bind_eq_bind, Option.bind_some] at h
  split at h
  · rename_i type init aux hkind
    simp only [uninitInitialize] at h
    split at h
    · rename_i hinit
      subst hinit
      simp only [lazyLoadSegment, Option.bind_eq_bind, Option.bind_eq_some_iff] at h
      obtain ⟨fi, rfl, page', hpage', frame', hf', h⟩ := h
      simp only [State.setPage, Function.update_self, Option.some.injEq] at hpage'
      subst hpage'
      obtain rfl := Option.some.inj (hf.symm.trans (Option.bind_eq_some_iff.mpr hf'))
      simp only [Option.some.injEq, Prod.mk.injEq] at h
      obtain ⟨rfl, rfl⟩ := h
      rw [hkva]
      exact .load hkind
    · rename_i hinit
      simp only [Bool.not_eq_true] at hinit
      subst hinit
      simp only [Option.some.injEq, Prod.mk.injEq] at h
      obtain ⟨rfl, rfl⟩ := h
      exact .bare hkind
  · rename_i i aux hkind
    cases i with
    | none =>
      simp only [anonSwapIn, Option.some.injEq, Prod.mk.injEq] at h
      obtain ⟨rfl, rfl⟩ := h
      exact .resident hkind
    | some i =>
      simp only [anonSwapIn, Option.some.injEq, Prod.mk.injEq] at h
      obtain ⟨rfl, rfl⟩ := h
      exact .swap hkind
  · rename_i aux hkind
    simp only [fileBackedSwapIn, Option.bind_eq_bind, Option.bind_eq_some_iff] at h
    obtain ⟨fi, rfl, h⟩ := h
    split at h
    · rename_i hlen
      simp only [Option.some.injEq, Prod.mk.injEq] at h
      obtain ⟨rfl, rfl⟩ := h
      exact .short hkind hlen
    · rename_i hlen
      split at h
      · exact absurd h (by simp)
      · rename_i hle
        simp only [Option.some.injEq, Prod.mk.injEq] at h
        obtain ⟨rfl, rfl⟩ := h
        exact .reload hkind (not_not.mp hlen) (Nat.le_of_not_lt hle)

/-- The frame that `vm_get_frame` returns has the room that was made, and no
page. -/
theorem vmGetFrame_pushed {f : Nat} {s₂ : State} {frame : Frame} (hv : s.userPool.free = 0 → VictimLinked s)
    (hget : vmGetFrame s p = some (f, s₂)) (hframe : s₂.frames f = some frame) :
    ∃ s₁ kva, Room s p s₁ kva ∧ f = s₁.nextFrame ∧ s₂ = (pushFrame s₁ kva).2 ∧ frame = ⟨kva, none, 0⟩ := by
  obtain ⟨s₁, kva, hroom, hpush⟩ := vmGetFrame_room hv hget
  obtain ⟨rfl, rfl⟩ := Prod.mk.inj hpush
  simp only [State.setFrame, Function.update_self, Option.some.injEq] at hframe
  exact ⟨s₁, kva, hroom, rfl, rfl, hframe.symm⟩

/-- `vm_do_claim_page`: room is made, the frame is mapped, and the page
filled. -/
theorem vmDoClaimPage_cases {b : Bool} (hv : s.userPool.free = 0 → VictimLinked s)
    (h : vmDoClaimPage s p q = some (b, s')) :
    ∃ s₁ kva page, Room s p s₁ kva ∧ s₁.pages q = some page ∧
      Filled (mapFrame s₁ p q page kva page.writable) q kva { page with frame := some s₁.nextFrame } b s' := by
  simp only [vmDoClaimPage, Option.bind_eq_bind, Option.bind_eq_some_iff, Prod.exists] at h
  obtain ⟨f, s₂, hget, frame, hframe, page, hpage, h⟩ := h
  obtain ⟨s₁, kva, hroom, rfl, rfl, rfl⟩ := vmGetFrame_pushed hv hget hframe
  change s₁.pages q = some page at hpage
  refine ⟨s₁, kva, page, hroom, hpage, ?_⟩
  simp only [pushFrame_link] at h
  have hlinked : (mapFrame s₁ p q page kva page.writable).pages q = some { page with frame := some s₁.nextFrame } := by
    simp [mapFrame]
  have hnew : (some s₁.nextFrame).bind (mapFrame s₁ p q page kva page.writable).frames = some ⟨kva, some q, 1⟩ := by
    simp [mapFrame]
  exact swapIn_filled hlinked hnew rfl h

/-- `vm_handle_wp`: the count of the old frame goes down, room is made, the
new frame is mapped writable, and the bytes are copied. -/
theorem vmHandleWp_cases {b : Bool} {page : Page} {f₀ : Nat} {old : Frame} (hpage : s.pages q = some page)
    (hf : page.frame = some f₀) (hold : s.frames f₀ = some old)
    (hv : s.userPool.free = 0 → VictimLinked (s.setFrame f₀ { old with rCnt := old.rCnt - 1 }))
    (h : vmHandleWp s p q = some (b, s')) :
    b = true ∧ ∃ s₁ kva page', Room (s.setFrame f₀ { old with rCnt := old.rCnt - 1 }) p s₁ kva ∧
      s₁.pages q = some page' ∧ s' = (mapFrame s₁ p q page' kva true).setMem kva (s₁.mem old.kva) := by
  simp only [vmHandleWp, hpage, hf, hold, Option.bind_eq_bind, Option.bind_some, Option.bind_eq_some_iff,
    Option.some.injEq, Prod.mk.injEq, Prod.exists] at h
  obtain ⟨f, s₂, hget, frame, hframe, page', hpage', rfl, rfl⟩ := h
  obtain ⟨s₁, kva, hroom, rfl, rfl, rfl⟩ := vmGetFrame_pushed hv hget hframe
  refine ⟨rfl, s₁, kva, page', hroom, hpage', ?_⟩
  rw [pushFrame_link]
  rfl

/-! ## New pages -/

/-- `page`, just allocated, in the table of `p`. -/
def inserted (s : State) (p : Nat) (page : Page) : State :=
  { s.setPage s.nextPage page with nextPage := s.nextPage + 1 }.setSpt p (s.nextPage :: s.spt p)

/-- `vm_alloc_page_with_initializer` puts a new page where there was none, or
fails and does nothing. -/
theorem vmAlloc_cases (s : State) (p : Nat) (type : VmType) (va : Nat) (writable init : Bool) (aux : Option FileInfo) :
    vmAllocPageWithInitializer s p type va writable init aux = (false, s) ∨
    (hashFind s p va = none ∧ (type = .anon ∨ type = .file) ∧
      vmAllocPageWithInitializer s p type va writable init aux =
        (true, inserted s p ⟨va, none, writable, .uninit type init aux⟩)) := by
  have hins : ∀ {page : Page}, page.va = va → sptInsertPage s p page = (false, s) ∨
      (hashFind s p va = none ∧ sptInsertPage s p page = (true, inserted s p page)) := by
    intro page hva
    simp only [sptInsertPage, hva]
    split
    · exact .inl rfl
    · rename_i hnone
      exact .inr ⟨hnone, rfl⟩
  simp only [vmAllocPageWithInitializer]
  split
  · exact .inl rfl
  · cases type with
    | anon => exact (hins rfl).imp id fun h => ⟨h.1, .inl rfl, h.2⟩
    | file => exact (hins rfl).imp id fun h => ⟨h.1, .inr rfl, h.2⟩
    | uninit | pageCache => exact .inl rfl

theorem spt_inserted (page : Page) (p' : Nat) :
    (inserted s p page).spt p' = if p' = p then s.nextPage :: s.spt p else s.spt p' := by
  by_cases h : p' = p
  · subst h
    rw [if_pos rfl]
    exact State.spt_setSpt_self ..
  · rw [if_neg h]
    exact State.spt_setSpt_ne _ _ h

/-- The page just inserted is the one `spt_find_page` finds. -/
theorem sptFindPage_inserted {page : Page} (h0 : page.va ≠ 0) :
    sptFindPage (inserted s p page) p (page.va * pgsize) = some s.nextPage := by
  have hpos : page.va * pgsize ≠ 0 := Nat.mul_ne_zero h0 (by decide)
  rw [sptFindPage, if_neg hpos, Nat.mul_div_cancel _ (by decide), hashFind, spt_inserted, if_pos rfl]
  simp [inserted, State.setSpt, State.setPage]

/-- What `hash_find` finds is in the table and has the address. -/
theorem hashFind_some (h : hashFind s p va = some q) : q ∈ s.spt p ∧ ∃ page, s.pages q = some page ∧ page.va = va := by
  refine ⟨List.mem_of_find?_eq_some h, ?_⟩
  have := List.find?_some h
  simpa [Option.any_eq_true] using this

theorem sptFindPage_some {addr : Nat} (h : sptFindPage s p addr = some q) :
    q ∈ s.spt p ∧ ∃ page, s.pages q = some page ∧ page.va = addr / pgsize := by
  simp only [sptFindPage] at h
  split at h
  · exact absurd h (by simp)
  · exact hashFind_some h

/-! ## Faults -/

/-- What `vm_try_handle_fault` comes down to. -/
theorem vmTryHandleFault_cases {addr rsp : Nat} {write notPresent b : Bool}
    (h : vmTryHandleFault s p addr rsp write notPresent = some (b, s')) :
    (b = false ∧ s' = s) ∨
    (∃ q page, sptFindPage s p addr = some q ∧ s.pages q = some page ∧ write = true ∧ notPresent = false ∧
      page.writable = true ∧ vmHandleWp s p q = some (b, s')) ∨
    (∃ q, sptFindPage s p addr = some q ∧ notPresent = true ∧ vmDoClaimPage s p q = some (b, s')) ∨
    (b = true ∧ sptFindPage s p addr = none ∧ inStackWindow addr rsp = true ∧
      s' = (vmAllocPage s p .anon (addr / pgsize) true).2) := by
  simp only [vmTryHandleFault] at h
  have keep : some (false, s) = some (b, s') → b = false ∧ s' = s := by
    intro h
    simp only [Option.some.injEq, Prod.mk.injEq] at h
    exact ⟨h.1.symm, h.2.symm⟩
  split at h
  · exact .inl (keep h)
  split at h
  next q hq =>
    simp only [Option.bind_eq_bind, Option.bind_eq_some_iff] at h
    obtain ⟨page, hpage, h⟩ := h
    split at h
    next hw =>
      simp only [Bool.and_eq_true, Bool.not_eq_true'] at hw
      split at h
      next hwr => exact .inr (.inl ⟨q, page, hq, hpage, hw.1, hw.2, hwr, h⟩)
      next => exact .inl (keep h)
    next hw =>
      split at h
      next => exact .inl (keep h)
      next hr =>
        refine .inr (.inr (.inl ⟨q, hq, ?_, h⟩))
        cases write <;> cases notPresent <;> simp_all
  next hq =>
    split at h
    next hwin =>
      simp only [Option.some.injEq, Prod.mk.injEq] at h
      exact .inr (.inr (.inr ⟨h.1.symm, hq, hwin, h.2.symm⟩))
    next => exact .inl (keep h)

/-! ## Destruction -/

/-- The entry cleared and the slot given back, as `anon_destroy` begins. -/
def cleared (s : State) (p : Nat) (page : Page) (i : Option Nat) : State :=
  { pml4ClearPage s p page.va with
    swapTable := match i with
      | some i => s.swapTable.set i false
      | none => s.swapTable }

/-- `anon_destroy`, by what is left of the frame: there was none, it is freed
with the page, or it loses a reference. -/
theorem anonDestroy_cases {page : Page} {i : Option Nat} (h : anonDestroy s p page i = some s') :
    (page.frame = none ∧ s' = cleared s p page i) ∨
    ∃ f frame, page.frame = some f ∧ s.frames f = some frame ∧
      ((frame.rCnt = 1 ∧ s.userPool.bit frame.kva = true ∧
        s' = { (cleared s p page i).setMem frame.kva fun _ => 0xcc with
          frames := Function.update s.frames f none
          frameList := s.frameList.erase f
          userPool := s.userPool.set frame.kva false }) ∨
      (frame.rCnt ≠ 1 ∧ s' = (cleared s p page i).setFrame f { frame with rCnt := frame.rCnt - 1 })) := by
  cases hf : page.frame with
  | none =>
    have key : some (cleared s p page i) = some s' := by
      rw [← h]
      unfold anonDestroy
      rw [hf]
      cases i <;> rfl
    exact .inl ⟨rfl, (Option.some.inj key).symm⟩
  | some f =>
    have key : (((cleared s p page i).frames f).bind fun frame =>
        if frame.rCnt - 1 = 0 then
          (pallocFreePage { cleared s p page i with frameList := s.frameList.erase f } frame.kva).bind fun s =>
            some (s.freeFrame f)
        else some ((cleared s p page i).setFrame f { frame with rCnt := frame.rCnt - 1 })) = some s' := by
      rw [← h]
      unfold anonDestroy
      rw [hf]
      cases i <;> rfl
    obtain ⟨frame, hframe, key⟩ := Option.bind_eq_some_iff.mp key
    refine .inr ⟨f, frame, rfl, hframe, ?_⟩
    split at key
    · obtain ⟨s₁, hfree, e⟩ := Option.bind_eq_some_iff.mp key
      simp only [pallocFreePage] at hfree
      split at hfree
      · rename_i h1 hbit
        obtain rfl := Option.some.inj hfree
        exact .inl ⟨by omega, hbit, (Option.some.inj e).symm⟩
      · exact absurd hfree (by simp)
    · rename_i h1
      exact .inr ⟨by omega, (Option.some.inj key).symm⟩

/-- `file_backed_destroy`: a write-back, and then the frame goes if there is
one. -/
theorem fileBackedDestroy_cases {page : Page} {aux : Option FileInfo} (h : fileBackedDestroy s p q page aux = some s') :
    ∃ s₁, writeBack s p page aux = some s₁ ∧
      ((page.frame = none ∧ s' = pml4ClearPage s₁ p page.va) ∨
      ∃ f frame, page.frame = some f ∧ s₁.frames f = some frame ∧
        s' = pml4ClearPage { s₁.setMem frame.kva fun _ => 0xcc with
          pages := Function.update s₁.pages q (some { page with frame := none })
          frames := Function.update s₁.frames f none
          userPool := s₁.userPool.set frame.kva false } p page.va) := by
  simp only [fileBackedDestroy, Option.bind_eq_bind, Option.bind_eq_some_iff] at h
  obtain ⟨s₁, hw, h⟩ := h
  refine ⟨s₁, hw, ?_⟩
  split at h
  · rename_i hnone
    exact .inl ⟨hnone, (Option.some.inj h).symm⟩
  · rename_i f hf
    simp only [Option.bind_eq_some_iff, pallocFreePage, Option.ite_none_right_eq_some, Option.some.injEq] at h
    obtain ⟨frame, hframe, s₂, ⟨-, rfl⟩, rfl⟩ := h
    exact .inr ⟨f, frame, hf, hframe, rfl⟩

end PintosKaist.Vm
