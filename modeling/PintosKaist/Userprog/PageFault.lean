/-
`page_fault` (`userprog/exception.c`) under a load or a store of user code.
When it returns, the processor takes the instruction again; a fault that
`vm_try_handle_fault` rejects ends the process. One fault may make a page of
the stack, the next brings it in, and what is left then is a store to a page
that is read-only.
-/
import PintosKaist.Userprog.CheckBuffer
import PintosKaist.Vm.Recorded
import PintosKaist.Vm.ZeroFill

namespace PintosKaist.Vm

variable {s s' s₁ : State} {p q f kva addr rsp n : Nat} {page : Page} {b ok write : Bool}

/-- `page_fault`, which sets `user_rsp` to `rsp` and takes `not_present` from
the entry; `false` is `kill`. -/
def pageFault (s : State) (p addr rsp : Nat) (write : Bool) : Option (Bool × State) :=
  vmTryHandleFault s p addr rsp write (!(s.pte p (addr / pgsize)).present)

/-- An instruction of user code that loads or stores at `addr`, taken up to
`n` times: each fault that is handled is followed by another try. -/
def userAccess (p addr rsp : Nat) (write : Bool) : Nat → State → Option (Bool × State)
  | 0, _ => none
  | n + 1, s =>
    if permits (s.pte p (addr / pgsize)) write then some (true, s)
    else do
      let (handled, s) ← pageFault s p addr rsp write
      if handled then userAccess p addr rsp write n s else some (false, s)

/-- An entry of `p` for a page of its table is absent, or maps the frame of the
page and is as writable. -/
def OwnEntries (s : State) (p : Nat) : Prop :=
  ∀ q ∈ s.spt p, ∀ page ∈ s.pages q, (s.pte p page.va).present = true →
    (page.frame.bind s.frames).map (·.kva) = some (s.pte p page.va).kva ∧ (s.pte p page.va).writable = page.writable

instance (s : State) (p : Nat) : Decidable (OwnEntries s p) := inferInstanceAs (Decidable (∀ _ ∈ _, ∀ _ ∈ _, _ → _ ∧ _))

/-- What the access that ended in `s'` may have been permitted for. -/
structure Granted (s : State) (p addr rsp : Nat) (write : Bool) (s' : State) : Prop where
  place : (sptFindPage s p addr).isSome = true ∨ inStackWindow addr rsp = true
  store : write = true → writableAt s p addr ≠ some false ∧ writableAt s' p addr = some true

/-! ## One try -/

theorem userAccess_permitted (h : permits (s.pte p (addr / pgsize)) write = true) (n : Nat) :
    userAccess p addr rsp write (n + 1) s = some (true, s) := by
  rw [userAccess, if_pos h]

theorem userAccess_rejected (h : permits (s.pte p (addr / pgsize)) write = false)
    (hf : pageFault s p addr rsp write = some (false, s')) (n : Nat) :
    userAccess p addr rsp write (n + 1) s = some (false, s') := by
  rw [userAccess, if_neg (by simp [h]), hf]
  rfl

theorem userAccess_handled (h : permits (s.pte p (addr / pgsize)) write = false)
    (hf : pageFault s p addr rsp write = some (true, s₁)) (n : Nat) :
    userAccess p addr rsp write (n + 1) s = userAccess p addr rsp write n s₁ := by
  rw [userAccess, if_neg (by simp [h]), hf]
  rfl

/-- A try that does not end the access was a fault that was handled. -/
theorem userAccess_cases (h : userAccess p addr rsp write (n + 1) s = some (ok, s')) :
    (permits (s.pte p (addr / pgsize)) write = true ∧ ok = true ∧ s' = s) ∨
    (permits (s.pte p (addr / pgsize)) write = false ∧
      ((ok = false ∧ pageFault s p addr rsp write = some (false, s')) ∨
        ∃ s₁, pageFault s p addr rsp write = some (true, s₁) ∧ userAccess p addr rsp write n s₁ = some (ok, s'))) := by
  rw [userAccess] at h
  split at h
  · rename_i hperm
    obtain ⟨rfl, rfl⟩ := Prod.mk.inj (Option.some.inj h)
    exact .inl ⟨hperm, rfl, rfl⟩
  · rename_i hperm
    rw [Bool.not_eq_true] at hperm
    simp only [Option.bind_eq_bind, Option.bind_eq_some_iff, Prod.exists] at h
    obtain ⟨handled, s₁, hf, h⟩ := h
    refine .inr ⟨hperm, ?_⟩
    cases handled with
    | false =>
      obtain ⟨rfl, rfl⟩ := Prod.mk.inj (Option.some.inj h)
      exact .inl ⟨rfl, hf⟩
    | true => exact .inr ⟨s₁, hf, h⟩

theorem pageFault_present (hn : (!(s.pte p (addr / pgsize)).present) = false) :
    (s.pte p (addr / pgsize)).present = true := by
  simpa using hn

/-! ## What is permitted -/

/-- A fault that is handled is on a page of the table or in the stack
window. -/
theorem pageFault_place (h : pageFault s p addr rsp write = some (true, s')) :
    (sptFindPage s p addr).isSome = true ∨ inStackWindow addr rsp = true := by
  rcases vmTryHandleFault_cases h with ⟨hf, -⟩ | ⟨q, page, hfind, -⟩ | ⟨q, hfind, -⟩ | ⟨-, -, hwin, -⟩
  · cases hf
  · exact .inl (by rw [hfind]; rfl)
  · exact .inl (by rw [hfind]; rfl)
  · exact .inr hwin

/-- The page behind an entry that lets the access through. -/
theorem Entries.permitted (h : Entries s) (hperm : permits (s.pte p (addr / pgsize)) write = true) :
    ∃ w, writableAt s p addr = some w ∧ (write = true → w = true) := by
  simp only [permits, Bool.and_eq_true] at hperm
  obtain ⟨q, page, hq, hpage, hva, -, hw⟩ := h.back p _ hperm.1
  refine ⟨page.writable, ?_, fun hwr => hw (by simpa [hwr] using hperm.2)⟩
  rw [writableAt, h.spts.sptFindPage_eq, h.spts.hashFind_iff.mpr ⟨hq, hva ▸ vaOf_eq hpage⟩, Option.bind_some, hpage,
    Option.map_some]

theorem userAccess_grows (h : Entries s) (hp : p < s.nextPid)
    (hr : userAccess p addr rsp write n s = some (ok, s')) :
    ok = true → Entries s' ∧ Grows s s' p ∧ permits (s'.pte p (addr / pgsize)) write = true := by
  rintro rfl
  induction n generalizing s with
  | zero => exact absurd hr (by simp [userAccess])
  | succ n ih =>
    rcases userAccess_cases hr with ⟨hperm, -, rfl⟩ | ⟨-, ⟨hf, -⟩ | ⟨s₁, hf, hr⟩⟩
    · exact ⟨h, .refl s' p, hperm⟩
    · cases hf
    · obtain ⟨hpid, hg, -⟩ := Grows.fault h hp pageFault_present hf
      obtain ⟨hs', hg', hperm⟩ := ih (h.fault hp pageFault_present hf) (hpid ▸ hp) hr
      exact ⟨hs', hg.trans hg', hperm⟩

/-- However many faults it takes. -/
theorem userAccess_granted (h : Entries s) (hp : p < s.nextPid)
    (hr : userAccess p addr rsp write n s = some (true, s')) : Granted s p addr rsp write s' := by
  obtain ⟨hs', hg, hperm⟩ := userAccess_grows h hp hr rfl
  obtain ⟨w, hw, hstore⟩ := hs'.permitted hperm
  refine ⟨?_, fun hwr => ?_⟩
  · cases n with
    | zero => exact absurd hr (by simp [userAccess])
    | succ n =>
      rcases userAccess_cases hr with ⟨-, -, rfl⟩ | ⟨-, ⟨hf, -⟩ | ⟨s₁, hf, -⟩⟩
      · obtain ⟨q, hfind, -⟩ := Option.bind_eq_some_iff.mp hw
        exact .inl (by rw [hfind]; rfl)
      · cases hf
      · exact pageFault_place hf
  · obtain rfl := hstore hwr
    refine ⟨fun hro => ?_, hw⟩
    exact absurd ((hg.keeps hro).symm.trans hw) (by simp)

/-! ## Claims that come back -/

theorem swapIn_some (hpage : s.pages q = some page) (hk : page.kind.Recorded)
    (hf : (page.frame.bind s.frames).isSome = true) : (swapIn s q kva).isSome = true := by
  obtain ⟨frame, hframe⟩ := Option.isSome_iff_exists.mp hf
  simp only [swapIn, hpage, Option.bind_eq_bind, Option.bind_some]
  split
  · rename_i type init aux hkind
    rw [hkind] at hk
    simp only [uninitInitialize]
    split
    · rename_i hinit
      obtain ⟨fi, rfl⟩ := Option.ne_none_iff_exists'.mp (hk.1 hinit)
      simp [lazyLoadSegment, State.setPage, hframe]
    · rfl
  · rename_i i aux hkind
    cases i <;> rfl
  · rename_i aux hkind
    rw [hkind] at hk
    obtain ⟨fi, rfl, hle⟩ := hk
    simp only [fileBackedSwapIn, Option.bind_eq_bind, Option.bind_some, Nat.not_lt.mpr hle, if_false]
    split <;> rfl

/-- A claim comes back when a frame can be had. -/
theorem Recorded.claim (h : Recorded s) (hpage : s.pages q = some page) (hget : (vmGetFrame s p).isSome = true) :
    ∃ b s', vmDoClaimPage s p q = some (b, s') := by
  obtain ⟨⟨f, s₁⟩, hget⟩ := Option.isSome_iff_exists.mp hget
  obtain ⟨page₁, hpage₁, -⟩ := (Steady.vmGetFrame hget).later hpage
  obtain ⟨kva, hframe, -, -⟩ := vmGetFrame_mem hget
  have hk : page₁.kind.Recorded := (h.retains (.of_steady (.vmGetFrame hget))).kind q page₁ hpage₁
  have hswap : (swapIn (pml4SetPage (linkFrame s₁ q page₁ f ⟨kva, none, 0⟩) p page₁.va kva page₁.writable) q
      kva).isSome = true := by
    have hlinked : (pml4SetPage (linkFrame s₁ q page₁ f ⟨kva, none, 0⟩) p page₁.va kva page₁.writable).pages q =
        some { page₁ with frame := some f } := Function.update_self ..
    refine swapIn_some hlinked hk ?_
    simp [pml4SetPage, linkFrame, State.setPage, State.setFrame]
  obtain ⟨⟨b, s'⟩, hswap⟩ := Option.isSome_iff_exists.mp hswap
  refine ⟨b, s', ?_⟩
  simp only [vmDoClaimPage, hget, Option.bind_eq_bind, Option.bind_some, hframe, hpage₁]
  exact hswap

/-- A new page is in nobody's way: a frame that could be had still can. -/
theorem swapOut_inserted (page₀ : Page) (h : Recorded s) (hout : swapOut s p q = some s') :
    ∃ t, swapOut (inserted s p page₀) p q = some t ∧ t.frames = s'.frames ∧ (t.pages q).isSome = true := by
  simp only [swapOut, Option.bind_eq_bind, Option.bind_eq_some_iff] at hout
  obtain ⟨page, hpage, hout⟩ := hout
  have hkeep : (inserted s p page₀).pages q = some page :=
    (Function.update_of_ne (Nat.ne_of_lt (h.lt q page hpage)) ..).trans hpage
  simp only [swapOut, hkeep, Option.bind_eq_bind, Option.bind_some]
  split at hout
  · exact absurd hout (by simp)
  · rename_i i aux hkind
    simp only [anonSwapOut, Option.bind_eq_bind, Option.bind_eq_some_iff, Option.some.injEq, Prod.exists] at hout
    obtain ⟨idx, slots, hscan, f, hf, frame, hframe, rfl⟩ := hout
    have hscan' : (inserted s p page₀).swapTable.scanAndFlip = some (idx, slots) := hscan
    have hframe' : (inserted s p page₀).frames f = some frame := hframe
    simp only [anonSwapOut, hscan', hf, hframe', Option.bind_eq_bind, Option.bind_some]
    exact ⟨_, rfl, rfl, by simp [State.setPage]⟩
  · rename_i aux hkind
    simp only [writeBack, Option.bind_eq_bind, pte_inserted] at hout ⊢
    obtain ⟨fi, rfl, hw⟩ := Option.bind_eq_some_iff.mp hout
    rw [Option.bind_some]
    by_cases hdirty : (s.pte p page.va).dirty = true
    · rw [if_pos hdirty] at hw ⊢
      obtain ⟨frame, hframe, hw⟩ := Option.bind_eq_some_iff.mp hw
      have hframe' : page.frame.bind (inserted s p page₀).frames = some frame := hframe
      obtain rfl := Option.some.inj hw
      rw [hframe']
      exact ⟨_, rfl, rfl, Option.isSome_iff_exists.mpr ⟨page, hkeep⟩⟩
    · rw [if_neg hdirty] at hw ⊢
      obtain rfl := Option.some.inj hw
      exact ⟨_, rfl, rfl, Option.isSome_iff_exists.mpr ⟨page, hkeep⟩⟩

theorem vmGetFrame_inserted (page : Page) (h : Recorded s) (hget : (vmGetFrame s p).isSome = true) :
    (vmGetFrame (inserted s p page) p).isSome = true := by
  obtain ⟨⟨f, s'⟩, hget⟩ := Option.isSome_iff_exists.mp hget
  simp only [vmGetFrame, show (inserted s p page).userPool = s.userPool from rfl] at hget ⊢
  split at hget
  · rfl
  · rename_i hfull
    simp only [vmEvictFrame, Option.bind_eq_bind, Option.bind_eq_some_iff, Option.some.injEq, Prod.exists] at hget
    obtain ⟨v, s₂, hev, victim', hvictim', -⟩ := hget
    split at hev
    · exact absurd hev (by simp)
    · rename_i v₀ rest hlist
      simp only [Option.bind_eq_some_iff, Option.some.injEq, Prod.mk.injEq] at hev
      obtain ⟨victim, hvictim, q, hq, s₃, hout, page₁, -, rfl, rfl⟩ := hev
      have hrec : Recorded { s with frameList := rest } := ⟨h.kind, h.lt⟩
      obtain ⟨t, hout', hframes, hpages⟩ := swapOut_inserted page hrec hout
      obtain ⟨page₂, hpage₂⟩ := Option.isSome_iff_exists.mp hpages
      have hlist' : (inserted s p page).frameList = v₀ :: rest := hlist
      have hvictim₁ : (inserted s p page).frames v₀ = some victim := hvictim
      have hvictim₂ : t.frames v₀ = some victim' := hframes ▸ hvictim'
      have hout₁ : swapOut { inserted s p page with frameList := rest } p q = some t := hout'
      simp only [vmEvictFrame, hlist', hvictim₁, hq, hout₁, hpage₂, Option.bind_eq_bind, Option.bind_some]
      simp [pml4ClearPage, State.setPage, State.setPte, hvictim₂]

/-! ## The tries -/

theorem pageFault_readOnly (huser : addr < kernBase) (hfind : sptFindPage s p addr = some q)
    (hpage : s.pages q = some page) (hpres : (s.pte p (addr / pgsize)).present = true) (hw : page.writable = false) :
    pageFault s p addr rsp true = some (false, s) := by
  simp [pageFault, vmTryHandleFault, Nat.not_le.mpr huser, hfind, hpage, hpres, hw]

theorem pageFault_absent (huser : addr < kernBase) (hfind : sptFindPage s p addr = some q)
    (hpage : s.pages q = some page) (hpres : (s.pte p (addr / pgsize)).present = false) :
    pageFault s p addr rsp write = vmDoClaimPage s p q := by
  simp [pageFault, vmTryHandleFault, Nat.not_le.mpr huser, hfind, hpage, hpres]

theorem not_permits (h : permits (s.pte p (addr / pgsize)) write = false)
    (hpres : (s.pte p (addr / pgsize)).present = true) :
    write = true ∧ (s.pte p (addr / pgsize)).writable = false := by
  simpa [permits, hpres] using h

/-- After a claim the access is permitted, or it is a store to a page that is
read-only. -/
theorem userAccess_claimed (huser : addr < kernBase) (hfind : sptFindPage s p addr = some q)
    (hclaim : vmDoClaimPage s p q = some (true, s')) :
    ∃ ok, ∀ n, userAccess p addr rsp write (n + 1) s' = some (ok, s') := by
  obtain ⟨page', hpage', hpres, hw⟩ := claim_entry hclaim
  have hfind' : sptFindPage s' p addr = some q := by
    rw [sptFindPage, hashFind_same (Brought.claim hclaim).toSameSpts]
    exact hfind
  obtain ⟨-, page₁, hpage₁, hva⟩ := sptFindPage_some hfind'
  obtain rfl := Option.some.inj (hpage'.symm.trans hpage₁)
  rw [hva] at hpres hw
  cases hperm : permits (s'.pte p (addr / pgsize)) write with
  | true => exact ⟨true, userAccess_permitted hperm⟩
  | false =>
    obtain ⟨rfl, hro⟩ := not_permits hperm hpres
    exact ⟨false, userAccess_rejected hperm (pageFault_readOnly huser hfind' hpage' hpres (hw.symm.trans hro))⟩

/-- A page that is not in memory takes one fault. -/
theorem userAccess_absent (rsp : Nat) (write : Bool) (h : Recorded s) (huser : addr < kernBase)
    (hfind : sptFindPage s p addr = some q)
    (hpres : (s.pte p (addr / pgsize)).present = false) (hget : (vmGetFrame s p).isSome = true) :
    ∃ ok s', ∀ n, userAccess p addr rsp write (n + 2) s = some (ok, s') := by
  obtain ⟨-, page, hpage, -⟩ := sptFindPage_some hfind
  have hno : permits (s.pte p (addr / pgsize)) write = false := by simp [permits, hpres]
  obtain ⟨b, s', hclaim⟩ := h.claim hpage hget
  have hf : pageFault s p addr rsp write = some (b, s') := (pageFault_absent huser hfind hpage hpres).trans hclaim
  cases b with
  | false => exact ⟨false, s', fun n => userAccess_rejected hno hf (n + 1)⟩
  | true =>
    obtain ⟨ok, htries⟩ := userAccess_claimed huser hfind hclaim
    exact ⟨ok, s', fun n => (userAccess_handled hno hf (n + 1)).trans (htries n)⟩

/-- The stack takes two. -/
theorem userAccess_growth (h : Entries s) (hr : Recorded s) (hp : p < s.nextPid) (huser : addr < kernBase)
    (hfind : sptFindPage s p addr = none) (hwin : inStackWindow addr rsp = true)
    (hget : (vmGetFrame s p).isSome = true) :
    ∃ ok s', ∀ n, userAccess p addr rsp write (n + 3) s = some (ok, s') := by
  have h0 := inStackWindow_ne_zero hwin
  have hnone : hashFind s p (addr / pgsize) = none := h.spts.sptFindPage_eq addr ▸ hfind
  have habsent : (s.pte p (addr / pgsize)).present = false := by
    by_contra hpres
    obtain ⟨q, page, hq, hpage, hva, -⟩ := h.back p _ (by simpa using hpres)
    exact hashFind_none.mp hnone q hq (hva ▸ vaOf_eq hpage)
  have hno : permits (s.pte p (addr / pgsize)) write = false := by simp [permits, habsent]
  have hf : pageFault s p addr rsp write =
      some (true, inserted s p ⟨addr / pgsize, none, true, .uninit .anon false none⟩) := by
    simp only [pageFault, vmTryHandleFault, Nat.not_le.mpr huser, if_false, hfind, hwin, if_true,
      vmAllocPage_anon hnone]
  have hins : Spts (inserted s p ⟨addr / pgsize, none, true, .uninit .anon false none⟩) := h.spts.inserted hp h0 hnone
  have hfind' : sptFindPage (inserted s p ⟨addr / pgsize, none, true, .uninit .anon false none⟩) p addr =
      some s.nextPage := by
    rw [hins.sptFindPage_eq, h.spts.hashFind_inserted _ hp h0 hnone, if_pos ⟨rfl, rfl⟩]
  have hget' := vmGetFrame_inserted ⟨addr / pgsize, none, true, .uninit .anon false none⟩ hr hget
  obtain ⟨ok, s', htries⟩ := userAccess_absent rsp write (hr.inserted bare_recorded) huser hfind'
    ((congrArg Pte.present (pte_inserted ..)).trans habsent) hget'
  exact ⟨ok, s', fun n => (userAccess_handled hno hf (n + 2)).trans (htries n)⟩

/-- Three tries, two of them faults that are handled, are enough. -/
theorem userAccess_ends (h : Entries s) (hr : Recorded s) (hp : p < s.nextPid) (hown : OwnEntries s p)
    (hget : (vmGetFrame s p).isSome = true) :
    ∃ ok s', ∀ n, userAccess p addr rsp write (n + 3) s = some (ok, s') := by
  cases hperm : permits (s.pte p (addr / pgsize)) write with
  | true => exact ⟨true, s, fun n => userAccess_permitted hperm (n + 2)⟩
  | false =>
    have hreject : pageFault s p addr rsp write = some (false, s) →
        ∃ ok s', ∀ n, userAccess p addr rsp write (n + 3) s = some (ok, s') := fun hf =>
      ⟨false, s, fun n => userAccess_rejected hperm hf (n + 2)⟩
    by_cases huser : addr < kernBase
    · cases hfind : sptFindPage s p addr with
      | none =>
        cases hwin : inStackWindow addr rsp with
        | true => exact userAccess_growth h hr hp huser hfind hwin hget
        | false => exact hreject (by simp [pageFault, vmTryHandleFault, Nat.not_le.mpr huser, hfind, hwin])
      | some q =>
        cases hpres : (s.pte p (addr / pgsize)).present with
        | false =>
          obtain ⟨ok, s', htries⟩ := userAccess_absent rsp write hr huser hfind hpres hget
          exact ⟨ok, s', fun n => htries (n + 1)⟩
        | true =>
          obtain ⟨rfl, hro⟩ := not_permits hperm hpres
          obtain ⟨hq, page, hpage, hva⟩ := sptFindPage_some hfind
          obtain ⟨-, hw⟩ := hown q hq page hpage (hva ▸ hpres)
          exact hreject (pageFault_readOnly huser hfind hpage hpres (hw.symm.trans (hva ▸ hro)))
    · exact hreject (by simp [pageFault, vmTryHandleFault, Nat.not_lt.mp huser])

end PintosKaist.Vm
