/-
What the calls do to pages and entries, in any state, also in one whose frame
list is broken. An eviction and a destruction are `Steady`: they move an
anonymous page to swap, and clear entries. A claim brings its page in,
whatever it was, and gives it an entry (`vmDoClaimPage_brings`).
-/
import PintosKaist.Vm.LinksRuns

namespace PintosKaist.Vm

variable {s s' s₁ : State} {p q f va : Nat} {page page' : Page} {b : Bool}

/-- An entry lets through no more than before. -/
def Pte.Narrows (e e' : Pte) : Prop := e'.present = true → e.present = true ∧ (e'.writable = true → e.writable = true)

/-- The same page later on; an anonymous page may have gone to swap. -/
structure Page.Stays (page page' : Page) : Prop where
  va : page'.va = page.va
  writable : page'.writable = page.writable
  kind : page'.kind = page.kind ∨ page.kind.isAnon = true ∧ page'.kind.isAnon = true

/-- The tables are the same, the pages stay and the entries narrow. -/
structure Steady (s s' : State) : Prop extends SameSpts s s' where
  pages : ∀ q, Option.Rel Page.Stays (s.pages q) (s'.pages q)
  entry : ∀ p va, (s.pte p va).Narrows (s'.pte p va)

/-- What `swap_in` makes of a page. -/
def Kind.resident : Kind → Kind
  | .uninit type _ aux => pageInitializer type aux
  | .anon _ aux => .anon none aux
  | .file aux => .file aux

theorem Pte.Narrows.refl (e : Pte) : e.Narrows e := fun h => ⟨h, id⟩

theorem Pte.Narrows.of_eq {e e' : Pte} (hp : e'.present = e.present) (hw : e'.writable = e.writable) : e.Narrows e' :=
  fun h => ⟨hp ▸ h, fun hw' => hw ▸ hw'⟩

theorem Pte.Narrows.trans {e e' e'' : Pte} (h : e.Narrows e') (h' : e'.Narrows e'') : e.Narrows e'' :=
  fun hp => ⟨(h (h' hp).1).1, fun hw => (h (h' hp).1).2 ((h' hp).2 hw)⟩

theorem Page.Stays.refl (page : Page) : page.Stays page := ⟨rfl, rfl, .inl rfl⟩

theorem Page.Stays.trans {page'' : Page} (h : page.Stays page') (h' : page'.Stays page'') : page.Stays page'' := by
  refine ⟨h'.va.trans h.va, h'.writable.trans h.writable, ?_⟩
  rcases h'.kind with e' | ⟨ha, ha'⟩
  · rw [e']
    exact h.kind
  · rcases h.kind with e | ⟨ha₀, -⟩
    · exact .inr ⟨e ▸ ha, ha'⟩
    · exact .inr ⟨ha₀, ha'⟩

theorem stays_refl : ∀ o : Option Page, Option.Rel Page.Stays o o
  | none => .none
  | some page => .some (.refl page)

theorem Steady.later (h : Steady s s') (hpage : s.pages q = some page) :
    ∃ page', s'.pages q = some page' ∧ page.Stays page' := by
  have hrel := h.pages q
  rw [hpage] at hrel
  cases hpage' : s'.pages q with
  | none => rw [hpage'] at hrel; cases hrel
  | some page' =>
    rw [hpage'] at hrel
    cases hrel with
    | some hs => exact ⟨page', rfl, hs⟩

theorem Steady.earlier (h : Steady s s') (hpage' : s'.pages q = some page') :
    ∃ page, s.pages q = some page ∧ page.Stays page' := by
  have hrel := h.pages q
  rw [hpage'] at hrel
  cases hpage : s.pages q with
  | none => rw [hpage] at hrel; cases hrel
  | some page =>
    rw [hpage] at hrel
    cases hrel with
    | some hs => exact ⟨page, rfl, hs⟩

theorem Steady.freed (h : Steady s s') (hpage : s.pages q = none) : s'.pages q = none := by
  cases hpage' : s'.pages q with
  | none => rfl
  | some page' =>
    obtain ⟨page, hp, -⟩ := h.earlier hpage'
    cases hpage.symm.trans hp

theorem Steady.trans (h : Steady s s₁) (h' : Steady s₁ s') : Steady s s' := by
  refine ⟨h.toSameSpts.trans h'.toSameSpts, fun q => ?_, fun p va => (h.entry p va).trans (h'.entry p va)⟩
  cases hpage : s.pages q with
  | none =>
    rw [h'.freed (h.freed hpage)]
    exact .none
  | some page =>
    obtain ⟨page₁, hpage₁, hs⟩ := h.later hpage
    obtain ⟨page', hpage', hs'⟩ := h'.later hpage₁
    rw [hpage']
    exact .some (hs.trans hs')

/-- Whatever leaves the pages alone, and sets no entry. -/
theorem Steady.of_pages (hspt : ∀ p, s'.spt p = s.spt p) (hpages : s'.pages = s.pages) (hpid : s'.nextPid = s.nextPid)
    (hnext : s'.nextPage = s.nextPage) (hpte : ∀ p va, (s.pte p va).Narrows (s'.pte p va)) : Steady s s' :=
  ⟨⟨hpid, hnext, hspt, fun q => by rw [vaOf, hpages, vaOf]⟩, fun q => by rw [hpages]; exact stays_refl _, hpte⟩

theorem Steady.refl (s : State) : Steady s s := .of_pages (fun _ => rfl) rfl rfl rfl fun _ _ => .refl _

/-- One page was written. -/
theorem Steady.of_update (hpage : s.pages q = some page) (hs : s'.pages = Function.update s.pages q (some page'))
    (ha : page.Stays page') (hspt : ∀ p, s'.spt p = s.spt p) (hpid : s'.nextPid = s.nextPid)
    (hnext : s'.nextPage = s.nextPage) (hpte : ∀ p va, (s.pte p va).Narrows (s'.pte p va)) : Steady s s' := by
  refine ⟨⟨hpid, hnext, hspt, vaOf_update hpage hs ha.va⟩, fun r => ?_, hpte⟩
  rw [hs]
  by_cases he : r = q
  · subst he
    rw [hpage, Function.update_self]
    exact .some ha
  · rw [Function.update_of_ne he]
    exact stays_refl _

/-! ## Evictions -/

theorem narrows_clear (s : State) (p va p' va' : Nat) :
    (s.pte p' va').Narrows ((pml4ClearPage s p va).pte p' va') := by
  rw [pte_pml4ClearPage]
  split
  · intro hpresent
    cases hpresent
  · exact .refl _

theorem Steady.clear (s : State) (p va : Nat) : Steady s (pml4ClearPage s p va) :=
  .of_pages (spt_pml4ClearPage s p va) rfl rfl rfl (narrows_clear s p va)

theorem Steady.writeBack {aux : Option FileInfo} (h : writeBack s p page aux = some s') : Steady s s' := by
  obtain ⟨hs, hspt, hpte⟩ := writeBack_spec h
  exact .of_pages hspt (by rw [hs]) (by rw [hs]) (by rw [hs]) fun p' va' => .of_eq (hpte p' va').1 (hpte p' va').2.2

theorem Steady.swapOut (h : swapOut s p q = some s') : Steady s s' := by
  simp only [Vm.swapOut, Option.bind_eq_bind, Option.bind_eq_some_iff] at h
  obtain ⟨page, hpage, h⟩ := h
  split at h
  · exact absurd h (by simp)
  · rename_i i aux hkind
    simp only [anonSwapOut, Option.bind_eq_bind, Option.bind_eq_some_iff, Option.some.injEq, Prod.exists] at h
    obtain ⟨idx, slots, -, f, -, frame, -, rfl⟩ := h
    have hanon : page.kind.isAnon = true := by rw [hkind]; rfl
    exact .of_update hpage rfl ⟨rfl, rfl, .inr ⟨hanon, rfl⟩⟩ (fun _ => rfl) rfl rfl fun _ _ => .refl _
  · exact .writeBack h

theorem Steady.vmGetFrame (h : vmGetFrame s p = some (f, s')) : Steady s s' := by
  simp only [Vm.vmGetFrame] at h
  split at h
  · obtain ⟨rfl, rfl⟩ := Prod.mk.inj (Option.some.inj h)
    exact .of_pages (fun _ => rfl) rfl rfl rfl fun _ _ => .refl _
  · simp only [vmEvictFrame, Option.bind_eq_bind, Option.bind_eq_some_iff, Option.some.injEq, Prod.exists] at h
    obtain ⟨v, s₂, hev, victim, -, h⟩ := h
    obtain ⟨rfl, rfl⟩ := Prod.mk.inj h
    split at hev
    · exact absurd hev (by simp)
    · rename_i rest hlist
      simp only [Option.bind_eq_some_iff, Option.some.injEq, Prod.mk.injEq] at hev
      obtain ⟨_, -, q, -, s₃, hout, page, hpage, -, rfl⟩ := hev
      have hpop : Steady s { s with frameList := rest } :=
        .of_pages (fun _ => rfl) rfl rfl rfl fun _ _ => .refl _
      exact (hpop.trans (.swapOut hout)).trans (.of_update hpage rfl ⟨rfl, rfl, .inl rfl⟩
        (spt_pml4ClearPage s₃ p page.va) rfl rfl (narrows_clear s₃ p page.va))

/-! ## Claims -/

theorem pages_resident (hpage : s.pages q = some page) (hk : page.kind.resident = page.kind) :
    s.pages = Function.update s.pages q (some { page with kind := page.kind.resident }) := by
  rw [hk]
  exact (Function.update_eq_self_iff.mpr hpage.symm).symm

/-- **`swap_in`** makes the page resident, and does nothing else to the pages and
the page tables. -/
theorem swapIn_brings {kva : Nat} (hpage : s.pages q = some page) (h : swapIn s q kva = some (b, s')) :
    s'.procs = s.procs ∧ s'.nextPid = s.nextPid ∧ s'.nextPage = s.nextPage ∧
      s'.pages = Function.update s.pages q (some { page with kind := page.kind.resident }) := by
  simp only [swapIn, hpage, Option.bind_eq_bind, Option.bind_some] at h
  split at h
  · rename_i type init aux hkind
    rw [hkind]
    simp only [uninitInitialize] at h
    split at h
    · simp only [lazyLoadSegment, Option.bind_eq_bind, Option.bind_eq_some_iff, Option.some.injEq, Prod.mk.injEq] at h
      obtain ⟨fi, -, page', -, frame, -, -, rfl⟩ := h
      exact ⟨rfl, rfl, rfl, rfl⟩
    · obtain ⟨-, rfl⟩ := Prod.mk.inj (Option.some.inj h)
      exact ⟨rfl, rfl, rfl, rfl⟩
  · rename_i i aux hkind
    cases i with
    | none =>
      obtain ⟨-, rfl⟩ := Prod.mk.inj (Option.some.inj h)
      exact ⟨rfl, rfl, rfl, pages_resident hpage (by rw [hkind]; rfl)⟩
    | some i =>
      obtain ⟨-, rfl⟩ := Prod.mk.inj (Option.some.inj h)
      rw [hkind]
      exact ⟨rfl, rfl, rfl, rfl⟩
  · rename_i aux hkind
    have hself := pages_resident hpage (by rw [hkind]; rfl)
    simp only [fileBackedSwapIn, Option.bind_eq_bind, Option.bind_eq_some_iff] at h
    obtain ⟨fi, -, h⟩ := h
    split at h
    · obtain ⟨-, rfl⟩ := Prod.mk.inj (Option.some.inj h)
      exact ⟨rfl, rfl, rfl, hself⟩
    · split at h
      · exact absurd h (by simp)
      · obtain ⟨-, rfl⟩ := Prod.mk.inj (Option.some.inj h)
        exact ⟨rfl, rfl, rfl, hself⟩

/-- A page linked with a frame and mapped at its address: its entry is new. -/
theorem entry_link {frame : Frame} {kva : Nat} {rw : Bool} (p' va' : Nat) :
    (pml4SetPage (linkFrame s q page f frame) p page.va kva rw).pte p' va' =
      if p' = p ∧ va' = page.va then ⟨kva, true, rw, false⟩ else s.pte p' va' :=
  pte_pml4SetPage ..

/-- **A claim**, by what it leaves of the tables: after the frame was found the
page is resident and mapped, as writable as it is. -/
theorem vmDoClaimPage_brings (h : vmDoClaimPage s p q = some (b, s')) :
    ∃ f s₁ kva page, Steady s s₁ ∧ s₁.pages q = some page ∧
      s'.nextPid = s₁.nextPid ∧ s'.nextPage = s₁.nextPage ∧ (∀ p', s'.spt p' = s₁.spt p') ∧
      s'.pages = Function.update s₁.pages q (some { page with frame := some f, kind := page.kind.resident }) ∧
      ∀ p' va', s'.pte p' va' =
        if p' = p ∧ va' = page.va then ⟨kva, true, page.writable, false⟩ else s₁.pte p' va' := by
  simp only [vmDoClaimPage, Option.bind_eq_bind, Option.bind_eq_some_iff, Prod.exists] at h
  obtain ⟨f, s₁, hget, frame, -, page, hpage, hswap⟩ := h
  have hlinked : (pml4SetPage (linkFrame s₁ q page f frame) p page.va frame.kva page.writable).pages =
      Function.update s₁.pages q (some { page with frame := some f }) := rfl
  obtain ⟨hprocs, hpid, hnext, hpages⟩ := swapIn_brings (Function.update_self ..) hswap
  refine ⟨f, s₁, frame.kva, page, .vmGetFrame hget, hpage, hpid, hnext, fun p' => ?_, ?_, fun p' va' => ?_⟩
  · rw [State.spt, hprocs]
    exact spt_pml4SetPage _ p _ _ _ p'
  · rw [hpages, hlinked, Function.update_idem]
  · rw [State.pte, hprocs]
    exact entry_link p' va'

/-- The page that was claimed has an entry of its own. -/
theorem claim_entry (h : vmDoClaimPage s p q = some (b, s')) :
    ∃ page, s'.pages q = some page ∧ (s'.pte p page.va).present = true ∧
      (s'.pte p page.va).writable = page.writable := by
  obtain ⟨f, s₁, kva, page, -, -, -, -, -, hpages, hpte⟩ := vmDoClaimPage_brings h
  have he : s'.pte p page.va = ⟨kva, true, page.writable, false⟩ := by rw [hpte, if_pos ⟨rfl, rfl⟩]
  exact ⟨{ page with frame := some f, kind := page.kind.resident }, by rw [hpages, Function.update_self],
    congrArg Pte.present he, congrArg Pte.writable he⟩

/-- **`vm_handle_wp`** maps the page to a frame of its own, for stores too. -/
theorem vmHandleWp_brings (h : vmHandleWp s p q = some (b, s')) :
    ∃ f s₁ kva page, Steady s s₁ ∧ s₁.pages q = some page ∧
      s'.nextPid = s₁.nextPid ∧ s'.nextPage = s₁.nextPage ∧ (∀ p', s'.spt p' = s₁.spt p') ∧
      s'.pages = Function.update s₁.pages q (some { page with frame := some f }) ∧
      ∀ p' va', s'.pte p' va' = if p' = p ∧ va' = page.va then ⟨kva, true, true, false⟩ else s₁.pte p' va' := by
  simp only [vmHandleWp, Option.bind_eq_bind, Option.bind_eq_some_iff, Option.some.injEq, Prod.mk.injEq,
    Prod.exists] at h
  obtain ⟨_, -, f₀, -, old, -, f, s₁, hget, frame, -, page, hpage, -, rfl⟩ := h
  have hold : Steady s (s.setFrame f₀ { old with rCnt := old.rCnt - 1 }) :=
    .of_pages (fun _ => rfl) rfl rfl rfl fun _ _ => .refl _
  exact ⟨f, s₁, frame.kva, page, hold.trans (.vmGetFrame hget), hpage, rfl, rfl,
    fun p' => spt_pml4SetPage _ p _ _ _ p', rfl, fun p' va' => entry_link p' va'⟩

/-! ## Destruction -/

/-- `destroy` leaves the tables and the other pages, and clears the entry of a
page that is resident. -/
theorem Steady.destroy (hpage : s.pages q = some page) (h : destroy s p q page = some s') :
    Steady s s' ∧ ((∃ type init aux, page.kind = .uninit type init aux) ∨ (s'.pte p page.va).present = false) := by
  have hgone : ∀ s : State, ((pml4ClearPage s p page.va).pte p page.va).present = false := fun s => by
    rw [pte_pml4ClearPage, if_pos ⟨rfl, rfl⟩]
  simp only [Vm.destroy] at h
  split at h
  · rename_i type init aux hkind
    obtain rfl := Option.some.inj h
    exact ⟨.refl s, .inl ⟨type, init, aux, hkind⟩⟩
  · rename_i i aux hkind
    -- the rest of `anon_destroy` is about the frame
    have keep : ∀ s', s'.procs = (cleared s p page i).procs → s'.pages = s.pages → s'.nextPid = s.nextPid →
        s'.nextPage = s.nextPage → Steady s s' ∧ (s'.pte p page.va).present = false := by
      intro s' hprocs hpages hpid hnext
      have hpte : ∀ p' va', s'.pte p' va' = (pml4ClearPage s p page.va).pte p' va' := fun p' va' => by
        rw [State.pte, hprocs]
        rfl
      refine ⟨.of_pages (fun p' => ?_) hpages hpid hnext fun p' va' => ?_, ?_⟩
      · rw [State.spt, hprocs]
        exact spt_pml4ClearPage s p page.va p'
      · rw [hpte]
        exact narrows_clear s p page.va p' va'
      · rw [hpte]
        exact hgone s
    suffices hkeep : Steady s s' ∧ (s'.pte p page.va).present = false from hkeep.imp_right .inr
    rcases anonDestroy_cases h with ⟨-, rfl⟩ | ⟨f, frame, -, -, ⟨-, -, rfl⟩ | ⟨-, rfl⟩⟩
    · exact keep _ rfl rfl rfl rfl
    · exact keep _ rfl rfl rfl rfl
    · exact keep _ rfl rfl rfl rfl
  · obtain ⟨s₁, hw, ⟨-, rfl⟩ | ⟨f, frame, -, -, rfl⟩⟩ := fileBackedDestroy_cases h
    · exact ⟨(Steady.writeBack hw).trans (.clear ..), .inr (hgone s₁)⟩
    · have hpage₁ : s₁.pages q = some page := by
        rw [(writeBack_spec hw).1]
        exact hpage
      exact ⟨(Steady.writeBack hw).trans (.of_update hpage₁ rfl ⟨rfl, rfl, .inl rfl⟩
        (fun p' => spt_pml4ClearPage s₁ p page.va p') rfl rfl (narrows_clear s₁ p page.va)), .inr (hgone s₁)⟩

end PintosKaist.Vm
