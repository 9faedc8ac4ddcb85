/-
Pages that have not been touched yet. `uninitAux s q` is the `aux` of the
page `q` while it is an uninit page; the first `swap_in` takes it away. The
lemmas say what each call does to it and to the tables in any state, also in
one whose frame list is broken.
-/
import PintosKaist.Vm.Steady

namespace PintosKaist.Vm

variable {s s' s₁ : State} {p c q f kva va : Nat} {page page' : Page} {b : Bool}

def Kind.lazyAux : Kind → Option FileInfo
  | .uninit _ _ aux => aux
  | _ => none

/-- `page->uninit.aux` of an uninit page. -/
def uninitAux (s : State) (q : Nat) : Option FileInfo := (s.pages q).bind (·.kind.lazyAux)

/-- Neither the tables nor the untouched pages have changed. -/
structure Calm (s s' : State) : Prop extends SameSpts s s' where
  aux : ∀ q, uninitAux s' q = uninitAux s q

/-- The tables have not changed, and the page `q` has been touched. -/
structure Touched (s : State) (q : Nat) (s' : State) : Prop extends SameSpts s s' where
  aux : ∀ q', uninitAux s' q' = if q' = q then none else uninitAux s q'

theorem Calm.refl (s : State) : Calm s s := ⟨.refl s, fun _ => rfl⟩

theorem Calm.trans (h : Calm s s₁) (h' : Calm s₁ s') : Calm s s' :=
  ⟨h.toSameSpts.trans h'.toSameSpts, fun q => (h'.aux q).trans (h.aux q)⟩

theorem Calm.touched (h : Calm s s₁) (h' : Touched s₁ q s') : Touched s q s' :=
  ⟨h.toSameSpts.trans h'.toSameSpts, fun q' => by rw [h'.aux, h.aux]⟩

/-- Whatever leaves the pages and the tables alone is calm. -/
theorem Calm.of_pages (hspt : ∀ p, s'.spt p = s.spt p) (hpages : s'.pages = s.pages) (hpid : s'.nextPid = s.nextPid)
    (hnext : s'.nextPage = s.nextPage) : Calm s s' :=
  ⟨⟨hpid, hnext, hspt, fun q => by rw [vaOf, hpages, vaOf]⟩, fun q => by rw [uninitAux, hpages, uninitAux]⟩

theorem uninitAux_update (h : s.pages q = some page) (hs : s'.pages = Function.update s.pages q (some page'))
    (hk : page'.kind.lazyAux = page.kind.lazyAux) (q' : Nat) : uninitAux s' q' = uninitAux s q' := by
  by_cases he : q' = q
  · subst he
    simp [uninitAux, hs, h, hk]
  · simp [uninitAux, hs, Function.update_of_ne he]

/-- One page was written, its address and its `aux` kept. -/
theorem Calm.of_update (hpage : s.pages q = some page) (hs : s'.pages = Function.update s.pages q (some page'))
    (hva : page'.va = page.va) (hk : page'.kind.lazyAux = page.kind.lazyAux) (hspt : ∀ p, s'.spt p = s.spt p)
    (hpid : s'.nextPid = s.nextPid) (hnext : s'.nextPage = s.nextPage) : Calm s s' :=
  ⟨⟨hpid, hnext, hspt, vaOf_update hpage hs hva⟩, uninitAux_update hpage hs hk⟩

theorem Touched.of_pages (hpage : s.pages q = some page) (hs : s'.pages = Function.update s.pages q (some page'))
    (hva : page'.va = page.va) (hk : page'.kind.lazyAux = none) (hspt : ∀ p, s'.spt p = s.spt p)
    (hpid : s'.nextPid = s.nextPid) (hnext : s'.nextPage = s.nextPage) : Touched s q s' := by
  refine ⟨⟨hpid, hnext, hspt, vaOf_update hpage hs hva⟩, fun q' => ?_⟩
  by_cases he : q' = q
  · subst he
    simp [uninitAux, hs, hk]
  · simp [uninitAux, hs, he]

/-- An anonymous page has no `aux` to be read, in memory or on swap. -/
theorem Page.Stays.lazyAux (h : page.Stays page') : page'.kind.lazyAux = page.kind.lazyAux := by
  have hanon : ∀ k : Kind, k.isAnon = true → k.lazyAux = none := by
    intro k hk
    cases k with
    | anon => rfl
    | uninit | file => cases hk
  rcases h.kind with e | ⟨ha, ha'⟩
  · rw [e]
  · rw [hanon _ ha, hanon _ ha']

theorem Calm.of_steady (h : Steady s s') : Calm s s' := by
  refine ⟨h.toSameSpts, fun q => ?_⟩
  simp only [uninitAux]
  cases hpage : s.pages q with
  | none => rw [h.freed hpage]
  | some page =>
    obtain ⟨page', hpage', hs⟩ := h.later hpage
    rw [hpage']
    exact hs.lazyAux

/-! ## Claims -/

theorem lazyAux_resident (k : Kind) : k.resident.lazyAux = none := by
  cases k with
  | uninit type init aux => cases type <;> rfl
  | anon | file => rfl

theorem Touched.claim (h : vmDoClaimPage s p q = some (b, s')) : Touched s q s' := by
  obtain ⟨f, s₁, kva, page, hst, hpage, hpid, hnext, hspt, hpages, -⟩ := vmDoClaimPage_brings h
  exact (Calm.of_steady hst).touched (.of_pages hpage hpages rfl (lazyAux_resident page.kind) hspt hpid hnext)

theorem Calm.wp (h : vmHandleWp s p q = some (b, s')) : Calm s s' := by
  obtain ⟨f, s₁, kva, page, hst, hpage, hpid, hnext, hspt, hpages, -⟩ := vmHandleWp_brings h
  exact (Calm.of_steady hst).trans (.of_update hpage hpages rfl rfl hspt hpid hnext)

/-! ## Pages that come and go -/

theorem uninitAux_inserted (page : Page) (q : Nat) :
    uninitAux (inserted s p page) q = if q = s.nextPage then page.kind.lazyAux else uninitAux s q := by
  by_cases he : q = s.nextPage
  · simp [he, uninitAux, inserted, State.setSpt, State.setPage]
  · simp [he, uninitAux, inserted, State.setSpt, State.setPage]

/-- A page joins the table of `p`, with `aux` still to be read. -/
structure Joined (s : State) (p : Nat) (aux : Option FileInfo) (s' : State) : Prop where
  spts : Spts s'
  next : s'.nextPage = s.nextPage + 1
  spt : ∀ p', s'.spt p' = if p' = p then s.nextPage :: s.spt p else s.spt p'
  aux : ∀ q, uninitAux s' q = if q = s.nextPage then aux else uninitAux s q

theorem Joined.inserted (page : Page) (h : Spts s) (hp : p < s.nextPid) (h0 : page.va ≠ 0)
    (hnone : hashFind s p page.va = none) : Joined s p page.kind.lazyAux (inserted s p page) :=
  ⟨h.inserted hp h0 hnone, rfl, spt_inserted page, uninitAux_inserted page⟩

/-- A page is put in a table and claimed at once. -/
theorem Joined.claimNew (hc : vmDoClaimPage (Vm.inserted s p page) p s.nextPage = some (b, s')) (h : Spts s)
    (hp : p < s.nextPid) (h0 : page.va ≠ 0) (hnone : hashFind s p page.va = none) : Joined s p none s' := by
  have hins := Joined.inserted page h hp h0 hnone
  have hclaim := Touched.claim hc
  refine ⟨hins.spts.same hclaim.toSameSpts, hclaim.page.trans hins.next,
    fun p' => (hclaim.spt p').trans (hins.spt p'), fun q => ?_⟩
  rw [hclaim.aux, hins.aux]
  split <;> rfl

theorem Joined.shared {src : Page} {frame : Frame} (h : Spts s) (hp : c < s.nextPid) (h0 : src.va ≠ 0)
    (hnone : hashFind s c src.va = none) : Joined s c none (shared s c src f frame) := by
  have hins : Spts (Vm.inserted s c ⟨src.va, none, src.writable, .anon none none⟩) := h.inserted hp h0 hnone
  refine ⟨hins.same .shared, rfl, spt_shared, fun q => ?_⟩
  by_cases he : q = s.nextPage
  · simp [he, uninitAux, Vm.shared, Kind.lazyAux]
  · simp [he, uninitAux, Vm.shared]

/-- The page `q` leaves the table of `p`. -/
structure Left (s : State) (p q : Nat) (s' : State) : Prop where
  spts : Spts s'
  next : s'.nextPage = s.nextPage
  spt : ∀ p', s'.spt p' = if p' = p then (s.spt p).erase q else s.spt p'
  aux : ∀ q', q' ≠ q → uninitAux s' q' = uninitAux s q'

theorem Left.erase (h : Spts s) : Left s p q (s.setSpt p ((s.spt p).erase q)) := by
  refine ⟨h.erase, rfl, fun p' => ?_, fun _ _ => rfl⟩
  split
  next he => rw [he, State.spt_setSpt_self]
  next he => rw [State.spt_setSpt_ne _ _ he]

theorem Left.calm (h : Left s p q s₁) (h' : Calm s₁ s') : Left s p q s' :=
  ⟨h.spts.same h'.toSameSpts, h'.page.trans h.next, fun p' => (h'.spt p').trans (h.spt p'),
    fun q' hne => (h'.aux q').trans (h.aux q' hne)⟩

theorem Left.munmap (h : Spts s) (hm : doMunmap s p va = some s') :
    ∃ q, sptFindPage s p (va * pgsize) = some q ∧ Left s p q s' := by
  simp only [doMunmap, Option.bind_eq_bind, Option.bind_eq_some_iff, Option.some.injEq] at hm
  obtain ⟨q, hfind, page, hpage, s₂, hw, rfl⟩ := hm
  exact ⟨q, hfind, (Left.erase h).calm (.of_steady ((Steady.writeBack hw).trans (.clear ..)))⟩

theorem Left.destroy (h : Spts s) (hq : q ∈ s.spt p)
    (hd : vmDeallocPage (s.setSpt p ((s.spt p).erase q)) p q = some s') : Left s p q s' ∧ uninitAux s' q = none := by
  simp only [vmDeallocPage, Option.bind_eq_bind, Option.bind_eq_some_iff, Option.some.injEq] at hd
  obtain ⟨page, hpage, s₂, hd, rfl⟩ := hd
  have hsteady := (Steady.destroy hpage hd).1
  have hleft := (Left.erase (p := p) (q := q) h).calm (.of_steady hsteady)
  have hgone : ∀ p', q ∉ s₂.spt p' := by
    intro p'
    rw [hsteady.spt]
    exact h.notMem_erased hq p'
  refine ⟨⟨hleft.spts.freePage hgone, hleft.next, hleft.spt, fun q' hne => ?_⟩, by simp [uninitAux, State.freePage]⟩
  rw [← hleft.aux q' hne]
  simp [uninitAux, State.freePage, Function.update_of_ne hne]

theorem Calm.reap (hnil : s.spt p = []) (h : pml4Destroy s p = some s') : Calm s s' := by
  simp only [pml4Destroy, Option.bind_eq_bind, Option.bind_eq_some_iff, Option.some.injEq] at h
  obtain ⟨s₁, hloop, rfl⟩ := h
  have hs₁ := pml4DestroyLoop_spec p hloop
  have hcalm : Calm s s₁ := by
    rw [hs₁]
    exact .of_pages (fun _ => rfl) rfl rfl rfl
  exact hcalm.trans ⟨.emptied ((hcalm.spt p).trans hnil), fun _ => rfl⟩

end PintosKaist.Vm
