/-
Processes that neither fork nor map files. Each frame then belongs to one
anonymous page, and an entry has the permission of its page, so the only thing
that can go wrong is an eviction from another process: `vm_evict_frame` clears
the entry at the victim's address in the page table of the process that
faults, and the owner of the page keeps a mapping of a frame that is no longer
its own.
-/
import PintosKaist.Vm.Wf

namespace PintosKaist.Vm

variable {s s' s₁ : State} {p q f kva va : Nat} {page : Page} {b : Bool}

/-- An anonymous page, or one not yet claimed that will be. -/
def AnonPage (page : Page) : Prop :=
  page.kind.isAnon = true ∨ page.frame = none ∧ ∃ init aux, page.kind = .uninit .anon init aux

structure Private (s : State) : Prop where
  wf : Wf s
  kinds : ∀ p, ∀ q ∈ s.spt p, ∀ page, s.pages q = some page → AnonPage page
  sole : ∀ f ∈ s.frameList, ∀ frame, s.frames f = some frame →
    ∃ q, frame.page = some q ∧ frameOf s q = some f ∧ frame.rCnt = 1
  perm : ∀ p, ∀ q ∈ s.spt p, ∀ page, s.pages q = some page → (s.pte p page.va).present = true →
    (s.pte p page.va).writable = page.writable

theorem Private.evictOk (h : Private s) : EvictOk s := by
  intro _ v hv victim hvictim q hq
  obtain ⟨q', hq', hf, h1⟩ := h.sole v (List.mem_of_mem_head? hv) victim hvictim
  obtain rfl := Option.some.inj (hq'.symm.trans hq)
  exact ⟨hf, h1⟩

/-- A frame is that of one page. -/
theorem Private.unique (h : Private s) {p' q' : Nat} (hq : q ∈ s.spt p) (hq' : q' ∈ s.spt p') (hf : frameOf s q = some f)
    (hf' : frameOf s q' = some f) : q' = q := by
  obtain ⟨hm, frame, hframe⟩ := h.wf.links.resident hq hf
  obtain ⟨_, -, -, h1⟩ := h.sole f hm frame hframe
  exact h.wf.links.sole (h.wf.links.spts.mem_sptPages hq) hf hframe h1 (h.wf.links.spts.mem_sptPages hq') hf'

theorem Private.claimOk (h : Private s) (hq : q ∈ s.spt p) (hva : vaOf s q = some va)
    (hp : (s.pte p va).present = false) : ClaimOk s q :=
  ⟨h.evictOk, .inl (h.wf.not_resident hq hva hp)⟩

theorem Private.destroyOk (h : Private s) (hq : q ∈ s.spt p) : DestroyOk s q := by
  refine ⟨fun page hpage => ?_, fun f hf frame hframe e => ?_⟩
  · exact (h.kinds p q hq page hpage).elim .inr fun h => .inl h.1
  · obtain ⟨q', hq', hqf, h1⟩ := h.sole f hf frame hframe
    obtain rfl := Option.some.inj (hq'.symm.trans e)
    exact ⟨hqf, h1⟩

/-! ## Room and claims -/

theorem Private.room (h : Private s) (hown : EvictOwn s p) (hr : Room s p s₁ kva) :
    (∀ p', ∀ q ∈ s₁.spt p', ∀ page, s₁.pages q = some page → AnonPage page) ∧
    (∀ f ∈ s₁.frameList, ∀ frame, s₁.frames f = some frame →
      ∃ q, frame.page = some q ∧ frameOf s₁ q = some f ∧ frame.rCnt = 1) ∧
    ∀ p', ∀ q ∈ s₁.spt p', ∀ page, s₁.pages q = some page → (s₁.pte p' page.va).present = true →
      (s₁.pte p' page.va).writable = page.writable := by
  have hsame := SameSpts.room hr
  have hspts := h.wf.links.spts
  cases hr with
  | free hscan => exact ⟨h.kinds, h.sole, h.perm⟩
  | file hfull hlist hvictim hback hpage hframe hkind hwrite =>
    -- no page is file-backed
    have hmem := h.wf.links.back_mem (by rw [hlist]; exact List.mem_cons_self) hvictim hback
    obtain ⟨p', -, hmem⟩ := mem_sptPages.mp hmem
    rcases h.kinds p' _ hmem _ hpage with hk | ⟨hnone, -⟩
    · simp [hkind, Kind.isAnon] at hk
    · exact absurd (hframe.symm.trans hnone) (by simp)
  | anon hfull hlist hvictim hback hpage hframe hkind hslot =>
    rename_i v q' idx rest victim page' i aux slots
    have h0 := Bitmap.free_eq_zero hfull
    have hq'p : q' ∈ s.spt p := hown h0 v (by rw [hlist]; rfl) victim hvictim q' hback
    have hnodup := h.wf.links.table.nodup
    change s.frameList.Nodup at hnodup
    rw [hlist, List.nodup_cons] at hnodup
    refine ⟨?_, ?_, ?_⟩
    · intro p' q hq page hp
      rw [hsame.spt] at hq
      by_cases he : q = q'
      · subst he
        simp only [Function.update_self, Option.some.injEq] at hp
        subst hp
        exact .inl rfl
      · simp only [Function.update_of_ne he] at hp
        exact h.kinds p' q hq page hp
    · intro f hf frame hfr
      have hfv : f ≠ v := fun e => hnodup.1 (e ▸ hf)
      simp only [Function.update_of_ne hfv] at hfr
      obtain ⟨q, hq, hqf, h1⟩ := h.sole f (by rw [hlist]; exact List.mem_cons_of_mem _ hf) frame hfr
      refine ⟨q, hq, ?_, h1⟩
      have hne : q ≠ q' := by
        rintro rfl
        have hqv : frameOf s q = some v := by simp [frameOf, hpage, hframe]
        exact hfv (Option.some.inj (hqf.symm.trans hqv))
      simpa [frameOf, Function.update_of_ne hne] using hqf
    · intro p' q hq page hp hpres
      rw [hsame.spt] at hq
      change ((pml4ClearPage s p page'.va).pte p' page.va).present = true at hpres
      show ((pml4ClearPage s p page'.va).pte p' page.va).writable = page.writable
      rw [pte_pml4ClearPage] at hpres ⊢
      split at hpres
      · exact absurd hpres (by simp)
      · rename_i hpv
        rw [if_neg hpv]
        have hne : q ≠ q' := by
          rintro rfl
          simp only [Function.update_self, Option.some.injEq] at hp
          subst hp
          exact hpv ⟨hspts.apart p' p q hq hq'p, rfl⟩
        simp only [Function.update_of_ne hne] at hp
        exact h.perm p' q hq page hp hpres

/-- Filling an anonymous page makes it one. -/
theorem Filled.anon {s : State} (hf : Filled s q kva page b s') (hp : page.kind.isAnon = true ∨
    ∃ init aux, page.kind = .uninit .anon init aux) (hpage : s.pages q = some page) :
    ∃ k, k.isAnon = true ∧ s'.pages = Function.update s.pages q (some { page with kind := k }) := by
  cases hf with
  | bare hk =>
    rcases hp with hp | ⟨init, aux, hp⟩
    · simp [hk, Kind.isAnon] at hp
    · rw [hk] at hp
      cases hp
      exact ⟨_, rfl, rfl⟩
  | load hk =>
    rcases hp with hp | ⟨init, aux, hp⟩
    · simp [hk, Kind.isAnon] at hp
    · rw [hk] at hp
      cases hp
      exact ⟨_, rfl, rfl⟩
  | swap hk => exact ⟨_, rfl, rfl⟩
  | resident hk => exact ⟨page.kind, by simp [hk, Kind.isAnon], (Function.update_eq_self_iff.mpr hpage.symm).symm⟩
  | short hk | reload hk =>
    rcases hp with hp | ⟨init, aux, hp⟩
    · simp [hk, Kind.isAnon] at hp
    · simp [hk] at hp

theorem Private.claim (h : Private s) (hq : q ∈ s.spt p) (hok : ClaimOk s q) (hown : EvictOwn s p)
    (hnone : frameOf s q = none) (hc : vmDoClaimPage s p q = some (b, s')) : Private s' := by
  have hwf := h.wf.claim hq hok hown hc
  obtain ⟨s₁, kva, page, hroom, hpage, hfill⟩ := vmDoClaimPage_cases hok.1.linked hc
  obtain ⟨hkinds, hsole, hperm⟩ := h.room hown hroom
  have hspts := h.wf.links.spts.same (.room hroom)
  have hlinks := h.wf.links.room hok.1 hroom
  have hq₁ : q ∈ s₁.spt p := by rwa [(SameSpts.room hroom).spt]
  have hfr : page.frame = none := by
    cases hf : page.frame with
    | none => rfl
    | some f =>
      have := hroom.frameOf (q := q) (f := f) (by simp [frameOf, hpage, hf])
      exact absurd (hnone.symm.trans this) (by simp)
  have hkind : page.kind.isAnon = true ∨ ∃ init aux, page.kind = .uninit .anon init aux :=
    (hkinds p q hq₁ page hpage).imp id fun h => h.2
  obtain ⟨k, hk, hpages⟩ := hfill.anon hkind (by simp [mapFrame])
  simp only [mapFrame, Function.update_idem] at hpages
  have hrest := hfill.rest
  have hspt : ∀ p', s'.spt p' = s₁.spt p' := fun p' =>
    ((SameSpts.filled hfill (by simp [mapFrame])).trans ⟨rfl, rfl, fun _ => rfl, fun _ => rfl⟩).spt p' |>.trans
      ((SameSpts.mapFrame hpage).spt p')
  have hframes : s'.frames = Function.update s₁.frames s₁.nextFrame (some ⟨kva, some q, 1⟩) := by rw [hrest]; rfl
  have hlist : s'.frameList = s₁.frameList ++ [s₁.nextFrame] := by rw [hrest]; rfl
  refine ⟨hwf, ?_, ?_, ?_⟩
  · intro p' q' hq' page' hp
    rw [hspt] at hq'
    rw [hpages] at hp
    by_cases he : q' = q
    · subst he
      simp only [Function.update_self, Option.some.injEq] at hp
      subst hp
      exact .inl hk
    · rw [Function.update_of_ne he] at hp
      exact hkinds p' q' hq' page' hp
  · intro f hf frame hframe
    rw [hlist] at hf
    rw [hframes] at hframe
    rcases List.mem_append.mp hf with hf | hf
    · have hne : f ≠ s₁.nextFrame := Nat.ne_of_lt (hlinks.frame_lt f hf)
      rw [Function.update_of_ne hne] at hframe
      obtain ⟨q', hq', hqf, h1⟩ := hsole f hf frame hframe
      refine ⟨q', hq', ?_, h1⟩
      have hqq : q' ≠ q := by
        rintro rfl
        simp [frameOf, hpage, hfr] at hqf
      simpa [frameOf, hpages, Function.update_of_ne hqq] using hqf
    · obtain rfl := List.mem_singleton.mp hf
      rw [Function.update_self, Option.some.injEq] at hframe
      subst hframe
      exact ⟨q, rfl, by simp [frameOf, hpages], rfl⟩
  · intro p' q' hq' page' hp hpres
    rw [hspt] at hq'
    rw [hpages] at hp
    rw [hfill.pte] at hpres ⊢
    by_cases hpv : p' = p ∧ page'.va = page.va
    · rw [if_pos hpv]
      have he : q' = q := by
        have hva' : vaOf s₁ q' = some page'.va := by
          by_cases he : q' = q
          · subst he
            rw [vaOf_eq hpage, hpv.2]
          · rw [Function.update_of_ne he] at hp
            exact vaOf_eq hp
        exact hspts.keyed p q' (hpv.1 ▸ hq') q hq₁ (by rw [hva', hpv.2, vaOf_eq hpage])
      subst he
      rw [Function.update_self, Option.some.injEq] at hp
      subst hp
      rfl
    · rw [if_neg hpv] at hpres ⊢
      have he : q' ≠ q := by
        rintro rfl
        rw [Function.update_self, Option.some.injEq] at hp
        subst hp
        exact hpv ⟨hspts.apart p' p q' hq' hq₁, rfl⟩
      rw [Function.update_of_ne he] at hp
      exact hperm p' q' hq' page' hp hpres

/-! ## The other events -/

theorem Private.inserted {writable init : Bool} {aux : Option FileInfo} (h : Private s) (hp : p < s.nextPid)
    (h0 : va ≠ 0) (hnone : hashFind s p va = none) :
    Private (inserted s p ⟨va, none, writable, .uninit .anon init aux⟩) := by
  have hwf : Wf (Vm.inserted s p ⟨va, none, writable, .uninit .anon init aux⟩) := h.wf.inserted hp h0 hnone rfl
  have hspts := h.wf.links.spts
  have hold : ∀ {q'}, q' ≠ s.nextPage →
      (Vm.inserted s p ⟨va, none, writable, .uninit .anon init aux⟩).pages q' = s.pages q' := fun hne => by
    simp [Vm.inserted, State.setSpt, State.setPage, Function.update_of_ne hne]
  have hnew : (Vm.inserted s p ⟨va, none, writable, .uninit .anon init aux⟩).pages s.nextPage =
      some ⟨va, none, writable, .uninit .anon init aux⟩ := by simp [Vm.inserted, State.setSpt, State.setPage]
  have hspt : ∀ {p' q'}, q' ∈ (Vm.inserted s p ⟨va, none, writable, .uninit .anon init aux⟩).spt p' →
      q' ≠ s.nextPage → q' ∈ s.spt p' := by
    intro p' q' hq' hne
    rw [spt_inserted] at hq'
    split at hq'
    · rename_i e
      rw [e]
      exact (List.mem_cons.mp hq').resolve_left hne
    · exact hq'
  refine ⟨hwf, ?_, ?_, ?_⟩
  · intro p' q' hq' page' hp'
    by_cases he : q' = s.nextPage
    · subst he
      obtain rfl := Option.some.inj (hnew.symm.trans hp')
      exact .inr ⟨rfl, init, aux, rfl⟩
    · exact h.kinds p' q' (hspt hq' he) page' (by rwa [hold he] at hp')
  · intro f hf frame hframe
    obtain ⟨q', hq', hqf, h1⟩ := h.sole f hf frame hframe
    refine ⟨q', hq', ?_, h1⟩
    obtain ⟨p', -, hmem⟩ := mem_sptPages.mp (h.wf.links.back_mem hf hframe hq')
    rw [frameOf, hold (Nat.ne_of_lt (hspts.lt p' q' hmem))]
    exact hqf
  · intro p' q' hq' page' hp' hpres
    have hpte : ∀ va', (Vm.inserted s p ⟨va, none, writable, .uninit .anon init aux⟩).pte p' va' = s.pte p' va' :=
      State.pte_setSpt _ p _ p'
    rw [hpte] at hpres ⊢
    by_cases he : q' = s.nextPage
    · -- nothing was mapped where there was no page
      subst he
      obtain rfl := Option.some.inj (hnew.symm.trans hp')
      have hpp : p' = p := by
        by_contra hne
        rw [spt_inserted, if_neg hne] at hq'
        exact absurd (hspts.lt p' _ hq') (by omega)
      subst hpp
      have := h.wf.ptes p' va (by simp)
      rw [hnone, mapsTo, if_pos hpres] at this
      exact absurd this (by simp)
    · exact h.perm p' q' (hspt hq' he) page' (by rwa [hold he] at hp') hpres

theorem Private.alloc {writable init : Bool} {aux : Option FileInfo} (h : Private s) (hp : p < s.nextPid)
    (h0 : va ≠ 0) : Private (vmAllocPageWithInitializer s p .anon va writable init aux).2 := by
  rcases vmAlloc_cases s p .anon va writable init aux with hs | ⟨hnone, -, hs⟩
  · rw [hs]
    exact h
  · rw [hs]
    exact h.inserted hp h0 hnone

theorem Private.destroy (h : Private s) (hq : q ∈ s.spt p)
    (hd : vmDeallocPage (s.setSpt p ((s.spt p).erase q)) p q = some s') : Private s' := by
  have hok := h.destroyOk hq
  have hwf := h.wf.destroy hq hok hd
  have hspts := h.wf.links.spts
  simp only [vmDeallocPage, Option.bind_eq_bind, Option.bind_eq_some_iff, Option.some.injEq] at hd
  obtain ⟨page, hpage, s₂, hd, rfl⟩ := hd
  change s.pages q = some page at hpage
  -- what is left of the other pages, frames and entries
  obtain ⟨hspt, hpages, hframes, hpte⟩ : (∀ p', s₂.spt p' = (s.setSpt p ((s.spt p).erase q)).spt p') ∧
      (∀ q', s₂.pages q' = s.pages q') ∧
      (∀ f ∈ s₂.frameList, f ∈ s.frameList ∧ s₂.frames f = s.frames f ∧ page.frame ≠ some f) ∧
      ∀ p' va', (s₂.pte p' va').present = true → s₂.pte p' va' = s.pte p' va' := by
    have hcl : ∀ i, ∀ p' va', ((cleared (s.setSpt p ((s.spt p).erase q)) p page i).pte p' va').present = true →
        (cleared (s.setSpt p ((s.spt p).erase q)) p page i).pte p' va' = s.pte p' va' := by
      intro i p' va' hpres
      change ((pml4ClearPage (s.setSpt p ((s.spt p).erase q)) p page.va).pte p' va').present = true at hpres
      show (pml4ClearPage (s.setSpt p ((s.spt p).erase q)) p page.va).pte p' va' = _
      rw [pte_pml4ClearPage] at hpres ⊢
      split at hpres
      · exact absurd hpres (by simp)
      · rename_i hpv
        rw [if_neg hpv, State.pte_setSpt]
    rcases h.kinds p q hq page hpage with hk | ⟨hfr, init, aux, hk⟩
    · cases hk' : page.kind with
      | uninit | file => simp [hk', Kind.isAnon] at hk
      | anon i aux =>
      simp only [Vm.destroy, hk'] at hd
      rcases anonDestroy_cases hd with ⟨hnone, rfl⟩ | ⟨f, frame, hf, hframe, ⟨-, -, rfl⟩ | ⟨h1, -⟩⟩
      · exact ⟨(SameSpts.cleared _ p page i).spt, fun _ => rfl, fun f hf => ⟨hf, rfl, by simp [hnone]⟩, hcl i⟩
      · refine ⟨(SameSpts.cleared _ p page i).spt, fun _ => rfl, fun g hg => ?_, hcl i⟩
        obtain ⟨hne, hg⟩ := h.wf.links.table.nodup.mem_erase_iff.mp hg
        exact ⟨hg, by simp [Function.update_of_ne hne, State.setSpt], by simpa [hf] using Ne.symm hne⟩
      · have hqf : frameOf s q = some f := by simp [frameOf, hpage, hf]
        obtain ⟨_, -, -, h1'⟩ := h.sole f (h.wf.links.resident hq hqf).1 frame hframe
        exact absurd h1' h1
    · simp only [Vm.destroy, hk, Option.some.injEq] at hd
      subst hd
      exact ⟨fun _ => rfl, fun _ => rfl, fun f hf => ⟨hf, rfl, by simp [hfr]⟩,
        fun p' va' _ => State.pte_setSpt s p _ p' va'⟩
  have hsub : ∀ {p' q'}, q' ∈ (s₂.freePage q).spt p' → q' ≠ q ∧ q' ∈ s.spt p' := by
    intro p' q' hq'
    change q' ∈ s₂.spt p' at hq'
    rw [hspt] at hq'
    have hne : q' ≠ q := fun e => hspts.notMem_erased hq p' (e ▸ hq')
    refine ⟨hne, ?_⟩
    by_cases he : p' = p
    · subst he
      rw [State.spt_setSpt_self] at hq'
      exact List.mem_of_mem_erase hq'
    · rwa [State.spt_setSpt_ne _ _ he] at hq'
  have hold : ∀ {q'}, q' ≠ q → (s₂.freePage q).pages q' = s.pages q' := fun hne =>
    (Function.update_of_ne hne ..).trans (hpages _)
  refine ⟨hwf, ?_, ?_, ?_⟩
  · intro p' q' hq' page' hp'
    rw [hold (hsub hq').1] at hp'
    exact h.kinds p' q' (hsub hq').2 page' hp'
  · intro f hf frame hframe
    obtain ⟨hf, hfr, hne⟩ := hframes f hf
    change s₂.frames f = some frame at hframe
    rw [hfr] at hframe
    obtain ⟨q', hq', hqf, h1⟩ := h.sole f hf frame hframe
    refine ⟨q', hq', ?_, h1⟩
    have hqq : q' ≠ q := by
      rintro rfl
      exact hne (by simpa [frameOf, hpage] using hqf)
    rw [frameOf, hold hqq]
    exact hqf
  · intro p' q' hq' page' hp' hpres
    rw [hold (hsub hq').1] at hp'
    change (s₂.pte p' page'.va).present = true at hpres
    show (s₂.pte p' page'.va).writable = page'.writable
    have e := hpte p' page'.va hpres
    rw [e] at hpres ⊢
    exact h.perm p' q' (hsub hq').2 page' hp' hpres

/-- Processes that do not fork and do not map files. -/
def NoShare : Ev → Prop
  | .alloc _ type .. => type = .anon
  | .copyPage .. | .munmap .. => False
  | _ => True

instance : DecidablePred NoShare
  | .alloc _ type .. => inferInstanceAs (Decidable (type = .anon))
  | .copyPage .. | .munmap .. => inferInstanceAs (Decidable False)
  | .spawn | .setupStack _ | .load .. | .store .. | .fault .. | .destroy .. | .reap _ => inferInstanceAs (Decidable True)

theorem Private.fault {addr rsp : Nat} {write : Bool} (h : Private s) (hp : p < s.nextPid)
    (hown : OwnOk s (.fault p addr rsp write)) (hperm : permits (s.pte p (addr / pgsize)) write = false)
    (hf : vmTryHandleFault s p addr rsp write (!(s.pte p (addr / pgsize)).present) = some (b, s')) : Private s' := by
  rcases vmTryHandleFault_cases hf with ⟨-, rfl⟩ | ⟨q, page, hq, hpage, hw, hpres, hwr, hwp⟩ | ⟨q, hq, hpres, hc⟩ |
    ⟨-, hnone, hwin, rfl⟩
  · exact h
  · -- an entry has the permission of its page, so there is no write fault on a writable page
    obtain ⟨hqm, page', hpage', hva⟩ := sptFindPage_some hq
    obtain rfl := Option.some.inj (hpage.symm.trans hpage')
    simp only [Bool.not_eq_false'] at hpres
    have := h.perm p q hqm page hpage (by rw [hva]; exact hpres)
    rw [hva, hwr] at this
    simp [permits, hpres, this] at hperm
  · obtain ⟨hqm, page', hpage', hva⟩ := sptFindPage_some hq
    simp only [Bool.not_eq_true'] at hpres
    have hva' : vaOf s q = some (addr / pgsize) := by rw [vaOf_eq hpage', hva]
    exact h.claim hqm (h.claimOk hqm hva' hpres) (hown (by simp [hq])) (h.wf.not_resident hqm hva' hpres) hc
  · exact h.alloc hp (inStackWindow_ne_zero hwin)

theorem Private.step {e : Ev} (h : Private s) (hns : NoShare e) (hown : OwnOk s e) (hs : step s e = some s') :
    Private s' := by
  cases step_took hs with
  | spawn => exact ⟨h.wf.step (e := .spawn) trivial trivial hs, h.kinds, h.sole, h.perm⟩
  | @alloc p va type writable init aux hp h0 =>
    obtain rfl : type = .anon := hns
    exact h.alloc hp h0
  | @setupStack p b _ hp hst =>
    rcases setupStack_cases hst with ⟨-, rfl⟩ | ⟨hnone, hc⟩
    · exact h
    · have hins : Private (Vm.inserted s p ⟨userStack / pgsize - 1, none, true, .uninit .anon false none⟩) :=
        h.inserted hp (by decide) hnone
      refine hins.claim (by simp [spt_inserted]) ⟨hins.evictOk, .inl ?_⟩ ?_ ?_ hc
      · simp [frameOf, Vm.inserted, State.setSpt, State.setPage]
      · intro h0 v hv victim hvictim q hq
        rw [spt_inserted, if_pos rfl]
        exact List.mem_cons_of_mem _ (hown h0 v hv victim hvictim q hq)
      · simp [frameOf, Vm.inserted, State.setSpt, State.setPage]
  | load => exact h
  | @store p addr b _ hp hst =>
    have hwf := h.wf.store hst
    obtain ⟨-, rfl⟩ := storeByte_eq hst
    have hspt : ∀ m e p', ((s.setMem (s.pte p (addr / pgsize)).kva m).setPte p (addr / pgsize) e).spt p' = s.spt p' :=
      fun m e p' => State.spt_setPte _ p _ _ p'
    refine ⟨hwf, fun p' q hq => h.kinds p' q (by rwa [hspt] at hq), h.sole, fun p' q hq page hpage hpres => ?_⟩
    rw [hspt] at hq
    rw [State.pte_setPte] at hpres ⊢
    split at hpres
    · rename_i e
      rw [if_pos e]
      have := h.perm p' q hq page hpage
      rw [e.1, e.2] at this
      exact this hpres
    · rename_i e
      rw [if_neg e]
      exact h.perm p' q hq page hpage hpres
  | fault hp hno hf => exact h.fault hp hown hno hf
  | copyPage | munmap => exact hns.elim
  | destroy hp hq hd => exact h.destroy hq hd
  | @reap p _ hp hnil hr =>
    have hwf := h.wf.step (e := .reap p) trivial trivial hs
    obtain rfl := Option.some.inj ((pml4Destroy_absent (h.wf.absent hnil)).symm.trans hr)
    have hspt := (SameSpts.emptied hnil).spt
    refine ⟨hwf, fun p' q hq => h.kinds p' q (by rwa [hspt] at hq), h.sole, fun p' q hq page hpage hpres => ?_⟩
    rw [hspt] at hq
    by_cases he : p' = p
    · subst he
      rw [hnil] at hq
      exact absurd hq (by simp)
    · have hpte : State.pte { s with procs := Function.update s.procs p Proc.empty } p' page.va = s.pte p' page.va := by
        simp [State.pte, Function.update_of_ne he]
      rw [hpte] at hpres ⊢
      exact h.perm p' q hq page hpage hpres

/-! ## Every run -/

/-- What a present entry says of its process: the table has a page there,
whose frame is the page mapped. -/
def MappedBySpt (s : State) : Prop :=
  ∀ p va, (s.pte p va).present = true → ∃ q page f frame, q ∈ s.spt p ∧ s.pages q = some page ∧ page.va = va ∧
    page.frame = some f ∧ s.frames f = some frame ∧ frame.kva = (s.pte p va).kva

theorem Wf.mappedBySpt (h : Wf s) : MappedBySpt s := by
  intro p va hp
  obtain ⟨q, page, f, frame, hq, hpage, hva, hf, -, hframe, hk⟩ := h.present hp
  exact ⟨q, page, f, frame, hq, hpage, hva, hf, hframe, hk⟩

/-- The frame `vm_get_frame` hands out is mapped nowhere. -/
theorem Private.getFrame_unmapped (h : Private s) (hown : EvictOwn s p) (hg : vmGetFrame s p = some (f, s')) :
    ∃ frame, s'.frames f = some frame ∧ ∀ p' va, (s'.pte p' va).present = true → (s'.pte p' va).kva ≠ frame.kva := by
  obtain ⟨s₁, kva, hroom, hpush⟩ := vmGetFrame_room h.evictOk.linked hg
  have hlinks := h.wf.links.room h.evictOk hroom
  have hptes := h.wf.ptes.room h.wf.links.spts hown (h.wf.links.evictAlone h.evictOk) hroom
  have hpool := h.wf.pool.room h.wf.links.table.nodup hroom
  simp only [pushFrame, Prod.mk.injEq] at hpush
  obtain ⟨rfl, rfl⟩ := hpush
  refine ⟨⟨kva, none, 0⟩, by simp [State.setFrame], fun p' va hp e => ?_⟩
  change (s₁.pte p' va).present = true at hp
  change (s₁.pte p' va).kva = kva at e
  have he := hptes p' va (by simp)
  rw [mapsTo, if_pos hp, eq_comm, Option.bind_eq_some_iff] at he
  obtain ⟨q, hfind, hk⟩ := he
  obtain ⟨g, hg, hk⟩ := Option.bind_eq_some_iff.mp hk
  obtain ⟨frame, hframe, hk⟩ := Option.map_eq_some_iff.mp hk
  have hm := (hlinks.resident (hashFind_some hfind).1 hg).1
  exact (hpool.used g hm frame hframe).2.2 (by rw [hk, e])

theorem private_boot {frames slots : Nat} {mem : Nat → Bytes} {disk : Nat → Sector} {inodes : Nat → Inode} :
    Private (boot frames slots mem disk inodes) :=
  ⟨wf_boot, fun _ _ h => absurd h (List.not_mem_nil), fun _ h => absurd h (List.not_mem_nil),
    fun _ _ h => absurd h (List.not_mem_nil)⟩

/-- **Mappings.** In every run of processes that neither fork nor map files,
and whose evictions take pages of the process that faults, a present entry
maps the frame of the page its table has there, and a frame that
`vm_get_frame` hands out is mapped nowhere. -/
theorem mappedBySpt_of_run {frames slots : Nat} {mem : Nat → Bytes} {disk : Nat → Sector} {inodes : Nat → Inode}
    {es : List Ev} (hrun : Run.run step (boot frames slots mem disk inodes) es = some s)
    (hns : ∀ e ∈ es, NoShare e) (hown : Run.Always step OwnOk (boot frames slots mem disk inodes) es) :
    MappedBySpt s ∧
    ∀ p f s', EvictOwn s p → vmGetFrame s p = some (f, s') → ∃ frame, s'.frames f = some frame ∧
      ∀ p' va, (s'.pte p' va).present = true → (s'.pte p' va).kva ≠ frame.kva := by
  have hns' : Run.Always step (fun _ e => NoShare e) (boot frames slots mem disk inodes) es :=
    Run.always_of_mem _ fun e he _ => hns e he
  have hall := Run.always_and hns' hown
  have h : Private s := Run.run_invariant (fun _ _ _ h hG hs => Private.step h hG.1 hG.2 hs) private_boot hrun hall
  exact ⟨h.wf.mappedBySpt, fun p f s' hown hg => h.getFrame_unmapped hown hg⟩

/-- Two processes on two frames; the first evicts its own stack, the second
exits. -/
def evictOwnExit : List Ev :=
  [.spawn, .spawn, .setupStack 0, .setupStack 1, .alloc 0 .anon 5 true false none, .fault 0 (5 * pgsize) 0 false,
    .destroy 1 1, .reap 1]

theorem mappedBySpt_evictOwnExit : ∃ s, Run.run step (small 2 1) evictOwnExit = some s ∧ MappedBySpt s := by
  obtain ⟨s, hs⟩ : ∃ s, Run.run step (small 2 1) evictOwnExit = some s :=
    Option.isSome_iff_exists.mp (by decide +kernel)
  exact ⟨s, hs, (mappedBySpt_of_run hs (by decide) (by decide +kernel)).1⟩

/-- With one frame, the second process takes the stack of the first, and the
first keeps its mapping. -/
theorem not_mappedBySpt_of_evict :
    ¬ ∀ es s, (∀ e ∈ es, NoShare e) → Run.run step (small 1 1) es = some s → MappedBySpt s := by
  intro h
  obtain ⟨s, hs, hc⟩ : ∃ s, Run.run step (small 1 1) [.spawn, .spawn, .setupStack 0, .setupStack 1] = some s ∧
      ((s.pte 0 (stackTop / pgsize)).present && (s.spt 0 == [0] && (frameOf s 0).isNone)) = true :=
    (Option.any_eq_true ..).mp (by decide +kernel)
  simp only [Bool.and_eq_true, beq_iff_eq, Option.isNone_iff_eq_none] at hc
  obtain ⟨q, page, f, frame, hq, hpage, -, hf, -⟩ := h _ s (by decide) hs 0 _ hc.1
  rw [hc.2.1, List.mem_singleton] at hq
  subst hq
  have := hc.2.2
  simp [frameOf, hpage, hf] at this

end PintosKaist.Vm
