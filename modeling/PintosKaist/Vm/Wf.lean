/-
Frames, page tables and the pool together: `Wf` is kept by every event that
meets `LinksOk` and whose eviction, if it makes one, takes a page of the
process that is running. `vm_evict_frame` clears the entry in the page table
of that process, whoever owns the page.
-/
import Mathlib.Data.List.Find
import PintosKaist.Vm.Maps

namespace PintosKaist.Vm

variable {s s' s₁ t : State} {p c q f kva va : Nat} {page : Page} {b rw : Bool}

structure Wf (s : State) : Prop where
  links : Links s
  ptes : Ptes s none
  pool : Pool s none

/-- A resident page of a table: its frame is on the list. -/
theorem Links.resident (h : Links s) (hq : q ∈ s.spt p) (hf : frameOf s q = some f) :
    f ∈ s.frameList ∧ ∃ frame, s.frames f = some frame := by
  have hm := h.table.ref_listed q (h.spts.mem_sptPages hq) f hf
  obtain ⟨o, ho⟩ := h.table.live f hm
  obtain ⟨frame, hframe, -⟩ := Option.map_eq_some_iff.mp ho
  exact ⟨hm, frame, hframe⟩

/-- A page whose entry is not present has no frame. -/
theorem Wf.not_resident (h : Wf s) (hq : q ∈ s.spt p) (hva : vaOf s q = some va)
    (hp : (s.pte p va).present = false) : frameOf s q = none := by
  have he := h.ptes p va (by simp)
  rw [h.links.spts.hashFind_iff.mpr ⟨hq, hva⟩] at he
  cases hf : frameOf s q with
  | none => rfl
  | some f =>
    obtain ⟨-, frame, hframe⟩ := h.links.resident hq hf
    simp [mapsTo, hp, kvaOf, hf, hframe] at he

/-- A present entry maps the frame of a page of the table. -/
theorem Wf.present (h : Wf s) (hp : (s.pte p va).present = true) :
    ∃ q page f frame, q ∈ s.spt p ∧ s.pages q = some page ∧ page.va = va ∧ page.frame = some f ∧
      f ∈ s.frameList ∧ s.frames f = some frame ∧ frame.kva = (s.pte p va).kva := by
  have he := h.ptes p va (by simp)
  rw [mapsTo, if_pos hp, eq_comm, Option.bind_eq_some_iff] at he
  obtain ⟨q, hfind, hk⟩ := he
  obtain ⟨hq, hva⟩ := h.links.spts.hashFind_iff.mp hfind
  obtain ⟨page, hpage, hva⟩ := vaOf_some hva
  obtain ⟨f, hf, hk⟩ := Option.bind_eq_some_iff.mp hk
  obtain ⟨frame, hframe, hk⟩ := Option.map_eq_some_iff.mp hk
  exact ⟨q, page, f, frame, hq, hpage, hva, by simpa [frameOf, hpage] using hf, (h.links.resident hq hf).1, hframe, hk⟩

/-! ## A page comes -/

theorem Spts.hashFind_inserted (page : Page) (h : Spts s) (hp : p < s.nextPid) (h0 : page.va ≠ 0)
    (hnone : hashFind s p page.va = none) (p' va' : Nat) :
    hashFind (Vm.inserted s p page) p' va' = if p' = p ∧ va' = page.va then some s.nextPage else hashFind s p' va' := by
  have hi := h.inserted hp h0 hnone
  have hva : ∀ {q}, q ≠ s.nextPage → vaOf (Vm.inserted s p page) q = vaOf s q := by
    intro q hq
    simp [vaOf, Vm.inserted, State.setSpt, State.setPage, Function.update_of_ne hq]
  have hnew : vaOf (Vm.inserted s p page) s.nextPage = some page.va := by
    simp [vaOf, Vm.inserted, State.setSpt, State.setPage]
  split
  · rename_i e
    rw [e.1, e.2]
    exact (hi.hashFind_iff (p := p)).mpr ⟨by simp [spt_inserted], hnew⟩
  · rename_i e
    refine Option.ext fun q => ?_
    rw [hi.hashFind_iff, h.hashFind_iff, spt_inserted]
    constructor
    · rintro ⟨hq, hqv⟩
      by_cases hn : q = s.nextPage
      · subst hn
        split at hq
        · rename_i e'
          exact absurd ⟨e', Option.some.inj (hqv.symm.trans hnew)⟩ e
        · exact absurd (h.lt p' _ hq) (by omega)
      · rw [hva hn] at hqv
        split at hq
        · rename_i e'
          exact ⟨e' ▸ (List.mem_cons.mp hq).resolve_left hn, hqv⟩
        · exact ⟨hq, hqv⟩
    · rintro ⟨hq, hqv⟩
      rw [hva (Nat.ne_of_lt (h.lt p' q hq))]
      refine ⟨?_, hqv⟩
      split
      · rename_i e'
        exact List.mem_cons_of_mem _ (e' ▸ hq)
      · exact hq

theorem Wf.inserted (h : Wf s) (hp : p < s.nextPid) (h0 : page.va ≠ 0) (hnone : hashFind s p page.va = none)
    (hfr : page.frame = none) : Wf (inserted s p page) := by
  refine ⟨h.links.inserted hp h0 hnone hfr, fun p' va' _ => ?_, h.pool.congr rfl (fun _ _ => rfl) rfl⟩
  rw [h.links.spts.hashFind_inserted page hp h0 hnone]
  have hpte : (Vm.inserted s p page).pte p' va' = s.pte p' va' := State.pte_setSpt ..
  rw [hpte, h.ptes p' va' (by simp)]
  split
  · rename_i e
    rw [e.1, e.2, hnone]
    simp [kvaOf, frameOf, Vm.inserted, State.setSpt, State.setPage, hfr]
  · cases hfind : hashFind s p' va' with
    | none => rfl
    | some q =>
      have hne : q ≠ s.nextPage := Nat.ne_of_lt (h.links.spts.lt p' q (hashFind_some hfind).1)
      have hsame : frameOf (Vm.inserted s p page) q = frameOf s q := by
        simp [frameOf, Vm.inserted, State.setSpt, State.setPage, Function.update_of_ne hne]
      exact (kvaOf_congr hsame fun _ _ => rfl).symm

theorem Wf.alloc {type : VmType} {writable init : Bool} {aux : Option FileInfo} (h : Wf s)
    (hp : p < s.nextPid) (h0 : va ≠ 0) : Wf (vmAllocPageWithInitializer s p type va writable init aux).2 := by
  rcases vmAlloc_cases s p type va writable init aux with hs | ⟨hnone, -, hs⟩
  · rw [hs]
    exact h
  · rw [hs]
    exact h.inserted hp h0 hnone rfl

/-! ## Claims and write faults -/

theorem Wf.claim (h : Wf s) (hq : q ∈ s.spt p) (hok : ClaimOk s q) (hown : EvictOwn s p)
    (hc : vmDoClaimPage s p q = some (b, s')) : Wf s' := by
  refine ⟨h.links.claim hq hok hc, ?_, ?_⟩
  all_goals obtain ⟨s₁, kva, page, hroom, hpage, hfill⟩ := vmDoClaimPage_cases hok.1.linked hc
  · have hs := h.links.spts.same (.room hroom)
    have hp := h.ptes.room h.links.spts hown (h.links.evictAlone hok.1) hroom
    have hq' : q ∈ s₁.spt p := by rwa [(SameSpts.room hroom).spt]
    exact (hp.but.mapFrame hs (h.links.frameLt.room hroom) hq' hpage).filled hfill (by simp [Vm.mapFrame])
  · have hl := h.links.room hok.1 hroom
    exact ((h.pool.room h.links.table.nodup hroom).mapFrame hl.frame_lt).filled hfill

theorem Wf.claimNew (h : Wf s) (hp : p < s.nextPid) (hok : EvictOk s) (hown : EvictOwn s p)
    (hc : vmDoClaimPage (Vm.inserted s p page) p s.nextPage = some (b, s')) (h0 : page.va ≠ 0)
    (hnone : hashFind s p page.va = none) (hfr : page.frame = none) : Wf s' := by
  refine (h.inserted hp h0 hnone hfr).claim (by simp [spt_inserted]) ⟨hok.inserted h.links, .inl ?_⟩ ?_ hc
  · simp [frameOf, Vm.inserted, State.setSpt, State.setPage, hfr]
  · intro h0 v hv victim hvictim q hq
    rw [spt_inserted, if_pos rfl]
    exact List.mem_cons_of_mem _ (hown h0 v hv victim hvictim q hq)

theorem Wf.wp (h : Wf s) (hq : q ∈ s.spt p) (hok : WpOk s q) (hown : EvictOwn s p)
    (hw : vmHandleWp s p q = some (b, s')) : Wf s' := by
  have hlinks := h.links.wp hq hok hw
  obtain ⟨page, hpage, f₀, hf, old, hold⟩ := vmHandleWp_old hw
  have hev := hok page hpage f₀ hf old hold
  have hunlinked := h.links.unlinked (h.links.spts.mem_sptPages hq) hpage hf hold
  obtain ⟨-, s₁, kva, page', hroom, hpage', rfl⟩ :=
    vmHandleWp_cases hpage hf hold hev.linked_of_unlinked hw
  have hsame : SameSpts s (s.setFrame f₀ { old with rCnt := old.rCnt - 1 }) :=
    ⟨rfl, rfl, fun _ => rfl, fun _ => rfl⟩
  have hkva : ∀ f, ((s.setFrame f₀ { old with rCnt := old.rCnt - 1 }).frames f).map (·.kva) =
        (s.frames f).map (·.kva) := by
    intro f
    by_cases he : f = f₀
    · subst he; simp [State.setFrame, hold]
    · simp [State.setFrame, Function.update_of_ne he]
  have hown' : EvictOwn (s.setFrame f₀ { old with rCnt := old.rCnt - 1 }) p := hown.setFrame hold
  -- another page with the victim's frame can only be the faulting one
  have halone : EvictAlone (s.setFrame f₀ { old with rCnt := old.rCnt - 1 }) (some (p, page.va)) := by
    intro h0 v hv victim hvictim q' hq' p₁ q₁ va₁ hq₁ hva₁ hf₁
    by_cases he : q₁ = q
    · subst he
      refine .inr ?_
      rw [h.links.spts.apart p₁ p q₁ hq₁ hq, Option.some.inj (hva₁.symm.trans (vaOf_eq (s := s) hpage))]
    · refine .inl ?_
      obtain ⟨hlink, h1⟩ := hev h0 v hv victim hvictim q' hq'
      have hmem := hunlinked.back_mem (List.mem_of_mem_head? hv) hvictim hq'
      refine hunlinked.sole hmem hlink hvictim h1 (h.links.spts.mem_sptPages hq₁) ?_
      simpa [frameOf, Vm.unlinked, State.setPage, Function.update_of_ne he] using hf₁
  have hva : page'.va = page.va := by
    have := (SameSpts.room hroom).va q
    rw [vaOf_eq hpage'] at this
    exact Option.some.inj (this.trans (vaOf_eq (s := s) hpage))
  have hptes : Ptes (s.setFrame f₀ { old with rCnt := old.rCnt - 1 }) (some (p, page.va)) :=
    (h.ptes.congr hsame (fun _ _ => rfl) fun _ _ _ => kvaOf_congr rfl fun f _ => hkva f).but
  have hlt : FrameLt (s.setFrame f₀ { old with rCnt := old.rCnt - 1 }) := h.links.frameLt
  have hq' : q ∈ s₁.spt p := by rwa [(SameSpts.room hroom).spt]
  have hroomp := hptes.room (h.links.spts.same hsame) hown' halone hroom
  rw [← hva] at hroomp
  have hpool : Pool (s.setFrame f₀ { old with rCnt := old.rCnt - 1 }) none :=
    h.pool.congr rfl (fun f _ => hkva f) rfl
  have hflt : ∀ f ∈ s₁.frameList, f < s₁.nextFrame := by
    intro f hf
    rw [hroom.nextFrame]
    exact h.links.frame_lt f (hroom.frameList_subset f hf)
  refine ⟨hlinks, ?_, ?_⟩
  · exact (hroomp.mapFrame ((h.links.spts.same hsame).same (.room hroom)) (hlt.room hroom) hq' hpage').congr
      ⟨rfl, rfl, fun _ => rfl, fun _ => rfl⟩ (fun _ _ => rfl) fun _ _ _ => rfl
  · have hmap : Pool (Vm.mapFrame s₁ p q page' kva true) none := (hpool.room h.links.table.nodup hroom).mapFrame hflt
    exact hmap.congr rfl (fun _ _ => rfl) rfl

/-! ## Sharing -/

theorem Wf.shared {src : Page} {frame : Frame} (h : Wf s) (hc : c < s.nextPid) (hf : f ∈ s.frameList)
    (hframe : s.frames f = some frame) (h0 : src.va ≠ 0) (hnone : hashFind s c src.va = none) :
    Wf (shared s c src f frame) := by
  have hsame : SameSpts (Vm.inserted s c ⟨src.va, none, src.writable, .anon none none⟩) (Vm.shared s c src f frame) :=
    .shared
  have hkva : ∀ g, ((Vm.shared s c src f frame).frames g).map (·.kva) = (s.frames g).map (·.kva) := by
    intro g
    by_cases he : g = f
    · subst he; simp [Vm.shared, hframe]
    · simp [Vm.shared, Function.update_of_ne he]
  refine ⟨h.links.shared hc hf hframe h0 hnone, fun p' va' _ => ?_, h.pool.congr rfl (fun g _ => hkva g) rfl⟩
  have hfind : hashFind (Vm.inserted s c ⟨src.va, none, src.writable, .anon none none⟩) p' va' =
      if p' = c ∧ va' = src.va then some s.nextPage else hashFind s p' va' :=
    h.links.spts.hashFind_inserted ⟨src.va, none, src.writable, .anon none none⟩ hc h0 hnone p' va'
  rw [pte_shared, hashFind_same hsame, hfind]
  split
  · have hk : kvaOf (Vm.shared s c src f frame) s.nextPage = some frame.kva := by
      simp [kvaOf, frameOf, Vm.shared]
    simp [mapsTo, hk]
  · rw [h.ptes p' va' (by simp)]
    cases hfind : hashFind s p' va' with
    | none => rfl
    | some q =>
      have hne : q ≠ s.nextPage := Nat.ne_of_lt (h.links.spts.lt p' q (hashFind_some hfind).1)
      have hsame : frameOf (Vm.shared s c src f frame) q = frameOf s q := by
        simp [frameOf, Vm.shared, Function.update_of_ne hne]
      exact (kvaOf_congr hsame fun g _ => hkva g).symm

theorem Wf.copyPage (h : Wf s) (hc : c < s.nextPid) (hq : q ∈ s.spt p)
    (hok : ∀ page ∈ s.pages q, page.kind.isFile = true → EvictOk s ∧ EvictOwn s c)
    (hcopy : copyPage s c q = some (b, s')) : Wf s' := by
  rcases copyPage_cases h.links.spts hq hcopy with ⟨-, rfl⟩ | ⟨src, type, init, fi, hsrc, hk, hnone, -, rfl⟩ |
    ⟨src, fi, hsrc, hk, hnone, hclaim⟩ | ⟨src, f, frame, hsrc, hk, hf, hframe, hnone, -, rfl⟩
  · exact h
  all_goals have h0 : src.va ≠ 0 := h.links.spts.va_ne_zero hq hsrc
  · exact h.inserted hc h0 hnone rfl
  · obtain ⟨hev, hown⟩ := hok src hsrc (by simp [hk, Kind.isFile])
    exact h.claimNew hc hev hown hclaim h0 hnone rfl
  · have hlist := (h.links.resident hq (f := f) (by simp [frameOf, hsrc, hf])).1
    exact h.shared hc hlist hframe h0 hnone

/-! ## A page goes -/

/-- Without `q` the table of `p` has no page at its address. -/
theorem Spts.hashFind_erase (h : Spts s) (hq : q ∈ s.spt p) (hpage : s.pages q = some page)
    (hspt : ∀ p', t.spt p' = (s.setSpt p ((s.spt p).erase q)).spt p') (hva : ∀ q', q' ≠ q → vaOf t q' = vaOf s q')
    (p' va' : Nat) : hashFind t p' va' = if p' = p ∧ va' = page.va then none else hashFind s p' va' := by
  have hkeep : hashFind t p' va' = hashFind (s.setSpt p ((s.spt p).erase q)) p' va' := by
    rw [hashFind_eq, hashFind_eq, hspt]
    refine List.find?_congr fun q' hq' => ?_
    have hne : q' ≠ q := fun e => h.notMem_erased hq p' (e ▸ hq')
    rw [hva q' hne]
    rfl
  rw [hkeep]
  refine Option.ext fun q' => ?_
  rw [(h.erase (p := p) (q := q)).hashFind_iff]
  show q' ∈ (s.setSpt p ((s.spt p).erase q)).spt p' ∧ vaOf s q' = some va' ↔ _
  by_cases he : p' = p
  · subst he
    rw [State.spt_setSpt_self, (h.nodup p').mem_erase_iff]
    by_cases hv : va' = page.va
    · rw [if_pos ⟨rfl, hv⟩]
      refine ⟨fun ⟨⟨hne, hq'⟩, e⟩ => absurd (h.keyed p' q' hq' q hq ?_) hne, fun e => absurd e (by simp)⟩
      rw [e, hv, vaOf_eq hpage]
    · rw [if_neg fun e => hv e.2, h.hashFind_iff]
      refine ⟨fun ⟨⟨_, hq'⟩, e⟩ => ⟨hq', e⟩, fun ⟨hq', e⟩ => ⟨⟨?_, hq'⟩, e⟩⟩
      rintro rfl
      exact hv (Option.some.inj (e.symm.trans (vaOf_eq hpage)))
  · rw [State.spt_setSpt_ne _ _ he, if_neg fun e => he e.1, h.hashFind_iff]

/-- The entry of the page that went is cleared. -/
theorem Ptes.dropped (h : Ptes s none) (hs : Spts s) (hq : q ∈ s.spt p) (hpage : s.pages q = some page)
    (hspt : ∀ p', t.spt p' = (s.setSpt p ((s.spt p).erase q)).spt p') (hva : ∀ q', q' ≠ q → vaOf t q' = vaOf s q')
    (hk : ∀ p', ∀ q' ∈ s.spt p', q' ≠ q → kvaOf t q' = kvaOf s q')
    (he : ∀ p' va', mapsTo (t.pte p' va') = if p' = p ∧ va' = page.va then none else mapsTo (s.pte p' va')) :
    Ptes t none := by
  intro p' va' _
  rw [he, hs.hashFind_erase hq hpage hspt hva]
  split
  · rfl
  · rename_i hpv
    rw [h p' va' (by simp)]
    cases hfind : hashFind s p' va' with
    | none => rfl
    | some q' =>
      obtain ⟨hq', hva'⟩ := hs.hashFind_iff.mp hfind
      refine (hk p' q' hq' ?_).symm
      rintro rfl
      exact hpv ⟨hs.apart p' p q' hq' hq, Option.some.inj (hva'.symm.trans (vaOf_eq hpage))⟩

/-- A frame leaves the list and its page goes back to the pool. -/
theorem Pool.release {frame : Frame} (h : Pool s none) (hn : s.frameList.Nodup) (hf : f ∈ s.frameList)
    (hframe : s.frames f = some frame) (hfr : t.frames = Function.update s.frames f none)
    (hl : t.frameList = s.frameList.erase f) (hu : t.userPool = s.userPool.set frame.kva false) : Pool t none := by
  have hin : ∀ {g}, g ∈ t.frameList → g ≠ f ∧ g ∈ s.frameList ∧ t.frames g = s.frames g := by
    intro g hg
    rw [hl] at hg
    obtain ⟨hne, hg⟩ := hn.mem_erase_iff.mp hg
    exact ⟨hne, hg, by rw [hfr, Function.update_of_ne hne]⟩
  refine ⟨?_, ?_, fun k hk => absurd hk (by simp), ?_⟩
  · intro g hg g' hg' a a' ha ha' e
    rw [(hin hg).2.2] at ha
    rw [(hin hg').2.2] at ha'
    exact h.inj g (hin hg).2.1 g' (hin hg').2.1 a a' ha ha' e
  · intro g hg a ha
    obtain ⟨hne, hg, he⟩ := hin hg
    rw [he] at ha
    obtain ⟨h₁, h₂, h₃⟩ := h.used g hg a ha
    have hk : a.kva ≠ frame.kva := fun e => hne (h.inj g hg f hf a frame ha hframe e)
    rw [hu]
    exact ⟨h₁, (Bitmap.set_bit_ne hk).trans h₂, h₃⟩
  · intro k hk hbit
    rw [hu] at hk hbit
    by_cases he : k = frame.kva
    · rw [he, Bitmap.set_bit_self] at hbit
      exact absurd hbit (by simp)
    · rw [Bitmap.set_bit_ne he] at hbit
      rcases h.full k hk hbit with e | ⟨g, hg, a, ha, e⟩
      · exact absurd e (by simp)
      · have hne : g ≠ f := by
          rintro rfl
          obtain rfl := Option.some.inj (hframe.symm.trans ha)
          exact he e.symm
        exact .inr ⟨g, by rw [hl]; exact hn.mem_erase_iff.mpr ⟨hne, hg⟩, a,
          by rw [hfr, Function.update_of_ne hne, ha], e⟩

theorem Wf.munmap (h : Wf s) (hok : ∀ q ∈ sptFindPage s p (va * pgsize), frameOf s q = none ∧ NoBack s q)
    (hm : doMunmap s p va = some s') : Wf s' := by
  refine ⟨h.links.munmap hok hm, ?_, ?_⟩
  all_goals
    simp only [doMunmap, Option.bind_eq_bind, Option.bind_eq_some_iff, Option.some.injEq] at hm
    obtain ⟨q, hfind, page, hpage, s₂, hw, rfl⟩ := hm
    obtain ⟨hs, hspt, -⟩ := writeBack_spec hw
  · obtain ⟨hq, page', hpage', hva⟩ := sptFindPage_some hfind
    obtain rfl := Option.some.inj (hpage.symm.trans hpage')
    rw [Nat.mul_div_cancel _ (by decide)] at hva
    subst hva
    refine h.ptes.dropped h.links.spts hq hpage (fun p' => ?_) (fun q' _ => ?_) (fun _ q' _ _ => ?_) fun p' va' => ?_
    · rw [spt_pml4ClearPage, hspt]
    · rw [hs]; rfl
    · rw [hs]; rfl
    · rw [mapsTo_clear]
      split
      · rfl
      · rw [mapsTo_writeBack hw, State.pte_setSpt]
  · exact h.pool.congr (by rw [hs]; rfl) (fun _ _ => by rw [hs]; rfl) (by rw [hs]; rfl)

theorem vaOf_freePage {q' : Nat} (hne : q' ≠ q) : vaOf (s.freePage q) q' = vaOf s q' := by
  simp [vaOf, State.freePage, Function.update_of_ne hne]

/-- Freeing a page is nothing to the memory behind the others. -/
theorem kvaOf_freePage {q' : Nat} (hne : q' ≠ q) : kvaOf (s.freePage q) q' = kvaOf s q' :=
  kvaOf_congr (by simp [frameOf, State.freePage, Function.update_of_ne hne]) fun _ _ => rfl

/-- A page without a frame goes, by a call that clears its entry or leaves
the entries alone. -/
theorem Wf.destroyAbsent (h : Wf s) (hq : q ∈ s.spt p) (hpage : s.pages q = some page) (hfr : page.frame = none)
    (hlinks : Links (t.freePage q)) (hsame : SameSpts (s.setSpt p ((s.spt p).erase q)) t)
    (hp : ∀ q', frameOf t q' = frameOf s q') (hf : t.frames = s.frames) (hl : t.frameList = s.frameList)
    (hu : t.userPool = s.userPool)
    (he : ∀ p' va', ¬ (p' = p ∧ va' = page.va) → mapsTo (t.pte p' va') = mapsTo (s.pte p' va'))
    (he' : mapsTo (t.pte p page.va) = none ∨ mapsTo (t.pte p page.va) = mapsTo (s.pte p page.va)) :
    Wf (t.freePage q) := by
  have hnone : mapsTo (s.pte p page.va) = none := by
    rw [h.ptes p page.va (by simp), h.links.spts.hashFind_iff.mpr ⟨hq, vaOf_eq hpage⟩]
    simp [kvaOf, frameOf, hpage, hfr]
  refine ⟨hlinks, h.ptes.dropped h.links.spts hq hpage hsame.spt (fun q' hne => ?_) (fun _ q' _ hne => ?_)
    (fun p' va' => ?_), h.pool.congr hl (fun _ _ => by rw [show (t.freePage q).frames = t.frames from rfl, hf]) hu⟩
  · rw [vaOf_freePage hne]
    exact hsame.va q'
  · rw [kvaOf_freePage hne]
    exact kvaOf_congr (hp q') fun _ _ => by rw [hf]
  · show mapsTo (t.pte p' va') = _
    by_cases hpv : p' = p ∧ va' = page.va
    · obtain ⟨rfl, rfl⟩ := hpv
      rw [if_pos ⟨rfl, rfl⟩]
      exact he'.elim id fun e => e.trans hnone
    · rw [if_neg hpv]
      exact he p' va' hpv

theorem mapsTo_cleared (s : State) (p : Nat) (page : Page) (i : Option Nat) (p' va' : Nat) :
    mapsTo ((cleared s p page i).pte p' va') =
      if p' = p ∧ va' = page.va then none else mapsTo (s.pte p' va') := mapsTo_clear s p page.va p' va'

theorem Wf.destroyAnon {i : Option Nat} {s₂ : State} (h : Wf s) (hq : q ∈ s.spt p) (hok : DestroyOk s q)
    (hpage : s.pages q = some page) (hfr : page.frame = some f)
    (hd : anonDestroy (s.setSpt p ((s.spt p).erase q)) p page i = some s₂) : Wf (s₂.freePage q) := by
  have hlinks := h.links.destroyAnon hq hok hpage hfr hd
  have hmem := h.links.spts.mem_sptPages hq
  have hqf : frameOf s q = some f := by simp [frameOf, hpage, hfr]
  rcases anonDestroy_cases hd with ⟨hnone, -⟩ | ⟨f', frame, hf', hframe, hcase⟩
  · exact absurd (hfr.symm.trans hnone) (by simp)
  obtain rfl := Option.some.inj (hfr.symm.trans hf')
  change s.frames f = some frame at hframe
  have hspt : ∀ p', (Vm.cleared (s.setSpt p ((s.spt p).erase q)) p page i).spt p' =
      (s.setSpt p ((s.spt p).erase q)).spt p' := (SameSpts.cleared _ p page i).spt
  have hpte : ∀ p' va', mapsTo ((Vm.cleared (s.setSpt p ((s.spt p).erase q)) p page i).pte p' va') =
      if p' = p ∧ va' = page.va then none else mapsTo (s.pte p' va') := by
    intro p' va'
    rw [mapsTo_cleared, State.pte_setSpt]
  rcases hcase with ⟨h1, -, rfl⟩ | ⟨h1, rfl⟩
  · refine ⟨hlinks, h.ptes.dropped h.links.spts hq hpage hspt (fun q' hne => vaOf_freePage hne) (fun p' q' hq' hne => ?_)
      hpte, h.pool.release h.links.table.nodup (h.links.resident hq hqf).1 hframe rfl rfl rfl⟩
    rw [kvaOf_freePage hne]
    refine kvaOf_congr rfl fun g hg => ?_
    have : g ≠ f := by
      rintro rfl
      exact hne (h.links.sole hmem hqf hframe h1 (h.links.spts.mem_sptPages hq') hg)
    simp [Function.update_of_ne this, State.setSpt]
  · have hkva : ∀ g, (((Vm.cleared (s.setSpt p ((s.spt p).erase q)) p page i).setFrame f
        { frame with rCnt := frame.rCnt - 1 }).frames g).map (·.kva) = (s.frames g).map (·.kva) := by
      intro g
      by_cases he : g = f
      · subst he; simp [State.setFrame, hframe]
      · simp [State.setFrame, Function.update_of_ne he, Vm.cleared, pml4ClearPage, State.setPte, State.setSpt]
    refine ⟨hlinks, h.ptes.dropped h.links.spts hq hpage hspt (fun q' hne => vaOf_freePage hne) (fun p' q' hq' hne => ?_)
      hpte, h.pool.congr rfl (fun g _ => hkva g) rfl⟩
    rw [kvaOf_freePage hne]
    exact kvaOf_congr rfl fun g _ => hkva g

theorem Wf.destroy (h : Wf s) (hq : q ∈ s.spt p) (hok : DestroyOk s q)
    (hd : vmDeallocPage (s.setSpt p ((s.spt p).erase q)) p q = some s') : Wf s' := by
  have hlinks := h.links.destroy hq hok hd
  simp only [vmDeallocPage, Option.bind_eq_bind, Option.bind_eq_some_iff, Option.some.injEq] at hd
  obtain ⟨page, hpage, s₂, hd, rfl⟩ := hd
  change s.pages q = some page at hpage
  cases hfr : page.frame with
  | some f =>
    have hanon := (hok.1 page hpage).resolve_left (by simp [hfr])
    cases hk : page.kind with
    | uninit | file => simp [hk, Kind.isAnon] at hanon
    | anon i aux =>
      simp only [Vm.destroy, hk] at hd
      exact h.destroyAnon hq hok hpage hfr hd
  | none =>
    cases hk : page.kind with
    | uninit type init aux =>
      simp only [Vm.destroy, hk, Option.some.injEq] at hd
      subst hd
      have hpte : ∀ p' va', (s.setSpt p ((s.spt p).erase q)).pte p' va' = s.pte p' va' := State.pte_setSpt s p _
      exact h.destroyAbsent hq hpage hfr hlinks (.refl _) (fun _ => rfl) rfl rfl rfl
        (fun p' va' _ => by rw [hpte]) (.inr (by rw [hpte]))
    | anon i aux =>
      simp only [Vm.destroy, hk] at hd
      rcases anonDestroy_cases hd with ⟨-, rfl⟩ | ⟨f, _, hf, -⟩
      · refine h.destroyAbsent hq hpage hfr hlinks (.cleared ..) (fun _ => rfl) rfl rfl rfl
          (fun p' va' hpv => ?_) (.inl ?_)
        · rw [mapsTo_cleared, if_neg hpv, State.pte_setSpt]
        · rw [mapsTo_cleared, if_pos ⟨rfl, rfl⟩]
      · exact absurd (hfr.symm.trans hf) (by simp)
    | file aux =>
      simp only [Vm.destroy, hk, fileBackedDestroy, hfr, Option.bind_eq_bind, Option.bind_eq_some_iff,
        Option.some.injEq] at hd
      obtain ⟨s₃, hw, rfl⟩ := hd
      have hs := (writeBack_spec hw).1
      refine h.destroyAbsent hq hpage hfr hlinks ((SameSpts.writeBack hw).trans (.clear ..)) (fun q' => ?_) ?_ ?_ ?_
        (fun p' va' hpv => ?_) (.inl ?_)
      · rw [hs]; rfl
      · rw [hs]; rfl
      · rw [hs]; rfl
      · rw [hs]; rfl
      · rw [mapsTo_clear, if_neg hpv, mapsTo_writeBack hw, State.pte_setSpt]
      · rw [mapsTo_clear, if_pos ⟨rfl, rfl⟩]

theorem Wf.absent (h : Wf s) (hnil : s.spt p = []) (va : Nat) : (s.pte p va).present = false := by
  have := h.ptes p va (by simp)
  rw [hashFind_none.mpr (by simp [hnil])] at this
  simpa [mapsTo] using this

/-- With no entry present, `pml4_destroy` frees no page. -/
theorem pml4Destroy_absent (h : ∀ va, (s.pte p va).present = false) :
    pml4Destroy s p = some { s with procs := Function.update s.procs p Proc.empty } := by
  have hloop : ∀ vas, pml4DestroyLoop p s vas = some s := by
    intro vas
    induction vas with
    | nil => rfl
    | cons va vas ih =>
      rw [pml4DestroyLoop, if_neg (by simp [h])]
      exact ih
  simp only [Vm.pml4Destroy, hloop, Option.bind_eq_bind, Option.bind_some]

theorem Wf.reap (h : Wf s) (hnil : s.spt p = []) (hr : Vm.pml4Destroy s p = some s') : Wf s' := by
  have hlinks := h.links.reap hnil hr
  obtain rfl := Option.some.inj ((pml4Destroy_absent (h.absent hnil)).symm.trans hr)
  refine ⟨hlinks, h.ptes.congr (.emptied hnil) (fun p' va' => ?_) fun _ _ _ => rfl,
    h.pool.congr rfl (fun _ _ => rfl) rfl⟩
  by_cases he : p' = p
  · subst he
    rw [mapsTo, mapsTo, h.absent hnil]
    simp [State.pte, Proc.empty]
  · simp [State.pte, Function.update_of_ne he]

/-! ## Every event -/

/-- The eviction of the event, if it makes one, takes a page of the process
that is running. -/
def OwnOk (s : State) : Ev → Prop
  | .setupStack p => EvictOwn s p
  | .fault p addr _ _ => (sptFindPage s p addr).isSome = true → EvictOwn s p
  | .copyPage c _ q => ∀ page ∈ s.pages q, page.kind.isFile = true → EvictOwn s c
  | _ => True

instance : ∀ s e, Decidable (OwnOk s e)
  | _, .setupStack _ => inferInstanceAs (Decidable (_ → _))
  | _, .fault .. => inferInstanceAs (Decidable (_ → _ → _))
  | _, .copyPage .. => inferInstanceAs (Decidable (∀ _ ∈ _, _ → _ → _))
  | _, .spawn | _, .alloc .. | _, .load .. | _, .store .. | _, .munmap .. | _, .destroy .. | _, .reap _ =>
    inferInstanceAs (Decidable True)

theorem wf_boot {frames slots : Nat} {mem : Nat → Bytes} {disk : Nat → Sector} {inodes : Nat → Inode} :
    Wf (boot frames slots mem disk inodes) :=
  ⟨links_boot, fun _ _ _ => rfl, fun _ h => absurd h (List.not_mem_nil), fun _ h => absurd h (List.not_mem_nil),
    fun _ h => absurd h (by simp), fun _ _ h => absurd h (by simp [boot])⟩

theorem Wf.fault {addr rsp : Nat} {write : Bool} (h : Wf s) (hp : p < s.nextPid)
    (hok : LinksOk s (.fault p addr rsp write)) (hown : OwnOk s (.fault p addr rsp write))
    (hf : vmTryHandleFault s p addr rsp write (!(s.pte p (addr / pgsize)).present) = some (b, s')) : Wf s' := by
  rcases vmTryHandleFault_cases hf with ⟨-, rfl⟩ | ⟨q, page, hq, hpage, -, hpres, hw, hwp⟩ | ⟨q, hq, hpres, hc⟩ |
    ⟨-, hnone, hwin, rfl⟩
  · exact h
  · simp only [Bool.not_eq_false'] at hpres
    have := hok q hq
    rw [if_pos hpres] at this
    exact h.wp (sptFindPage_some hq).1 (this page hpage hw) (hown (by simp [hq])) hwp
  · simp only [Bool.not_eq_true'] at hpres
    have := hok q hq
    rw [if_neg (by simp [hpres])] at this
    exact h.claim (sptFindPage_some hq).1 this (hown (by simp [hq])) hc
  · exact h.alloc hp (inStackWindow_ne_zero hwin)

theorem Wf.store {addr : Nat} {b : Byte} (h : Wf s) (hs : storeByte s p addr b = some s') : Wf s' := by
  simp only [storeByte] at hs
  split at hs
  · obtain rfl := Option.some.inj hs
    have hsame : ∀ m e, SameSpts s ((s.setMem (s.pte p (addr / pgsize)).kva m).setPte p (addr / pgsize) e) :=
      fun m e => ⟨rfl, rfl, State.spt_setPte _ p _ _, fun _ => rfl⟩
    refine ⟨h.links.congr (hsame _ _) (fun _ => rfl) rfl rfl rfl, h.ptes.congr (hsame _ _)
    (fun p' va' => ?_) fun _ _ _ => rfl,
      h.pool.congr rfl (fun _ _ => rfl) rfl⟩
    rw [State.pte_setPte]
    split
    · rename_i e
      rw [e.1, e.2]
      rfl
    · rfl
  · exact absurd hs (by simp)

/-- Every event that meets the two conditions keeps the tables. -/
theorem Wf.step {e : Ev} (h : Wf s) (hok : LinksOk s e) (hown : OwnOk s e) (hs : step s e = some s') : Wf s' := by
  cases step_took hs with
  | spawn => exact ⟨h.links.step hok hs, h.ptes, h.pool.congr rfl (fun _ _ => rfl) rfl⟩
  | alloc hp h0 => exact h.alloc hp h0
  | setupStack hp hst =>
    rcases setupStack_cases hst with ⟨-, rfl⟩ | ⟨hnone, hc⟩
    · exact h
    · exact h.claimNew hp hok hown hc (by decide) hnone rfl
  | load => exact h
  | store hp hst => exact h.store hst
  | fault hp hno hf => exact h.fault hp hok hown hf
  | copyPage hc hq hcopy =>
    exact h.copyPage hc hq (fun page hpage hk => ⟨hok page hpage hk, hown page hpage hk⟩) hcopy
  | munmap hp hm => exact h.munmap hok hm
  | destroy hp hq hd => exact h.destroy hq hok hd
  | reap hp hnil hr => exact h.reap hnil hr

end PintosKaist.Vm
