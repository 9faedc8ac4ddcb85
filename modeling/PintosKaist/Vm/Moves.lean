/-
What the events do to pages and frames. A page leaves its table by `munmap` or
at exit; `Move` says once for all what the kernel does at a fault, a fork or an
exit, and every such event is a few moves, with the owners of frames in order
after each.
-/
import PintosKaist.Vm.Tenancy

namespace PintosKaist.Vm

open Count

variable {s s' s₁ t : State} {p c q f kva va : Nat} {page page' : Page} {b : Bool} {x : Option Nat}

/-! ## A page goes -/

/-- The page `q` leaves the table and its entry is cleared. Its frame stays as it
is, loses a reference, or goes with the page. -/
theorem Tenancy.leave (h : Tenancy s none) (hq : q ∈ s.spt p) (hpage : s.pages q = some page) (hspts : Spts t)
    (hspt : ∀ p', t.spt p' = (s.setSpt p ((s.spt p).erase q)).spt p')
    (hnext : t.nextPage = s.nextPage) (hpages : ∀ q', q' ≠ q → t.pages q' = s.pages q') (hn : t.nextFrame = s.nextFrame)
    (hclear : (t.pte p page.va).present = false)
    (he : ∀ p' va', ¬ (p' = p ∧ va' = page.va) → SamePte (s.pte p' va') (t.pte p' va'))
    (hframes : ∀ g fr, t.frames g = some fr → t.userPool.bit fr.kva = true ∧ ∃ fr', s.frames g = some fr' ∧
      fr.kva = fr'.kva ∧ fr.page = fr'.page ∧ (fr.rCnt = fr'.rCnt ∨ page.frame = some g ∧ fr.rCnt = fr'.rCnt - 1))
    (hkept : ∀ p' q' pg g, q' ∈ s.spt p' → q' ≠ q → s.pages q' = some pg → pg.frame = some g →
      FrameKept s t p' q' pg g) : Tenancy t none := by
  have hmem : ∀ p' q', q' ∈ t.spt p' → q' ≠ q ∧ q' ∈ s.spt p' := by
    intro p' q' hq'
    rw [hspt] at hq'
    refine ⟨fun e => h.spts.notMem_erased hq p' (e ▸ hq'), ?_⟩
    by_cases hp : p' = p
    · subst hp
      rw [State.spt_setSpt_self] at hq'
      exact List.mem_of_mem_erase hq'
    · rwa [State.spt_setSpt_ne _ _ hp] at hq'
  have hmem' : ∀ p' q', q' ≠ q → q' ∈ s.spt p' → q' ∈ t.spt p' := by
    intro p' q' hne hq'
    rw [hspt]
    by_cases hp : p' = p
    · subst hp
      rw [State.spt_setSpt_self]
      exact (List.mem_erase_of_ne hne).mpr hq'
    · rwa [State.spt_setSpt_ne _ _ hp]
  have hfo : ∀ q', q' ≠ q → frameOf t q' = frameOf s q' := fun q' hne => by rw [frameOf, hpages q' hne]; rfl
  have htenants : ∀ q' ∈ tenants t none, q' ≠ q ∧ q' ∈ tenants s none := by
    intro q' hq'
    obtain ⟨p', -, hq'⟩ := mem_sptPages.mp (mem_tenants.mp hq').1
    obtain ⟨hne, hq'⟩ := hmem p' q' hq'
    exact ⟨hne, h.spts.mem_tenants hq' (by simp)⟩
  refine ⟨hspts, fun p' q' hq' _ pg hpg => ?_, fun p' va' hpres => ?_, fun g fr hfr => ?_, fun g fr q' hfr hb => ?_,
    fun g g' fr fr' hfr hfr' heq => ?_, fun g fr p' q' hfr hb hq' => ⟨by simp, ?_⟩, fun g fr hfr => ?_⟩
  · obtain ⟨hne, hq'⟩ := hmem p' q' hq'
    rw [hpages q' hne] at hpg
    refine (h.page p' q' hq' (by simp) pg hpg).congr (he p' pg.va fun hpv => hne ?_)
      (fun g hg => hkept p' q' pg g hq' hne hpg hg) (by rw [hn])
    exact h.spts.eq_of_va hq hq' hpv.1 hpage hpg hpv.2
  · have hpv : ¬ (p' = p ∧ va' = page.va) := by
      rintro ⟨rfl, rfl⟩
      rw [hclear] at hpres
      cases hpres
    rw [(he p' va' hpv).1] at hpres
    obtain ⟨q', hq', hva⟩ := h.entry p' va' hpres
    have hne : q' ≠ q := by
      rintro rfl
      exact hpv ⟨h.spts.apart p' p q' hq' hq, Option.some.inj (hva.symm.trans (vaOf_eq hpage))⟩
    exact ⟨q', hmem' p' q' hne hq', by rwa [vaOf, hpages q' hne]⟩
  · obtain ⟨hbit, fr', hfr', -⟩ := hframes g fr hfr
    exact ⟨hn ▸ (h.used g fr' hfr').1, hbit⟩
  · obtain ⟨-, fr', hfr', -, hp, -⟩ := hframes g fr hfr
    rw [hnext]
    exact h.page_lt g fr' q' hfr' (hp ▸ hb)
  · obtain ⟨-, fr₁, hfr₁, hk₁, -⟩ := hframes g fr hfr
    obtain ⟨-, fr₂, hfr₂, hk₂, -⟩ := hframes g' fr' hfr'
    exact h.inj g g' fr₁ fr₂ hfr₁ hfr₂ (hk₁ ▸ hk₂ ▸ heq)
  · obtain ⟨-, fr', hfr', -, hp, -⟩ := hframes g fr hfr
    obtain ⟨hne, hq'⟩ := hmem p' q' hq'
    rw [hfo q' hne]
    exact (h.back g fr' p' q' hfr' (hp ▸ hb) hq').2
  · obtain ⟨-, fr', hfr', -, -, hr⟩ := hframes g fr hfr
    have hcnt := h.cnt g fr' hfr'
    have hsub : ∀ i ∈ tenants t none, frameOf t i = some g → i ∈ tenants s none ∧ frameOf s i = some g := by
      intro i hi hif
      obtain ⟨hne, hi⟩ := htenants i hi
      exact ⟨hi, hfo i hne ▸ hif⟩
    obtain hr | ⟨hqf, hr⟩ := hr
    · have := count_le hsub
      omega
    · have : count (tenants t none) (frameOf t) (some g) < count (tenants s none) (frameOf s) (some g) := by
        refine count_lt hsub (h.spts.mem_tenants hq (by simp)) (by simp [frameOf, hpage, hqf]) fun hi => ?_
        exact absurd rfl (htenants q hi).1
      omega

/-- `do_munmap`: the frame stays as it is. -/
theorem Tenancy.munmap (h : Tenancy s none) (hm : doMunmap s p va = some s') : Tenancy s' none := by
  simp only [doMunmap, Option.bind_eq_bind, Option.bind_eq_some_iff, Option.some.injEq] at hm
  obtain ⟨q, hfind, page, hpage, s₂, hw, rfl⟩ := hm
  obtain ⟨hs, hspt, hpte⟩ := writeBack_spec hw
  obtain ⟨hq, page', hpage', hva⟩ := sptFindPage_some hfind
  obtain rfl := Option.some.inj (hpage.symm.trans hpage')
  rw [Nat.mul_div_cancel _ (by decide)] at hva
  subst hva
  have hframes : (pml4ClearPage s₂ p page.va).frames = s.frames := by rw [hs]; rfl
  have hpool : (pml4ClearPage s₂ p page.va).userPool = s.userPool := by rw [hs]; rfl
  refine h.leave hq hpage (h.spts.erase.same ((SameSpts.writeBack hw).trans (.clear ..)))
    (fun p' => by rw [spt_pml4ClearPage, hspt]) (by rw [hs]; rfl) (fun q' _ => by rw [hs]; rfl)
    (by rw [hs]; rfl) present_clear (fun p' va' hpv => ?_) (fun g fr hfr => ?_)
    fun p' q' pg g _ _ _ _ => .inl (by rw [hframes])
  · obtain ⟨h₁, h₂, h₃⟩ := samePte_clear hpv
    obtain ⟨h₁', h₂', h₃'⟩ := hpte p' va'
    rw [State.pte_setSpt] at h₁' h₂' h₃'
    exact ⟨h₁.trans h₁', h₂.trans h₂', h₃.trans h₃'⟩
  · rw [hframes] at hfr
    rw [hpool]
    exact ⟨(h.used g fr hfr).2, fr, hfr, rfl, rfl, .inl rfl⟩

/-- The frame goes with the page, and its page of memory back to the pool. -/
theorem Tenancy.gone {frame : Frame} (h : Tenancy s none) (hq : q ∈ s.spt p) (hpage : s.pages q = some page)
    (hframe : s.frames f = some frame) (halone : ∀ p' q', q' ∈ s.spt p' → frameOf s q' = some f → q' = q)
    (hspts : Spts t) (hspt : ∀ p', t.spt p' = (s.setSpt p ((s.spt p).erase q)).spt p')
    (hnext : t.nextPage = s.nextPage) (hpages : ∀ q', q' ≠ q → t.pages q' = s.pages q') (hn : t.nextFrame = s.nextFrame)
    (hclear : (t.pte p page.va).present = false)
    (he : ∀ p' va', ¬ (p' = p ∧ va' = page.va) → SamePte (s.pte p' va') (t.pte p' va'))
    (hf : t.frames = Function.update s.frames f none) (hu : t.userPool = s.userPool.set frame.kva false) :
    Tenancy t none := by
  refine h.leave hq hpage hspts hspt hnext hpages hn hclear he (fun g fr hfr => ?_)
    fun p' q' pg g hq' hne hpg hg => .inl ?_
  · rw [hf, Function.update_apply] at hfr
    split at hfr
    · cases hfr
    · rename_i hgf
      have hkva : fr.kva ≠ frame.kva := fun heq => hgf (h.inj g f fr frame hfr hframe heq)
      refine ⟨?_, fr, hfr, rfl, rfl, .inl rfl⟩
      rw [hu, Bitmap.set_bit_ne hkva]
      exact (h.used g fr hfr).2
  · rw [hf, Function.update_of_ne]
    rintro rfl
    exact hne (halone p' q' hq' (by simp [frameOf, hpg, hg]))

/-- Freeing the struct is nothing: the page is in no table. -/
theorem Spts.destroyed {r : State} (h : Spts s) (hq : q ∈ s.spt p) (hr : SameSpts (s.setSpt p ((s.spt p).erase q)) r) :
    Spts (r.freePage q) := by
  refine (h.erase.same hr).freePage fun p' => ?_
  rw [hr.spt]
  exact h.notMem_erased hq p'

theorem pages_freePage_ne {q' : Nat} (hne : q' ≠ q) : (s.freePage q).pages q' = s.pages q' :=
  Function.update_of_ne hne ..

/-- An uninit page has no frame. -/
theorem Tenancy.destroyUninit (h : Tenancy s none) (hq : q ∈ s.spt p) (hpage : s.pages q = some page)
    (hk : page.kind.isUninit = true) : Tenancy ((s.setSpt p ((s.spt p).erase q)).freePage q) none := by
  have hok := h.page p q hq (by simp) page hpage
  have hpte : ∀ p' va', (s.setSpt p ((s.spt p).erase q)).pte p' va' = s.pte p' va' := State.pte_setSpt s p _
  have hnone : page.frame = none := by
    cases hfr : page.frame with
    | none => rfl
    | some f =>
      obtain ⟨-, -, hun, -⟩ := hok.resident f hfr
      exact absurd (hk.symm.trans hun) (by simp)
  refine h.leave hq hpage (h.spts.destroyed hq (.refl _)) (fun _ => rfl) rfl (fun q' hne => pages_freePage_ne hne) rfl ?_
    (fun p' va' _ => ?_) (fun g fr hfr => ⟨(h.used g fr hfr).2, fr, hfr, rfl, rfl, .inl rfl⟩)
    fun _ _ _ _ _ _ _ _ => .inl rfl
  · show ((s.setSpt p ((s.spt p).erase q)).pte p page.va).present = false
    rw [hpte]
    exact hok.absent hnone
  · show SamePte _ ((s.setSpt p ((s.spt p).erase q)).pte p' va')
    rw [hpte]
    exact .refl _

/-- `anon_destroy`: the frame loses a reference, and goes with the last one. -/
theorem Tenancy.destroyAnon {i : Option Nat} (h : Tenancy s none) (hq : q ∈ s.spt p) (hpage : s.pages q = some page)
    (hd : anonDestroy (s.setSpt p ((s.spt p).erase q)) p page i = some s') : Tenancy (s'.freePage q) none := by
  have hsame := SameSpts.cleared (s.setSpt p ((s.spt p).erase q)) p page i
  have hclear : ((cleared (s.setSpt p ((s.spt p).erase q)) p page i).pte p page.va).present = false := present_clear
  have he : ∀ p' va', ¬ (p' = p ∧ va' = page.va) →
      SamePte (s.pte p' va') ((cleared (s.setSpt p ((s.spt p).erase q)) p page i).pte p' va') := by
    intro p' va' hpv
    rw [← State.pte_setSpt s p ((s.spt p).erase q) p' va']
    exact samePte_clear hpv
  obtain ⟨hnone, rfl⟩ | ⟨f, frame, hfr, hframe, ⟨h1, -, rfl⟩ | ⟨h1, rfl⟩⟩ := anonDestroy_cases hd
  · exact h.leave hq hpage (h.spts.destroyed hq hsame) hsame.spt rfl (fun q' hne => pages_freePage_ne hne) rfl hclear he
      (fun g fr hfr => ⟨(h.used g fr hfr).2, fr, hfr, rfl, rfl, .inl rfl⟩) fun _ _ _ _ _ _ _ _ => .inl rfl
  · have hqf : frameOf s q = some f := by simp [frameOf, hpage, hfr]
    have hcnt := h.cnt f frame hframe
    refine h.gone hq hpage hframe (fun p' q' hq' hq'f => ?_)
      (h.spts.destroyed hq (hsame.trans ⟨rfl, rfl, fun _ => rfl, fun _ => rfl⟩)) hsame.spt rfl
      (fun q' hne => pages_freePage_ne hne) rfl hclear he rfl rfl
    exact eq_of_count_le_one (S := tenants s none) (by omega) (h.spts.mem_tenants hq' (by simp)) hq'f
      (h.spts.mem_tenants hq (by simp)) hqf
  · refine h.leave hq hpage (h.spts.destroyed hq (hsame.trans ⟨rfl, rfl, fun _ => rfl, fun _ => rfl⟩)) hsame.spt rfl
      (fun q' hne => pages_freePage_ne hne) rfl hclear he (fun g fr hg => ?_) fun p' q' pg g hq' hne hpg hg => ?_
    · change Function.update s.frames f (some { frame with rCnt := frame.rCnt - 1 }) g = some fr at hg
      rw [Function.update_apply] at hg
      split at hg
      · rename_i hgf
        obtain rfl := Option.some.inj hg
        exact ⟨(h.used f frame hframe).2, frame, hgf ▸ hframe, rfl, rfl, .inr ⟨hgf ▸ hfr, rfl⟩⟩
      · exact ⟨(h.used g fr hg).2, fr, hg, rfl, rfl, .inl rfl⟩
    · by_cases hgf : g = f
      · subst hgf
        have hfile : pg.kind.isFile = false := by
          by_contra hkf
          exact hne (h.file_alone hq' (by simp) hpg (by simpa using hkf) hg hq (by simp) (by simp [frameOf, hpage, hfr])).symm
        refine .inr (.inl ⟨hfile, frame.rCnt - 1, ?_⟩)
        show Function.update s.frames g _ g = _
        rw [Function.update_self, show s.frames g = some frame from hframe]
        rfl
      · exact .inl (Function.update_of_ne hgf ..)

/-- `file_backed_destroy`: the frame goes with the page. -/
theorem Tenancy.destroyFile {aux : Option FileInfo} (h : Tenancy s none) (hq : q ∈ s.spt p)
    (hpage : s.pages q = some page) (hk : page.kind = .file aux)
    (hd : fileBackedDestroy (s.setSpt p ((s.spt p).erase q)) p q page aux = some s') :
    Tenancy (s'.freePage q) none := by
  obtain ⟨s₁, hw, hcase⟩ := fileBackedDestroy_cases hd
  obtain ⟨hs, hspt, hwpte⟩ := writeBack_spec hw
  have hsame : SameSpts (s.setSpt p ((s.spt p).erase q)) s₁ := .writeBack hw
  have he : ∀ {r : State}, (∀ p' va', r.pte p' va' = s₁.pte p' va') → ∀ p' va', ¬ (p' = p ∧ va' = page.va) →
      SamePte (s.pte p' va') ((pml4ClearPage r p page.va).pte p' va') := by
    intro r hr p' va' hpv
    obtain ⟨h₁, h₂, h₃⟩ := @samePte_clear r p' p page.va va' hpv
    obtain ⟨h₁', h₂', h₃'⟩ := hwpte p' va'
    rw [hr] at h₁ h₂ h₃
    rw [State.pte_setSpt] at h₁' h₂' h₃'
    exact ⟨h₁.trans h₁', h₂.trans h₂', h₃.trans h₃'⟩
  obtain ⟨hnone, rfl⟩ | ⟨f, frame, hfr, hframe, rfl⟩ := hcase
  · refine h.leave hq hpage (h.spts.destroyed hq (hsame.trans (.clear ..))) (fun p' => ?_) (by rw [hs]; rfl)
      (fun q' hne => by rw [pages_freePage_ne hne, hs]; rfl) (by rw [hs]; rfl) present_clear (he fun _ _ => rfl)
      (fun g fr hfr => ?_) fun _ _ _ _ _ _ _ _ => .inl (by rw [hs]; rfl)
    · exact (spt_pml4ClearPage ..).trans (hspt p')
    · have hfr : s.frames g = some fr := by
        rw [hs] at hfr
        exact hfr
      refine ⟨?_, fr, hfr, rfl, rfl, .inl rfl⟩
      rw [hs]
      exact (h.used g fr hfr).2
  · have hframe : s.frames f = some frame := by
      rw [hs] at hframe
      exact hframe
    refine h.gone hq hpage hframe (fun p' q' hq' hq'f => ?_) (h.spts.destroyed hq (hsame.trans ?_)) (fun p' => ?_)
      (by rw [hs]; rfl) (fun q' hne => ?_) (by rw [hs]; rfl) present_clear (he fun _ _ => rfl) (by rw [hs]; rfl)
      (by rw [hs]; rfl)
    · exact h.file_alone hq (by simp) hpage (by rw [hk]; rfl) hfr hq' (by simp) hq'f
    · have hpage₁ : s₁.pages q = some page := by
        rw [hs]
        exact hpage
      exact ⟨rfl, rfl, fun _ => spt_pml4ClearPage .., vaOf_update hpage₁ rfl rfl⟩
    · exact (spt_pml4ClearPage ..).trans (hspt p')
    · rw [pages_freePage_ne hne]
      show Function.update s₁.pages q _ q' = _
      rw [Function.update_of_ne hne, hs]
      rfl

theorem Tenancy.destroy (h : Tenancy s none) (hq : q ∈ s.spt p)
    (hd : vmDeallocPage (s.setSpt p ((s.spt p).erase q)) p q = some s') : Tenancy s' none := by
  simp only [vmDeallocPage, Option.bind_eq_bind, Option.bind_eq_some_iff, Option.some.injEq] at hd
  obtain ⟨page, hpage, s₂, hd, rfl⟩ := hd
  change s.pages q = some page at hpage
  cases hk : page.kind with
  | uninit type init aux =>
    simp only [Vm.destroy, hk, Option.some.injEq] at hd
    subst hd
    exact h.destroyUninit hq hpage (by rw [hk]; rfl)
  | anon i aux =>
    simp only [Vm.destroy, hk] at hd
    exact h.destroyAnon hq hpage hd
  | file aux =>
    simp only [Vm.destroy, hk] at hd
    exact h.destroyFile hq hpage hk hd

/-! ## The moves -/

/-- A mapped page that has not been touched is going to be read from its
file. -/
def Kind.loads : Kind → Bool
  | .uninit .file init _ => init
  | _ => true

/-- What a fault, a turn of a fork or of an exit comes down to. -/
inductive Move (s : State) : State → Prop
  | insert {p : Nat} {page : Page} (hp : p < s.nextPid) (h0 : page.va ≠ 0) (hnone : hashFind s p page.va = none)
    (hfr : page.frame = none) (hun : page.kind.isUninit = true) (hkind : page.kind.loads = true) :
    Move s (inserted s p page)
  | claim {s₁ s' : State} {p q kva : Nat} {page : Page} {b : Bool} (hq : q ∈ s.spt p) (hnone : page.frame = none)
    (hown : EvictOwn s p) (hr : Room s p s₁ kva)
    (h₁ : Tenancy s₁ (some q)) (hand : InHand s₁ kva) (hpage : s.pages q = some page) (hpage₁ : s₁.pages q = some page)
    (hfill : Filled (mapFrame s₁ p q page kva page.writable) q kva { page with frame := some s₁.nextFrame } b s') :
    Move s s'
  | wp {s₁ : State} {p q f kva : Nat} {page : Page} {old : Frame} (hq : q ∈ s.spt p)
    (hpage : s.pages q = some page) (hfr : page.frame = some f) (hold : s.frames f = some old)
    (hanon : page.kind.isAnon = true) (hown : EvictOwn (s.setFrame f { old with rCnt := old.rCnt - 1 }) p)
    (hr : Room (s.setFrame f { old with rCnt := old.rCnt - 1 }) p s₁ kva)
    (h₀ : Tenancy (s.setFrame f { old with rCnt := old.rCnt - 1 }) (some q)) (h₁ : Tenancy s₁ (some q))
    (hand : InHand s₁ kva) (hpage₁ : s₁.pages q = some page) :
    Move s ((mapFrame s₁ p q page kva true).setMem kva (s₁.mem old.kva))
  | share {p c q f : Nat} {src : Page} {frame : Frame} (hc : c < s.nextPid) (hq : q ∈ s.spt p)
    (hsrc : s.pages q = some src) (hanon : src.kind.isAnon = true) (hfr : src.frame = some f)
    (hframe : s.frames f = some frame) (hnone : hashFind s c src.va = none) : Move s (shared s c src f frame)
  | destroy {s' : State} {p q : Nat} (hq : q ∈ s.spt p)
    (hd : vmDeallocPage (s.setSpt p ((s.spt p).erase q)) p q = some s') : Move s s'

/-- One move after another, the owners of frames in order at every point. -/
inductive Moves : State → State → Prop
  | refl {s : State} (h : Tenancy s none) : Moves s s
  | cons {s t s' : State} (h : Tenancy s none) (hm : Move s t) (hms : Moves t s') : Moves s s'

theorem Moves.single (h : Tenancy s none) (hm : Move s s') (h' : Tenancy s' none) : Moves s s' := .cons h hm (.refl h')

theorem Moves.tenancy (hm : Moves s s') : Tenancy s' none := by
  induction hm with
  | refl h => exact h
  | cons _ _ _ ih => exact ih

theorem Moves.first (hm : Moves s s') : Tenancy s none := by
  cases hm with
  | refl h => exact h
  | cons h => exact h

/-! ## Each event -/

theorem Tenancy.moves_claim (h : Tenancy s none) (hq : q ∈ s.spt p) (hnone : frameOf s q = none) (hown : EvictOwn s p)
    (hc : vmDoClaimPage s p q = some (b, s')) : Moves s s' := by
  obtain ⟨s₁, kva, page, hr, h₁, hand, hpage, hpage₁, hfill, h'⟩ := h.claim hq hnone hown hc
  exact .single h (.claim hq (by simpa [frameOf, hpage] using hnone) hown hr h₁ hand hpage hpage₁ hfill) h'

theorem EvictOwn.inserted (h : EvictOwn s p) : EvictOwn (inserted s c page) p := by
  intro h0 v hv victim hvictim q hq
  have hmem := h h0 v hv victim hvictim q hq
  rw [spt_inserted]
  split
  · rename_i e
    exact List.mem_cons_of_mem _ (e ▸ hmem)
  · exact hmem

theorem Tenancy.moves_claimNew (h : Tenancy s none) (hp : p < s.nextPid) (h0 : page.va ≠ 0)
    (hnone : hashFind s p page.va = none) (hfr : page.frame = none) (hun : page.kind.isUninit = true)
    (hkind : page.kind.loads = true) (hown : EvictOwn s p)
    (hc : vmDoClaimPage (Vm.inserted s p page) p s.nextPage = some (b, s')) : Moves s s' := by
  refine .cons h (.insert hp h0 hnone hfr hun hkind) ((h.inserted hp h0 hnone hfr).moves_claim ?_ ?_ hown.inserted hc)
  · rw [spt_inserted, if_pos rfl]
    exact List.mem_cons_self
  · simp [frameOf, Vm.inserted, State.setSpt, State.setPage, hfr]

theorem Tenancy.moves_alloc {type : VmType} {writable init : Bool} {aux : Option FileInfo} (h : Tenancy s none)
    (hp : p < s.nextPid) (h0 : va ≠ 0) (hkind : (Kind.uninit type init aux).loads = true) :
    Moves s (vmAllocPageWithInitializer s p type va writable init aux).2 := by
  obtain hs | ⟨hnone, -, hs⟩ := vmAlloc_cases s p type va writable init aux
  · rw [hs]
    exact .refl h
  · rw [hs]
    exact .single h (.insert hp h0 hnone rfl rfl hkind) (h.inserted hp h0 hnone rfl)

theorem Tenancy.moves_fault {addr rsp : Nat} {write : Bool} (h : Tenancy s none) (hp : p < s.nextPid)
    (hown : OwnOk s (.fault p addr rsp write)) (hno : permits (s.pte p (addr / pgsize)) write = false)
    (hf : vmTryHandleFault s p addr rsp write (!(s.pte p (addr / pgsize)).present) = some (b, s')) : Moves s s' := by
  obtain ⟨-, rfl⟩ | ⟨q, page, hq, hpage, rfl, hpres, hw, hwp⟩ | ⟨q, hq, hpres, hc⟩ | ⟨-, hnone, hwin, rfl⟩ :=
    vmTryHandleFault_cases hf
  · exact .refl h
  · obtain ⟨hmem, page', hpage', hva⟩ := sptFindPage_some hq
    obtain rfl := Option.some.inj (hpage.symm.trans hpage')
    obtain ⟨page', hpage', f, hfr, old, hold⟩ := vmHandleWp_old hwp
    obtain rfl := Option.some.inj (hpage.symm.trans hpage')
    rw [← hva] at hno hpres
    have hro : (s.pte p page.va).writable = false := by
      simp only [Bool.not_eq_false'] at hpres
      simpa [permits, hpres] using hno
    obtain ⟨s₁, kva, hr, h₀, h₁, hand, hpage₁, hanon, rfl, h'⟩ :=
      h.wp hmem hpage hfr hold hw hro (hown (by simp [hq])) hwp
    refine .single h (.wp hmem hpage hfr hold hanon ?_ hr h₀ h₁ hand hpage₁) h'
    exact (hown (by simp [hq])).setFrame hold
  · obtain ⟨hmem, page, hpage, hva⟩ := sptFindPage_some hq
    refine h.moves_claim hmem ?_ (hown (by simp [hq])) hc
    cases hfr : page.frame with
    | none => simp [frameOf, hpage, hfr]
    | some f =>
      have := ((h.page p q hmem (by simp) page hpage).resident f hfr).2.1
      rw [hva] at this
      simp [this] at hpres
  · exact h.moves_alloc hp (inStackWindow_ne_zero hwin) rfl

theorem Tenancy.moves_copyPage (h : Tenancy s none) (hc : c < s.nextPid) (hq : q ∈ s.spt p)
    (hown : ∀ page ∈ s.pages q, page.kind.isFile = true → EvictOwn s c)
    (hkind : ∀ page ∈ s.pages q, page.kind.loads = true) (hcopy : copyPage s c q = some (b, s')) : Moves s s' := by
  obtain ⟨-, rfl⟩ | ⟨src, type, init, fi, hsrc, hk, hnone, -, rfl⟩ | ⟨src, fi, hsrc, hk, hnone, hclaim⟩ |
    ⟨src, f, frame, hsrc, hanon, hfr, hframe, hnone, -, rfl⟩ := copyPage_cases h.spts hq hcopy
  · exact .refl h
  · have h0 : src.va ≠ 0 := h.spts.va_ne_zero hq hsrc
    exact .single h (.insert hc h0 hnone rfl rfl (hk ▸ hkind src hsrc)) (h.inserted hc h0 hnone rfl)
  · have h0 : src.va ≠ 0 := h.spts.va_ne_zero hq hsrc
    refine h.moves_claimNew hc ?_ ?_ ?_ ?_ ?_ (hown src hsrc (by rw [hk]; rfl)) hclaim
    · exact h0
    · exact hnone
    · rfl
    · rfl
    · rfl
  · exact .single h (.share hc hq hsrc hanon hfr hframe hnone) (h.shared hc hq hsrc hanon hfr hframe hnone)

theorem Tenancy.moves_setupStack (h : Tenancy s none) (hp : p < s.nextPid) (hown : EvictOwn s p)
    (hs : setupStack s p = some (b, s')) : Moves s s' := by
  obtain ⟨-, rfl⟩ | ⟨hnone, hc⟩ := setupStack_cases hs
  · exact .refl h
  · exact h.moves_claimNew hp (by decide) hnone rfl rfl rfl hown hc

/-! ## The other events -/

theorem Tenancy.spawn (h : Tenancy s x) : Tenancy { s with nextPid := s.nextPid + 1 } x := by
  refine ⟨h.spts.spawn, fun p q hq hx page hpage => ?_, h.entry, h.used, h.page_lt, h.inj, h.back,
    fun f frame hframe => ?_⟩
  · exact (h.page p q hq hx page hpage).congr (.refl _) (fun _ _ => .inl rfl) (Nat.le_refl _)
  · rw [tenants, h.spts.sptPages_spawn]
    exact h.cnt f frame hframe

/-- `pml4_destroy` of a process without pages finds no entry present. -/
theorem Tenancy.reap_eq (h : Tenancy s none) (hnil : s.spt p = []) (hr : pml4Destroy s p = some s') :
    s' = { s with procs := Function.update s.procs p Proc.empty } := by
  have habsent : ∀ va, (s.pte p va).present = false := by
    intro va
    by_contra hpres
    obtain ⟨q, hq, -⟩ := h.entry p va (by simpa using hpres)
    rw [hnil] at hq
    cases hq
  rw [pml4Destroy_absent habsent, Option.some.injEq] at hr
  exact hr.symm

theorem Tenancy.reap (h : Tenancy s none) (hnil : s.spt p = []) :
    Tenancy { s with procs := Function.update s.procs p Proc.empty } none := by
  refine h.congr (.emptied hnil) rfl rfl rfl rfl fun p' va => ?_
  by_cases he : p' = p
  · subst he
    exact .inr ⟨hnil, by simp [State.pte, Proc.empty]⟩
  · refine .inl ?_
    rw [show State.pte { s with procs := Function.update s.procs p Proc.empty } p' va = s.pte p' va by
      simp [State.pte, Function.update_of_ne he]]
    exact .refl _

theorem tenancy_boot {frames slots : Nat} {mem : Nat → Bytes} {disk : Nat → Sector} {inodes : Nat → Inode} :
    Tenancy (boot frames slots mem disk inodes) none :=
  ⟨links_boot.spts, fun _ _ h => absurd h (List.not_mem_nil), fun _ _ h => absurd h Bool.false_ne_true,
    fun _ _ h => absurd h nofun, fun _ _ _ h => absurd h nofun, fun _ _ _ _ h => absurd h nofun,
    fun _ _ _ _ h => absurd h nofun, fun _ _ h => absurd h nofun⟩

end PintosKaist.Vm
