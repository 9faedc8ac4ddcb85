/-
Who has which frame, over every run whose evictions take pages of the process
that is running, with forks, `munmap` and exits. A resident page owns its frame
or borrows it: `fork` gives the page of the child the frame of the parent's,
read-only, and when the parent's page is evicted the frame is gone and the
child's entry stays. A page that was unmapped keeps its frame and has left the
table.

`Tenancy` says that only the owner can write to a frame. One page may be exempt
while a call gives it a new frame.
-/
import PintosKaist.Vm.Wf

namespace PintosKaist.Vm

open Count

variable {s s' s₁ t : State} {p c q f kva va : Nat} {page page' : Page} {b : Bool} {x : Option Nat}

def Kind.isUninit : Kind → Bool
  | .uninit .. => true
  | _ => false

theorem Kind.not_file_of_anon {k : Kind} (h : k.isAnon = true) : k.isFile = false := by
  cases k with
  | anon => rfl
  | uninit | file => cases h

theorem Kind.not_uninit_of_anon {k : Kind} (h : k.isAnon = true) : k.isUninit = false := by
  cases k with
  | anon => rfl
  | uninit | file => cases h

theorem Kind.not_file_of_uninit {k : Kind} (h : k.isUninit = true) : k.isFile = false := by
  cases k with
  | uninit => rfl
  | anon | file => cases h

/-- The frame is the page's own, and the entry is writable if the page is. -/
def Owns (s : State) (p q : Nat) (page : Page) (f : Nat) : Prop :=
  ∃ frame, s.frames f = some frame ∧ frame.page = some q ∧ frame.kva = (s.pte p page.va).kva ∧
    (s.pte p page.va).writable = page.writable ∧ (page.kind.isFile = true → frame.rCnt = 1)

/-- The frame is that of another page, if it is still there. -/
def Borrows (s : State) (p q : Nat) (page : Page) (f : Nat) : Prop :=
  (s.pte p page.va).writable = false ∧ page.kind.isAnon = true ∧
    ∀ frame, s.frames f = some frame → frame.page ≠ some q ∧ frame.kva = (s.pte p page.va).kva

structure PageOk (s : State) (p q : Nat) (page : Page) : Prop where
  absent : page.frame = none → (s.pte p page.va).present = false
  resident : ∀ f, page.frame = some f → f < s.nextFrame ∧ (s.pte p page.va).present = true ∧
    page.kind.isUninit = false ∧ (Owns s p q page f ∨ Borrows s p q page f)

/-- The pages of all tables but the exempt one. -/
def tenants (s : State) (x : Option Nat) : Finset Nat := (sptPages s).filter fun q => x ≠ some q

structure Tenancy (s : State) (x : Option Nat) : Prop where
  spts : Spts s
  page : ∀ p, ∀ q ∈ s.spt p, x ≠ some q → ∀ page, s.pages q = some page → PageOk s p q page
  entry : ∀ p va, (s.pte p va).present = true → ∃ q ∈ s.spt p, vaOf s q = some va
  used : ∀ f frame, s.frames f = some frame → f < s.nextFrame ∧ s.userPool.bit frame.kva = true
  page_lt : ∀ f frame q, s.frames f = some frame → frame.page = some q → q < s.nextPage
  inj : ∀ f f' frame frame', s.frames f = some frame → s.frames f' = some frame' → frame.kva = frame'.kva → f = f'
  back : ∀ f frame p q, s.frames f = some frame → frame.page = some q → q ∈ s.spt p →
    x ≠ some q ∧ frameOf s q = some f
  cnt : ∀ f frame, s.frames f = some frame → (count (tenants s x) (frameOf s) (some f) : Int) ≤ frame.rCnt

/-- A page of memory in hand: no frame has it. -/
structure InHand (s : State) (kva : Nat) : Prop where
  used : s.userPool.bit kva = true
  nobody : ∀ f frame, s.frames f = some frame → frame.kva ≠ kva

/-- The entry, but for the dirty bit. -/
def SamePte (e e' : Pte) : Prop := e'.present = e.present ∧ e'.kva = e.kva ∧ e'.writable = e.writable

theorem SamePte.refl (e : Pte) : SamePte e e := ⟨rfl, rfl, rfl⟩

/-- What may become of the frame of a page that is left alone: nothing, another
count, or it is gone and was borrowed. -/
def FrameKept (s s' : State) (p q : Nat) (page : Page) (f : Nat) : Prop :=
  s'.frames f = s.frames f ∨
  (page.kind.isFile = false ∧ ∃ n, s'.frames f = (s.frames f).map fun frame => { frame with rCnt := n }) ∨
  (s'.frames f = none ∧ Borrows s p q page f)

theorem PageOk.congr (h : PageOk s p q page) (he : SamePte (s.pte p page.va) (s'.pte p page.va))
    (hf : ∀ f, page.frame = some f → FrameKept s s' p q page f) (hn : s.nextFrame ≤ s'.nextFrame) :
    PageOk s' p q page := by
  obtain ⟨he₁, he₂, he₃⟩ := he
  refine ⟨fun hnone => he₁.trans (h.absent hnone), fun f hpf => ?_⟩
  obtain ⟨hlt, hpres, hun, hhas⟩ := h.resident f hpf
  refine ⟨by omega, he₁.trans hpres, hun, ?_⟩
  simp only [Owns, Borrows, he₂, he₃]
  obtain hsame | ⟨hfile, n, hsame⟩ | ⟨hgone, hbor⟩ := hf f hpf
  · rw [hsame]
    exact hhas
  · obtain ⟨frame, hframe, hback, hk, hw, -⟩ | ⟨hw, ha, hall⟩ := hhas
    · exact .inl ⟨{ frame with rCnt := n }, by rw [hsame, hframe]; rfl, hback, hk, hw, by simp [hfile]⟩
    · refine .inr ⟨hw, ha, fun frame hframe => ?_⟩
      rw [hsame, Option.map_eq_some_iff] at hframe
      obtain ⟨frame', hframe', rfl⟩ := hframe
      exact hall frame' hframe'
  · obtain ⟨hw, ha, -⟩ := hbor
    exact .inr ⟨hw, ha, fun frame hframe => absurd (hgone.symm.trans hframe) (by simp)⟩

theorem mem_tenants : q ∈ tenants s x ↔ q ∈ sptPages s ∧ x ≠ some q := Finset.mem_filter

theorem Spts.mem_tenants (h : Spts s) (hq : q ∈ s.spt p) (hx : x ≠ some q) : q ∈ tenants s x :=
  Vm.mem_tenants.mpr ⟨h.mem_sptPages hq, hx⟩

theorem SameSpts.tenants (h : SameSpts s s') : tenants s' x = tenants s x := by
  rw [Vm.tenants, Vm.tenants, h.cells]

/-- A page of a table is there. -/
theorem Spts.exists_page (h : Spts s) (hq : q ∈ s.spt p) : ∃ page, s.pages q = some page := by
  obtain ⟨va, hva, -⟩ := h.live p q hq
  obtain ⟨page, hpage, -⟩ := vaOf_some hva
  exact ⟨page, hpage⟩

/-- Two pages of a table at one address are one. -/
theorem Spts.eq_of_va (h : Spts s) {p' q' : Nat} (hq : q ∈ s.spt p) (hq' : q' ∈ s.spt p') (hp : p' = p)
    (hpage : s.pages q = some page) (hpage' : s.pages q' = some page') (hva : page'.va = page.va) : q' = q := by
  subst hp
  exact h.keyed p' q' hq' q hq (by rw [vaOf_eq hpage, vaOf_eq hpage', hva])

/-- Dirty bits, memory and disks are nothing to it, nor are the entries of a
process without pages. -/
theorem Tenancy.congr (h : Tenancy s x) (hs : SameSpts s s') (hp : s'.pages = s.pages) (hf : s'.frames = s.frames)
    (hn : s'.nextFrame = s.nextFrame) (hu : s'.userPool = s.userPool)
    (he : ∀ p va, SamePte (s.pte p va) (s'.pte p va) ∨ s.spt p = [] ∧ (s'.pte p va).present = false) :
    Tenancy s' x where
  spts := h.spts.same hs
  page p q hq hx page hpage := by
    rw [hs.spt] at hq
    rw [hp] at hpage
    have hpte := (he p page.va).resolve_right fun hnil => by
      rw [hnil.1] at hq
      cases hq
    exact (h.page p q hq hx page hpage).congr hpte (fun f _ => .inl (by rw [hf])) (by rw [hn])
  entry p va hpres := by
    have hpte := (he p va).resolve_right fun hnil => by
      rw [hnil.2] at hpres
      cases hpres
    rw [hpte.1] at hpres
    obtain ⟨q, hq, hva⟩ := h.entry p va hpres
    exact ⟨q, by rwa [hs.spt], by rwa [hs.va]⟩
  used f frame hframe := by
    rw [hf] at hframe
    rw [hn, hu]
    exact h.used f frame hframe
  page_lt := by
    rw [hf, hs.page]
    exact h.page_lt
  inj := by
    rw [hf]
    exact h.inj
  back f frame p q hframe hback hq := by
    rw [hf] at hframe
    rw [hs.spt] at hq
    rw [frameOf, hp]
    exact h.back f frame p q hframe hback hq
  cnt f frame hframe := by
    rw [hf] at hframe
    rw [hs.tenants, show frameOf s' = frameOf s from funext fun q => by rw [frameOf, hp]; rfl]
    exact h.cnt f frame hframe

/-! ## Eviction -/

/-- An eviction by the owner of the page: the frame is gone, and so is the
entry. -/
theorem Tenancy.evict {v q' : Nat} {victim : Frame} (h : Tenancy s x) (hq' : q' ∈ s.spt p)
    (hvictim : s.frames v = some victim) (hback : victim.page = some q') (hpage : s.pages q' = some page)
    (hsame : SameSpts s t) (hpages : t.pages = Function.update s.pages q' (some page')) (hnone : page'.frame = none)
    (hva : page'.va = page.va) (hf : t.frames = Function.update s.frames v none) (hn : t.nextFrame = s.nextFrame)
    (hu : t.userPool = s.userPool) (hclear : (t.pte p page.va).present = false)
    (he : ∀ p' va', ¬ (p' = p ∧ va' = page.va) → SamePte (s.pte p' va') (t.pte p' va')) :
    Tenancy t x ∧ InHand t victim.kva := by
  obtain ⟨hxq, hqv⟩ := h.back v victim p q' hvictim hback hq'
  have hframes : ∀ f frame, t.frames f = some frame → f ≠ v ∧ s.frames f = some frame := by
    intro f frame hframe
    rw [hf, Function.update_apply] at hframe
    split at hframe
    · cases hframe
    · rename_i hne
      exact ⟨hne, hframe⟩
  have hfo : ∀ q, frameOf t q = if q = q' then none else frameOf s q := by
    intro q
    simp only [frameOf, hpages, Function.update_apply]
    split
    · exact hnone
    · rfl
  refine ⟨⟨h.spts.same hsame, fun p' q hq hx pg hpg => ?_, fun p' va' hpres => ?_, fun f frame hframe => ?_,
    fun f frame q hframe => hsame.page ▸ h.page_lt f frame q (hframes f frame hframe).2,
    fun f f' frame frame' hframe hframe' => h.inj f f' frame frame' (hframes f frame hframe).2
      (hframes f' frame' hframe').2,
    fun f frame p' q hframe hb hq => ?_, fun f frame hframe => ?_⟩, ?_, fun f frame hframe heq => ?_⟩
  · rw [hsame.spt] at hq
    by_cases hqq : q = q'
    · subst hqq
      obtain rfl := h.spts.apart p' p q hq hq'
      rw [hpages, Function.update_self, Option.some.injEq] at hpg
      subst hpg
      exact ⟨fun _ => hva ▸ hclear, fun f hpf => absurd (hnone.symm.trans hpf) (by simp)⟩
    · rw [hpages, Function.update_of_ne hqq] at hpg
      have hok := h.page p' q hq hx pg hpg
      refine hok.congr (he p' pg.va fun hpv => hqq ?_) (fun f hpf => ?_) (by rw [hn])
      · exact h.spts.eq_of_va hq' hq hpv.1 hpage hpg hpv.2
      · by_cases hfv : f = v
        · -- only the victim's page owned the frame
          subst hfv
          refine .inr (.inr ⟨by rw [hf, Function.update_self], ?_⟩)
          obtain ⟨-, -, -, ⟨frame, hframe, hb, -⟩ | hbor⟩ := hok.resident f hpf
          · obtain rfl := Option.some.inj (hvictim.symm.trans hframe)
            exact absurd (Option.some.inj (hb.symm.trans hback)) hqq
          · exact hbor
        · exact .inl (by rw [hf, Function.update_of_ne hfv])
  · have hpv : ¬ (p' = p ∧ va' = page.va) := by
      rintro ⟨rfl, rfl⟩
      rw [hclear] at hpres
      cases hpres
    rw [(he p' va' hpv).1] at hpres
    obtain ⟨q, hq, hqva⟩ := h.entry p' va' hpres
    exact ⟨q, by rwa [hsame.spt], by rwa [hsame.va]⟩
  · rw [hn, hu]
    exact h.used f frame (hframes f frame hframe).2
  · obtain ⟨hne, hframe⟩ := hframes f frame hframe
    rw [hsame.spt] at hq
    obtain ⟨hxq', hqf⟩ := h.back f frame p' q hframe hb hq
    have hqq : q ≠ q' := by
      rintro rfl
      exact hne (Option.some.inj (hqf.symm.trans hqv))
    exact ⟨hxq', by rw [hfo, if_neg hqq]; exact hqf⟩
  · refine Int.le_trans (Int.ofNat_le.mpr ?_) (h.cnt f frame (hframes f frame hframe).2)
    rw [hsame.tenants]
    refine count_le fun q hmem hq => ⟨hmem, ?_⟩
    rw [hfo] at hq
    split at hq
    · cases hq
    · exact hq
  · rw [hu]
    exact (h.used v victim hvictim).2
  · obtain ⟨hne, hframe⟩ := hframes f frame hframe
    exact hne (h.inj f v frame victim hframe hvictim heq)

theorem samePte_clear (hpv : ¬ ((p : Nat) = c ∧ va = f)) : SamePte (s.pte p va) ((pml4ClearPage s c f).pte p va) := by
  rw [pte_pml4ClearPage, if_neg hpv]
  exact .refl _

theorem present_clear : ((pml4ClearPage s p va).pte p va).present = false := by
  rw [pte_pml4ClearPage, if_pos ⟨rfl, rfl⟩]

/-- `vm_get_frame`, when the victim is a page of the process that is running. -/
theorem Tenancy.room (h : Tenancy s x) (hown : EvictOwn s p) (hr : Room s p s₁ kva) : Tenancy s₁ x ∧ InHand s₁ kva := by
  have hsame := SameSpts.room hr
  cases hr with
  | free hscan =>
    obtain ⟨-, hclear, rfl⟩ := Bitmap.scanAndFlip_some hscan
    have hne : ∀ f frame, s.frames f = some frame → frame.kva ≠ kva := by
      intro f frame hframe heq
      rw [← heq, (h.used f frame hframe).2] at hclear
      cases hclear
    refine ⟨⟨h.spts.same hsame, fun p q hq hx page hpage => ?_, h.entry, fun f frame hframe => ?_, h.page_lt, h.inj,
      h.back, h.cnt⟩, Bitmap.set_bit_self, hne⟩
    · exact (h.page p q hq hx page hpage).congr (.refl _) (fun _ _ => .inl rfl) (Nat.le_refl _)
    · exact ⟨(h.used f frame hframe).1, (Bitmap.set_bit_ne (hne f frame hframe)).trans (h.used f frame hframe).2⟩
  | anon hfull hlist hvictim hback hpage hframe hkind hslot =>
    have hmem := hown (Bitmap.free_eq_zero hfull) _ (by rw [hlist]; rfl) _ hvictim _ hback
    exact h.evict hmem hvictim hback hpage hsame rfl rfl rfl rfl rfl rfl present_clear fun _ _ hpv => samePte_clear hpv
  | file hfull hlist hvictim hback hpage hframe hkind hwrite =>
    have hmem := hown (Bitmap.free_eq_zero hfull) _ (by rw [hlist]; rfl) _ hvictim _ hback
    obtain ⟨hs, -, hpte⟩ := writeBack_spec hwrite
    refine h.evict hmem hvictim hback hpage hsame rfl rfl rfl rfl (by rw [hs]) (by rw [hs]) present_clear
      fun p' va' hpv => ?_
    obtain ⟨h₁, h₂, h₃⟩ := samePte_clear hpv
    obtain ⟨h₁', h₂', h₃'⟩ := hpte p' va'
    exact ⟨h₁.trans h₁', h₂.trans h₂', h₃.trans h₃'⟩

/-! ## A new frame -/

/-- When one entry is set, at a page of the table, every present entry is still
at a page of its table. -/
theorem Tenancy.entry_mapped {p' va' : Nat} (h : Tenancy s x) (hsame : SameSpts s t) (hq : q ∈ s.spt p)
    (hpage : s.pages q = some page) (he : ∀ p' va', ¬ (p' = p ∧ va' = page.va) → SamePte (s.pte p' va') (t.pte p' va'))
    (hpres : (t.pte p' va').present = true) : ∃ q' ∈ t.spt p', vaOf t q' = some va' := by
  by_cases hpv : p' = p ∧ va' = page.va
  · obtain ⟨rfl, rfl⟩ := hpv
    exact ⟨q, by rwa [hsame.spt], by rw [hsame.va, vaOf_eq hpage]⟩
  · rw [(he p' va' hpv).1] at hpres
    obtain ⟨q', hq', hva⟩ := h.entry p' va' hpres
    exact ⟨q', by rwa [hsame.spt], by rwa [hsame.va]⟩

/-- The exempt page gets the page of memory in hand, in a frame of its own. -/
theorem Tenancy.attach (h : Tenancy s (some q)) (hand : InHand s kva) (hq : q ∈ s.spt p)
    (hpage : s.pages q = some page) (hsame : SameSpts s t)
    (hpages : t.pages = Function.update s.pages q (some page')) (hva : page'.va = page.va)
    (hfr : page'.frame = some s.nextFrame) (hun : page'.kind.isUninit = false)
    (hf : t.frames = Function.update s.frames s.nextFrame (some ⟨kva, some q, 1⟩)) (hn : t.nextFrame = s.nextFrame + 1)
    (hu : t.userPool = s.userPool) (hmap : SamePte ⟨kva, true, page'.writable, false⟩ (t.pte p page.va))
    (he : ∀ p' va', ¬ (p' = p ∧ va' = page.va) → SamePte (s.pte p' va') (t.pte p' va')) : Tenancy t none := by
  have hframes : ∀ f frame, t.frames f = some frame →
      (f = s.nextFrame ∧ frame = ⟨kva, some q, 1⟩) ∨ (f ≠ s.nextFrame ∧ s.frames f = some frame) := by
    intro f frame hframe
    rw [hf, Function.update_apply] at hframe
    split at hframe
    · rename_i hfn
      exact .inl ⟨hfn, (Option.some.inj hframe).symm⟩
    · rename_i hfn
      exact .inr ⟨hfn, hframe⟩
  have hfo : ∀ q', frameOf t q' = if q' = q then some s.nextFrame else frameOf s q' := by
    intro q'
    simp only [frameOf, hpages, Function.update_apply]
    split
    · exact hfr
    · rfl
  -- the frames the other pages have are older
  have hold : ∀ q' ∈ sptPages s, q' ≠ q → frameOf s q' ≠ some s.nextFrame := by
    intro q' hq' hne hqf
    obtain ⟨p', -, hq'⟩ := mem_sptPages.mp hq'
    obtain ⟨pg, hpg⟩ := h.spts.exists_page hq'
    obtain ⟨hlt, -⟩ := (h.page p' q' hq' (fun e => hne (Option.some.inj e).symm) pg hpg).resident s.nextFrame
      (by simpa [frameOf, hpg] using hqf)
    omega
  refine ⟨h.spts.same hsame, fun p' q' hq' _ pg hpg => ?_, fun p' va' hpres => ?_, fun f frame hframe => ?_,
    fun f frame q' hframe hb => ?_, fun f f' frame frame' hframe hframe' heq => ?_,
    fun f frame p' q' hframe hb hq' => ⟨by simp, ?_⟩, fun f frame hframe => ?_⟩
  · rw [hsame.spt] at hq'
    by_cases hqq : q' = q
    · subst hqq
      obtain rfl := h.spts.apart p' p q' hq' hq
      rw [hpages, Function.update_self, Option.some.injEq] at hpg
      subst hpg
      refine ⟨fun hnone => absurd (hnone.symm.trans hfr) (by simp), fun f hpf => ?_⟩
      obtain rfl := Option.some.inj (hpf.symm.trans hfr)
      rw [hva]
      refine ⟨by omega, hmap.1, hun, .inl ⟨_, by rw [hf, Function.update_self], rfl, ?_, ?_, fun _ => rfl⟩⟩
      · rw [hva]
        exact hmap.2.1.symm
      · rw [hva]
        exact hmap.2.2
    · rw [hpages, Function.update_of_ne hqq] at hpg
      have hok := h.page p' q' hq' (fun e => hqq (Option.some.inj e).symm) pg hpg
      refine hok.congr (he p' pg.va fun hpv => hqq ?_) (fun f hpf => .inl ?_) (by omega)
      · exact h.spts.eq_of_va hq hq' hpv.1 hpage hpg hpv.2
      · have := (hok.resident f hpf).1
        rw [hf, Function.update_of_ne (by omega)]
  · exact h.entry_mapped hsame hq hpage he hpres
  · rw [hn, hu]
    obtain ⟨rfl, rfl⟩ | ⟨-, hframe⟩ := hframes f frame hframe
    · exact ⟨by omega, hand.used⟩
    · have := h.used f frame hframe
      exact ⟨by omega, this.2⟩
  · rw [hsame.page]
    obtain ⟨rfl, rfl⟩ | ⟨-, hframe⟩ := hframes f frame hframe
    · exact Option.some.inj hb ▸ h.spts.lt p q hq
    · exact h.page_lt f frame q' hframe hb
  · obtain ⟨rfl, rfl⟩ | ⟨-, hframe⟩ := hframes f frame hframe <;>
      obtain ⟨rfl, rfl⟩ | ⟨-, hframe'⟩ := hframes f' frame' hframe'
    · rfl
    · exact absurd heq.symm (hand.nobody f' frame' hframe')
    · exact absurd heq (hand.nobody f frame hframe)
    · exact h.inj f f' frame frame' hframe hframe' heq
  · rw [hfo]
    obtain ⟨rfl, rfl⟩ | ⟨-, hframe⟩ := hframes f frame hframe
    · rw [if_pos (Option.some.inj hb).symm]
    · rw [hsame.spt] at hq'
      obtain ⟨hne, hqf⟩ := h.back f frame p' q' hframe hb hq'
      rw [if_neg fun e => hne (by rw [e])]
      exact hqf
  · have hmem : ∀ q', q' ∈ tenants t none ↔ q' ∈ sptPages s := by
      intro q'
      rw [hsame.tenants, Vm.mem_tenants]
      exact and_iff_left (by simp)
    obtain ⟨rfl, rfl⟩ | ⟨hne, hframe⟩ := hframes f frame hframe
    · refine Int.ofNat_le.mpr (count_le_one (i := q) fun q' hq' hqf => ?_)
      by_contra hqq
      rw [hfo, if_neg hqq] at hqf
      exact hold q' ((hmem q').mp hq') hqq hqf
    · refine Int.le_trans (Int.ofNat_le.mpr (count_le fun q' hq' hqf => ?_)) (h.cnt f frame hframe)
      have hqq : q' ≠ q := by
        rintro rfl
        rw [hfo, if_pos rfl] at hqf
        exact hne (Option.some.inj hqf).symm
      rw [hfo, if_neg hqq] at hqf
      exact ⟨Vm.mem_tenants.mpr ⟨(hmem q').mp hq', fun e => hqq (Option.some.inj e).symm⟩, hqf⟩

/-- A page that has no frame may be exempt. -/
theorem Tenancy.but (h : Tenancy s none) (hnone : frameOf s q = none) : Tenancy s (some q) where
  spts := h.spts
  page p q' hq' _ := h.page p q' hq' (by simp)
  entry := h.entry
  used := h.used
  page_lt := h.page_lt
  inj := h.inj
  back f frame p q' hframe hback hq' := by
    obtain ⟨-, hqf⟩ := h.back f frame p q' hframe hback hq'
    refine ⟨fun e => ?_, hqf⟩
    rw [Option.some.inj e, hqf] at hnone
    cases hnone
  cnt f frame hframe := by
    refine Int.le_trans (Int.ofNat_le.mpr (count_le fun q' hq' hqf => ⟨?_, hqf⟩)) (h.cnt f frame hframe)
    exact mem_tenants.mpr ⟨(mem_tenants.mp hq').1, by simp⟩

/-- A file-backed page shares its frame with nobody. -/
theorem Tenancy.file_alone {p' q' : Nat} (h : Tenancy s x) (hq : q ∈ s.spt p) (hx : x ≠ some q)
    (hpage : s.pages q = some page) (hfile : page.kind.isFile = true) (hfr : page.frame = some f) (hq' : q' ∈ s.spt p')
    (hx' : x ≠ some q') (hqf : frameOf s q' = some f) : q' = q := by
  obtain ⟨-, -, -, ⟨frame, hframe, -, -, -, hone⟩ | ⟨-, hanon, -⟩⟩ := (h.page p q hq hx page hpage).resident f hfr
  · have hcnt := h.cnt f frame hframe
    rw [hone hfile] at hcnt
    exact eq_of_count_le_one (by omega) (h.spts.mem_tenants hq' hx') hqf (h.spts.mem_tenants hq hx)
      (by simp [frameOf, hpage, hfr])
  · exact absurd (hfile.symm.trans (Kind.not_file_of_anon hanon)) (by simp)

/-- A borrower lets go of the frame, and is exempt until it gets its own. -/
theorem Tenancy.unlink {old : Frame} (h : Tenancy s none) (hq : q ∈ s.spt p) (hpage : s.pages q = some page)
    (hfr : page.frame = some f) (hold : s.frames f = some old) (hbor : Borrows s p q page f) :
    Tenancy (s.setFrame f { old with rCnt := old.rCnt - 1 }) (some q) := by
  have hqf : frameOf s q = some f := by simp [frameOf, hpage, hfr]
  have hframes : ∀ g frame, (s.setFrame f { old with rCnt := old.rCnt - 1 }).frames g = some frame →
      ∃ frame', s.frames g = some frame' ∧ frame.kva = frame'.kva ∧ frame.page = frame'.page ∧
        (g ≠ f → frame.rCnt = frame'.rCnt) ∧ (g = f → frame.rCnt = frame'.rCnt - 1) := by
    intro g frame hframe
    simp only [State.setFrame, Function.update_apply] at hframe
    split at hframe
    · rename_i hgf
      obtain rfl := Option.some.inj hframe
      exact ⟨old, hgf ▸ hold, rfl, rfl, fun hne => absurd hgf hne, fun _ => rfl⟩
    · rename_i hgf
      exact ⟨frame, hframe, rfl, rfl, fun _ => rfl, fun e => absurd e hgf⟩
  refine ⟨h.spts.same ⟨rfl, rfl, fun _ => rfl, fun _ => rfl⟩, fun p' q' hq' hx pg hpg => ?_, h.entry,
    fun g frame hframe => ?_, fun g frame q' hframe hb => ?_, fun g g' frame frame' hframe hframe' heq => ?_,
    fun g frame p' q' hframe hb hq' => ?_, fun g frame hframe => ?_⟩
  · refine (h.page p' q' hq' (by simp) pg hpg).congr (.refl _) (fun g hpg' => ?_) (Nat.le_refl _)
    by_cases hgf : g = f
    · subst hgf
      have hfile : pg.kind.isFile = false := by
        by_contra hk
        have := h.file_alone hq' (by simp) hpg (by simpa using hk) hpg' hq (by simp) hqf
        exact hx (by rw [this])
      exact .inr (.inl ⟨hfile, old.rCnt - 1, by simp [State.setFrame, hold]⟩)
    · exact .inl (by simp [State.setFrame, Function.update_of_ne hgf])
  · obtain ⟨frame', hframe', hk, -⟩ := hframes g frame hframe
    rw [hk]
    exact h.used g frame' hframe'
  · obtain ⟨frame', hframe', -, hp, -⟩ := hframes g frame hframe
    exact h.page_lt g frame' q' hframe' (hp ▸ hb)
  · obtain ⟨frame₁, hframe₁, hk₁, -⟩ := hframes g frame hframe
    obtain ⟨frame₂, hframe₂, hk₂, -⟩ := hframes g' frame' hframe'
    exact h.inj g g' frame₁ frame₂ hframe₁ hframe₂ (hk₁ ▸ hk₂ ▸ heq)
  · obtain ⟨frame', hframe', -, hp, -⟩ := hframes g frame hframe
    obtain ⟨-, hq'f⟩ := h.back g frame' p' q' hframe' (hp ▸ hb) hq'
    refine ⟨fun e => ?_, hq'f⟩
    -- the borrower is in no back pointer
    obtain rfl := Option.some.inj e
    obtain rfl := Option.some.inj (hq'f.symm.trans hqf)
    exact (hbor.2.2 frame' hframe').1 (hp ▸ hb)
  · obtain ⟨frame', hframe', -, -, hne, heq⟩ := hframes g frame hframe
    have hcnt := h.cnt g frame' hframe'
    have hsub : ∀ i ∈ tenants s (some q), frameOf s i = some g → i ∈ tenants s none ∧ frameOf s i = some g :=
      fun i hi hif => ⟨mem_tenants.mpr ⟨(mem_tenants.mp hi).1, by simp⟩, hif⟩
    show (count (tenants s (some q)) (frameOf s) (some g) : Int) ≤ frame.rCnt
    by_cases hgf : g = f
    · subst hgf
      have hlt : count (tenants s (some q)) (frameOf s) (some g) < count (tenants s none) (frameOf s) (some g) :=
        count_lt hsub (h.spts.mem_tenants hq (by simp)) hqf fun hm => absurd rfl (mem_tenants.mp hm).2
      have := heq rfl
      omega
    · have hle := count_le hsub
      have := hne hgf
      omega

/-- The victim is the page its frame says. -/
theorem Tenancy.linked (h : Tenancy s x) (hown : EvictOwn s p) (h0 : s.userPool.free = 0) : VictimLinked s := by
  intro v hv victim hvictim q hq
  exact (h.back v victim p q hvictim hq (hown h0 v hv victim hvictim q hq)).2

/-- It is not the exempt page. -/
theorem Tenancy.pages_room (h : Tenancy s (some q)) (hown : EvictOwn s p) (hr : Room s p s₁ kva) :
    s₁.pages q = s.pages q := by
  refine hr.pages_ne fun h0 v hv victim hvictim hback => ?_
  exact (h.back v victim p q hvictim hback (hown h0 v hv victim hvictim q hback)).1 rfl

theorem Filled.isUninit (hf : Filled s q kva page b s') (hpage : s.pages q = some page) :
    ∃ page', s'.pages = Function.update s.pages q (some page') ∧ page'.va = page.va ∧ page'.frame = page.frame ∧
      page'.writable = page.writable ∧ page'.kind.isUninit = false := by
  have hinit : ∀ type aux, (pageInitializer type aux).isUninit = false := by
    intro type aux
    cases type <;> rfl
  have hself : ∀ {r : State}, r.pages = s.pages → r.pages = Function.update s.pages q (some page) := by
    intro r hr
    rw [hr, ← hpage, Function.update_eq_self]
  cases hf with
  | bare hkind => exact ⟨_, rfl, rfl, rfl, rfl, hinit ..⟩
  | load hkind => exact ⟨_, rfl, rfl, rfl, rfl, hinit ..⟩
  | swap hkind => exact ⟨_, rfl, rfl, rfl, rfl, rfl⟩
  | resident hkind => exact ⟨page, hself rfl, rfl, rfl, rfl, by rw [hkind]; rfl⟩
  | short hkind => exact ⟨page, hself rfl, rfl, rfl, rfl, by rw [hkind]; rfl⟩
  | reload hkind => exact ⟨page, hself rfl, rfl, rfl, rfl, by rw [hkind]; rfl⟩

/-- **A claim** of a page that is not resident. -/
theorem Tenancy.claim (h : Tenancy s none) (hq : q ∈ s.spt p) (hnone : frameOf s q = none) (hown : EvictOwn s p)
    (hc : vmDoClaimPage s p q = some (b, s')) :
    ∃ s₁ kva page, Room s p s₁ kva ∧ Tenancy s₁ (some q) ∧ InHand s₁ kva ∧ s.pages q = some page ∧
      s₁.pages q = some page ∧
      Filled (mapFrame s₁ p q page kva page.writable) q kva { page with frame := some s₁.nextFrame } b s' ∧
      Tenancy s' none := by
  obtain ⟨s₁, kva, page, hroom, hpage, hfill⟩ := vmDoClaimPage_cases (h.linked hown) hc
  obtain ⟨h₁, hand⟩ := (h.but hnone).room hown hroom
  have hpage₀ := ((h.but hnone).pages_room hown hroom).symm.trans hpage
  have hpg : (mapFrame s₁ p q page kva page.writable).pages q = some { page with frame := some s₁.nextFrame } := by
    simp [mapFrame]
  obtain ⟨page', hpages, hva, hfr, hw, hun⟩ := hfill.isUninit hpg
  have hrest := hfill.rest
  refine ⟨s₁, kva, page, hroom, h₁, hand, hpage₀, hpage, hfill, ?_⟩
  refine h₁.attach hand (by rwa [(SameSpts.room hroom).spt]) hpage ((SameSpts.mapFrame hpage).trans (.filled hfill hpg))
    (by rw [hpages]; exact Function.update_idem ..) hva hfr hun (by rw [hrest]; rfl) (by rw [hrest]; rfl)
    (by rw [hrest]; rfl) ?_ fun p' va' hpv => ?_
  · rw [hfill.pte, if_pos ⟨rfl, rfl⟩, hw]
    exact .refl _
  · rw [hfill.pte, if_neg hpv]
    exact .refl _

/-- A page that is resident at a writable address, but whose entry is
read-only, borrows. -/
theorem Tenancy.borrows (h : Tenancy s none) (hq : q ∈ s.spt p) (hpage : s.pages q = some page)
    (hfr : page.frame = some f) (hw : page.writable = true) (hro : (s.pte p page.va).writable = false) :
    Borrows s p q page f := by
  obtain ⟨-, -, -, ⟨frame, -, -, -, hwr, -⟩ | hbor⟩ := (h.page p q hq (by simp) page hpage).resident f hfr
  · rw [hro, hw] at hwr
    cases hwr
  · exact hbor

/-- **A write fault** on a page that borrows. -/
theorem Tenancy.wp {old : Frame} (h : Tenancy s none) (hq : q ∈ s.spt p) (hpage : s.pages q = some page)
    (hfr : page.frame = some f) (hold : s.frames f = some old) (hw : page.writable = true)
    (hro : (s.pte p page.va).writable = false) (hown : EvictOwn s p) (hwp : vmHandleWp s p q = some (b, s')) :
    ∃ s₁ kva, Room (s.setFrame f { old with rCnt := old.rCnt - 1 }) p s₁ kva ∧
      Tenancy (s.setFrame f { old with rCnt := old.rCnt - 1 }) (some q) ∧ Tenancy s₁ (some q) ∧ InHand s₁ kva ∧
      s₁.pages q = some page ∧ page.kind.isAnon = true ∧
      s' = (mapFrame s₁ p q page kva true).setMem kva (s₁.mem old.kva) ∧ Tenancy s' none := by
  have hbor := h.borrows hq hpage hfr hw hro
  have hu := h.unlink hq hpage hfr hold hbor
  have hown' := hown.setFrame hold
  obtain ⟨-, s₁, kva, page', hroom, hpage', rfl⟩ := vmHandleWp_cases hpage hfr hold (hu.linked hown') hwp
  obtain rfl := Option.some.inj (((hu.pages_room hown' hroom).symm.trans hpage').symm.trans hpage)
  obtain ⟨h₁, hand⟩ := hu.room hown' hroom
  refine ⟨s₁, kva, hroom, hu, h₁, hand, hpage', hbor.2.1, rfl, ?_⟩
  have hsame : SameSpts s₁ ((mapFrame s₁ p q page' kva true).setMem kva (s₁.mem old.kva)) :=
    (SameSpts.mapFrame hpage').trans ⟨rfl, rfl, fun _ => rfl, fun _ => rfl⟩
  have hun : page'.kind.isUninit = false := Kind.not_uninit_of_anon hbor.2.1
  have hpte : ∀ p' va', ((mapFrame s₁ p q page' kva true).setMem kva (s₁.mem old.kva)).pte p' va' =
      if p' = p ∧ va' = page'.va then ⟨kva, true, true, false⟩ else s₁.pte p' va' := fun _ _ => pte_pml4SetPage ..
  refine h₁.attach hand (by rw [(SameSpts.room hroom).spt]; exact hq) hpage' hsame rfl rfl rfl hun rfl rfl rfl ?_
    fun p' va' hpv => ?_
  · rw [hpte, if_pos ⟨rfl, rfl⟩]
    exact ⟨rfl, rfl, hw.symm⟩
  · rw [hpte, if_neg hpv]
    exact .refl _

/-! ## A page comes -/

/-- No entry where the table has no page. -/
theorem Tenancy.absent (h : Tenancy s x) (hnone : hashFind s p va = none) : (s.pte p va).present = false := by
  by_contra hpres
  obtain ⟨q, hq, hva⟩ := h.entry p va (by simpa using hpres)
  exact hashFind_none.mp hnone q hq hva

theorem sptPages_inserted (hp : p < s.nextPid) : sptPages (inserted s p page) = insert s.nextPage (sptPages s) := by
  ext q
  simp only [mem_sptPages, spt_inserted, Finset.mem_insert]
  constructor
  · rintro ⟨p', hp', hq⟩
    split at hq
    · rename_i e
      obtain rfl | hq := List.mem_cons.mp hq
      · exact .inl rfl
      · exact .inr ⟨p, hp, hq⟩
    · exact .inr ⟨p', hp', hq⟩
  · rintro (rfl | ⟨p', hp', hq⟩)
    · exact ⟨p, hp, by simp⟩
    · refine ⟨p', hp', ?_⟩
      split
      · rename_i e
        exact List.mem_cons_of_mem _ (e ▸ hq)
      · exact hq

/-- A new page, without a frame. -/
theorem Tenancy.inserted (h : Tenancy s none) (hp : p < s.nextPid) (h0 : page.va ≠ 0)
    (hnone : hashFind s p page.va = none) (hfr : page.frame = none) : Tenancy (inserted s p page) none := by
  have hpte : ∀ p' va', (Vm.inserted s p page).pte p' va' = s.pte p' va' := fun _ _ => State.pte_setSpt ..
  have hnew : (Vm.inserted s p page).pages s.nextPage = some page := by simp [Vm.inserted, State.setSpt, State.setPage]
  have hold : ∀ q, q ≠ s.nextPage → (Vm.inserted s p page).pages q = s.pages q := by
    intro q hq
    simp [Vm.inserted, State.setSpt, State.setPage, Function.update_of_ne hq]
  have hmem : ∀ p' q, q ∈ (Vm.inserted s p page).spt p' → (q = s.nextPage ∧ p' = p) ∨ (q ≠ s.nextPage ∧ q ∈ s.spt p') := by
    intro p' q hq
    rw [spt_inserted] at hq
    split at hq
    · rename_i e
      obtain rfl | hq := List.mem_cons.mp hq
      · exact .inl ⟨rfl, e⟩
      · exact .inr ⟨Nat.ne_of_lt (h.spts.lt p q hq), e ▸ hq⟩
    · exact .inr ⟨Nat.ne_of_lt (h.spts.lt p' q hq), hq⟩
  refine ⟨h.spts.inserted hp h0 hnone, fun p' q hq _ pg hpg => ?_, fun p' va' hpres => ?_, h.used,
    fun f frame q hframe hb => Nat.lt_succ_of_lt (h.page_lt f frame q hframe hb), h.inj,
    fun f frame p' q hframe hb hq => ⟨by simp, ?_⟩, fun f frame hframe => ?_⟩
  · obtain ⟨rfl, rfl⟩ | ⟨hne, hq⟩ := hmem p' q hq
    · obtain rfl := Option.some.inj (hnew.symm.trans hpg)
      refine ⟨fun _ => ?_, fun f hpf => absurd (hfr.symm.trans hpf) (by simp)⟩
      rw [hpte]
      exact h.absent hnone
    · rw [hold q hne] at hpg
      exact (h.page p' q hq (by simp) pg hpg).congr (by rw [hpte]; exact .refl _) (fun _ _ => .inl rfl) (Nat.le_refl _)
  · rw [hpte] at hpres
    obtain ⟨q, hq, hva⟩ := h.entry p' va' hpres
    refine ⟨q, ?_, by rwa [vaOf, hold q (Nat.ne_of_lt (h.spts.lt p' q hq))]⟩
    rw [spt_inserted]
    split
    · rename_i e
      exact List.mem_cons_of_mem _ (e ▸ hq)
    · exact hq
  · obtain ⟨rfl, rfl⟩ | ⟨hne, hq⟩ := hmem p' q hq
    · -- no frame has a page that was not there
      exact absurd (h.page_lt f frame _ hframe hb) (Nat.lt_irrefl _)
    · rw [frameOf, hold q hne]
      exact (h.back f frame p' q hframe hb hq).2
  · refine Int.le_trans (Int.ofNat_le.mpr (count_le fun q hq hqf => ?_)) (h.cnt f frame hframe)
    have hq := (mem_tenants.mp hq).1
    rw [sptPages_inserted hp, Finset.mem_insert] at hq
    obtain rfl | hq := hq
    · simp [frameOf, hnew, hfr] at hqf
    · have hne : q ≠ s.nextPage := by
        obtain ⟨p', -, hq'⟩ := mem_sptPages.mp hq
        exact Nat.ne_of_lt (h.spts.lt p' q hq')
      rw [frameOf, hold q hne] at hqf
      exact ⟨mem_tenants.mpr ⟨hq, by simp⟩, hqf⟩

/-- The page `d` of the child borrows the frame of an anonymous page. -/
theorem Tenancy.lend {d : Nat} {src : Page} {frame : Frame} (h : Tenancy s none) (hd : d ∈ s.spt c)
    (hpage : s.pages d = some page) (hnone : page.frame = none) (hanon : page.kind.isAnon = true) (hq : q ∈ s.spt p)
    (hsrc : s.pages q = some src) (hsrcAnon : src.kind.isAnon = true) (hsf : src.frame = some f)
    (hframe : s.frames f = some frame) (hsame : SameSpts s t)
    (hpages : t.pages = Function.update s.pages d (some { page with frame := some f }))
    (hf : t.frames = Function.update s.frames f (some { frame with rCnt := frame.rCnt + 1 }))
    (hn : t.nextFrame = s.nextFrame) (hu : t.userPool = s.userPool)
    (hmap : SamePte ⟨frame.kva, true, false, false⟩ (t.pte c page.va))
    (he : ∀ p' va', ¬ (p' = c ∧ va' = page.va) → SamePte (s.pte p' va') (t.pte p' va')) : Tenancy t none := by
  have hqf : frameOf s q = some f := by simp [frameOf, hsrc, hsf]
  have hdf : frameOf s d = none := by simp [frameOf, hpage, hnone]
  have hfo : ∀ q', frameOf t q' = if q' = d then some f else frameOf s q' := by
    intro q'
    simp only [frameOf, hpages, Function.update_apply]
    split <;> rfl
  have hframes : ∀ g fr, t.frames g = some fr → ∃ fr', s.frames g = some fr' ∧ fr.kva = fr'.kva ∧ fr.page = fr'.page ∧
      (g ≠ f → fr.rCnt = fr'.rCnt) ∧ (g = f → fr.rCnt = fr'.rCnt + 1) := by
    intro g fr hfr
    rw [hf, Function.update_apply] at hfr
    split at hfr
    · rename_i hgf
      obtain rfl := Option.some.inj hfr
      exact ⟨frame, hgf ▸ hframe, rfl, rfl, fun hne => absurd hgf hne, fun _ => rfl⟩
    · rename_i hgf
      exact ⟨fr, hfr, rfl, rfl, fun _ => rfl, fun e => absurd e hgf⟩
  refine ⟨h.spts.same hsame, fun p' q' hq' _ pg hpg => ?_, fun p' va' hpres => ?_, fun g fr hfr => ?_,
    fun g fr q' hfr hb => ?_, fun g g' fr fr' hfr hfr' heq => ?_, fun g fr p' q' hfr hb hq' => ⟨by simp, ?_⟩,
    fun g fr hfr => ?_⟩
  · rw [hsame.spt] at hq'
    by_cases hqd : q' = d
    · subst hqd
      obtain rfl := h.spts.apart p' c q' hq' hd
      rw [hpages, Function.update_self, Option.some.injEq] at hpg
      subst hpg
      refine ⟨by simp, fun g hg => ?_⟩
      obtain rfl := Option.some.inj hg
      refine ⟨hn ▸ (h.used f frame hframe).1, hmap.1, Kind.not_uninit_of_anon hanon,
          .inr ⟨hmap.2.2, hanon, fun fr hfr => ?_⟩⟩
      rw [hf, Function.update_self, Option.some.injEq] at hfr
      subst hfr
      refine ⟨fun hb => ?_, hmap.2.1.symm⟩
      rw [(h.back f frame p' q' hframe hb hd).2] at hdf
      cases hdf
    · rw [hpages, Function.update_of_ne hqd] at hpg
      have hok := h.page p' q' hq' (by simp) pg hpg
      refine hok.congr (he p' pg.va fun hpv => hqd ?_) (fun g hg => ?_) (by rw [hn])
      · exact h.spts.eq_of_va hd hq' hpv.1 hpage hpg hpv.2
      · by_cases hgf : g = f
        · subst hgf
          have hfile : pg.kind.isFile = false := by
            by_contra hk
            obtain rfl := h.file_alone hq' (by simp) hpg (by simpa using hk) hg hq (by simp) hqf
            obtain rfl := Option.some.inj (hpg.symm.trans hsrc)
            exact hk (Kind.not_file_of_anon hsrcAnon)
          exact .inr (.inl ⟨hfile, frame.rCnt + 1, by rw [hf, Function.update_self, hframe]; rfl⟩)
        · exact .inl (by rw [hf, Function.update_of_ne hgf])
  · exact h.entry_mapped hsame hd hpage he hpres
  · obtain ⟨fr', hfr', hk, -⟩ := hframes g fr hfr
    rw [hn, hu, hk]
    exact h.used g fr' hfr'
  · obtain ⟨fr', hfr', -, hp, -⟩ := hframes g fr hfr
    rw [hsame.page]
    exact h.page_lt g fr' q' hfr' (hp ▸ hb)
  · obtain ⟨fr₁, hfr₁, hk₁, -⟩ := hframes g fr hfr
    obtain ⟨fr₂, hfr₂, hk₂, -⟩ := hframes g' fr' hfr'
    exact h.inj g g' fr₁ fr₂ hfr₁ hfr₂ (hk₁ ▸ hk₂ ▸ heq)
  · obtain ⟨fr', hfr', -, hp, -⟩ := hframes g fr hfr
    rw [hsame.spt] at hq'
    have hq'f := (h.back g fr' p' q' hfr' (hp ▸ hb) hq').2
    have hne : q' ≠ d := by
      rintro rfl
      cases hdf.symm.trans hq'f
    rw [hfo, if_neg hne]
    exact hq'f
  · obtain ⟨fr', hfr', -, -, hne, heq⟩ := hframes g fr hfr
    have hcnt := h.cnt g fr' hfr'
    have hcount := count_update (S := tenants s none) (g := frameOf s) (i := d) (c := some f) (b := some g)
      (h.spts.mem_tenants hd (by simp))
    rw [hsame.tenants, show frameOf t = Function.update (frameOf s) d (some f) from
      funext fun q' => by rw [hfo, Function.update_apply]]
    simp only [hdf, reduceCtorEq, if_false, Nat.add_zero, Option.some.injEq] at hcount
    by_cases hgf : g = f
    · have := heq hgf
      rw [if_pos hgf.symm] at hcount
      omega
    · have := hne hgf
      rw [if_neg (Ne.symm hgf)] at hcount
      omega

/-- **One turn of the fork** on an anonymous page. -/
theorem Tenancy.shared {src : Page} {frame : Frame} (h : Tenancy s none) (hc : c < s.nextPid) (hq : q ∈ s.spt p)
    (hsrc : s.pages q = some src) (hanon : src.kind.isAnon = true) (hfr : src.frame = some f)
    (hframe : s.frames f = some frame) (hnone : hashFind s c src.va = none) :
    Tenancy (shared s c src f frame) none := by
  have hne : q ≠ s.nextPage := Nat.ne_of_lt (h.spts.lt p q hq)
  have h0 : src.va ≠ 0 := h.spts.va_ne_zero hq hsrc
  have hins : Tenancy (Vm.inserted s c ⟨src.va, none, src.writable, .anon none none⟩) none := h.inserted hc h0 hnone rfl
  have hq' : q ∈ (Vm.inserted s c ⟨src.va, none, src.writable, .anon none none⟩).spt p := by
    rw [spt_inserted]
    split
    · rename_i e
      exact List.mem_cons_of_mem _ (e ▸ hq)
    · exact hq
  have hd : s.nextPage ∈ (Vm.inserted s c ⟨src.va, none, src.writable, .anon none none⟩).spt c := by
    rw [spt_inserted, if_pos rfl]
    exact List.mem_cons_self
  have hdpage : (Vm.inserted s c ⟨src.va, none, src.writable, .anon none none⟩).pages s.nextPage =
      some ⟨src.va, none, src.writable, .anon none none⟩ := by
    simp [Vm.inserted, State.setSpt, State.setPage]
  have hsrc' : (Vm.inserted s c ⟨src.va, none, src.writable, .anon none none⟩).pages q = some src := by
    simp [Vm.inserted, State.setSpt, State.setPage, Function.update_of_ne hne, hsrc]
  refine hins.lend hd hdpage rfl rfl hq' hsrc' hanon hfr hframe .shared ?_ rfl rfl rfl ?_
    fun p' va' hpv => ?_
  · show Function.update s.pages _ _ = Function.update (Function.update s.pages _ _) _ _
    rw [Function.update_idem]
  · rw [pte_shared, if_pos ⟨rfl, rfl⟩]
    exact .refl _
  · rw [pte_shared, if_neg hpv]
    show SamePte ((Vm.inserted s c _).pte p' va') _
    rw [show (Vm.inserted s c ⟨src.va, none, src.writable, .anon none none⟩).pte p' va' = s.pte p' va' from
      State.pte_setSpt ..]
    exact .refl _

end PintosKaist.Vm
