/-
No store through a mapped file is lost, over every run whose evictions take
pages of the process that is running. `file_backed_swap_out` looks for the
dirty bit in the page table of the running process: when it evicts a page of
another one it finds it clean, and the bytes are gone.
-/
import PintosKaist.Vm.Synced

namespace PintosKaist.Vm

variable {m : Mapping} {s s' s₁ : State} {last : Nat → Option Byte} {p c q f kva va : Nat} {page page' : Page}
  {fi : FileInfo} {b : Bool} {x : Option Nat}

/-! ## Moves -/

theorem Synced.insert (h : Synced m s last) (hs : Spts s) (hs' : Spts (inserted s p page))
    (hk : page.kind.loads = true) (hfile : page.kind.isFile = false) : Synced m (inserted s p page) last := by
  have hnew : (Vm.inserted s p page).pages s.nextPage = some page := by simp [Vm.inserted, State.setSpt, State.setPage]
  have hpte : ∀ p' va', (Vm.inserted s p page).pte p' va' = s.pte p' va' := fun _ _ => State.pte_setSpt ..
  refine h.change (q := s.nextPage) hs' (fun {p' q'} hne => ?_) (fun {q'} hne => ?_) (fun _ _ _ _ _ => Iff.rfl)
    (fun _ _ => by rw [hpte]) (fun _ _ => rfl) (fun hl => ?_) (fun hl => ?_) rfl fun _ hpage => ?_
  · rw [spt_inserted]
    split
    next he => simp [he, hne]
    next => rfl
  · simp [Vm.inserted, State.setSpt, State.setPage, Function.update_of_ne hne]
  · exact absurd (hs.lt _ _ hl.1) (Nat.lt_irrefl _)
  · exact absurd hl (Loaded.not_of_kind hnew hfile)
  · rw [hnew, Option.some.injEq] at hpage
    exact hpage ▸ hk

theorem Synced.claim (h : Synced m s last) (ht : Tenancy s none) (hq : q ∈ s.spt p) (hnone : page.frame = none)
    (hown : EvictOwn s p) (hr : Room s p s₁ kva) (h₁ : Tenancy s₁ (some q)) (hand : InHand s₁ kva)
    (hpage : s.pages q = some page) (hpage₁ : s₁.pages q = some page)
    (hfill : Filled (mapFrame s₁ p q page kva page.writable) q kva { page with frame := some s₁.nextFrame } b s') :
    Synced m s' last := by
  have hs₁ := h.room ht hown hr
  have hpg : (mapFrame s₁ p q page kva page.writable).pages q = some { page with frame := some s₁.nextFrame } := by
    simp [mapFrame]
  obtain ⟨page', hpages, hva, hfr, -, hun⟩ := hfill.isUninit hpg
  have hrest := hfill.rest
  refine hs₁.attach h₁ hand (by rwa [(SameSpts.room hr).spt]) hpage₁ (Loaded.not_of_frame hpage₁ hnone)
    ((SameSpts.mapFrame hpage₁).trans (.filled hfill hpg)) (by rw [hpages]; exact Function.update_idem ..) hva hfr
    (by rw [hrest]; rfl) (fun k hk => hfill.mem_ne hk) (by rw [hrest]; rfl) ?_ (fun p' va' hpv => ?_)
    (fun fi hk o ho hlt => hfill.bytes hpg ?_ hpages hk o ho hlt) (loads_of_not_uninit hun)
  · rw [hfill.pte, if_pos ⟨rfl, rfl⟩]
  · rw [hfill.pte, if_neg hpv]
  · show page.kind.loads = true
    exact h.loads hq hpage

theorem Synced.wp {old : Frame} (h : Synced m s last) (hq : q ∈ s.spt p)
    (hold : s.frames f = some old) (hanon : page.kind.isAnon = true)
    (hown : EvictOwn (s.setFrame f { old with rCnt := old.rCnt - 1 }) p)
    (hr : Room (s.setFrame f { old with rCnt := old.rCnt - 1 }) p s₁ kva)
    (h₀ : Tenancy (s.setFrame f { old with rCnt := old.rCnt - 1 }) (some q)) (h₁ : Tenancy s₁ (some q))
    (hand : InHand s₁ kva) (hpage₁ : s₁.pages q = some page) :
    Synced m ((mapFrame s₁ p q page kva true).setMem kva (s₁.mem old.kva)) last := by
  have hu : Synced m (s.setFrame f { old with rCnt := old.rCnt - 1 }) last :=
    h.same h₀.spts (fun _ => rfl) rfl (slot_recount hold rfl) (fun _ => rfl) (fun _ => rfl) rfl
  have hfile := Kind.not_file_of_anon hanon
  have hpte : ∀ p' va', ((mapFrame s₁ p q page kva true).setMem kva (s₁.mem old.kva)).pte p' va' =
      if p' = p ∧ va' = page.va then ⟨kva, true, true, false⟩ else s₁.pte p' va' := fun _ _ => pte_pml4SetPage ..
  refine (hu.room h₀ hown hr).attach h₁ hand (by rw [(SameSpts.room hr).spt]; exact hq) hpage₁
    (Loaded.not_of_kind hpage₁ hfile) ((SameSpts.mapFrame hpage₁).trans ⟨rfl, rfl, fun _ => rfl, fun _ => rfl⟩) rfl
    rfl rfl rfl (fun k hk => Function.update_of_ne hk ..) rfl ?_ (fun p' va' hpv => ?_) (fun fi hk => ?_) ?_
  · rw [hpte, if_pos ⟨rfl, rfl⟩]
  · rw [hpte, if_neg hpv]
  · rw [show page.kind = .file (some fi) from hk] at hfile
    cases hfile
  · exact loads_of_not_uninit (Kind.not_uninit_of_anon hanon)

theorem Synced.share {src : Page} {frame : Frame} (h : Synced m s last) (hs : Spts s)
    (hs' : Spts (shared s c src f frame)) (hframe : s.frames f = some frame) (hnone : hashFind s c src.va = none) :
    Synced m (shared s c src f frame) last := by
  have hnew : (shared s c src f frame).pages s.nextPage = some ⟨src.va, some f, src.writable, .anon none none⟩ := by
    simp [shared]
  refine h.change (q := s.nextPage) hs' (fun {p' q'} hne => ?_) (fun {q'} hne => ?_)
    (fun {p q' page g k} _ _ _ _ _ => ?_)
    (fun {p' q' va' fi k} _ hl => ?_) (fun _ _ => rfl) (fun hl => ?_) (fun hl => ?_) rfl fun _ hpage => ?_
  · rw [spt_shared]
    split
    next he => simp [he, hne]
    next => rfl
  · simp [shared, Function.update_of_ne hne]
  · rw [slot_recount hframe rfl]
  · rw [pte_shared, if_neg]
    rintro ⟨rfl, rfl⟩
    obtain ⟨hq', pg, -, hpg, hva, -⟩ := hl
    exact hashFind_none.mp hnone q' hq' (by rw [vaOf_eq hpg, hva])
  · exact absurd (hs.lt _ _ hl.1) (Nat.lt_irrefl _)
  · exact absurd hl (Loaded.not_of_kind hnew rfl)
  · rw [hnew, Option.some.injEq] at hpage
    exact hpage ▸ rfl

/-! ## A page goes -/

/-- A page that is not dirty leaves the table. -/
theorem Synced.leave (h : Synced m s last) (hs : Spts s) (hq : q ∈ s.spt p) (hs' : Spts s')
    (hspt : ∀ p', s'.spt p' = (s.setSpt p ((s.spt p).erase q)).spt p')
    (hpages : ∀ {q'}, q' ≠ q → s'.pages q' = s.pages q')
    (hslots : ∀ {p q' page f kva}, q' ≠ q → q' ∈ s.spt p → s.pages q' = some page → page.kind.isFile = true →
      page.frame = some f → (slot s' f = some (some q', kva) ↔ slot s f = some (some q', kva)))
    (hdirty : ∀ p va, (s'.pte p va).dirty = (s.pte p va).dirty)
    (hmem : ∀ {p q' va fi kva}, q' ≠ q → Loaded s p q' va fi kva → s'.mem kva = s.mem kva)
    (hclean : ∀ {p va fi kva}, Loaded s p q va fi kva → (s.pte p va).dirty = false)
    (hi : s'.inodes m.file = s.inodes m.file) : Synced m s' last := by
  have hgone : ∀ {p'}, q ∉ s'.spt p' := by
    intro p'
    rw [hspt]
    exact hs.notMem_erased hq p'
  refine h.change hs' (fun {p' q'} hne => ?_) hpages hslots (fun _ _ => hdirty ..) hmem hclean
    (fun hl => absurd hl.1 hgone) hi fun hq' => absurd hq' hgone
  rw [hspt]
  by_cases hp : p' = p
  · rw [hp, State.spt_setSpt_self, List.mem_erase_of_ne hne]
  · rw [State.spt_setSpt_ne _ _ hp]

theorem written_setSpt (l : List Nat) : written (s.setSpt p l) p va fi kva = (written s p va fi kva).setSpt p l := by
  simp [written, State.setSpt, State.setPte, State.pte]

/-- A write-back after the page was taken out of the table. -/
theorem writeBack_setSpt {aux : Option FileInfo} {l : List Nat} (h : writeBack (s.setSpt p l) p page aux = some s') :
    ∃ sw, writeBack s p page aux = some sw ∧ s' = sw.setSpt p l := by
  simp only [writeBack, Option.bind_eq_bind, Option.bind_eq_some_iff] at h ⊢
  obtain ⟨fi, rfl, h⟩ := h
  rw [State.pte_setSpt] at h
  split at h
  next hd =>
    simp only [Option.bind_eq_some_iff, Option.some.injEq] at h
    obtain ⟨frame, hframe, rfl⟩ := h
    refine ⟨written s p page.va fi frame.kva, ⟨fi, rfl, ?_⟩, written_setSpt l⟩
    rw [if_pos hd]
    simp only [Option.bind_eq_some_iff]
    exact ⟨frame, hframe, rfl⟩
  next hd =>
    obtain rfl := Option.some.inj h
    exact ⟨s, ⟨fi, rfl, by rw [if_neg hd]⟩, rfl⟩

/-- The write-back of a page of the table: it is clean after it, whether or not
it was resident. -/
theorem Synced.writeBackPage {aux : Option FileInfo} {sw : State} (h : Synced m s last) (ht : Tenancy s none)
    (hq : q ∈ s.spt p) (hpage : s.pages q = some page) (hk : page.kind = .file aux)
    (hw : Vm.writeBack s p page aux = some sw) :
    Synced m sw last ∧ ∀ {p va fi kva}, Loaded sw p q va fi kva → (sw.pte p va).dirty = false := by
  obtain ⟨hs, hspt, -⟩ := writeBack_spec hw
  have hcongr : ∀ {p q va fi kva}, Loaded sw p q va fi kva ↔ Loaded s p q va fi kva :=
    Loaded.congr hspt (by rw [hs]) (by rw [hs])
  obtain ⟨fi, rfl, hcase⟩ := writeBack_cases hw
  cases hf : page.frame with
  | none =>
    obtain ⟨-, rfl⟩ | ⟨-, f, -, hf', -⟩ := hcase
    · exact ⟨h, fun hl => absurd hl (Loaded.not_of_frame hpage hf)⟩
    · exact absurd (hf.symm.trans hf') (by simp)
  | some f =>
    obtain ⟨frame, -, -, hl⟩ := ht.loaded hq (by simp) hpage hk hf
    obtain ⟨hsw, hclean⟩ := h.writeBack ht hl hpage hw
    refine ⟨hsw, fun {p' va fi' kva} hl' => ?_⟩
    obtain rfl := ht.spts.apart p' p q (hcongr.mp hl').1 hq
    obtain ⟨-, rfl⟩ := (hcongr.mp hl').kind hpage
    exact hclean

/-- A frame that goes with a page of another process is no frame of a resident
file-backed page. -/
theorem Tenancy.frame_ne {p' q' g : Nat} (h : Tenancy s none) (hq : q ∈ s.spt p) (hpage : s.pages q = some page)
    (hfr : page.frame = some f) (hq' : q' ∈ s.spt p') (hpage' : s.pages q' = some page')
    (hfile : page'.kind.isFile = true) (hfr' : page'.frame = some g) (hne : q' ≠ q) : g ≠ f := by
  rintro rfl
  exact hne (h.file_alone hq' (by simp) hpage' hfile hfr' hq (by simp) (by simp [frameOf, hpage, hfr])).symm

/-- Its page of memory is none of theirs either. -/
theorem Tenancy.kva_ne {p' q' va' : Nat} {frame : Frame} (h : Tenancy s none) (hq : q ∈ s.spt p)
    (hpage : s.pages q = some page) (hfr : page.frame = some f) (hframe : s.frames f = some frame)
    (hl : Loaded s p' q' va' fi kva) (hne : q' ≠ q) : kva ≠ frame.kva := by
  obtain ⟨hq', page', g, hpage', -, hk, hfr', hslot⟩ := hl
  obtain ⟨frame', hframe', -, rfl⟩ := slot_some hslot
  intro he
  exact h.frame_ne hq hpage hfr hq' hpage' (by rw [hk]; rfl) hfr' hne (h.inj g f frame' frame hframe' hframe he)

theorem dirty_cleared {i : Option Nat} (p' va' : Nat) :
    ((cleared s p page i).pte p' va').dirty = (s.pte p' va').dirty := dirty_clear ..

/-- `anon_destroy` takes no frame of a file-backed page. -/
theorem Synced.destroyAnon {i : Option Nat} (h : Synced m s last) (ht : Tenancy s none)
    (ht' : Tenancy (s'.freePage q) none)
    (hq : q ∈ s.spt p) (hpage : s.pages q = some page) (hk : page.kind.isFile = false)
    (hd : anonDestroy (s.setSpt p ((s.spt p).erase q)) p page i = some s') : Synced m (s'.freePage q) last := by
  have hspt := (SameSpts.cleared (s.setSpt p ((s.spt p).erase q)) p page i).spt
  have hdirty : ∀ p' va', ((cleared (s.setSpt p ((s.spt p).erase q)) p page i).pte p' va').dirty =
      (s.pte p' va').dirty := fun p' va' => (dirty_cleared p' va').trans (congrArg _ (State.pte_setSpt ..))
  have hclean : ∀ {p va fi kva}, Loaded s p q va fi kva → (s.pte p va).dirty = false :=
    fun hl => absurd hl (Loaded.not_of_kind hpage hk)
  obtain ⟨-, rfl⟩ | ⟨f, frame, hfr, hframe, ⟨-, -, rfl⟩ | ⟨-, rfl⟩⟩ := anonDestroy_cases hd
  · exact h.leave ht.spts hq ht'.spts hspt pages_freePage_ne (fun _ _ _ _ _ => Iff.rfl) hdirty (fun _ _ => rfl) hclean rfl
  · refine h.leave ht.spts hq ht'.spts hspt pages_freePage_ne (fun hne hq' hpg hfile hpf => ?_) hdirty
      (fun hne hl => ?_) hclean rfl
    · show Option.map _ (Function.update s.frames f none _) = _ ↔ _
      rw [Function.update_of_ne (ht.frame_ne hq hpage hfr hq' hpg hfile hpf hne)]
      rfl
    · exact Function.update_of_ne (ht.kva_ne hq hpage hfr hframe hl hne) ..
  · refine h.leave ht.spts hq ht'.spts hspt pages_freePage_ne (fun _ _ _ _ _ => ?_) hdirty (fun _ _ => rfl) hclean rfl
    exact iff_of_eq (congrArg (· = _) (slot_recount (n := frame.rCnt - 1) hframe rfl _))

/-- `file_backed_destroy` writes the page back before its frame goes. -/
theorem Synced.destroyFile {aux : Option FileInfo} (h : Synced m s last) (ht : Tenancy s none)
    (ht' : Tenancy (s'.freePage q) none) (hq : q ∈ s.spt p) (hpage : s.pages q = some page) (hk : page.kind = .file aux)
    (hd : fileBackedDestroy (s.setSpt p ((s.spt p).erase q)) p q page aux = some s') : Synced m (s'.freePage q) last := by
  obtain ⟨s₁, hw₀, hcase⟩ := fileBackedDestroy_cases hd
  obtain ⟨sw, hw, rfl⟩ := writeBack_setSpt hw₀
  obtain ⟨hs, hspt, -⟩ := writeBack_spec hw
  obtain ⟨hsw, hclean⟩ := h.writeBackPage ht hq hpage hk hw
  have hsp := ht.spts.same (SameSpts.writeBack hw)
  have hpages : sw.pages = s.pages := by rw [hs]
  have hframes : sw.frames = s.frames := by rw [hs]
  have hqw : q ∈ sw.spt p := by rwa [hspt]
  rw [← hspt p] at hcase
  have hdirty : ∀ {r : State}, (∀ p' va', r.pte p' va' = (sw.setSpt p ((sw.spt p).erase q)).pte p' va') →
      ∀ p' va', ((pml4ClearPage r p page.va).pte p' va').dirty = (sw.pte p' va').dirty := by
    intro r hr p' va'
    rw [dirty_clear, hr, State.pte_setSpt]
  obtain ⟨-, rfl⟩ | ⟨f, frame, hfr, hframe, rfl⟩ := hcase
  · exact hsw.leave hsp hqw ht'.spts (spt_pml4ClearPage _ p page.va) pages_freePage_ne (fun _ _ _ _ _ => Iff.rfl)
      (hdirty fun _ _ => rfl) (fun _ _ => rfl) hclean rfl
  · have hframe : s.frames f = some frame := hframes ▸ hframe
    refine hsw.leave hsp hqw ht'.spts (fun p' => spt_pml4ClearPage _ p page.va p') (fun {q'} hne => ?_)
      (fun {p' q' pg g k} hne hq' hpg hfile hpf => ?_) (hdirty fun _ _ => rfl) (fun {p' q' va' fi' k} hne hl => ?_)
      hclean rfl
    · rw [pages_freePage_ne hne]
      exact Function.update_of_ne hne ..
    · show Option.map _ (Function.update sw.frames f none g) = _ ↔ _
      rw [hspt] at hq'
      rw [hpages] at hpg
      rw [Function.update_of_ne (ht.frame_ne hq hpage hfr hq' hpg hfile hpf hne)]
      rfl
    · exact Function.update_of_ne (ht.kva_ne hq hpage hfr hframe ((Loaded.congr hspt hpages hframes).mp hl) hne) ..

theorem Synced.destroy (h : Synced m s last) (ht : Tenancy s none) (ht' : Tenancy s' none) (hq : q ∈ s.spt p)
    (hd : vmDeallocPage (s.setSpt p ((s.spt p).erase q)) p q = some s') : Synced m s' last := by
  simp only [vmDeallocPage, Option.bind_eq_bind, Option.bind_eq_some_iff, Option.some.injEq] at hd
  obtain ⟨page, hpage, s₂, hd, rfl⟩ := hd
  change s.pages q = some page at hpage
  cases hk : page.kind with
  | uninit type init aux =>
    simp only [Vm.destroy, hk, Option.some.injEq] at hd
    subst hd
    exact h.leave ht.spts hq ht'.spts (fun _ => rfl) pages_freePage_ne (fun _ _ _ _ _ => Iff.rfl)
      (fun p' va' => congrArg _ (State.pte_setSpt ..)) (fun _ _ => rfl)
      (fun hl => absurd hl (Loaded.not_of_kind hpage (by rw [hk]; rfl))) rfl
  | anon i aux =>
    simp only [Vm.destroy, hk] at hd
    exact h.destroyAnon ht ht' hq hpage (by rw [hk]; rfl) hd
  | file aux =>
    simp only [Vm.destroy, hk] at hd
    exact h.destroyFile ht ht' hq hpage hk hd

theorem Move.synced (hm : Move s s') (ht : Tenancy s none) (ht' : Tenancy s' none) (h : Synced m s last) :
    Synced m s' last := by
  cases hm with
  | insert hp h0 hnone hfr hun hkind =>
    exact h.insert ht.spts ht'.spts hkind (Kind.not_file_of_uninit hun)
  | claim hq hnone hown hr h₁ hand hpage hpage₁ hfill => exact h.claim ht hq hnone hown hr h₁ hand hpage hpage₁ hfill
  | wp hq hpage hfr hold hanon hown hr h₀ h₁ hand hpage₁ => exact h.wp hq hold hanon hown hr h₀ h₁ hand hpage₁
  | share hc hq hsrc hanon hfr hframe hnone => exact h.share ht.spts ht'.spts hframe hnone
  | destroy hq hd => exact h.destroy ht ht' hq hd

/-- A run of moves keeps the bytes. -/
theorem Moves.synced (hm : Moves s s') (h : Synced m s last) : Synced m s' last := by
  induction hm with
  | refl _ => exact h
  | cons ht hmove hms ih => exact ih (hmove.synced ht hms.first h)

/-! ## Stores -/

/-- The file behind the page at `addr`, if it is file-backed by now. -/
def fileAt (s : State) (p addr : Nat) : Option FileInfo := do
  let q ← sptFindPage s p addr
  let page ← s.pages q
  match page.kind with
  | .file aux => aux
  | _ => none

/-- The last byte stored at each offset of the file through the mapping. -/
def record (m : Mapping) (s : State) (last : Nat → Option Byte) : Ev → Nat → Option Byte
  | .store p addr b =>
    match fileAt s p addr with
    | some fi =>
      if p = m.pid ∧ m.Has (addr / pgsize) fi ∧ (pgOfs addr).val < fi.readBytes then
        Function.update last (fi.ofs + pgOfs addr) (some b)
      else last
    | none => last
  | _ => last

/-- The `aux` an anonymous page still has from its uninit page. -/
def Kind.anonAux : Kind → Option FileInfo
  | .anon _ aux => aux
  | _ => none

/-- Nobody else writes the file: every store to a page of it goes through the
mapping, and no dirty page of a program loaded from it is unmapped. -/
def SoleWriter (m : Mapping) (s : State) : Ev → Prop
  | .store p addr _ => ∀ fi ∈ fileAt s p addr, fi.file = m.file → p = m.pid ∧ m.Has (addr / pgsize) fi
  | .munmap p va => (s.pte p va).dirty = true → ∀ q ∈ sptFindPage s p (va * pgsize), ∀ page ∈ s.pages q,
    ∀ fi ∈ page.kind.anonAux, fi.file ≠ m.file
  | _ => True

/-- The offset is where the store goes. -/
def Hits (m : Mapping) (s : State) (p addr i : Nat) : Prop :=
  ∃ fi, fileAt s p addr = some fi ∧ p = m.pid ∧ m.Has (addr / pgsize) fi ∧ (pgOfs addr).val < fi.readBytes ∧
    i = fi.ofs + pgOfs addr

theorem record_hit {addr i : Nat} {c : Byte} (h : Hits m s p addr i) :
    record m s last (.store p addr c) i = some c := by
  obtain ⟨fi, hfi, hp, hhas, ho, rfl⟩ := h
  simp only [record, hfi]
  rw [if_pos ⟨hp, hhas, ho⟩, Function.update_self]

theorem record_miss {addr i : Nat} {c : Byte} (h : ¬ Hits m s p addr i) :
    record m s last (.store p addr c) i = last i := by
  cases hfi : fileAt s p addr with
  | none => simp only [record, hfi]
  | some fi =>
    simp only [record, hfi]
    split
    next hin => exact Function.update_of_ne (fun he => h ⟨fi, hfi, hin.1, hin.2.1, hin.2.2, he⟩) ..
    next => rfl

/-- What a store that does not fault does. -/
structure Stored (s : State) (p addr : Nat) (c : Byte) (s' : State) : Prop where
  permits : permits (s.pte p (addr / pgsize)) true = true
  same : SameSpts s s'
  pages : s'.pages = s.pages
  frames : s'.frames = s.frames
  inodes : s'.inodes = s.inodes
  mem : ∀ k, k ≠ (s.pte p (addr / pgsize)).kva → s'.mem k = s.mem k
  byte : ∀ o, s'.mem (s.pte p (addr / pgsize)).kva o =
    if o = pgOfs addr then c else s.mem (s.pte p (addr / pgsize)).kva o
  dirty : ∀ p' va', (s'.pte p' va').dirty = if p' = p ∧ va' = addr / pgsize then true else (s.pte p' va').dirty

theorem storeByte_stored {addr : Nat} {c : Byte} (hs : storeByte s p addr c = some s') : Stored s p addr c s' := by
  simp only [storeByte, Option.ite_none_right_eq_some, Option.some.injEq] at hs
  obtain ⟨hperm, rfl⟩ := hs
  refine ⟨hperm, ⟨rfl, rfl, State.spt_setPte _ _ _ _, fun _ => rfl⟩, rfl, rfl, rfl, fun k hk => ?_, fun o => ?_,
    fun p' va' => ?_⟩
  · exact Function.update_of_ne hk ..
  · show Function.update s.mem _ _ _ o = _
    rw [Function.update_self, Function.update_apply]
  · rw [State.pte_setPte]
    split <;> rfl

/-- The page a store goes to owns the page of memory it writes. -/
theorem Tenancy.stored (h : Tenancy s none) (hp : permits (s.pte p va) true = true) :
    ∃ q page f frame, q ∈ s.spt p ∧ s.pages q = some page ∧ page.va = va ∧ page.frame = some f ∧
      s.frames f = some frame ∧ frame.page = some q ∧ frame.kva = (s.pte p va).kva := by
  simp only [permits, Bool.and_eq_true, Bool.not_true, Bool.false_or] at hp
  obtain ⟨q, hq, hva⟩ := h.entry p va hp.1
  obtain ⟨page, hpage, rfl⟩ := vaOf_some hva
  have hok := h.page p q hq (by simp) page hpage
  cases hf : page.frame with
  | none =>
    rw [hok.absent hf] at hp
    exact absurd hp.1 Bool.false_ne_true
  | some f =>
    obtain ⟨-, -, -, ⟨frame, hframe, hback, hkva, -⟩ | ⟨hro, -⟩⟩ := hok.resident f hf
    · exact ⟨q, page, f, frame, hq, hpage, rfl, hf, hframe, hback, hkva⟩
    · rw [hro] at hp
      exact absurd hp.2 Bool.false_ne_true

theorem Loaded.fileAt {addr : Nat} (h : Loaded s p q (addr / pgsize) fi kva) (hs : Spts s) :
    Vm.fileAt s p addr = some fi := by
  obtain ⟨hq, page, f, hpage, hva, hk, -⟩ := h
  have h0 : addr ≠ 0 := by
    rintro rfl
    exact hs.va_ne_zero hq hpage (by rw [hva, Nat.zero_div])
  have hfind : sptFindPage s p addr = some q := by
    rw [sptFindPage, if_neg h0]
    exact hs.hashFind_iff.mpr ⟨hq, by rw [vaOf_eq hpage, hva]⟩
  simp [Vm.fileAt, hfind, hpage, hk]

/-- The page at the address of a store is the one it goes to. -/
theorem Loaded.of_fileAt {addr : Nat} {frame : Frame} (hs : Spts s) (hq : q ∈ s.spt p) (hpage : s.pages q = some page)
    (hva : page.va = addr / pgsize) (hf : page.frame = some f) (hframe : s.frames f = some frame)
    (hback : frame.page = some q) (h : Vm.fileAt s p addr = some fi) :
    Loaded s p q (addr / pgsize) fi frame.kva := by
  simp only [Vm.fileAt, Option.bind_eq_bind, Option.bind_eq_some_iff] at h
  obtain ⟨q', hfind, page', hpage', hkind⟩ := h
  obtain ⟨hq', pg, hpg, hpva⟩ := sptFindPage_some hfind
  obtain rfl := Option.some.inj (hpage'.symm.trans hpg)
  obtain rfl := hs.eq_of_va hq hq' rfl hpage hpage' (hpva.trans hva.symm)
  obtain rfl := Option.some.inj (hpage.symm.trans hpage')
  refine ⟨hq, page, f, hpage, hva, ?_, hf, by rw [slot, hframe, ← hback]; rfl⟩
  cases hk : page.kind <;> simp [hk] at hkind
  rw [hkind]

/-- **A store** through the mapping is recorded, and every other one writes
somewhere else. -/
theorem Synced.store {addr : Nat} {c : Byte} (h : Synced m s last) (ht : Tenancy s none)
    (hsole : SoleWriter m s (.store p addr c)) (hs : storeByte s p addr c = some s') :
    Synced m s' (record m s last (.store p addr c)) := by
  have hst := storeByte_stored hs
  obtain ⟨q, page, f, frame, hq, hpage, hva, hf, hframe, hback, hkva⟩ := ht.stored hst.permits
  have hL : ∀ {p q va fi kva}, Loaded s' p q va fi kva ↔ Loaded s p q va fi kva :=
    Loaded.congr hst.same.spt hst.pages hst.frames
  -- the page of memory is that of `q`
  have hown : ∀ {p' q' va' fi}, Loaded s p' q' va' fi frame.kva → q' = q ∧ p' = p ∧ va' = addr / pgsize := by
    intro p' q' va' fi hl
    have hva' : s.pages q' = some page → page.va = va' := fun hpg => (hl.kind hpg).2
    obtain ⟨hq', -, g, -, -, -, -, hslot⟩ := hl
    obtain ⟨frame', hframe', hback', hk⟩ := slot_some hslot
    obtain rfl := ht.inj g f frame' frame hframe' hframe hk
    obtain rfl := Option.some.inj (hframe.symm.trans hframe')
    obtain rfl := Option.some.inj (hback'.symm.trans hback)
    exact ⟨rfl, ht.spts.apart p' p q' hq' hq, (hva' hpage).symm.trans hva⟩
  have hat : ∀ {fi}, Vm.fileAt s p addr = some fi → Loaded s p q (addr / pgsize) fi frame.kva :=
    Loaded.of_fileAt ht.spts hq hpage hva hf hframe hback
  have hlen : ∀ {i n : Nat}, n < (s'.inodes i).data.length → n < (s.inodes i).data.length := by
    intro i n hlt
    rwa [hst.inodes] at hlt
  refine ⟨fun {p' q' va' fi kva} hl hfile hd => ?_, fun {q' va' fi kva} hl hhas o b ho hlast hlt => ?_,
    fun i b hlast hlt => ?_, fun {p' q' pg} hq' hpg => ?_, by rw [hst.inodes]; exact h.allowed⟩
  · have hl := hL.mp hl
    rw [hst.dirty] at hd
    split at hd
    next he =>
      obtain ⟨rfl, rfl⟩ := he
      exact hsole fi (hl.fileAt ht.spts) hfile
    next => exact h.sole hl hfile hd
  · have hl := hL.mp hl
    have hkeep : ∀ {k}, k = s.mem kva o → last (fi.ofs + o) = some b → k = b := fun hk hlast =>
      hk.trans (h.mem hl hhas o b ho hlast (hlen hlt))
    by_cases hk : kva = frame.kva
    · obtain ⟨rfl, rfl, rfl⟩ := hown (hk ▸ hl)
      rw [hk, hkva, hst.byte, ← hkva]
      split
      next he =>
        rw [he, record_hit ⟨fi, hl.fileAt ht.spts, rfl, hhas, he ▸ ho, rfl⟩] at hlast
        exact Option.some.inj hlast
      next he =>
        rw [record_miss] at hlast
        · exact hkeep (by rw [hk]) hlast
        · rintro ⟨fi', hfi', -, -, -, heq⟩
          obtain rfl := Option.some.inj ((hl.fileAt ht.spts).symm.trans hfi')
          exact he (Fin.ext (Nat.add_left_cancel heq))
    · rw [record_miss] at hlast
      · exact hkeep (by rw [hst.mem kva (hkva ▸ hk)]) hlast
      · rintro ⟨fi', hfi', rfl, hhas', -, heq⟩
        obtain rfl := hhas.va_eq hhas' heq.symm
        exact hk ((hat hfi').eq_of_va hl ht.spts).2.2
  · rw [hst.inodes]
    by_cases hhit : Hits m s p addr i
    · -- the byte is in the page stored to, which is dirty now
      obtain ⟨fi, hfi, rfl, hhas, ho, rfl⟩ := hhit
      exact .inr ⟨q, _, fi, frame.kva, _, hL.mpr (hat hfi), hhas, by rw [hst.dirty, if_pos ⟨rfl, rfl⟩], ho, rfl⟩
    · rw [record_miss hhit] at hlast
      refine (h.file i b hlast (hlen hlt)).imp id ?_
      rintro ⟨q', va', fi, kva, o, hl, hhas, hd, ho, rfl⟩
      refine ⟨q', va', fi, kva, o, hL.mpr hl, hhas, ?_, ho, rfl⟩
      rw [hst.dirty, hd, ite_self]
  · exact h.loads (hst.same.spt p' ▸ hq') (hst.pages ▸ hpg)

/-! ## munmap -/

/-- An anonymous page that is written back goes to another file. -/
theorem Synced.writeElse {frame : Frame} (h : Synced m s last) (ht : Tenancy s x) (hq : q ∈ s.spt p)
    (hpage : s.pages q = some page) (hk : page.kind.isFile = false) (hne : fi.file ≠ m.file) :
    Synced m (written s p page.va fi frame.kva) last := by
  refine h.same (ht.spts.same ⟨rfl, rfl, State.spt_setPte _ _ _ _, fun _ => rfl⟩) (State.spt_setPte _ _ _ _) rfl
    (fun _ => rfl) (fun {p' q' va' fi' k} hl => ?_) (fun _ => rfl) ?_
  · rw [pte_written, if_neg]
    rintro ⟨rfl, rfl⟩
    obtain ⟨hq', pg, -, hpg, hva, hkind, -⟩ := hl
    obtain rfl := ht.spts.eq_of_va hq hq' rfl hpage hpg hva
    obtain rfl := Option.some.inj (hpage.symm.trans hpg)
    rw [hkind] at hk
    cases hk
  · rw [inodes_written, Function.update_of_ne (Ne.symm hne)]

/-- What `munmap_cleaner` does to a page that is not file-backed. -/
theorem Synced.writeBackElse {aux : Option FileInfo} {sw : State} (h : Synced m s last) (ht : Tenancy s none)
    (hq : q ∈ s.spt p) (hpage : s.pages q = some page) (hk : page.kind.isFile = false)
    (hsole : (s.pte p page.va).dirty = true → ∀ fi ∈ aux, page.kind.isUninit = false → fi.file ≠ m.file)
    (hw : Vm.writeBack s p page aux = some sw) : Synced m sw last := by
  obtain ⟨fi, rfl, ⟨-, rfl⟩ | ⟨hd, f, frame, hf, hframe, rfl⟩⟩ := writeBack_cases hw
  · exact h
  · obtain ⟨-, -, hun, -⟩ := (ht.page p q hq (by simp) page hpage).resident f hf
    exact h.writeElse ht hq hpage hk (hsole hd fi rfl hun)

theorem Synced.munmap (h : Synced m s last) (ht : Tenancy s none) (hsole : SoleWriter m s (.munmap p va))
    (hm : doMunmap s p va = some s') : Synced m s' last := by
  have ht' := ht.munmap hm
  simp only [doMunmap, Option.bind_eq_bind, Option.bind_eq_some_iff, Option.some.injEq] at hm
  obtain ⟨q, hfind, page, hpage, s₂, hw₀, rfl⟩ := hm
  obtain ⟨sw, hw, rfl⟩ := writeBack_setSpt hw₀
  obtain ⟨hq, page', hpage', hva⟩ := sptFindPage_some hfind
  obtain rfl := Option.some.inj (hpage.symm.trans hpage')
  rw [Nat.mul_div_cancel _ (by decide)] at hva
  subst hva
  obtain ⟨hs, hspt, -⟩ := writeBack_spec hw
  have hpages : sw.pages = s.pages := by rw [hs]
  have hqw : q ∈ sw.spt p := by rwa [hspt]
  have hkey : Synced m sw last ∧ ∀ {p va fi kva}, Loaded sw p q va fi kva → (sw.pte p va).dirty = false := by
    have helse {aux : Option FileInfo} : page.kind.isFile = false → Vm.writeBack s p page aux = some sw →
        (∀ fi, aux = some fi → page.kind.isUninit = false → fi ∈ page.kind.anonAux) →
        Synced m sw last ∧ ∀ {p va fi kva}, Loaded sw p q va fi kva → (sw.pte p va).dirty = false := by
      intro hfile hw haux
      refine ⟨h.writeBackElse ht hq hpage hfile (fun hd fi hfi hun => ?_) hw, fun hl => ?_⟩
      · exact hsole hd q hfind page hpage fi (haux fi hfi hun)
      · exact absurd hl (Loaded.not_of_kind (hpages ▸ hpage) hfile)
    cases hk : page.kind with
    | file aux =>
      simp only [hk] at hw
      exact h.writeBackPage ht hq hpage hk hw
    | uninit type init aux =>
      simp only [hk] at hw
      exact helse (by rw [hk]; rfl) hw fun _ _ hun => by simp [hk, Kind.isUninit] at hun
    | anon i aux =>
      simp only [hk] at hw
      exact helse (by rw [hk]; rfl) hw fun fi hfi _ => by simpa [hk, Kind.anonAux] using hfi
  rw [← hspt p] at ht' ⊢
  refine hkey.1.leave (ht.spts.same (SameSpts.writeBack hw)) hqw ht'.spts (spt_pml4ClearPage _ p page.va) (fun _ => rfl)
    (fun _ _ _ _ _ => Iff.rfl) (fun p' va' => ?_) (fun _ _ => rfl) hkey.2 rfl
  rw [dirty_clear, State.pte_setSpt]

/-! ## Every event -/

/-- `do_mmap` gives a page its file through the initializer. -/
def Ev.Loads : Ev → Prop
  | .alloc _ type _ _ init aux => (Kind.uninit type init aux).loads = true
  | _ => True

instance : ∀ e : Ev, Decidable e.Loads
  | .alloc _ type _ _ init aux => inferInstanceAs (Decidable ((Kind.uninit type init aux).loads = true))
  | .spawn | .setupStack _ | .load .. | .store .. | .fault .. | .copyPage .. | .munmap .. | .destroy .. | .reap _ =>
    inferInstanceAs (Decidable True)

instance : ∀ (m : Mapping) (s : State) (e : Ev), Decidable (SoleWriter m s e)
  | _, _, .store .. => inferInstanceAs (Decidable (∀ _ ∈ _, _ → _))
  | _, _, .munmap .. => inferInstanceAs (Decidable (_ → ∀ _ ∈ _, ∀ _ ∈ _, ∀ _ ∈ _, _))
  | _, _, .spawn | _, _, .alloc .. | _, _, .setupStack _ | _, _, .load .. | _, _, .fault .. | _, _, .copyPage ..
  | _, _, .destroy .. | _, _, .reap _ => inferInstanceAs (Decidable True)

theorem Tenancy.store {addr : Nat} {c : Byte} (h : Tenancy s none) (hs : storeByte s p addr c = some s') :
    Tenancy s' none := by
  simp only [storeByte] at hs
  split at hs
  · obtain rfl := Option.some.inj hs
    refine h.congr ⟨rfl, rfl, State.spt_setPte _ _ _ _, fun _ => rfl⟩ rfl rfl rfl rfl fun p' va' => .inl ?_
    rw [State.pte_setPte]
    split
    next he =>
      obtain ⟨rfl, rfl⟩ := he
      exact ⟨rfl, rfl, rfl⟩
    next => exact .refl _
  · cases hs

/-- **One step.** The bytes stored through the mapping come to the file. -/
theorem Synced.step {e : Ev} (h : Synced m s last) (ht : Tenancy s none) (hown : OwnOk s e) (hloads : e.Loads)
    (hsole : SoleWriter m s e) (hs : step s e = some s') : Tenancy s' none ∧ Synced m s' (record m s last e) := by
  have hmoves : Moves s s' → Tenancy s' none ∧ Synced m s' last := fun hm => ⟨hm.tenancy, hm.synced h⟩
  cases step_took hs with
  | spawn =>
    exact ⟨ht.spawn, h.same ht.spawn.spts (fun _ => rfl) rfl (fun _ => rfl) (fun _ => rfl) (fun _ => rfl) rfl⟩
  | alloc hp h0 => exact hmoves (ht.moves_alloc hp h0 hloads)
  | setupStack hp hst => exact hmoves (ht.moves_setupStack hp hown hst)
  | load => exact ⟨ht, h⟩
  | store hp hst => exact ⟨ht.store hst, h.store ht hsole hst⟩
  | fault hp hno hf => exact hmoves (ht.moves_fault hp hown hno hf)
  | copyPage hc hq hcopy => exact hmoves (ht.moves_copyPage hc hq hown (fun page hpage => h.loads hq hpage) hcopy)
  | munmap hp hm => exact ⟨ht.munmap hm, h.munmap ht hsole hm⟩
  | destroy hp hq hd =>
    have ht' := ht.destroy hq hd
    exact ⟨ht', h.destroy ht ht' hq hd⟩
  | @reap p _ hp hnil hr =>
    obtain rfl := ht.reap_eq hnil hr
    have ht' := ht.reap hnil
    refine ⟨ht', h.same ht'.spts (fun p' => ?_) rfl (fun _ => rfl) (fun {p' q va fi kva} hl => ?_) (fun _ => rfl) rfl⟩
    · exact (SameSpts.emptied hnil).spt p'
    · have hne : p' ≠ p := by
        rintro rfl
        rw [Loaded, hnil] at hl
        exact absurd hl.1 List.not_mem_nil
      simp [State.pte, Function.update_of_ne hne]

/-! ## Runs -/

/-- What a run stores through the mapping. -/
def stores (m : Mapping) : State → (Nat → Option Byte) → List Ev → Nat → Option Byte
  | _, last, [] => last
  | s, last, e :: es =>
    match step s e with
    | some s' => stores m s' (record m s last e) es
    | none => last

theorem Synced.run {es : List Ev} (h : Synced m s last) (ht : Tenancy s none) (hrun : Run.run Vm.step s es = some s')
    (hok : Run.Always Vm.step (fun s e => OwnOk s e ∧ e.Loads ∧ SoleWriter m s e) s es) :
    Synced m s' (stores m s last es) := by
  induction es generalizing s last with
  | nil =>
    simp only [Run.run_nil, Option.some.injEq] at hrun
    exact hrun ▸ h
  | cons e es ih =>
    obtain ⟨t, hstep, hrun⟩ := Run.run_cons.mp hrun
    obtain ⟨⟨hown, hloads, hsole⟩, hok⟩ := hok
    obtain ⟨ht', h'⟩ := h.step ht hown hloads hsole hstep
    simp only [stores, hstep]
    exact ih h' ht' hrun (hok t hstep)

theorem synced_boot {frames slots : Nat} {mem : Nat → Bytes} {disk : Nat → Sector} {inodes : Nat → Inode}
    (hallow : (inodes m.file).denyWrite = false) : Synced m (boot frames slots mem disk inodes) fun _ => none :=
  ⟨fun hl => absurd hl.1 List.not_mem_nil, fun hl => absurd hl.1 List.not_mem_nil, by simp,
    fun hq => absurd hq List.not_mem_nil, hallow⟩

/-- The byte is in no page of the mapping any more. -/
def Unmapped (m : Mapping) (s : State) (i : Nat) : Prop :=
  ∀ q ∈ s.spt m.pid, ∀ page ∈ s.pages q, ∀ fi, page.kind = .file (some fi) → m.Has page.va fi →
    ∀ o : Fin pgsize, o.val < fi.readBytes → i ≠ fi.ofs + o

/-- Offset 0 of the file at the first page of process 0. -/
def smallMapping : Mapping := ⟨0, 0, pgsize⟩

/-- No page of the table is file-backed. -/
def noFile (s : State) (p : Nat) : Bool := (s.spt p).all fun q => (s.pages q).all fun page => !page.kind.isFile

theorem unmapped_of_noFile {i : Nat} (h : noFile s m.pid = true) : Unmapped m s i := by
  intro q hq page hpage fi hk
  simp only [noFile, List.all_eq_true, Option.all_eq_true, Bool.not_eq_true'] at h
  exact absurd (h q hq page hpage) (by rw [hk]; exact nofun)

/-- With one frame, a process stores into its mapping, evicts the page, faults
it back in, stores again and unmaps it. -/
def storeEvictStore : List Ev :=
  [.spawn, .alloc 0 .file 1 true true (some smallFile), .fault 0 pgsize 0 true, .store 0 pgsize 9,
    .alloc 0 .anon 2 true false none, .fault 0 (2 * pgsize) 0 true, .fault 0 pgsize 0 true, .store 0 (pgsize + 1) 8,
    .munmap 0 1]

/-- With one frame, a process stores into its mapping, a second one evicts the
page and does not find it dirty, and the first reads the file anew. -/
def storeForeignEvict : List Ev :=
  [.spawn, .spawn, .alloc 0 .file 1 true true (some smallFile), .fault 0 pgsize 0 true, .store 0 pgsize 9,
    .alloc 1 .anon 1 true false none, .fault 1 pgsize 0 true, .alloc 0 .anon 2 true false none,
    .fault 0 (2 * pgsize) 0 true, .fault 0 pgsize 0 true, .munmap 0 1]

end PintosKaist.Vm
