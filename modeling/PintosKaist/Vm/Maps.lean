/-
Page tables against supplemental page tables. `Ptes` says that an entry is
present exactly when the table has a resident page at the address, and then
maps that page's frame; one entry may be exempt while a call is rewriting it.
`Pool` says that the pages taken from the user pool are those of the frames on
the list, and the one a call has in hand.
-/
import PintosKaist.Vm.LinksRuns

namespace PintosKaist.Vm

variable {s s' s₁ : State} {p c q f kva va : Nat} {page : Page} {b rw : Bool} {x : Option (Nat × Nat)}

/-- The page of memory behind a page. -/
def kvaOf (s : State) (q : Nat) : Option Nat := (frameOf s q).bind fun f => (s.frames f).map (·.kva)

/-- The page of memory an entry maps. -/
def mapsTo (e : Pte) : Option Nat := if e.present then some e.kva else none

/-- The entries, but for the one at `x`. -/
def Ptes (s : State) (x : Option (Nat × Nat)) : Prop :=
  ∀ p va, x ≠ some (p, va) → mapsTo (s.pte p va) = (hashFind s p va).bind (kvaOf s)

/-- The pages of the pool in use. -/
structure Pool (s : State) (held : Option Nat) : Prop where
  inj : ∀ f ∈ s.frameList, ∀ f' ∈ s.frameList, ∀ frame frame', s.frames f = some frame →
    s.frames f' = some frame' → frame.kva = frame'.kva → f = f'
  used : ∀ f ∈ s.frameList, ∀ frame, s.frames f = some frame →
    frame.kva < s.userPool.size ∧ s.userPool.bit frame.kva = true ∧ held ≠ some frame.kva
  hand : ∀ k, held = some k → k < s.userPool.size ∧ s.userPool.bit k = true
  full : ∀ k < s.userPool.size, s.userPool.bit k = true →
    held = some k ∨ ∃ f ∈ s.frameList, ∃ frame, s.frames f = some frame ∧ frame.kva = k

theorem Ptes.but (h : Ptes s none) : Ptes s x := fun p va _ => h p va (by simp)

theorem kvaOf_eq {frame : Frame} (hpage : s.pages q = some page) (hf : page.frame = some f)
    (hframe : s.frames f = some frame) : kvaOf s q = some frame.kva := by
  simp [kvaOf, frameOf, hpage, hf, hframe]

/-- A frame whose page of memory is the same answers the same. -/
theorem kvaOf_congr (hp : frameOf s' q = frameOf s q)
    (hf : ∀ f, frameOf s q = some f → (s'.frames f).map (·.kva) = (s.frames f).map (·.kva)) :
    kvaOf s' q = kvaOf s q := by
  unfold kvaOf
  rw [hp]
  cases hq : frameOf s q with
  | none => rfl
  | some f => exact hf f hq

/-- Entries that map the same, of tables that are the same, over pages whose
memory is the same. -/
theorem Ptes.congr (h : Ptes s x) (hs : SameSpts s s') (he : ∀ p va, mapsTo (s'.pte p va) = mapsTo (s.pte p va))
    (hk : ∀ p, ∀ q ∈ s.spt p, kvaOf s' q = kvaOf s q) : Ptes s' x := by
  intro p va hx
  rw [he, hashFind_same hs, h p va hx]
  cases hfind : hashFind s p va with
  | none => rfl
  | some q => exact (hk p q (hashFind_some hfind).1).symm

/-! ## Room -/

/-- An eviction takes a page of the process that is running. -/
def EvictOwn (s : State) (p : Nat) : Prop :=
  s.userPool.free = 0 → ∀ v ∈ s.frameList.head?, ∀ victim ∈ s.frames v, ∀ q ∈ victim.page, q ∈ s.spt p

/-- A reference less makes no frame another's. -/
theorem EvictOwn.setFrame {f : Nat} {old : Frame} (h : EvictOwn s p) (hold : s.frames f = some old) :
    EvictOwn (s.setFrame f { old with rCnt := old.rCnt - 1 }) p := by
  intro h0 v hv victim hvictim q' hq'
  simp only [State.setFrame, Function.update_apply, Option.mem_def] at hvictim
  split at hvictim
  · rename_i hvf
    obtain rfl := Option.some.inj hvictim
    exact h h0 v hv old (hvf ▸ hold) q' hq'
  · exact h h0 v hv victim hvictim q' hq'

/-- The other pages that have the frame to be evicted: none, or the exempt
one. -/
def EvictAlone (s : State) (x : Option (Nat × Nat)) : Prop :=
  s.userPool.free = 0 → ∀ v ∈ s.frameList.head?, ∀ victim ∈ s.frames v, ∀ q ∈ victim.page,
    ∀ p' q' va', q' ∈ s.spt p' → vaOf s q' = some va' → frameOf s q' = some v → q' = q ∨ x = some (p', va')

theorem Links.evictAlone (h : Links s) (hok : EvictOk s) : EvictAlone s x := by
  intro h0 v hv victim hvictim q hq p' q' va' hq' _ hf
  obtain ⟨hlink, h1⟩ := hok h0 v hv victim hvictim q hq
  exact .inl (h.sole (h.back_mem (List.mem_of_mem_head? hv) hvictim hq) hlink hvictim h1 (h.spts.mem_sptPages hq') hf)

/-- What an eviction does to the entries: that of the victim's page is
cleared. -/
theorem Ptes.evict {v q' : Nat} {page : Page} (h : Ptes s x) (hs : Spts s) (hown : q' ∈ s.spt p)
    (hpage : s.pages q' = some page)
    (halone : ∀ p' q va', q ∈ s.spt p' → vaOf s q = some va' → frameOf s q = some v → q = q' ∨ x = some (p', va'))
    (hsame : SameSpts s s₁) (hnone : frameOf s₁ q' = none) (hp : ∀ q, q ≠ q' → frameOf s₁ q = frameOf s q)
    (hf : ∀ f, f ≠ v → s₁.frames f = s.frames f)
    (he : ∀ p' va', mapsTo (s₁.pte p' va') = if p' = p ∧ va' = page.va then none else mapsTo (s.pte p' va')) :
    Ptes s₁ x := by
  intro p' va' hx
  rw [he, hashFind_same hsame]
  by_cases hpv : p' = p ∧ va' = page.va
  · obtain ⟨rfl, rfl⟩ := hpv
    rw [if_pos ⟨rfl, rfl⟩, hs.hashFind_iff.mpr ⟨hown, vaOf_eq hpage⟩]
    simp [kvaOf, hnone]
  · rw [if_neg hpv, h p' va' hx]
    cases hfind : hashFind s p' va' with
    | none => rfl
    | some q =>
      obtain ⟨hq, hva⟩ := hs.hashFind_iff.mp hfind
      have hne : q ≠ q' := by
        rintro rfl
        exact hpv ⟨hs.apart p' p q hq hown, Option.some.inj (hva.symm.trans (vaOf_eq hpage))⟩
      refine (kvaOf_congr (hp q hne) fun f hqf => ?_).symm
      rw [hf f ?_]
      rintro rfl
      exact (halone p' q va' hq hva hqf).elim hne hx

theorem mapsTo_clear (s : State) (p va p' va' : Nat) : mapsTo ((pml4ClearPage s p va).pte p' va') =
    if p' = p ∧ va' = va then none else mapsTo (s.pte p' va') := by
  rw [pte_pml4ClearPage]
  split <;> rfl

theorem mapsTo_writeBack {aux : Option FileInfo} (h : writeBack s p page aux = some s') (p' va' : Nat) :
    mapsTo (s'.pte p' va') = mapsTo (s.pte p' va') := by
  obtain ⟨h₁, h₂, -⟩ := (writeBack_spec h).2.2 p' va'
  simp only [mapsTo, h₁, h₂]

theorem Ptes.room (h : Ptes s x) (hs : Spts s) (hown : EvictOwn s p) (halone : EvictAlone s x)
    (hr : Room s p s₁ kva) : Ptes s₁ x := by
  have hsame := SameSpts.room hr
  cases hr with
  | free hscan => exact h.congr hsame (fun _ _ => rfl) fun _ _ _ => rfl
  | anon hfull hlist hvictim hback hpage hframe hkind hslot =>
    have h0 := Bitmap.free_eq_zero hfull
    refine h.evict hs (hown h0 _ (by rw [hlist]; rfl) _ hvictim _ hback) hpage
      (halone h0 _ (by rw [hlist]; rfl) _ hvictim _ hback) hsame (by simp [frameOf]) (fun q hq => ?_) (fun f hf => ?_)
      fun p' va' => ?_
    · simp [frameOf, Function.update_of_ne hq]
    · simp [Function.update_of_ne hf]
    · exact mapsTo_clear s p _ p' va'
  | file hfull hlist hvictim hback hpage hframe hkind hwrite =>
    have h0 := Bitmap.free_eq_zero hfull
    refine h.evict hs (hown h0 _ (by rw [hlist]; rfl) _ hvictim _ hback) hpage
      (halone h0 _ (by rw [hlist]; rfl) _ hvictim _ hback) hsame (by simp [frameOf]) (fun q hq => ?_) (fun f hf => ?_)
      fun p' va' => ?_
    · simp [frameOf, Function.update_of_ne hq]
    · simp [Function.update_of_ne hf]
    · rw [← mapsTo_writeBack hwrite p' va']
      exact mapsTo_clear _ p _ p' va'

theorem Pool.room (h : Pool s none) (hn : s.frameList.Nodup) (hr : Room s p s₁ kva) : Pool s₁ (some kva) := by
  -- an evicted frame leaves the list, and its page is in hand
  have evict : ∀ {v : Nat} {rest : List Nat} {victim : Frame} {t : State}, s.frameList = v :: rest →
      s.frames v = some victim → t.frameList = rest → t.frames = Function.update s.frames v none →
      t.userPool = s.userPool → Pool t (some victim.kva) := by
    intro v rest victim t hlist hvictim hl hf hu
    rw [hlist, List.nodup_cons] at hn
    have hv : v ∈ s.frameList := by simp [hlist]
    have hin : ∀ {f}, f ∈ t.frameList → f ∈ s.frameList ∧ t.frames f = s.frames f := by
      intro f hm
      rw [hl] at hm
      refine ⟨by simp [hlist, hm], ?_⟩
      rw [hf, Function.update_of_ne (show f ≠ v from fun e => hn.1 (e ▸ hm))]
    refine ⟨?_, ?_, ?_, ?_⟩
    · intro f hm f' hm' frame frame' hfr hfr' e
      rw [(hin hm).2] at hfr
      rw [(hin hm').2] at hfr'
      exact h.inj f (hin hm).1 f' (hin hm').1 frame frame' hfr hfr' e
    · intro f hm frame hfr
      rw [(hin hm).2] at hfr
      obtain ⟨h₁, h₂, -⟩ := h.used f (hin hm).1 frame hfr
      rw [hu]
      refine ⟨h₁, h₂, fun e => ?_⟩
      have := h.inj v hv f (hin hm).1 victim frame hvictim hfr (Option.some.inj e)
      rw [hl, ← this] at hm
      exact hn.1 hm
    · intro k hk
      obtain rfl := Option.some.inj hk
      rw [hu]
      obtain ⟨h₁, h₂, -⟩ := h.used v hv victim hvictim
      exact ⟨h₁, h₂⟩
    · intro k hk hbit
      rw [hu] at hk hbit
      rcases h.full k hk hbit with e | ⟨f, hm, frame, hfr, rfl⟩
      · exact absurd e (by simp)
      · by_cases he : f = v
        · subst he
          obtain rfl := Option.some.inj (hvictim.symm.trans hfr)
          exact .inl rfl
        · refine .inr ⟨f, ?_, frame, ?_, rfl⟩
          · rw [hl]
            rw [hlist] at hm
            exact (List.mem_cons.mp hm).resolve_left he
          · rw [hf, Function.update_of_ne he, hfr]
  cases hr with
  | free hscan =>
    obtain ⟨hlt, hbit, rfl⟩ := Bitmap.scanAndFlip_some hscan
    refine ⟨h.inj, ?_, ?_, ?_⟩
    · intro f hm frame hfr
      obtain ⟨h₁, h₂, -⟩ := h.used f hm frame hfr
      have hne : frame.kva ≠ kva := by
        rintro e
        rw [e, hbit] at h₂
        exact absurd h₂ (by simp)
      refine ⟨h₁, (Bitmap.set_bit_ne hne).trans h₂, fun e => hne (Option.some.inj e).symm⟩
    · intro k hk
      obtain rfl := Option.some.inj hk
      exact ⟨hlt, Bitmap.set_bit_self⟩
    · intro k hk hb
      by_cases he : k = kva
      · exact .inl (by rw [he])
      · rw [Bitmap.set_bit_ne he] at hb
        rcases h.full k hk hb with e | hf
        · exact absurd e (by simp)
        · exact .inr hf
  | anon hfull hlist hvictim => exact evict hlist hvictim rfl rfl rfl
  | file hfull hlist hvictim hback hpage hframe hkind hwrite =>
    exact evict hlist hvictim rfl rfl (by rw [(writeBack_spec hwrite).1])

/-! ## The frame is mapped, the page filled -/

/-- No page has a frame not yet made. -/
def FrameLt (s : State) : Prop := ∀ p, ∀ q ∈ s.spt p, ∀ f, frameOf s q = some f → f < s.nextFrame

theorem Links.frameLt (h : Links s) : FrameLt s := fun _ q hq f hf =>
  h.frame_lt f (h.table.ref_listed q (h.spts.mem_sptPages hq) f hf)

/-- Making room takes a frame from a page at most. -/
theorem Room.frameOf (hr : Room s p s₁ kva) (hf : frameOf s₁ q = some f) : Vm.frameOf s q = some f := by
  cases hr with
  | free => exact hf
  | anon | file =>
    simp only [Vm.frameOf, Function.update_apply] at hf
    split at hf
    · exact absurd hf (by simp)
    · exact hf

theorem FrameLt.room (h : FrameLt s) (hr : Room s p s₁ kva) : FrameLt s₁ := by
  intro p' q hq f hf
  rw [(SameSpts.room hr).spt] at hq
  rw [hr.nextFrame]
  exact h p' q hq f (hr.frameOf hf)

/-- Mapping a frame at the page `q` of `p` settles its entry. -/
theorem Ptes.mapFrame (h : Ptes s (some (p, page.va))) (hs : Spts s) (hlt : FrameLt s) (hq : q ∈ s.spt p)
    (hpage : s.pages q = some page) : Ptes (mapFrame s p q page kva rw) none := by
  intro p' va' _
  have hpte : (Vm.mapFrame s p q page kva rw).pte p' va' =
      if p' = p ∧ va' = page.va then ⟨kva, true, rw, false⟩ else s.pte p' va' := pte_pml4SetPage ..
  rw [hpte, hashFind_same (.mapFrame hpage)]
  by_cases hpv : p' = p ∧ va' = page.va
  · obtain ⟨rfl, rfl⟩ := hpv
    rw [if_pos ⟨rfl, rfl⟩, hs.hashFind_iff.mpr ⟨hq, vaOf_eq hpage⟩]
    simp [mapsTo, kvaOf, Vm.frameOf, Vm.mapFrame]
  · rw [if_neg hpv, h p' va' fun e => hpv (by simpa [eq_comm] using e)]
    cases hfind : hashFind s p' va' with
    | none => rfl
    | some q' =>
      obtain ⟨hq', hva⟩ := hs.hashFind_iff.mp hfind
      have hne : q' ≠ q := by
        rintro rfl
        exact hpv ⟨hs.apart p' p q' hq' hq, Option.some.inj (hva.symm.trans (vaOf_eq hpage))⟩
      refine (kvaOf_congr (by simp [Vm.frameOf, Vm.mapFrame, Function.update_of_ne hne]) fun f hf => ?_).symm
      have : f ≠ s.nextFrame := Nat.ne_of_lt (hlt p' q' hq' f hf)
      simp [Vm.mapFrame, Function.update_of_ne this]

/-- The page in hand becomes that of the new frame. -/
theorem Pool.mapFrame (h : Pool s (some kva)) (hlt : ∀ f ∈ s.frameList, f < s.nextFrame) :
    Pool (mapFrame s p q page kva rw) none := by
  have hold : ∀ {f}, f ∈ s.frameList → (Vm.mapFrame s p q page kva rw).frames f = s.frames f := fun hm =>
    Function.update_of_ne (Nat.ne_of_lt (hlt _ hm)) ..
  have hnew : (Vm.mapFrame s p q page kva rw).frames s.nextFrame = some ⟨kva, some q, 1⟩ := Function.update_self ..
  have hmem : ∀ {f}, f ∈ (Vm.mapFrame s p q page kva rw).frameList → f ∈ s.frameList ∨ f = s.nextFrame := fun hm =>
    (List.mem_append.mp hm).imp id List.mem_singleton.mp
  refine ⟨?_, ?_, ?_, ?_⟩
  · intro f hf f' hf' frame frame' hfr hfr' e
    rcases hmem hf with hm | rfl <;> rcases hmem hf' with hm' | rfl
    · rw [hold hm] at hfr
      rw [hold hm'] at hfr'
      exact h.inj f hm f' hm' frame frame' hfr hfr' e
    · rw [hold hm] at hfr
      obtain rfl := Option.some.inj (hnew.symm.trans hfr')
      exact absurd (congrArg some e.symm) (h.used f hm frame hfr).2.2
    · rw [hold hm'] at hfr'
      obtain rfl := Option.some.inj (hnew.symm.trans hfr)
      exact absurd (congrArg some e) (h.used f' hm' frame' hfr').2.2
    · rfl
  · intro f hf frame hfr
    rcases hmem hf with hm | rfl
    · rw [hold hm] at hfr
      obtain ⟨h₁, h₂, -⟩ := h.used f hm frame hfr
      exact ⟨h₁, h₂, by simp⟩
    · obtain rfl := Option.some.inj (hnew.symm.trans hfr)
      obtain ⟨h₁, h₂⟩ := h.hand kva rfl
      exact ⟨h₁, h₂, by simp⟩
  · intro k hk
    exact absurd hk (by simp)
  · intro k hk hbit
    refine .inr ?_
    rcases h.full k hk hbit with e | ⟨f, hm, frame, hfr, e⟩
    · exact ⟨s.nextFrame, List.mem_append_right _ (by simp), _, hnew, Option.some.inj e⟩
    · exact ⟨f, List.mem_append_left _ hm, frame, by rw [hold hm, hfr], e⟩

theorem Pool.congr {held : Option Nat} (h : Pool s held) (hl : s'.frameList = s.frameList)
    (hf : ∀ f ∈ s.frameList, (s'.frames f).map (·.kva) = (s.frames f).map (·.kva)) (hu : s'.userPool = s.userPool) :
    Pool s' held := by
  have hfr : ∀ {f frame}, f ∈ s.frameList → s'.frames f = some frame →
      ∃ frame₀, s.frames f = some frame₀ ∧ frame₀.kva = frame.kva := by
    intro f frame hm hfr
    have := hf f hm
    rw [hfr, Option.map_some, eq_comm, Option.map_eq_some_iff] at this
    exact this
  refine ⟨?_, ?_, ?_, ?_⟩
  · intro f hm f' hm' frame frame' h₁ h₂ e
    rw [hl] at hm hm'
    obtain ⟨a, ha, ea⟩ := hfr hm h₁
    obtain ⟨b, hb, eb⟩ := hfr hm' h₂
    exact h.inj f hm f' hm' a b ha hb (by rw [ea, eb, e])
  · intro f hm frame h₁
    rw [hl] at hm
    obtain ⟨a, ha, ea⟩ := hfr hm h₁
    rw [hu, ← ea]
    exact h.used f hm a ha
  · rw [hu]
    exact h.hand
  · intro k hk hbit
    rw [hu] at hk hbit
    rcases h.full k hk hbit with e | ⟨f, hm, frame, h₁, e⟩
    · exact .inl e
    · have := hf f hm
      rw [h₁, Option.map_some, Option.map_eq_some_iff] at this
      obtain ⟨a, ha, ea⟩ := this
      exact .inr ⟨f, by rw [hl]; exact hm, a, ha, ea.trans e⟩

theorem Ptes.filled (h : Ptes s x) (hf : Filled s q kva page b s') (hpage : s.pages q = some page) : Ptes s' x := by
  have hrest := hf.rest
  refine h.congr (.filled hf hpage) (fun _ _ => by rw [hrest]; rfl) fun _ q' _ => ?_
  exact kvaOf_congr (hf.frameOf hpage q') fun f _ => by rw [hrest]

theorem Pool.filled {held : Option Nat} (h : Pool s held) (hf : Filled s q kva page b s') : Pool s' held := by
  have hrest := hf.rest
  exact h.congr (by rw [hrest]) (fun _ _ => by rw [hrest]) (by rw [hrest])

end PintosKaist.Vm
