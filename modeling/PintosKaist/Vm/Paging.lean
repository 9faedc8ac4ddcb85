/-
Demand paging of one process. `contentOf` is what a page holds wherever it is:
in its frame, in its slot of the swap disk, or still in the file or the zeros
it starts from. Claims and evictions move contents and change none, but for
one case: `vm_get_frame` hands out an evicted frame with the bytes of its last
page in it, and a page without an initializer keeps them.
-/
import PintosKaist.Vm.Private
import PintosKaist.Vm.Reads

namespace PintosKaist.Vm

variable {s s' s₁ : State} {p q f kva va : Nat} {page : Page} {b : Bool}

/-- `swap_idx`, unless -1. -/
def Kind.slot : Kind → Option Nat
  | .anon swapIdx _ => swapIdx
  | _ => none

/-- The slot of a page that is swapped out. -/
def slotOf (s : State) (q : Nat) : Option Nat := (s.pages q).bind (·.kind.slot)

/-- What the page holds. -/
def contentOf (s : State) (q : Nat) : Option Bytes :=
  (s.pages q).bind fun page =>
    match page.frame with
    | some f => (s.frames f).map fun frame => s.mem frame.kva
    | none => backing s.inodes s.swapDisk page.kind

theorem contentOf_resident {frame : Frame} (hpage : s.pages q = some page) (hf : page.frame = some f)
    (hframe : s.frames f = some frame) : contentOf s q = some (s.mem frame.kva) := by
  simp [contentOf, hpage, hf, hframe]

theorem contentOf_absent (hpage : s.pages q = some page) (hf : page.frame = none) :
    contentOf s q = backing s.inodes s.swapDisk page.kind := by
  simp [contentOf, hpage, hf]

theorem slotOf_eq (hpage : s.pages q = some page) : slotOf s q = page.kind.slot := by simp [slotOf, hpage]

/-- The set bits of `swap_table` are the slots of the pages swapped out, one
page each. -/
structure Slots (s : State) : Prop where
  used : ∀ p, ∀ q ∈ s.spt p, ∀ i, slotOf s q = some i →
    i < s.swapTable.size ∧ s.swapTable.bit i = true ∧ frameOf s q = none
  inj : ∀ p p' q q' i, q ∈ s.spt p → q' ∈ s.spt p' → slotOf s q = some i → slotOf s q' = some i → q = q'
  full : ∀ i < s.swapTable.size, s.swapTable.bit i = true → ∃ p q, q ∈ s.spt p ∧ slotOf s q = some i
  held : ∀ p, ∀ q ∈ s.spt p, ∀ page, s.pages q = some page → page.kind.isAnon = true → page.kind.slot = none →
    ∃ f, page.frame = some f

theorem Slots.congr (h : Slots s) (hspt : ∀ p, s'.spt p = s.spt p) (hp : s'.pages = s.pages)
    (ht : s'.swapTable = s.swapTable) : Slots s' := by
  have hslot : ∀ q, slotOf s' q = slotOf s q := fun q => by rw [slotOf, hp]; rfl
  have hframe : ∀ q, frameOf s' q = frameOf s q := fun q => by rw [frameOf, hp]; rfl
  refine ⟨?_, ?_, ?_, ?_⟩
  · intro p q hq i hi
    rw [hspt] at hq
    rw [hslot] at hi
    rw [ht, hframe]
    exact h.used p q hq i hi
  · intro p p' q q' i hq hq' hi hi'
    rw [hspt] at hq hq'
    rw [hslot] at hi hi'
    exact h.inj p p' q q' i hq hq' hi hi'
  · intro i hi hb
    rw [ht] at hi hb
    obtain ⟨p, q, hq, he⟩ := h.full i hi hb
    exact ⟨p, q, by rwa [hspt], by rwa [hslot]⟩
  · intro p q hq page hpage
    rw [hspt] at hq
    rw [hp] at hpage
    exact h.held p q hq page hpage

/-! ## Room -/

/-- The victim of an eviction is anonymous. -/
theorem Private.victim_anon (h : Private s) (hf : f ∈ s.frameList) {victim : Frame} (hvictim : s.frames f = some victim)
    (hback : victim.page = some q) (hpage : s.pages q = some page) (hframe : page.frame = some f) :
    page.kind.isAnon = true := by
  obtain ⟨p', -, hmem⟩ := mem_sptPages.mp (h.wf.links.back_mem hf hvictim hback)
  rcases h.kinds p' q hmem page hpage with hk | ⟨hnone, -⟩
  · exact hk
  · exact absurd (hframe.symm.trans hnone) (by simp)

theorem Private.slots_room (h : Private s) (hs : Slots s) (hr : Room s p s₁ kva) : Slots s₁ := by
  have hsame := SameSpts.room hr
  cases hr with
  | free => exact hs.congr (fun _ => rfl) rfl rfl
  | file _ hlist hvictim hback hpage hframe hkind =>
    have := h.victim_anon (by simp [hlist]) hvictim hback hpage hframe
    simp [hkind, Kind.isAnon] at this
  | anon hfull hlist hvictim hback hpage hframe hkind hslot =>
    rename_i v q' idx rest victim page' i aux slots
    obtain ⟨hidx, hclear, rfl⟩ := Bitmap.scanAndFlip_some hslot
    obtain ⟨pv, -, hmem⟩ := mem_sptPages.mp (h.wf.links.back_mem (by simp [hlist]) hvictim hback)
    -- the page that goes out takes a slot nobody has
    have hnew : ∀ {q}, q ≠ q' → ∀ i, slotOf s q = some i → (∃ p, q ∈ s.spt p) → i ≠ idx := by
      rintro q - i hi ⟨p, hq⟩ rfl
      rw [(hs.used p q hq i hi).2.1] at hclear
      exact absurd hclear (by simp)
    have hslotOf : ∀ q, q ≠ q' → slotOf { s with
        pages := Function.update s.pages q' (some { page' with frame := none, kind := .anon (some idx) aux })
        frames := Function.update s.frames v none
        frameList := rest
        procs := (pml4ClearPage s p page'.va).procs
        swapTable := s.swapTable.set idx true
        swapDisk := writeSlot s.swapDisk idx (s.mem victim.kva) } q = slotOf s q := fun q hne => by
      simp [slotOf, Function.update_of_ne hne]
    refine ⟨?_, ?_, ?_, ?_⟩
    · intro p' q hq i hi
      rw [hsame.spt] at hq
      by_cases he : q = q'
      · subst he
        simp only [slotOf, Function.update_self, Option.bind_some, Kind.slot, Option.some.injEq] at hi
        subst hi
        exact ⟨hidx, Bitmap.set_bit_self, by simp [frameOf]⟩
      · rw [hslotOf q he] at hi
        obtain ⟨h₁, h₂, h₃⟩ := hs.used p' q hq i hi
        exact ⟨h₁, (Bitmap.set_bit_ne (hnew he i hi ⟨p', hq⟩)).trans h₂, by
          simpa [frameOf, Function.update_of_ne he] using h₃⟩
    · intro p₁ p₂ q₁ q₂ i hq₁ hq₂ hi₁ hi₂
      rw [hsame.spt] at hq₁ hq₂
      by_cases h₁ : q₁ = q' <;> by_cases h₂ : q₂ = q'
      · rw [h₁, h₂]
      · subst h₁
        simp only [slotOf, Function.update_self, Option.bind_some, Kind.slot, Option.some.injEq] at hi₁
        rw [hslotOf q₂ h₂] at hi₂
        exact absurd hi₁.symm (hnew h₂ i hi₂ ⟨p₂, hq₂⟩)
      · subst h₂
        simp only [slotOf, Function.update_self, Option.bind_some, Kind.slot, Option.some.injEq] at hi₂
        rw [hslotOf q₁ h₁] at hi₁
        exact absurd hi₂.symm (hnew h₁ i hi₁ ⟨p₁, hq₁⟩)
      · rw [hslotOf q₁ h₁] at hi₁
        rw [hslotOf q₂ h₂] at hi₂
        exact hs.inj p₁ p₂ q₁ q₂ i hq₁ hq₂ hi₁ hi₂
    · intro j hj hb
      by_cases he : j = idx
      · subst he
        exact ⟨pv, q', by rw [hsame.spt]; exact hmem, by simp [slotOf, Kind.slot]⟩
      · rw [show (s.swapTable.set idx true).bit j = s.swapTable.bit j from Bitmap.set_bit_ne he] at hb
        obtain ⟨p', q, hq, hi⟩ := hs.full j hj hb
        have hne : q ≠ q' := by
          rintro rfl
          have := (hs.used p' q hq j hi).2.2
          simp [frameOf, hpage, hframe] at this
        exact ⟨p', q, by rw [hsame.spt]; exact hq, by rw [hslotOf q hne]; exact hi⟩
    · intro p' q hq page hp hanon hnone
      rw [hsame.spt] at hq
      by_cases he : q = q'
      · subst he
        simp only [Function.update_self, Option.some.injEq] at hp
        subst hp
        exact absurd hnone (by simp [Kind.slot])
      · simp only [Function.update_of_ne he] at hp
        exact hs.held p' q hq page hp hanon hnone

/-- Making room moves one page to its slot and changes no content. -/
theorem Private.content_room {p' : Nat} (h : Private s) (hs : Slots s) (hr : Room s p s₁ kva) (hq : q ∈ s.spt p') :
    contentOf s₁ q = contentOf s q := by
  obtain ⟨va, hva, -⟩ := h.wf.links.spts.live p' q hq
  obtain ⟨page, hpage, -⟩ := vaOf_some hva
  cases hr with
  | free hscan =>
    cases hfr : page.frame with
    | none => simp [contentOf, hpage, hfr, State.setMem]
    | some f =>
      have hqf : frameOf s q = some f := by simp [frameOf, hpage, hfr]
      obtain ⟨-, frame, hframe⟩ := h.wf.links.resident hq hqf
      simp [contentOf, hpage, hfr, hframe, State.setMem, Function.update_of_ne (h.wf.kva_ne hscan hq hqf hframe)]
  | file _ hlist hvictim hback hpage' hframe hkind =>
    have := h.victim_anon (by simp [hlist]) hvictim hback hpage' hframe
    simp [hkind, Kind.isAnon] at this
  | anon hfull hlist hvictim hback hpage' hframe hkind hslot =>
    rename_i v q' idx rest victim page' i aux slots
    by_cases he : q = q'
    · subst he
      simp [contentOf, hpage', hframe, hvictim, backing, readSlot_writeSlot]
    · cases hfr : page.frame with
      | some f =>
        have hqf : frameOf s q = some f := by simp [frameOf, hpage, hfr]
        obtain ⟨pv, -, hmem⟩ := mem_sptPages.mp (h.wf.links.back_mem (by simp [hlist]) hvictim hback)
        have hne : f ≠ v := by
          rintro rfl
          exact he (h.unique hmem hq (by simp [frameOf, hpage', hframe]) hqf)
        simp [contentOf, Function.update_of_ne he, hpage, hfr, Function.update_of_ne hne]
      | none =>
        simp only [contentOf, Function.update_of_ne he, hpage, Option.bind_some, hfr]
        cases hk : page.kind with
        | uninit | file => rfl
        | anon j aux' =>
          cases j with
          | none => rfl
          | some j =>
            have hj : slotOf s q = some j := by rw [slotOf_eq hpage, hk]; rfl
            have hne : j ≠ idx := by
              rintro rfl
              have hb := (hs.used p' q hq j hj).2.1
              rw [(Bitmap.scanAndFlip_some hslot).2.1] at hb
              exact absurd hb (by simp)
            simp [backing, readSlot_writeSlot_ne _ _ _ hne]

/-! ## Claims -/

/-- A page still to be claimed first, without an initializer. -/
def Kind.bare : Kind → Bool
  | .uninit _ init _ => !init
  | _ => false

/-- `swap_in` of an anonymous page brings in what is behind it, gives its slot
back, and succeeds. -/
theorem Filled.brought (hf : Filled s q kva page b s')
    (hk : page.kind.slot ≠ none ∨ ∃ init aux, page.kind = .uninit .anon init aux)
    (hz : page.kind.bare = true → s.mem kva = zeroPage) :
    b = true ∧ (∃ aux, s'.pages = Function.update s.pages q (some { page with kind := .anon none aux })) ∧
      backing s.inodes s.swapDisk page.kind = some (s'.mem kva) ∧
      s'.swapTable = page.kind.slot.elim s.swapTable fun i => s.swapTable.set i false := by
  cases hf with
  | bare hkind =>
    rcases hk with hk | ⟨init, aux, hk⟩
    · simp [hkind, Kind.slot] at hk
    · rw [hkind] at hk
      cases hk
      exact ⟨rfl, ⟨_, rfl⟩, by simp [hkind, backing, firstBytes, State.setPage, hz (by simp [hkind, Kind.bare])],
        by simp [hkind, Kind.slot, State.setPage]⟩
  | load hkind =>
    rcases hk with hk | ⟨init, aux, hk⟩
    · simp [hkind, Kind.slot] at hk
    · rw [hkind] at hk
      cases hk
      exact ⟨rfl, ⟨_, rfl⟩, by simp [hkind, backing, firstBytes, State.setMem],
        by simp [hkind, Kind.slot, State.setMem, State.setPage]⟩
  | swap hkind =>
    refine ⟨rfl, ⟨_, rfl⟩, ?_, by simp [hkind, Kind.slot, State.setPage]⟩
    simpa [hkind, backing, State.setMem, State.setPage] using readSlot_any ..
  | resident hkind =>
    rcases hk with hk | ⟨init, aux, hk⟩
    · simp [hkind, Kind.slot] at hk
    · simp [hkind] at hk
  | short hkind | reload hkind =>
    rcases hk with hk | ⟨init, aux, hk⟩
    · simp [hkind, Kind.slot] at hk
    · simp [hkind] at hk

/-- Contents may have moved, and none has changed. -/
structure Moved (s s' : State) : Prop where
  same : SameSpts s s'
  content : ∀ p, ∀ q ∈ s.spt p, contentOf s' q = contentOf s q
  slots : Slots s'
  inodes : s'.inodes = s.inodes
  size : s'.userPool.size = s.userPool.size

/-- The page `q`, absent in `s`, is mapped to the page of memory in hand and
filled. -/
theorem Slots.filled {t : State} (h : Slots s) (hl : Links s) (hpool : Pool s (some kva)) (hq : q ∈ s.spt p)
    (hpage : s.pages q = some page) (hfr : page.frame = none)
    (hk : page.kind.slot ≠ none ∨ ∃ init aux, page.kind = .uninit .anon init aux)
    (hz : page.kind.bare = true → s.mem kva = zeroPage) (ht : t = mapFrame s p q page kva page.writable)
    (hf : Filled t q kva { page with frame := some s.nextFrame } b s') : b = true ∧ Moved s s' := by
  subst ht
  have hrest := hf.rest
  have hpg : (mapFrame s p q page kva page.writable).pages q = some { page with frame := some s.nextFrame } := by
    simp [mapFrame]
  have hsame : SameSpts s s' := (SameSpts.mapFrame hpage).trans (.filled hf hpg)
  have hne : ∀ k, k ≠ kva → s'.mem k = s.mem k := fun k hk => hf.mem_ne hk
  obtain ⟨hb, ⟨aux, hpages⟩, hback, htable⟩ := hf.brought hk hz
  simp only [mapFrame, Function.update_idem] at hpages
  change backing s.inodes s.swapDisk page.kind = _ at hback
  change s'.swapTable = page.kind.slot.elim s.swapTable fun i => s.swapTable.set i false at htable
  have hframes : s'.frames = Function.update s.frames s.nextFrame (some ⟨kva, some q, 1⟩) := by rw [hrest]; rfl
  have hinodes : s'.inodes = s.inodes := by rw [hrest]; rfl
  have hdisk : s'.swapDisk = s.swapDisk := by rw [hrest]; rfl
  have hold : ∀ {q'}, q' ≠ q → s'.pages q' = s.pages q' := fun hne => by rw [hpages, Function.update_of_ne hne]
  have hslot : ∀ {q'}, q' ≠ q → slotOf s' q' = slotOf s q' := fun hne => by rw [slotOf, hold hne]; rfl
  have hself : slotOf s' q = none := by rw [slotOf, hpages, Function.update_self]; rfl
  -- no other page has the slot that is given back
  have hbit : ∀ {p' q' i}, q' ≠ q → q' ∈ s.spt p' → slotOf s q' = some i → s'.swapTable.bit i = s.swapTable.bit i := by
    intro p' q' i hne hq' hi
    rw [htable]
    cases hj : page.kind.slot with
    | none => rfl
    | some j =>
      refine Bitmap.set_bit_ne ?_
      rintro rfl
      exact hne (h.inj p' p q' q i hq' hq hi (by rw [slotOf_eq hpage, hj]))
  have hsize : s'.swapTable.size = s.swapTable.size := by
    rw [htable]
    cases page.kind.slot <;> rfl
  refine ⟨hb, hsame, fun p' q' hq' => ?_, ⟨?_, ?_, ?_, ?_⟩, hinodes, by rw [hrest]; rfl⟩
  · by_cases he : q' = q
    · subst he
      rw [contentOf_absent hpage hfr, hback]
      exact contentOf_resident (by rw [hpages, Function.update_self]) rfl (by rw [hframes, Function.update_self])
    · obtain ⟨va, hva, -⟩ := hl.spts.live p' q' hq'
      obtain ⟨page', hpage', -⟩ := vaOf_some hva
      cases hfr' : page'.frame with
      | none =>
        rw [contentOf_absent hpage' hfr', contentOf_absent (hold he ▸ hpage') hfr', hinodes, hdisk]
      | some f =>
        have hqf : frameOf s q' = some f := by simp [frameOf, hpage', hfr']
        obtain ⟨hm, frame, hframe⟩ := hl.resident hq' hqf
        have hfne : f ≠ s.nextFrame := Nat.ne_of_lt (hl.frame_lt f hm)
        have hkva : frame.kva ≠ kva := fun e => (hpool.used f hm frame hframe).2.2 (by rw [e])
        rw [contentOf_resident hpage' hfr' hframe,
          contentOf_resident (hold he ▸ hpage') hfr' (by rw [hframes, Function.update_of_ne hfne, hframe]), hne _ hkva]
  · intro p' q' hq' i hi
    rw [hsame.spt] at hq'
    by_cases he : q' = q
    · rw [he, hself] at hi
      exact absurd hi (by simp)
    · rw [hslot he] at hi
      obtain ⟨h₁, h₂, h₃⟩ := h.used p' q' hq' i hi
      rw [hsize, hbit he hq' hi, frameOf, hold he]
      exact ⟨h₁, h₂, h₃⟩
  · intro p₁ p₂ q₁ q₂ i h₁ h₂ hi₁ hi₂
    rw [hsame.spt] at h₁ h₂
    have hne : ∀ {q'}, slotOf s' q' = some i → q' ≠ q := fun hi e => by
      rw [e, hself] at hi
      exact absurd hi (by simp)
    rw [hslot (hne hi₁)] at hi₁
    rw [hslot (hne hi₂)] at hi₂
    exact h.inj p₁ p₂ q₁ q₂ i h₁ h₂ hi₁ hi₂
  · intro i hi hb
    rw [hsize] at hi
    have hmem : s.swapTable.bit i = true ∧ page.kind.slot ≠ some i := by
      rw [htable] at hb
      cases hj : page.kind.slot with
      | none => exact ⟨by rwa [hj] at hb, by simp⟩
      | some j =>
        rw [hj] at hb
        have hne : i ≠ j := by
          rintro rfl
          exact absurd hb (by simp)
        exact ⟨by rwa [Option.elim_some, Bitmap.set_bit_ne hne] at hb, fun e => hne (Option.some.inj e).symm⟩
    obtain ⟨p', q', hq', hi'⟩ := h.full i hi hmem.1
    have hne : q' ≠ q := by
      rintro rfl
      rw [slotOf_eq hpage] at hi'
      exact hmem.2 hi'
    exact ⟨p', q', by rw [hsame.spt]; exact hq', by rw [hslot hne]; exact hi'⟩
  · intro p' q' hq' page' hpage' hanon hnone
    rw [hsame.spt] at hq'
    by_cases he : q' = q
    · subst he
      rw [hpages, Function.update_self, Option.some.injEq] at hpage'
      exact ⟨s.nextFrame, by rw [← hpage']⟩
    · rw [hold he] at hpage'
      exact h.held p' q' hq' page' hpage' hanon hnone

theorem Private.moved_room (h : Private s) (hs : Slots s) (hr : Room s p s₁ kva) : Moved s s₁ := by
  obtain ⟨hinodes, hsize⟩ : s₁.inodes = s.inodes ∧ s₁.userPool.size = s.userPool.size := by
    cases hr with
    | free hscan =>
      obtain ⟨-, -, rfl⟩ := Bitmap.scanAndFlip_some hscan
      exact ⟨rfl, rfl⟩
    | anon => exact ⟨rfl, rfl⟩
    | file _ hlist hvictim hback hpage hframe hkind =>
      have := h.victim_anon (by simp [hlist]) hvictim hback hpage hframe
      simp [hkind, Kind.isAnon] at this
  exact ⟨.room hr, fun p' q hq => h.content_room hs hr hq, h.slots_room hs hr, hinodes, hsize⟩

theorem Moved.trans (h : Moved s s₁) (h' : Moved s₁ s') : Moved s s' :=
  ⟨h.same.trans h'.same, fun p q hq => (h'.content p q (by rw [h.same.spt]; exact hq)).trans (h.content p q hq), h'.slots,
    h'.inodes.trans h.inodes, h'.size.trans h.size⟩

/-- What a page that is not resident can be. -/
theorem Private.absent (h : Private s) (hs : Slots s) (hq : q ∈ s.spt p) (hpage : s.pages q = some page)
    (hfr : page.frame = none) : page.kind.slot ≠ none ∨ ∃ init aux, page.kind = .uninit .anon init aux := by
  rcases h.kinds p q hq page hpage with hk | ⟨-, hk⟩
  · refine .inl fun hnone => ?_
    obtain ⟨f, hf⟩ := hs.held p q hq page hpage hk hnone
    exact absurd (hfr.symm.trans hf) (by simp)
  · exact .inr hk

/-- A claim moves contents only, unless it hands a used frame to a page
without an initializer. -/
theorem Private.moved_claim (h : Private s) (hs : Slots s) (hq : q ∈ s.spt p) (hpage : s.pages q = some page)
    (hfr : page.frame = none) (hbare : page.kind.bare = true → 0 < s.userPool.free)
    (hc : vmDoClaimPage s p q = some (b, s')) : b = true ∧ Moved s s' := by
  obtain ⟨s₁, kva, page₁, hroom, hpage₁, hfill⟩ := vmDoClaimPage_cases h.evictOk.linked hc
  have hsame : s₁.pages q = s.pages q := hroom.pages_ne fun h0 v hv victim hvictim hback => by
    have := (h.evictOk h0 v hv victim hvictim q hback).1
    simp [frameOf, hpage, hfr] at this
  obtain rfl := Option.some.inj (hpage.symm.trans (hsame.symm.trans hpage₁))
  have hm := h.moved_room hs hroom
  have hzero : page.kind.bare = true → s₁.mem kva = zeroPage := fun hb => by
    cases hroom with
    | free => exact Function.update_self ..
    | anon hfull | file hfull => exact absurd (Bitmap.free_eq_zero hfull) (hbare hb).ne'
  have hq₁ : q ∈ s₁.spt p := by rwa [hm.same.spt]
  obtain ⟨hb, hfilled⟩ := hm.slots.filled (h.wf.links.room h.evictOk hroom)
    (h.wf.pool.room h.wf.links.table.nodup hroom) hq₁ hpage₁ hfr (h.absent hs hq hpage hfr) hzero rfl hfill
  exact ⟨hb, hm.trans hfilled⟩

end PintosKaist.Vm
