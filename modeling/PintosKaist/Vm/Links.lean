/-
The frame list against the pages: every frame on `frame_list` is allocated,
its `page` field is a page in some table, and its `r_cnt` is the number of
pages whose `frame` field it is.

`view` reads the frames of a state as counted references, with the pages of
all tables as the cells; each call is then one or two moves of that table.
-/
import Mathlib.Data.Finset.Union
import PintosKaist.Lib.RefTable
import PintosKaist.Vm.Spts

namespace PintosKaist.Vm

open RefTable

variable {s s' s₁ : State} {p c q f kva va : Nat} {page : Page} {b : Bool}

/-- The pages of all tables. -/
def sptPages (s : State) : Finset Nat := (Finset.range s.nextPid).biUnion fun p => (s.spt p).toFinset

/-- What a frame is to its holders. -/
def toObj (frame : Frame) : Obj Nat := ⟨frame.rCnt, frame.page⟩

def view (s : State) : Table Nat Nat where
  cells := sptPages s
  ref := frameOf s
  listed := s.frameList
  obj f := (s.frames f).map toObj

structure Links (s : State) : Prop where
  spts : Spts s
  frame_lt : ∀ f ∈ s.frameList, f < s.nextFrame
  table : (view s).Ok

/-- The frame table is in order: what `vm_evict_frame` relies on. -/
def FrameTable (s : State) : Prop :=
  ∀ f ∈ s.frameList, ∃ frame, s.frames f = some frame ∧
    (∃ p q, p < s.nextPid ∧ q ∈ s.spt p ∧ frame.page = some q) ∧
    frame.rCnt = ((sptPages s).filter fun q => frameOf s q = some f).card

theorem mem_sptPages : q ∈ sptPages s ↔ ∃ p < s.nextPid, q ∈ s.spt p := by simp [sptPages]

theorem Spts.mem_sptPages (h : Spts s) (hq : q ∈ s.spt p) : q ∈ sptPages s := by
  refine Vm.mem_sptPages.mpr ⟨p, ?_, hq⟩
  by_contra hp
  rw [h.idle p (Nat.le_of_not_lt hp)] at hq
  exact absurd hq (by simp)

/-- A new process has no pages. -/
theorem Spts.spawn (h : Spts s) : Spts { s with nextPid := s.nextPid + 1 } :=
  ⟨fun p hp => h.idle p (Nat.le_of_succ_le hp), h.live, h.lt, h.nodup, h.apart, h.keyed⟩

theorem Spts.sptPages_spawn (h : Spts s) : sptPages { s with nextPid := s.nextPid + 1 } = sptPages s := by
  ext q
  simp only [Vm.mem_sptPages]
  refine ⟨fun ⟨p, _, hq⟩ => Vm.mem_sptPages.mp (h.mem_sptPages hq), fun ⟨p, hp, hq⟩ => ⟨p, ?_, hq⟩⟩
  exact Nat.lt_succ_of_lt hp

theorem Links.frameTable (h : Links s) : FrameTable s := by
  intro f hf
  obtain ⟨o, ho⟩ := h.table.live f hf
  obtain ⟨frame, hframe, rfl⟩ := Option.map_eq_some_iff.mp ho
  obtain ⟨q, hq, hback⟩ := h.table.back f hf _ ho
  obtain ⟨p, hp, hq⟩ := Vm.mem_sptPages.mp hq
  exact ⟨frame, hframe, ⟨p, q, hp, hq, hback⟩, h.table.cnt f hf _ ho⟩

/-! ## The view under each update -/

theorem ref_update {r : Option Nat} (hs : s'.pages = Function.update s.pages q (some page)) (hr : page.frame = r) :
    (view s').ref = Function.update (view s).ref q r := by
  funext q'
  by_cases h : q' = q
  · subst h; simp [view, frameOf, hs, hr]
  · simp [view, frameOf, hs, Function.update_of_ne h]

theorem obj_update {frame : Option Frame} {o : Option (Obj Nat)} (hs : s'.frames = Function.update s.frames f frame)
    (ho : frame.map toObj = o) : (view s').obj = Function.update (view s).obj f o := by
  funext f'
  by_cases h : f' = f
  · subst h; simp [view, hs, ho]
  · simp [view, hs, Function.update_of_ne h]

theorem SameSpts.cells (h : SameSpts s s') : sptPages s' = sptPages s := by
  ext q
  simp only [Vm.mem_sptPages, h.pid, h.spt]

/-- Only the tables and the frame fields matter. -/
theorem view_congr (h : SameSpts s s') (hp : ∀ q, frameOf s' q = frameOf s q) (hf : s'.frames = s.frames)
    (hl : s'.frameList = s.frameList) : view s' = view s := by
  unfold view
  rw [h.cells, hf, hl, show frameOf s' = frameOf s from funext hp]

theorem Links.congr (h : Links s) (hs : SameSpts s s') (hp : ∀ q, frameOf s' q = frameOf s q)
    (hf : s'.frames = s.frames) (hl : s'.frameList = s.frameList) (hn : s'.nextFrame = s.nextFrame) : Links s' :=
  ⟨h.spts.same hs, by rw [hl, hn]; exact h.frame_lt, by rw [view_congr hs hp hf hl]; exact h.table⟩

/-! ## Room -/

/-- The frame at the front of the list is the frame of its page, and of no
other. -/
def VictimSole (s : State) : Prop :=
  ∀ v ∈ s.frameList.head?, ∀ victim ∈ s.frames v, ∀ q ∈ victim.page, frameOf s q = some v ∧ victim.rCnt = 1

instance : DecidablePred VictimSole := fun _ => inferInstanceAs (Decidable (∀ _ ∈ _, _))

/-- An eviction, if there is one, takes such a frame. -/
def EvictOk (s : State) : Prop := s.userPool.free = 0 → VictimSole s

instance : DecidablePred EvictOk := fun _ => inferInstanceAs (Decidable (_ → _))

theorem EvictOk.linked (h : EvictOk s) (h0 : s.userPool.free = 0) : VictimLinked s :=
  fun v hv victim hvictim q hq => (h h0 v hv victim hvictim q hq).1

/-- Making room is nothing to the view, or releases the frame at the front. -/
theorem Room.view (hr : Room s p s₁ kva) :
    (0 < s.userPool.free ∧ view s₁ = view s) ∨
    (s.userPool.free = 0 ∧ ∃ v victim q, s.frameList.head? = some v ∧ s.frames v = some victim ∧
      victim.page = some q ∧ frameOf s q = some v ∧ view s₁ = (view s).release q v) := by
  have hsame := SameSpts.room hr
  cases hr with
  | free hscan =>
    have := Bitmap.free_scanAndFlip hscan
    exact .inl ⟨by omega, rfl⟩
  | anon hfull hlist hvictim hback hpage hframe | file hfull hlist hvictim hback hpage hframe =>
    refine .inr ⟨Bitmap.free_eq_zero hfull, _, _, _, by rw [hlist]; rfl, hvictim, hback,
      by simp [frameOf, hpage, hframe], ?_⟩
    refine Table.ext hsame.cells (ref_update rfl rfl) ?_ (obj_update rfl rfl)
    show _ = s.frameList.erase _
    rw [hlist, List.erase_cons_head]
    rfl

theorem Room.nextFrame (hr : Room s p s₁ kva) : s₁.nextFrame = s.nextFrame := by
  cases hr with
  | free | anon => rfl
  | file _ _ _ _ _ _ _ hwrite => rw [(writeBack_spec hwrite).1]

theorem Room.frameList_subset (hr : Room s p s₁ kva) : ∀ f ∈ s₁.frameList, f ∈ s.frameList := by
  intro f hf
  cases hr with
  | free => exact hf
  | anon _ hlist | file _ hlist =>
    rw [hlist]
    exact List.mem_cons_of_mem _ hf

/-- Only the victim's page is written. -/
theorem Room.pages_ne (hr : Room s p s₁ kva)
    (hne : s.userPool.free = 0 → ∀ v ∈ s.frameList.head?, ∀ victim ∈ s.frames v, victim.page ≠ some q) :
    s₁.pages q = s.pages q := by
  cases hr with
  | free => rfl
  | anon hfull hlist hvictim hback | file hfull hlist hvictim hback =>
    refine Function.update_of_ne ?_ ..
    rintro rfl
    exact hne (Bitmap.free_eq_zero hfull) _ (by rw [hlist]; rfl) _ hvictim hback

/-- A page whose frame is the one evicted is the page evicted. -/
theorem Links.sole (h : Links s) {v : Nat} {victim : Frame} {q' : Nat} (hq : q ∈ sptPages s)
    (hf : frameOf s q = some v) (hvictim : s.frames v = some victim) (h1 : victim.rCnt = 1) (hq' : q' ∈ sptPages s)
    (hf' : frameOf s q' = some v) : q' = q :=
  h.table.only_user (t := view s) (o := toObj victim) hq hf (by simp [view, hvictim]) h1 hq' hf'

/-- The page of a listed frame is in some table. -/
theorem Links.back_mem (h : Links s) {frame : Frame} (hf : f ∈ s.frameList) (hframe : s.frames f = some frame)
    (hback : frame.page = some q) : q ∈ sptPages s := by
  obtain ⟨q', hq', e⟩ := h.table.back f hf (toObj frame) (by simp [view, hframe])
  obtain rfl := Option.some.inj (hback.symm.trans e)
  exact hq'

theorem Links.room (h : Links s) (hok : EvictOk s) (hr : Room s p s₁ kva) : Links s₁ := by
  refine ⟨h.spts.same (.room hr), fun f hf => ?_, ?_⟩
  · rw [hr.nextFrame]
    exact h.frame_lt f (hr.frameList_subset f hf)
  · rcases hr.view with ⟨-, hv⟩ | ⟨h0, v, victim, q, hhead, hvictim, hback, hq, hv⟩
    · rw [hv]
      exact h.table
    · rw [hv]
      have h1 := (hok h0 v hhead victim hvictim q hback).2
      have hmem := h.back_mem (List.mem_of_mem_head? hhead) hvictim hback
      exact h.table.release hmem hq (o := toObj victim) (by simp [view, hvictim]) h1

theorem Links.mapFrame {rw : Bool} (h : Links s) (hq : q ∈ sptPages s) (hpage : s.pages q = some page)
    (hnone : page.frame = none) : Links (mapFrame s p q page kva rw) := by
  have hsame : SameSpts s (Vm.mapFrame s p q page kva rw) := .mapFrame hpage
  have hview : view (Vm.mapFrame s p q page kva rw) = (view s).attach q s.nextFrame :=
    Table.ext hsame.cells (ref_update rfl rfl) rfl (obj_update rfl rfl)
  refine ⟨h.spts.same hsame, fun f hf => ?_, ?_⟩
  · show f < s.nextFrame + 1
    rcases List.mem_append.mp hf with hf | hf
    · have := h.frame_lt f hf
      omega
    · rw [List.mem_singleton.mp hf]
      omega
  · rw [hview]
    exact h.table.attach hq (by simp [view, frameOf, hpage, hnone]) fun hm => absurd (h.frame_lt _ hm) (by omega)

theorem Filled.frameOf (hf : Filled s q kva page b s') (hpage : s.pages q = some page) (q' : Nat) :
    Vm.frameOf s' q' = Vm.frameOf s q' := by
  obtain ⟨k, hk⟩ := hf.pages hpage
  by_cases he : q' = q
  · subst he; simp [Vm.frameOf, hk, hpage]
  · simp [Vm.frameOf, hk, Function.update_of_ne he]

theorem Links.filled (h : Links s) (hf : Filled s q kva page b s') (hpage : s.pages q = some page) : Links s' := by
  have hrest := hf.rest
  exact h.congr (.filled hf hpage) (hf.frameOf hpage) (by rw [hrest]) (by rw [hrest]) (by rw [hrest])

/-! ## Each call -/

/-- The page claimed is not resident, or it is its frame that is evicted. -/
def ClaimOk (s : State) (q : Nat) : Prop :=
  EvictOk s ∧ (frameOf s q = none ∨ s.userPool.free = 0 ∧ frameOf s q = s.frameList.head?)

instance (s : State) : DecidablePred (ClaimOk s) := fun _ => inferInstanceAs (Decidable (_ ∧ _))

theorem Links.claim (h : Links s) (hq : q ∈ s.spt p) (hok : ClaimOk s q)
    (hc : vmDoClaimPage s p q = some (b, s')) : Links s' := by
  obtain ⟨s₁, kva, page, hroom, hpage, hfill⟩ := vmDoClaimPage_cases hok.1.linked hc
  have h₁ := h.room hok.1 hroom
  have hq' := h.spts.mem_sptPages hq
  have hmem : q ∈ sptPages s₁ := by rwa [(SameSpts.room hroom).cells]
  -- once room is made the page has no frame
  have hnone : frameOf s₁ q = none := by
    rcases hroom.view with ⟨hpos, hv⟩ | ⟨h0, v, victim, q', hhead, hvictim, hback, hq'v, hv⟩
    · have : frameOf s₁ q = frameOf s q := congrFun (congrArg Table.ref hv) q
      rw [this]
      exact hok.2.resolve_right fun ⟨e, _⟩ => by omega
    · have hsole := hok.1 h0 v hhead victim hvictim q' hback
      have : frameOf s₁ q = Function.update (frameOf s) q' none q := congrFun (congrArg Table.ref hv) q
      rw [this]
      by_cases he : q = q'
      · rw [he, Function.update_self]
      · rw [Function.update_of_ne he]
        refine hok.2.resolve_right fun ⟨_, e⟩ => he ?_
        have hmem' := h.back_mem (List.mem_of_mem_head? hhead) hvictim hback
        exact h.sole hmem' hq'v hvictim hsole.2 hq' (e.trans hhead)
  have hfr : page.frame = none := by simpa [frameOf, hpage] using hnone
  exact (h₁.mapFrame hmem hpage hfr).filled hfill (by simp [Vm.mapFrame])

theorem Links.inserted (h : Links s) (hp : p < s.nextPid) (h0 : page.va ≠ 0) (hnone : hashFind s p page.va = none)
    (hfr : page.frame = none) : Links (inserted s p page) := by
  have hnew : s.nextPage ∉ sptPages s := by
    intro hm
    obtain ⟨p', -, hm⟩ := Vm.mem_sptPages.mp hm
    exact absurd (h.spts.lt p' _ hm) (by omega)
  have hview : view (Vm.inserted s p page) = (view s).addCell s.nextPage := by
    refine Table.ext ?_ (ref_update rfl hfr) rfl rfl
    ext q
    show q ∈ sptPages (Vm.inserted s p page) ↔ q ∈ insert s.nextPage (sptPages s)
    simp only [Vm.mem_sptPages, Finset.mem_insert, spt_inserted]
    show (∃ p' < s.nextPid, _) ↔ _
    refine ⟨fun ⟨p', hp', hq⟩ => ?_, ?_⟩
    · split at hq
      · exact (List.mem_cons.mp hq).imp id fun hq => ⟨p, hp, hq⟩
      · exact .inr ⟨p', hp', hq⟩
    · rintro (rfl | ⟨p', hp', hq⟩)
      · exact ⟨p, hp, by simp⟩
      · refine ⟨p', hp', ?_⟩
        split
        · rename_i e
          exact List.mem_cons_of_mem _ (e ▸ hq)
        · exact hq
  refine ⟨h.spts.inserted hp h0 hnone, h.frame_lt, ?_⟩
  rw [hview]
  exact h.table.addCell hnew

/-- The state in which the page `q` has let go of its frame `f₀`. -/
def unlinked (s : State) (q : Nat) (page : Page) (f₀ : Nat) (old : Frame) : State :=
  (s.setFrame f₀ { old with rCnt := old.rCnt - 1 }).setPage q { page with frame := none }

/-- The eviction of `vm_handle_wp` is in order once the page's own reference
is no longer counted. -/
def WpOk (s : State) (q : Nat) : Prop :=
  ∀ page ∈ s.pages q, ∀ f₀ ∈ page.frame, ∀ old ∈ s.frames f₀, EvictOk (unlinked s q page f₀ old)

instance (s : State) : DecidablePred (WpOk s) := fun _ => inferInstanceAs (Decidable (∀ _ ∈ _, _))

theorem Links.unlinked {f₀ : Nat} {old : Frame} (h : Links s) (hq : q ∈ sptPages s) (hpage : s.pages q = some page)
    (hf : page.frame = some f₀) (hold : s.frames f₀ = some old) : Links (unlinked s q page f₀ old) := by
  have hsame : SameSpts s (Vm.unlinked s q page f₀ old) :=
    ⟨rfl, rfl, fun _ => rfl, vaOf_update (s := s) hpage rfl rfl⟩
  have hview : view (Vm.unlinked s q page f₀ old) = (view s).detach q f₀ (toObj old) :=
    Table.ext hsame.cells (ref_update (s := s) rfl rfl) rfl (obj_update (s := s) rfl rfl)
  refine ⟨h.spts.same hsame, h.frame_lt, ?_⟩
  rw [hview]
  exact h.table.detach hq (by simp [view, frameOf, hpage, hf]) (by simp [view, hold])

/-- Room can be made in the same way whatever a page other than the victim's
holds. -/
theorem Room.setPage (page' : Page) (hr : Room s p s₁ kva)
    (hne : s.userPool.free = 0 → ∀ v ∈ s.frameList.head?, ∀ victim ∈ s.frames v, victim.page ≠ some q) :
    Room (s.setPage q page') p (s₁.setPage q page') kva := by
  cases hr with
  | free hscan => exact .free hscan
  | anon hfull hlist hvictim hback hpage hframe hkind hslot =>
    rename_i q' _ _ _ page _ _ _
    have hqq : q' ≠ q := by
      rintro rfl
      exact hne (Bitmap.free_eq_zero hfull) _ (by rw [hlist]; rfl) _ hvictim hback
    have hpage' : (s.setPage q page').pages q' = some page := by simp [State.setPage, Function.update_of_ne hqq, hpage]
    have := Room.anon (s := s.setPage q page') (p := p) hfull hlist hvictim hback hpage' hframe hkind hslot
    convert this using 1
    simp only [State.setPage, Function.update_comm hqq]
    rfl
  | file hfull hlist hvictim hback hpage hframe hkind hwrite =>
    rename_i q' _ _ page aux s₂
    have hqq : q' ≠ q := by
      rintro rfl
      exact hne (Bitmap.free_eq_zero hfull) _ (by rw [hlist]; rfl) _ hvictim hback
    have hwrite' : writeBack (s.setPage q page') p page aux =
        some { s₂ with frameList := s.frameList, pages := (s.setPage q page').pages } := by
      have hwith : writeBack (s.setPage q page') p page aux = (writeBack s p page aux).map fun s₁ =>
          { s₁ with frameList := s.frameList, pages := (s.setPage q page').pages } := writeBack_with
      rw [hwith, hwrite]
      rfl
    have hpage' : (s.setPage q page').pages q' = some page := by simp [State.setPage, Function.update_of_ne hqq, hpage]
    have := Room.file (s := s.setPage q page') (p := p) hfull hlist hvictim hback hpage' hframe hkind hwrite'
    convert this using 1
    simp only [State.setPage, Function.update_comm hqq]
    rfl

theorem vmHandleWp_old (h : vmHandleWp s p q = some (b, s')) : ∃ page, s.pages q = some page ∧
    ∃ f₀, page.frame = some f₀ ∧ ∃ old, s.frames f₀ = some old := by
  simp only [vmHandleWp, Option.bind_eq_bind, Option.bind_eq_some_iff] at h
  obtain ⟨page, hpage, f₀, hf, old, hold, -⟩ := h
  exact ⟨page, hpage, f₀, hf, old, hold⟩

/-- The victim is not the faulting page, which counts as having no frame. -/
theorem EvictOk.victim_ne {f₀ : Nat} {old : Frame} (h : EvictOk (unlinked s q page f₀ old))
    (h0 : s.userPool.free = 0) {v : Nat} (hv : v ∈ s.frameList.head?) {victim : Frame}
    (hvictim : (s.setFrame f₀ { old with rCnt := old.rCnt - 1 }).frames v = some victim) {q' : Nat}
    (hq' : victim.page = some q') : q' ≠ q ∧ frameOf s q' = some v := by
  have hlink := (h h0 v hv victim hvictim q' hq').1
  have hne : q' ≠ q := by
    rintro rfl
    simp [frameOf, unlinked, State.setPage] at hlink
  refine ⟨hne, ?_⟩
  simpa [frameOf, unlinked, State.setPage, State.setFrame, Function.update_of_ne hne] using hlink

theorem EvictOk.linked_of_unlinked {f₀ : Nat} {old : Frame} (h : EvictOk (unlinked s q page f₀ old))
    (h0 : s.userPool.free = 0) : VictimLinked (s.setFrame f₀ { old with rCnt := old.rCnt - 1 }) :=
  fun _ hv _ hvictim _ hq' => (h.victim_ne h0 hv hvictim hq').2

theorem Links.wp (h : Links s) (hq : q ∈ s.spt p) (hok : WpOk s q) (hw : vmHandleWp s p q = some (b, s')) :
    Links s' := by
  obtain ⟨page, hpage, f₀, hf, old, hold⟩ := vmHandleWp_old hw
  have hev := hok page hpage f₀ hf old hold
  have hmem := h.spts.mem_sptPages hq
  have hu := h.unlinked hmem hpage hf hold
  have hne : s.userPool.free = 0 → ∀ v ∈ s.frameList.head?,
      ∀ victim ∈ (s.setFrame f₀ { old with rCnt := old.rCnt - 1 }).frames v, victim.page ≠ some q :=
    fun h0 v hv victim hvictim e => (hev.victim_ne h0 hv hvictim e).1 rfl
  obtain ⟨-, s₁, kva, page', hroom, hpage', rfl⟩ :=
    vmHandleWp_cases hpage hf hold hev.linked_of_unlinked hw
  have hroom' := hroom.setPage { page with frame := none } hne
  have h₁ := hu.room hev hroom'
  have hsame : s₁.pages q = s.pages q := hroom.pages_ne hne
  obtain rfl : page = page' := Option.some.inj (hpage.symm.trans (hsame.symm.trans hpage'))
  have hmem' : q ∈ sptPages (s₁.setPage q { page with frame := none }) := by
    rw [(SameSpts.room hroom').cells]
    exact hmem
  have hmap : Links (Vm.mapFrame (s₁.setPage q { page with frame := none }) p q { page with frame := none } kva true) :=
    h₁.mapFrame hmem' (by simp [State.setPage]) rfl
  refine hmap.congr ⟨rfl, rfl, fun _ => rfl, fun q' => ?_⟩ (fun q' => ?_) rfl rfl rfl
  · simp [vaOf, Vm.mapFrame, State.setMem, State.setPage]
  · simp [frameOf, Vm.mapFrame, State.setMem, State.setPage]

theorem Links.shared {src : Page} {frame : Frame} (h : Links s) (hc : c < s.nextPid) (hf : f ∈ s.frameList)
    (hframe : s.frames f = some frame) (h0 : src.va ≠ 0) (hnone : hashFind s c src.va = none) :
    Links (shared s c src f frame) := by
  have hins : Links (Vm.inserted s c ⟨src.va, none, src.writable, .anon none none⟩) := h.inserted hc h0 hnone rfl
  have hsame : SameSpts (Vm.inserted s c ⟨src.va, none, src.writable, .anon none none⟩) (Vm.shared s c src f frame) :=
    .shared
  have hview : view (Vm.shared s c src f frame) =
      (view (Vm.inserted s c ⟨src.va, none, src.writable, .anon none none⟩)).share s.nextPage f (toObj frame) := by
    refine Table.ext hsame.cells ?_ rfl (obj_update rfl rfl)
    have hpages : (Vm.shared s c src f frame).pages =
        Function.update (Vm.inserted s c ⟨src.va, none, src.writable, .anon none none⟩).pages s.nextPage
          (some ⟨src.va, some f, src.writable, .anon none none⟩) := by
      simp [Vm.inserted, Vm.shared, State.setSpt, State.setPage]
    exact ref_update hpages rfl
  refine ⟨hins.spts.same hsame, h.frame_lt, ?_⟩
  rw [hview]
  refine hins.table.share ?_ (by simp [view, frameOf, Vm.inserted, State.setSpt, State.setPage]) hf
    (by simp [view, Vm.inserted, State.setSpt, State.setPage, hframe])
  exact hins.spts.mem_sptPages (p := c) (by simp [spt_inserted])

/-- The last page that refers to a frame lets go of it, and it is freed. -/
theorem Links.release {frame : Frame} (h : Links s) (hq : q ∈ sptPages s) (hpage : s.pages q = some page)
    (hf : page.frame = some f) (hframe : s.frames f = some frame) (h1 : frame.rCnt = 1) :
    Links { s.setPage q { page with frame := none } with
      frames := Function.update s.frames f none, frameList := s.frameList.erase f } := by
  have hsame : SameSpts s { s.setPage q { page with frame := none } with
      frames := Function.update s.frames f none, frameList := s.frameList.erase f } :=
    ⟨rfl, rfl, fun _ => rfl, vaOf_update hpage rfl rfl⟩
  refine ⟨h.spts.same hsame, fun g hg => h.frame_lt g (List.mem_of_mem_erase hg), ?_⟩
  have hview : view { s.setPage q { page with frame := none } with
      frames := Function.update s.frames f none, frameList := s.frameList.erase f } = (view s).release q f :=
    Table.ext hsame.cells (ref_update rfl rfl) rfl (obj_update rfl rfl)
  rw [hview]
  exact h.table.release hq (by simp [view, frameOf, hpage, hf]) (o := toObj frame) (by simp [view, hframe]) h1

/-- No frame on the list has `q` in its page field. -/
def NoBack (s : State) (q : Nat) : Prop := ∀ f ∈ s.frameList, ∀ frame ∈ s.frames f, frame.page ≠ some q

/-- A page that no frame knows leaves its table. -/
theorem Links.dropped (h : Links s) (hq : q ∈ s.spt p) (hnone : frameOf s q = none) (hb : NoBack s q) :
    Links (s.setSpt p ((s.spt p).erase q)) := by
  have hmem := h.spts.mem_sptPages hq
  have hview : view (s.setSpt p ((s.spt p).erase q)) = (view s).dropCell q := by
    refine Table.ext ?_ ?_ rfl rfl
    · ext q'
      show q' ∈ sptPages _ ↔ q' ∈ (sptPages s).erase q
      simp only [Vm.mem_sptPages, Finset.mem_erase]
      show (∃ p' < s.nextPid, _) ↔ _
      refine ⟨fun ⟨p', hp', hq'⟩ => ?_, fun ⟨hne, p', hp', hq'⟩ => ⟨p', hp', ?_⟩⟩
      · by_cases he : p' = p
        · subst he
          rw [State.spt_setSpt_self] at hq'
          obtain ⟨hne, hq'⟩ := (h.spts.nodup p').mem_erase_iff.mp hq'
          exact ⟨hne, p', hp', hq'⟩
        · rw [State.spt_setSpt_ne _ _ he] at hq'
          exact ⟨fun e => he (h.spts.apart p' p q (e ▸ hq') hq), p', hp', hq'⟩
      · by_cases he : p' = p
        · subst he
          rw [State.spt_setSpt_self]
          exact (h.spts.nodup p').mem_erase_iff.mpr ⟨hne, hq'⟩
        · rwa [State.spt_setSpt_ne _ _ he]
    · show frameOf s = Function.update (frameOf s) q none
      exact (Function.update_eq_self_iff.mpr hnone.symm).symm
  refine ⟨h.spts.erase, h.frame_lt, ?_⟩
  rw [hview]
  refine h.table.dropCell hmem hnone fun f hf o ho => ?_
  obtain ⟨frame, hframe, rfl⟩ := Option.map_eq_some_iff.mp ho
  exact hb f hf frame hframe

/-- A page that is in no table is freed. -/
theorem Links.freePage (h : Links s) (hq : ∀ p, q ∉ s.spt p) (hnone : frameOf s q = none) : Links (s.freePage q) := by
  refine ⟨h.spts.freePage hq, h.frame_lt, ?_⟩
  have hview : view (s.freePage q) = view s := by
    refine Table.ext rfl (funext fun q' => ?_) rfl rfl
    by_cases he : q' = q
    · subst he
      simpa [view, frameOf, State.freePage] using hnone.symm
    · simp [view, frameOf, State.freePage, Function.update_of_ne he]
  rw [hview]
  exact h.table

theorem SameSpts.writeBack {aux : Option FileInfo} (h : writeBack s p page aux = some s') : SameSpts s s' := by
  obtain ⟨hs, hspt, -⟩ := writeBack_spec h
  rw [hs] at hspt ⊢
  exact ⟨rfl, rfl, hspt, fun _ => rfl⟩

theorem SameSpts.clear (s : State) (p va : Nat) : SameSpts s (pml4ClearPage s p va) :=
  ⟨rfl, rfl, spt_pml4ClearPage s p va, fun _ => rfl⟩

theorem Links.writeBack {aux : Option FileInfo} (h : Links s) (hw : writeBack s p page aux = some s') : Links s' := by
  have hs := (writeBack_spec hw).1
  exact h.congr (.writeBack hw) (fun q => by rw [hs]; rfl) (by rw [hs]) (by rw [hs]) (by rw [hs])

theorem Links.clear (h : Links s) : Links (pml4ClearPage s p va) := h.congr (.clear s p va) (fun _ => rfl) rfl rfl rfl

theorem Links.munmap (h : Links s) (hok : ∀ q ∈ sptFindPage s p (va * pgsize), frameOf s q = none ∧ NoBack s q)
    (hm : doMunmap s p va = some s') : Links s' := by
  simp only [doMunmap, Option.bind_eq_bind, Option.bind_eq_some_iff, Option.some.injEq] at hm
  obtain ⟨q, hfind, page, hpage, s₂, hw, rfl⟩ := hm
  obtain ⟨hnone, hb⟩ := hok q hfind
  exact ((h.dropped (sptFindPage_some hfind).1 hnone hb).writeBack hw).clear

/-- A page may go when it is anonymous or not resident, and no frame that
stays on the list has it in its page field. -/
def DestroyOk (s : State) (q : Nat) : Prop :=
  (∀ page ∈ s.pages q, page.frame = none ∨ page.kind.isAnon) ∧
  ∀ f ∈ s.frameList, ∀ frame ∈ s.frames f, frame.page = some q → frameOf s q = some f ∧ frame.rCnt = 1

theorem Spts.notMem_erased (h : Spts s) (hq : q ∈ s.spt p) (p' : Nat) :
    q ∉ (s.setSpt p ((s.spt p).erase q)).spt p' := by
  intro hm
  by_cases he : p' = p
  · subst he
    rw [State.spt_setSpt_self] at hm
    exact ((h.nodup p').mem_erase_iff.mp hm).1 rfl
  · rw [State.spt_setSpt_ne _ _ he] at hm
    exact he (h.apart p' p q hm hq)

/-- Only the tables, the frame fields, the frames and the list tell. -/
theorem Links.freed {s₂ : State} (h : Links s₁) (hs : SameSpts s₁ s₂) (hq : ∀ p, q ∉ s₁.spt p)
    (hp : ∀ q', q' ≠ q → frameOf s₂ q' = frameOf s₁ q') (hnone : frameOf s₁ q = none) (hf : s₂.frames = s₁.frames)
    (hl : s₂.frameList = s₁.frameList) (hn : s₂.nextFrame = s₁.nextFrame) : Links (s₂.freePage q) := by
  have hfree := h.freePage hq hnone
  refine hfree.congr ⟨hs.pid, hs.page, hs.spt, fun q' => ?_⟩ (fun q' => ?_) hf hl hn
  · by_cases he : q' = q
    · subst he; simp [vaOf, State.freePage]
    · simpa [vaOf, State.freePage, Function.update_of_ne he] using hs.va q'
  · by_cases he : q' = q
    · subst he; simp [frameOf, State.freePage]
    · simpa [frameOf, State.freePage, Function.update_of_ne he] using hp q' he

theorem SameSpts.cleared (s : State) (p : Nat) (page : Page) (i : Option Nat) : SameSpts s (cleared s p page i) :=
  (SameSpts.clear s p page.va).trans ⟨rfl, rfl, fun _ => rfl, fun _ => rfl⟩

/-- A resident anonymous page goes: its frame is freed with it, or loses one
reference and does not point at it. -/
theorem Links.destroyAnon {i : Option Nat} {s₂ : State} (h : Links s) (hq : q ∈ s.spt p) (hok : DestroyOk s q)
    (hpage : s.pages q = some page) (hfr : page.frame = some f)
    (hd : anonDestroy (s.setSpt p ((s.spt p).erase q)) p page i = some s₂) : Links (s₂.freePage q) := by
  have hgone := h.spts.notMem_erased hq
  have hmem := h.spts.mem_sptPages hq
  have hspt : ∀ p', (Vm.cleared (s.setSpt p ((s.spt p).erase q)) p page i).spt p' =
      (s.setSpt p ((s.spt p).erase q)).spt p' := (SameSpts.cleared _ p page i).spt
  -- who points at the page, by the condition
  have hback : ∀ g ∈ s.frameList, ∀ frame ∈ s.frames g, frame.page = some q → g = f ∧ frame.rCnt = 1 := by
    intro g hg frame hframe e
    obtain ⟨hgf, h1⟩ := hok.2 g hg frame hframe e
    simp only [frameOf, hpage, Option.bind_some, hfr, Option.some.injEq] at hgf
    exact ⟨hgf.symm, h1⟩
  have hpages : (s.setPage q { page with frame := none }).pages =
      Function.update s.pages q (some { page with frame := none }) := rfl
  have hva : ∀ q', vaOf s q' = vaOf (s.setPage q { page with frame := none }) q' := fun q' =>
    (vaOf_update hpage hpages rfl q').symm
  rcases anonDestroy_cases hd with ⟨hnone, -⟩ | ⟨f', frame, hf', hframe, hcase⟩
  · exact absurd (hfr.symm.trans hnone) (by simp)
  obtain rfl := Option.some.inj (hfr.symm.trans hf')
  change s.frames f = some frame at hframe
  rcases hcase with ⟨h1, -, rfl⟩ | ⟨h1, rfl⟩
  · have hdrop := (h.release hmem hpage hfr hframe h1).dropped (p := p) (q := q) hq (by simp [frameOf, State.setPage]) (by
      intro g hg frame' hframe' e
      obtain ⟨hne, hg⟩ := h.table.nodup.mem_erase_iff.mp hg
      exact hne (hback g hg frame' (by simpa [Function.update_of_ne hne] using hframe') e).1)
    refine hdrop.freed ⟨rfl, rfl, hspt, hva⟩ hgone (fun q' he => ?_) ?_ rfl rfl rfl
    · simp [frameOf, State.setSpt, State.setPage, Function.update_of_ne he, State.setMem, Vm.cleared,
        pml4ClearPage, State.setPte]
    · simp [frameOf, State.setSpt, State.setPage]
  · have hdrop := (h.unlinked hmem hpage hfr hframe).dropped (p := p) (q := q) hq
      (by simp [frameOf, Vm.unlinked, State.setPage]) (by
      intro g hg frame' hframe' e
      by_cases he : g = f
      · subst he
        simp only [Vm.unlinked, State.setPage, State.setFrame, Function.update_self, Option.mem_def,
          Option.some.injEq] at hframe'
        exact h1 (hback g hg frame hframe (by rw [← e, ← hframe'])).2
      · exact he (hback g hg frame'
          (by simpa [Vm.unlinked, State.setPage, State.setFrame, Function.update_of_ne he] using hframe') e).1)
    refine hdrop.freed ⟨rfl, rfl, hspt, hva⟩ hgone (fun q' he => ?_) ?_ rfl rfl rfl
    · simp [frameOf, Vm.unlinked, State.setSpt, State.setPage, Function.update_of_ne he, State.setFrame, Vm.cleared,
        pml4ClearPage, State.setPte]
    · simp [frameOf, Vm.unlinked, State.setSpt, State.setPage]

theorem Links.destroy (h : Links s) (hq : q ∈ s.spt p) (hok : DestroyOk s q)
    (hd : vmDeallocPage (s.setSpt p ((s.spt p).erase q)) p q = some s') : Links s' := by
  simp only [vmDeallocPage, Option.bind_eq_bind, Option.bind_eq_some_iff, Option.some.injEq] at hd
  obtain ⟨page, hpage, s₂, hd, rfl⟩ := hd
  change s.pages q = some page at hpage
  have hgone := h.spts.notMem_erased hq
  cases hfr : page.frame with
  | none =>
    have hnone : frameOf s q = none := by simp [frameOf, hpage, hfr]
    have hdrop := h.dropped hq hnone fun f hf frame hframe e => by
      have := (hok.2 f hf frame hframe e).1
      rw [hnone] at this
      exact absurd this (by simp)
    cases hk : page.kind with
    | uninit type init aux =>
      simp only [Vm.destroy, hk, Option.some.injEq] at hd
      subst hd
      exact hdrop.freePage hgone hnone
    | anon i aux =>
      simp only [Vm.destroy, hk] at hd
      rcases anonDestroy_cases hd with ⟨-, rfl⟩ | ⟨f, _, hf, -⟩
      · exact hdrop.freed (.cleared ..) hgone (fun _ _ => rfl) hnone rfl rfl rfl
      · exact absurd (hfr.symm.trans hf) (by simp)
    | file aux =>
      simp only [Vm.destroy, hk, fileBackedDestroy, hfr, Option.bind_eq_bind, Option.bind_eq_some_iff,
        Option.some.injEq] at hd
      obtain ⟨s₃, hw, rfl⟩ := hd
      have hs := (writeBack_spec hw).1
      refine (hdrop.writeBack hw).freed (.clear ..) (fun p' => ?_) (fun _ _ => rfl) ?_ rfl rfl rfl
      · rw [(SameSpts.writeBack hw).spt]
        exact hgone p'
      · rw [hs]
        exact hnone
  | some f =>
    have hanon := (hok.1 page hpage).resolve_left (by simp [hfr])
    cases hk : page.kind with
    | uninit | file => simp [hk, Kind.isAnon] at hanon
    | anon i aux =>
      simp only [Vm.destroy, hk] at hd
      exact h.destroyAnon hq hok hpage hfr hd

end PintosKaist.Vm
