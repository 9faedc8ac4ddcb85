/-
Demand paging of one process against a flat memory that has no frames and no
swap disk behind it. Every run whose pages without an initializer are first
claimed with a free frame at hand reads what the flat memory holds.
-/
import PintosKaist.Vm.Paging

namespace PintosKaist.Vm

variable {s s' s₁ : State} {p q f kva va : Nat} {page : Page} {b : Bool}

/-! ## Flat memory -/

/-- The bytes of each page of user memory that exists. -/
abbrev Flat := Nat → Option Bytes

/-- A new page, where there is none. -/
def Flat.put (m : Flat) (va : Nat) (b : Option Bytes) : Flat :=
  if (m va).isSome then m else Function.update m va b

/-- What an event of the process does to a memory with no frames and no swap
disk behind it. -/
def flatStep (inodes : Nat → Inode) (m : Flat) : Ev → Flat
  | .alloc _ _ va _ init aux => m.put va (firstBytes inodes init aux)
  | .setupStack _ => m.put (userStack / pgsize - 1) (some zeroPage)
  | .store _ addr b =>
    Function.update m (addr / pgsize) ((m (addr / pgsize)).map fun bytes => Function.update bytes (pgOfs addr) b)
  | .fault _ addr rsp _ => if inStackWindow addr rsp then m.put (addr / pgsize) (some zeroPage) else m
  | _ => m

/-- Process 0 allocates anonymous pages, as `load_segment` and `setup_stack`
do, and accesses them. -/
def Solo : Ev → Prop
  | .spawn => True
  | .alloc p type _ _ init aux => p = 0 ∧ type = .anon ∧ (init = true → aux.isSome = true)
  | .setupStack p | .load p _ | .store p .. | .fault p .. => p = 0
  | _ => False

/-- A page without an initializer is first claimed with a free frame at
hand. -/
def BareFresh (s : State) : Ev → Prop
  | .setupStack p => hashFind s p (userStack / pgsize - 1) = none → 0 < s.userPool.free
  | .fault p addr _ _ => ∀ q ∈ sptFindPage s p addr, ∀ page ∈ s.pages q, page.kind.bare = true → 0 < s.userPool.free
  | _ => True

structure Paged (inodes : Nat → Inode) (frames : Nat) (s : State) (m : Flat) : Prop where
  priv : Private s
  slots : Slots s
  solo : ∀ p, p ≠ 0 → s.spt p = []
  inodes : s.inodes = inodes
  size : s.userPool.size = frames
  known : ∀ q ∈ s.spt 0, (contentOf s q).isSome = true
  flat : ∀ va, m va = (hashFind s 0 va).bind (contentOf s)

variable {inodes : Nat → Inode} {frames : Nat} {m : Flat}

theorem Paged.moved (h : Paged inodes frames s m) (hp : Private s') (hm : Moved s s') : Paged inodes frames s' m := by
  refine ⟨hp, hm.slots, fun p hp => by rw [hm.same.spt, h.solo p hp], hm.inodes.trans h.inodes,
    hm.size.trans h.size, ?_, ?_⟩
  · intro q hq
    rw [hm.same.spt] at hq
    rw [hm.content 0 q hq]
    exact h.known q hq
  · intro va
    rw [h.flat, hashFind_same hm.same]
    cases hfind : hashFind s 0 va with
    | none => rfl
    | some q => exact (hm.content 0 q (hashFind_some hfind).1).symm

/-- Every page is one of process 0, so every eviction takes one of its own. -/
theorem Paged.evictOwn (h : Paged inodes frames s m) : EvictOwn s 0 := by
  intro _ v hv victim hvictim q hq
  obtain ⟨p, -, hmem⟩ := mem_sptPages.mp (h.priv.wf.links.back_mem (List.mem_of_mem_head? hv) hvictim hq)
  by_cases hp : p = 0
  · exact hp ▸ hmem
  · rw [h.solo p hp] at hmem
    exact absurd hmem (by simp)

theorem Paged.put_none (h : Paged inodes frames s m) {bytes : Option Bytes} (hnone : hashFind s 0 va = none) :
    m.put va bytes = Function.update m va bytes := by
  rw [Flat.put, if_neg]
  simp [h.flat, hnone]

theorem Paged.put_some (h : Paged inodes frames s m) {bytes : Option Bytes} (hfind : hashFind s 0 va = some q) :
    m.put va bytes = m := by
  rw [Flat.put, if_pos]
  rw [h.flat, hfind, Option.bind_some]
  exact h.known q (hashFind_some hfind).1

/-! ## Each event -/

theorem Paged.claim (h : Paged inodes frames s m) (hq : q ∈ s.spt 0) (hpage : s.pages q = some page)
    (hfr : page.frame = none) (hbare : page.kind.bare = true → 0 < s.userPool.free)
    (hc : vmDoClaimPage s 0 q = some (b, s')) : Paged inodes frames s' m := by
  have hnone : frameOf s q = none := by simp [frameOf, hpage, hfr]
  refine h.moved ?_ (h.priv.moved_claim h.slots hq hpage hfr hbare hc).2
  exact h.priv.claim hq ⟨h.priv.evictOk, .inl hnone⟩ h.evictOwn hnone hc

theorem Paged.inserted {writable init : Bool} {aux : Option FileInfo} (h : Paged inodes frames s m)
    (hp : 0 < s.nextPid) (h0 : va ≠ 0) (hnone : hashFind s 0 va = none) (haux : init = true → aux.isSome = true) :
    Paged inodes frames (inserted s 0 ⟨va, none, writable, .uninit .anon init aux⟩)
      (m.put va (firstBytes inodes init aux)) := by
  have hspts := h.priv.wf.links.spts
  have hold : ∀ {p q}, q ∈ s.spt p →
      (Vm.inserted s 0 ⟨va, none, writable, .uninit .anon init aux⟩).pages q = s.pages q := fun hq =>
    Function.update_of_ne (Nat.ne_of_lt (hspts.lt _ _ hq)) ..
  have hnew : (Vm.inserted s 0 ⟨va, none, writable, .uninit .anon init aux⟩).pages s.nextPage =
      some ⟨va, none, writable, .uninit .anon init aux⟩ := Function.update_self ..
  have hspt : ∀ {p q}, q ∈ (Vm.inserted s 0 ⟨va, none, writable, .uninit .anon init aux⟩).spt p →
      q = s.nextPage ∨ q ∈ s.spt p := fun {p q} hq => by
    rw [spt_inserted] at hq
    split at hq
    · rename_i e
      exact (List.mem_cons.mp hq).imp id fun hq => e ▸ hq
    · exact .inr hq
  have hsub : ∀ {p q}, q ∈ s.spt p → q ∈ (Vm.inserted s 0 ⟨va, none, writable, .uninit .anon init aux⟩).spt p :=
    fun {p q} hq => by
      rw [spt_inserted]
      split
      · rename_i e
        exact List.mem_cons_of_mem _ (e ▸ hq)
      · exact hq
  have hslot : slotOf (Vm.inserted s 0 ⟨va, none, writable, .uninit .anon init aux⟩) s.nextPage = none := by
    rw [slotOf_eq hnew]
    rfl
  have hslot' : ∀ {p q}, q ∈ s.spt p →
      slotOf (Vm.inserted s 0 ⟨va, none, writable, .uninit .anon init aux⟩) q = slotOf s q := fun hq => by
    rw [slotOf, hold hq]
    rfl
  have hcontent : ∀ {p q}, q ∈ s.spt p →
      contentOf (Vm.inserted s 0 ⟨va, none, writable, .uninit .anon init aux⟩) q = contentOf s q := fun hq => by
    rw [contentOf, hold hq]
    rfl
  have hfirst : contentOf (Vm.inserted s 0 ⟨va, none, writable, .uninit .anon init aux⟩) s.nextPage =
      firstBytes inodes init aux := by
    rw [contentOf_absent hnew rfl, ← h.inodes]
    rfl
  refine ⟨h.priv.inserted hp h0 hnone, ⟨?_, ?_, ?_, ?_⟩, ?_, h.inodes, h.size, ?_, ?_⟩
  · intro p q hq i hi
    rcases hspt hq with rfl | hq
    · exact absurd (hslot.symm.trans hi) (by simp)
    · rw [hslot' hq] at hi
      obtain ⟨h₁, h₂, h₃⟩ := h.slots.used p q hq i hi
      exact ⟨h₁, h₂, by rw [frameOf, hold hq]; exact h₃⟩
  · intro p₁ p₂ q₁ q₂ i hq₁ hq₂ hi₁ hi₂
    rcases hspt hq₁ with rfl | hq₁
    · exact absurd (hslot.symm.trans hi₁) (by simp)
    rcases hspt hq₂ with rfl | hq₂
    · exact absurd (hslot.symm.trans hi₂) (by simp)
    rw [hslot' hq₁] at hi₁
    rw [hslot' hq₂] at hi₂
    exact h.slots.inj p₁ p₂ q₁ q₂ i hq₁ hq₂ hi₁ hi₂
  · intro i hi hb
    obtain ⟨p, q, hq, he⟩ := h.slots.full i hi hb
    exact ⟨p, q, hsub hq, (hslot' hq).trans he⟩
  · intro p q hq page hpage hanon hnone'
    rcases hspt hq with rfl | hq
    · obtain rfl := Option.some.inj (hnew.symm.trans hpage)
      exact absurd hanon (by simp [Kind.isAnon])
    · rw [hold hq] at hpage
      exact h.slots.held p q hq page hpage hanon hnone'
  · intro p hp
    rw [spt_inserted, if_neg hp, h.solo p hp]
  · intro q hq
    rcases hspt hq with rfl | hq
    · rw [hfirst, firstBytes]
      split
      · rename_i hi
        simpa using haux hi
      · rfl
    · rw [hcontent hq]
      exact h.known q hq
  · intro va'
    have hfind := hspts.hashFind_inserted ⟨va, none, writable, .uninit .anon init aux⟩ hp h0 hnone 0 va'
    rw [hfind, h.put_none hnone]
    by_cases he : va' = va
    · subst he
      rw [Function.update_self, if_pos ⟨rfl, rfl⟩, Option.bind_some, hfirst]
    · rw [Function.update_of_ne he, if_neg fun e => he e.2, h.flat]
      cases hf : hashFind s 0 va' with
      | none => rfl
      | some q => exact (hcontent (hashFind_some hf).1).symm

theorem Paged.alloc {writable init : Bool} {aux : Option FileInfo} (h : Paged inodes frames s m)
    (hp : 0 < s.nextPid) (h0 : va ≠ 0) (haux : init = true → aux.isSome = true) :
    Paged inodes frames (vmAllocPageWithInitializer s 0 .anon va writable init aux).2
      (m.put va (firstBytes inodes init aux)) := by
  cases hfind : hashFind s 0 va with
  | none =>
    rw [vmAlloc_new (.inl rfl) hfind]
    exact h.inserted hp h0 hfind haux
  | some q =>
    rw [vmAlloc_old hfind, h.put_some hfind]
    exact h

/-- Writing the memory behind one page changes the content of that page. -/
theorem Private.content_setMem {t : State} {p' q' : Nat} {frame : Frame} {bytes : Bytes} (h : Private s)
    (hp : t.pages = s.pages) (hf : t.frames = s.frames) (hi : t.inodes = s.inodes) (hd : t.swapDisk = s.swapDisk)
    (hm : t.mem = Function.update s.mem frame.kva bytes) (hq : q ∈ s.spt p) (hqf : frameOf s q = some f)
    (hframe : s.frames f = some frame) (hq' : q' ∈ s.spt p') :
    contentOf t q' = if q' = q then some bytes else contentOf s q' := by
  obtain ⟨va, hva', -⟩ := h.wf.links.spts.live p' q' hq'
  obtain ⟨page', hpage', -⟩ := vaOf_some hva'
  have hpaget : t.pages q' = some page' := by rw [hp, hpage']
  cases hfr' : page'.frame with
  | none =>
    have hne : q' ≠ q := by
      rintro rfl
      simp [frameOf, hpage', hfr'] at hqf
    rw [if_neg hne, contentOf_absent hpage' hfr', contentOf_absent hpaget hfr', hi, hd]
  | some f' =>
    have hqf' : frameOf s q' = some f' := by simp [frameOf, hpage', hfr']
    obtain ⟨hm', frame', hframe'⟩ := h.wf.links.resident hq' hqf'
    rw [contentOf_resident hpaget hfr' (by rw [hf, hframe']), contentOf_resident hpage' hfr' hframe', hm]
    by_cases he : q' = q
    · subst he
      obtain rfl := Option.some.inj (hqf.symm.trans hqf')
      obtain rfl := Option.some.inj (hframe.symm.trans hframe')
      rw [if_pos rfl, Function.update_self]
    · have hne : frame'.kva ≠ frame.kva := by
        intro e
        obtain rfl := h.wf.pool.inj f' hm' f (h.wf.links.resident hq hqf).1 frame' frame hframe' hframe e
        exact he (h.unique hq hq' hqf hqf')
      rw [if_neg he, Function.update_of_ne hne]

/-- A store lands in the content of the one page it is for. -/
theorem Paged.store {addr : Nat} {c : Byte} (h : Paged inodes frames s m) (hs : step s (.store 0 addr c) = some s') :
    Paged inodes frames s' (flatStep inodes m (.store 0 addr c)) := by
  have hpriv : Private s' := h.priv.step (e := .store 0 addr c) trivial trivial hs
  have hspts := h.priv.wf.links.spts
  simp only [step, act, storeByte, Option.ite_none_right_eq_some, permits, Bool.and_eq_true] at hs
  obtain ⟨-, ⟨hpres, -⟩, hs⟩ := hs
  obtain ⟨q, page, f, frame, hq, hpage, hva, hf, hm, hframe, hk⟩ := h.priv.wf.present hpres
  have hfind : hashFind s 0 (addr / pgsize) = some q := hspts.hashFind_iff.mpr ⟨hq, by rw [vaOf_eq hpage, hva]⟩
  have hqf : frameOf s q = some f := by simp [frameOf, hpage, hf]
  rw [← hk] at hs
  have hspt : ∀ p', s'.spt p' = s.spt p' := fun p' => by
    rw [← Option.some.inj hs]
    exact State.spt_setPte _ 0 _ _ p'
  have hcontent : ∀ q' ∈ s.spt 0, contentOf s' q' =
      if q' = q then some (Function.update (s.mem frame.kva) (pgOfs addr) c) else contentOf s q' := fun q' hq' => by
    rw [← Option.some.inj hs]
    exact h.priv.content_setMem rfl rfl rfl rfl rfl hq hqf hframe hq'
  have hsame : SameSpts s s' := by
    refine ⟨?_, ?_, hspt, fun q' => ?_⟩
    all_goals rw [← Option.some.inj hs]; rfl
  refine ⟨hpriv, h.slots.congr hspt ?_ ?_, fun p hp => by rw [hspt, h.solo p hp], ?_, ?_, ?_, ?_⟩
  · rw [← Option.some.inj hs]
    rfl
  · rw [← Option.some.inj hs]
    rfl
  · rw [← Option.some.inj hs]
    exact h.inodes
  · rw [← Option.some.inj hs]
    exact h.size
  · intro q' hq'
    rw [hspt] at hq'
    rw [hcontent q' hq']
    split
    · rfl
    · exact h.known q' hq'
  · intro va
    rw [hashFind_same hsame, flatStep]
    by_cases he : va = addr / pgsize
    · subst he
      rw [Function.update_self, h.flat, hfind, Option.bind_some, Option.bind_some, hcontent q hq, if_pos rfl,
        contentOf_resident hpage hf hframe]
      rfl
    · rw [Function.update_of_ne he, h.flat]
      cases hf' : hashFind s 0 va with
      | none => rfl
      | some q' =>
        obtain ⟨hq', hva'⟩ := hspts.hashFind_iff.mp hf'
        rw [Option.bind_some, Option.bind_some, hcontent q' hq', if_neg]
        rintro rfl
        rw [vaOf_eq hpage, hva] at hva'
        exact he (Option.some.inj hva').symm

theorem Paged.fault {addr rsp : Nat} {write : Bool} (h : Paged inodes frames s m) (hp : 0 < s.nextPid)
    (hbare : BareFresh s (.fault 0 addr rsp write)) (hperm : permits (s.pte 0 (addr / pgsize)) write = false)
    (hf : vmTryHandleFault s 0 addr rsp write (!(s.pte 0 (addr / pgsize)).present) = some (b, s')) :
    Paged inodes frames s' (flatStep inodes m (.fault 0 addr rsp write)) := by
  -- where there is a page, nothing grows
  have hput : ∀ {q}, sptFindPage s 0 addr = some q → flatStep inodes m (.fault 0 addr rsp write) = m := by
    intro q hq
    simp only [sptFindPage] at hq
    split at hq
    · exact absurd hq (by simp)
    · simp [flatStep, h.put_some hq]
  rcases vmTryHandleFault_cases hf with ⟨rfl, rfl⟩ | ⟨q, page, hq, hpage, hw, hpres, hwr, hwp⟩ | ⟨q, hq, hpres, hc⟩ |
    ⟨-, hnone, hwin, rfl⟩
  · cases hq : sptFindPage s' 0 addr with
    | some q => rwa [hput hq]
    | none =>
      -- the fault failed, so the address is not in the window
      have hwin : inStackWindow addr rsp = false := by
        by_contra hwin
        simp only [Bool.not_eq_false] at hwin
        have hlt : ¬ kernBase ≤ addr := by
          simp only [inStackWindow, Bool.and_eq_true, decide_eq_true_eq] at hwin
          have := hwin.2
          simp only [userStack, kernBase] at *
          omega
        simp [vmTryHandleFault, hlt, hq, hwin] at hf
      simp only [flatStep, hwin, Bool.false_eq_true, if_false]
      exact h
  · -- an entry has the permission of its page, so there is no write fault on a writable page
    obtain ⟨hqm, page', hpage', hva⟩ := sptFindPage_some hq
    obtain rfl := Option.some.inj (hpage.symm.trans hpage')
    simp only [Bool.not_eq_false'] at hpres
    have := h.priv.perm 0 q hqm page hpage (by rw [hva]; exact hpres)
    rw [hva, hwr] at this
    simp [permits, hpres, this] at hperm
  · obtain ⟨hqm, page, hpage, hva⟩ := sptFindPage_some hq
    simp only [Bool.not_eq_true'] at hpres
    have hnone := h.priv.wf.not_resident hqm (by rw [vaOf_eq hpage, hva]) hpres
    rw [hput hq]
    exact h.claim hqm hpage (by simpa [frameOf, hpage] using hnone) (hbare q hq page hpage) hc
  · simp only [flatStep, hwin, if_true]
    exact h.alloc hp (inStackWindow_ne_zero hwin) (by simp)

/-- Every event of the process does to the contents what it does to flat
memory. -/
theorem Paged.step {e : Ev} (h : Paged inodes frames s m) (hsolo : Solo e) (hbare : BareFresh s e)
    (hs : step s e = some s') : Paged inodes frames s' (flatStep inodes m e) := by
  cases step_took hs with
  | spawn =>
    have hpriv := h.priv.step (e := .spawn) trivial trivial hs
    exact ⟨hpriv, h.slots.congr (fun _ => rfl) rfl rfl, h.solo, h.inodes, h.size, h.known, h.flat⟩
  | alloc hp h0 =>
    obtain ⟨rfl, rfl, haux⟩ := hsolo
    exact h.alloc hp h0 haux
  | @setupStack p b _ hp hst =>
    obtain rfl : p = 0 := hsolo
    rcases setupStack_cases hst with ⟨hsome, rfl⟩ | ⟨hnone, hc⟩
    · obtain ⟨q, hfind⟩ := Option.isSome_iff_exists.mp hsome
      simp only [flatStep, h.put_some hfind]
      exact h
    · have hins : Paged inodes frames (Vm.inserted s 0 ⟨userStack / pgsize - 1, none, true, .uninit .anon false none⟩)
          (m.put (userStack / pgsize - 1) (firstBytes inodes false none)) :=
        h.inserted hp (by decide) hnone (by simp)
      exact hins.claim (by simp [spt_inserted]) (Function.update_self ..) rfl (fun _ => hbare hnone) hc
  | load => exact h
  | @store p addr b _ hp hst =>
    obtain rfl : p = 0 := hsolo
    exact h.store hs
  | @fault p addr rsp write b _ hp hno hf =>
    obtain rfl : p = 0 := hsolo
    exact h.fault hp hbare hno hf
  | copyPage | munmap | destroy | reap => exact hsolo.elim

/-! ## Faults are served -/

/-- `vm_get_frame` finds the room there is. -/
theorem Room.get (hr : Room s p s₁ kva) : vmGetFrame s p = some (pushFrame s₁ kva) := by
  cases hr with
  | free hscan => simp only [vmGetFrame, hscan]
  | anon hfull hlist hvictim hback hpage hframe hkind hslot =>
    simp only [vmGetFrame, hfull, vmEvictFrame, hlist, hvictim, hback, swapOut, hpage, hkind, anonSwapOut, hslot, hframe,
      Option.bind_eq_bind, Option.bind_some, State.setFrame, State.setPage, Function.update_self, State.freeFrame,
      pml4ClearPage, State.setPte, Function.update_idem]
    rfl
  | file hfull hlist hvictim hback hpage hframe hkind hwrite =>
    rename_i v q rest victim page aux s₂
    have hwrite' : writeBack { s with frameList := rest, pages := s.pages } p page aux =
        some { s₂ with frameList := rest, pages := s.pages } := by rw [writeBack_with, hwrite]; rfl
    have hs := (writeBack_spec hwrite).1
    have hvictim' : s₂.frames v = some victim := by rw [hs]; exact hvictim
    simp only [vmGetFrame, hfull, vmEvictFrame, hlist, hvictim, hback, swapOut, hpage, hkind, hwrite',
      Option.bind_eq_bind, Option.bind_some, State.setPage, State.freeFrame, pml4ClearPage, State.setPte, hvictim']
    rw [hs]
    rfl

theorem Room.claim (hr : Room s p s₁ kva) (hpage : s₁.pages q = some page) :
    vmDoClaimPage s p q = swapIn (mapFrame s₁ p q page kva page.writable) q kva := by
  have hlink := pushFrame_link s₁ p q page kva page.writable
  simp only [vmDoClaimPage, hr.get, Option.bind_eq_bind, Option.bind_some]
  simp only [pushFrame, State.setFrame, Function.update_self, Option.bind_some] at hlink ⊢
  show Option.bind (s₁.pages q) _ = _
  rw [hpage, Option.bind_some, hlink]

/-- An absent page whose content is known is brought in. -/
theorem swapIn_known {frame : Frame} (hpage : s.pages q = some page)
    (hk : page.kind.slot ≠ none ∨ ∃ init aux, page.kind = .uninit .anon init aux)
    (hb : (backing s.inodes s.swapDisk page.kind).isSome = true) (hf : page.frame.bind s.frames = some frame) :
    ∃ t, swapIn s q kva = some (true, t) ∧ t.procs = s.procs := by
  simp only [swapIn, hpage, Option.bind_eq_bind, Option.bind_some]
  cases hkind : page.kind with
  | uninit type init aux =>
    cases init with
    | false => exact ⟨_, rfl, rfl⟩
    | true =>
      cases aux with
      | none => simp [hkind, backing, firstBytes] at hb
      | some fi =>
        refine ⟨(s.setPage q { page with kind := pageInitializer type (some fi) }).setMem frame.kva
          (segmentBytes (s.inodes fi.file) fi), ?_, rfl⟩
        simp only [uninitInitialize, if_true, lazyLoadSegment, State.setPage, Function.update_self,
          Option.bind_eq_bind, Option.bind_some]
        show Option.bind (page.frame.bind s.frames) _ = _
        rw [hf]
        rfl
  | anon i aux =>
    cases i with
    | none => simp [hkind, backing] at hb
    | some i => exact ⟨_, rfl, rfl⟩
  | file aux =>
    rcases hk with hk | ⟨init, aux', hk⟩
    · simp [hkind, Kind.slot] at hk
    · simp [hkind] at hk

/-- With a frame in the machine and a slot for the victim there is room. -/
theorem Paged.exists_room (h : Paged inodes frames s m) (hn : 0 < frames)
    (hfree : 0 < s.userPool.free ∨ 0 < s.swapTable.free) : ∃ s₁ kva, Room s 0 s₁ kva := by
  cases hscan : s.userPool.scanAndFlip with
  | some r => exact ⟨_, r.1, .free hscan⟩
  | none =>
    have hslot := hfree.resolve_left (by simp [Bitmap.free_eq_zero hscan])
    obtain ⟨idx, slots, hslot⟩ := Bitmap.exists_scanAndFlip hslot
    -- page 0 of the pool is in use, by a frame on the list
    have hsize : 0 < s.userPool.size := by rw [h.size]; exact hn
    obtain ⟨f, hf, -⟩ := (h.priv.wf.pool.full 0 hsize (Bitmap.scanAndFlip_none hscan 0 hsize)).resolve_left (by simp)
    cases hlist : s.frameList with
    | nil => simp [hlist] at hf
    | cons v rest =>
      have hv : v ∈ s.frameList := by simp [hlist]
      obtain ⟨o, ho⟩ := h.priv.wf.links.table.live v hv
      obtain ⟨victim, hvictim, -⟩ := Option.map_eq_some_iff.mp ho
      obtain ⟨q, hback, hqf, -⟩ := h.priv.sole v hv victim hvictim
      obtain ⟨page, hpage, hframe⟩ := Option.bind_eq_some_iff.mp hqf
      have hk := h.priv.victim_anon hv hvictim hback hpage hframe
      cases hkind : page.kind with
      | uninit | file => simp [hkind, Kind.isAnon] at hk
      | anon i aux => exact ⟨_, _, .anon hscan hlist hvictim hback hpage hframe hkind hslot⟩

/-- A fault on a page of the process is served, and the access goes through
after it. -/
theorem Paged.served {addr rsp : Nat} {write : Bool} (h : Paged inodes frames s m) (hn : 0 < frames)
    (hfind : sptFindPage s 0 addr = some q) (hpage : s.pages q = some page) (hlt : addr < kernBase)
    (hw : write = true → page.writable = true) (hperm : permits (s.pte 0 (addr / pgsize)) write = false)
    (hfree : 0 < s.userPool.free ∨ 0 < s.swapTable.free) :
    ∃ s', Vm.step s (.fault 0 addr rsp write) = some s' ∧ permits (s'.pte 0 (addr / pgsize)) write = true := by
  obtain ⟨hq, page', hpage', hva⟩ := sptFindPage_some hfind
  obtain rfl := Option.some.inj (hpage.symm.trans hpage')
  have hpres : (s.pte 0 (addr / pgsize)).present = false := by
    by_contra hpres
    simp only [Bool.not_eq_false] at hpres
    have := h.priv.perm 0 q hq page hpage (by rw [hva]; exact hpres)
    rw [hva] at this
    cases write with
    | false => simp [permits, hpres] at hperm
    | true => simp [permits, hpres, this, hw rfl] at hperm
  have hnone := h.priv.wf.not_resident hq (by rw [vaOf_eq hpage, hva]) hpres
  have hfr : page.frame = none := by simpa [frameOf, hpage] using hnone
  obtain ⟨s₁, kva, hroom⟩ := h.exists_room hn hfree
  have hm := h.priv.moved_room h.slots hroom
  have hpage₁ : s₁.pages q = some page := by
    rw [hroom.pages_ne, hpage]
    intro h0 v hv victim hvictim hback
    have := (h.priv.evictOk h0 v hv victim hvictim q hback).1
    exact absurd (hnone.symm.trans this) (by simp)
  have hb : (backing s₁.inodes s₁.swapDisk page.kind).isSome = true := by
    rw [← contentOf_absent hpage₁ hfr, hm.content 0 q hq]
    exact h.known q hq
  have habsent := h.priv.absent h.slots hq hpage hfr
  obtain ⟨t, ht, hprocs⟩ : ∃ t, swapIn (mapFrame s₁ 0 q page kva page.writable) q kva = some (true, t) ∧
      t.procs = (mapFrame s₁ 0 q page kva page.writable).procs := by
    have hlinked : (mapFrame s₁ 0 q page kva page.writable).pages q = some { page with frame := some s₁.nextFrame } := by
      simp [mapFrame]
    have hnew : (some s₁.nextFrame).bind (mapFrame s₁ 0 q page kva page.writable).frames = some ⟨kva, some q, 1⟩ := by
      simp [mapFrame]
    exact swapIn_known hlinked habsent hb hnew
  have hpid : 0 < s.nextPid := by
    by_contra hlt
    rw [h.priv.wf.links.spts.idle 0 (by omega)] at hq
    exact absurd hq (by simp)
  have hpte : t.pte 0 page.va = ⟨kva, true, page.writable, false⟩ := by
    rw [State.pte, hprocs]
    have := pte_pml4SetPage s₁ 0 page.va kva page.writable 0 page.va
    rwa [if_pos ⟨rfl, rfl⟩] at this
  refine ⟨t, ?_, ?_⟩
  · have hclaim := (hroom.claim hpage₁).trans ht
    simp [Vm.step, Ev.pid, hpid, act, hperm, vmTryHandleFault, Nat.not_le.mpr hlt, hfind, hpage, hpres, hclaim]
  · rw [← hva, hpte]
    cases write with
    | false => rfl
    | true => simp [permits, hw rfl]

/-! ## Every run -/

/-- A page is swapped out to slot `i`. -/
def SwappedOut (s : State) (q i : Nat) : Prop := slotOf s q = some i ∧ frameOf s q = none

/-- The set bits of `swap_table` are the slots of the pages of process 0 that
are swapped out, each of one page. -/
def SwapExact (s : State) : Prop :=
  (∀ i < s.swapTable.size, s.swapTable.bit i = true ↔ ∃ q ∈ s.spt 0, SwappedOut s q i) ∧
    ∀ q ∈ s.spt 0, ∀ q' ∈ s.spt 0, ∀ i, SwappedOut s q i → SwappedOut s q' i → q = q'

theorem Paged.swapExact (h : Paged inodes frames s m) : SwapExact s := by
  refine ⟨fun i hi => ⟨fun hb => ?_, fun ⟨q, hq, hs, _⟩ => (h.slots.used 0 q hq i hs).2.1⟩, fun q hq q' hq' i hs hs' =>
    h.slots.inj 0 0 q q' i hq hq' hs.1 hs'.1⟩
  obtain ⟨p, q, hq, hs⟩ := h.slots.full i hi hb
  by_cases hp : p = 0
  · subst hp
    exact ⟨q, hq, hs, (h.slots.used 0 q hq i hs).2.2⟩
  · rw [h.solo p hp] at hq
    exact absurd hq (by simp)

theorem Paged.load {addr : Nat} {c : Byte} (h : Paged inodes frames s m) (hl : loadByte s 0 addr = some c) :
    (m (addr / pgsize)).map (· (pgOfs addr)) = some c := by
  simp only [loadByte, permits, Bool.not_false, Bool.true_or, Bool.and_true] at hl
  split at hl
  · rename_i hpres
    obtain ⟨q, page, f, frame, hq, hpage, hva, hf, -, hframe, hk⟩ := h.priv.wf.present hpres
    rw [h.flat, h.priv.wf.links.spts.hashFind_iff.mpr ⟨hq, by rw [vaOf_eq hpage, hva]⟩, Option.bind_some,
      contentOf_resident hpage hf hframe, hk]
    exact hl
  · exact absurd hl (by simp)

theorem paged_boot {slots : Nat} {mem : Nat → Bytes} {disk : Nat → Sector} :
    Paged inodes frames (boot frames slots mem disk inodes) fun _ => none :=
  ⟨private_boot, ⟨fun _ _ h => absurd h List.not_mem_nil, fun _ _ _ _ _ h => absurd h List.not_mem_nil,
    fun _ _ h => absurd h (by simp [boot]), fun _ _ h => absurd h List.not_mem_nil⟩, fun _ _ => rfl, rfl, rfl,
    fun _ h => absurd h List.not_mem_nil, fun _ => rfl⟩

/-- **Transparency.** In every run of one process that neither forks nor maps
files, on any number of frames, and whose pages without an initializer are
first claimed with a free frame at hand: a load reads what flat memory holds,
a fault on a page of the process is served as long as there is a free frame or
a free slot, and `swap_table` is exact. -/
theorem paging_of_run {slots : Nat} {mem : Nat → Bytes} {disk : Nat → Sector} {es : List Ev} (hn : 0 < frames)
    (hrun : Run.run step (boot frames slots mem disk inodes) es = some s) (hsolo : ∀ e ∈ es, Solo e)
    (hbare : Run.Always step BareFresh (boot frames slots mem disk inodes) es) :
    (∀ addr c, loadByte s 0 addr = some c →
      (es.foldl (flatStep inodes) (fun _ => none) (addr / pgsize)).map (· (pgOfs addr)) = some c) ∧
    (∀ addr rsp write q page, sptFindPage s 0 addr = some q → s.pages q = some page → addr < kernBase →
      (write = true → page.writable = true) → permits (s.pte 0 (addr / pgsize)) write = false →
      0 < s.userPool.free ∨ 0 < s.swapTable.free →
      ∃ s', step s (.fault 0 addr rsp write) = some s' ∧ permits (s'.pte 0 (addr / pgsize)) write = true) ∧
    SwapExact s := by
  have hsolo' : Run.Always step (fun _ e => Solo e) (boot frames slots mem disk inodes) es :=
    Run.always_of_mem _ fun e he _ => hsolo e he
  have h : Paged inodes frames s (es.foldl (flatStep inodes) fun _ => none) :=
    Run.run_simulation (fun _ _ _ _ h hG hs => h.step hG.1 hG.2 hs) paged_boot hrun (Run.always_and hsolo' hbare)
  exact ⟨fun _ _ => h.load, fun addr rsp write q page hfind hpage hlt hw hperm hfree =>
    h.served hn hfind hpage hlt hw hperm hfree, h.swapExact⟩

instance : ∀ e, Decidable (Solo e)
  | .spawn => inferInstanceAs (Decidable True)
  | .alloc .. => inferInstanceAs (Decidable (_ ∧ _ ∧ (_ → _)))
  | .setupStack _ | .load .. | .store .. | .fault .. => inferInstanceAs (Decidable (_ = _))
  | .copyPage .. | .munmap .. | .destroy .. | .reap _ => inferInstanceAs (Decidable False)

instance : ∀ s e, Decidable (BareFresh s e)
  | _, .setupStack _ => inferInstanceAs (Decidable (_ → _))
  | _, .fault .. => inferInstanceAs (Decidable (∀ _ ∈ _, ∀ _ ∈ _, _ → _))
  | _, .spawn | _, .alloc .. | _, .load .. | _, .store .. | _, .copyPage .. | _, .munmap .. | _, .destroy ..
  | _, .reap _ => inferInstanceAs (Decidable True)

/-- One frame: the stack is written, goes out for a page of the file, and
comes back. -/
def outAndBack : List Ev :=
  [.spawn, .setupStack 0, .store 0 stackTop 7, .alloc 0 .anon 5 true true (some smallFile),
    .fault 0 (5 * pgsize) 0 false, .fault 0 stackTop 0 false]

theorem paging_outAndBack : ∃ s, Run.run step (small 1 2) outAndBack = some s ∧ loadByte s 0 stackTop = some 7 ∧
    (outAndBack.foldl (flatStep (small 1 2).inodes) (fun _ => none) (stackTop / pgsize)).map (· (pgOfs stackTop)) =
      some 7 := by
  obtain ⟨s, hs, hc⟩ : ∃ s, Run.run step (small 1 2) outAndBack = some s ∧ (loadByte s 0 stackTop == some 7) = true :=
    (Option.any_eq_true ..).mp (by decide +kernel)
  have hl := beq_iff_eq.mp hc
  exact ⟨s, hs, hl, (paging_of_run (by decide) hs (by decide) (by decide +kernel)).1 stackTop 7 hl⟩

/-- One frame: the stack grows, and the new page comes with the bytes of the
old one. -/
theorem not_paging_of_grown_stack : ¬ ∀ es s, Run.run step (small 1 2) es = some s → (∀ e ∈ es, Solo e) →
    ∀ addr c, loadByte s 0 addr = some c →
      (es.foldl (flatStep (small 1 2).inodes) (fun _ => none) (addr / pgsize)).map (· (pgOfs addr)) = some c := by
  intro h
  obtain ⟨s, hs, hc⟩ : ∃ s, Run.run step (small 1 2) [.spawn, .setupStack 0, .store 0 stackTop 7,
      .fault 0 (stackTop - pgsize) (stackTop - pgsize) true, .fault 0 (stackTop - pgsize) (stackTop - pgsize) true] =
        some s ∧ (loadByte s 0 (stackTop - pgsize) == some 7) = true :=
    (Option.any_eq_true ..).mp (by decide +kernel)
  have := h _ s hs (by decide) _ 7 (beq_iff_eq.mp hc)
  exact absurd this (by decide +kernel)

end PintosKaist.Vm
