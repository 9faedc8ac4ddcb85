/-
The supplemental page tables of all processes: each page is in one table,
once, and each table has one page for an address. `SameSpts` says that a call
left all of them alone, which most calls do; `copyPage_uninit`, `copyPage_file`
and `copyPage_anon` say what a turn of `supplemental_page_table_copy` is for
each kind of page.
-/
import PintosKaist.Vm.Frames

namespace PintosKaist.Vm

variable {s s' s₁ : State} {p c q va kva : Nat} {page : Page}

/-- The address field of a page. -/
def vaOf (s : State) (q : Nat) : Option Nat := (s.pages q).map (·.va)

structure Spts (s : State) : Prop where
  idle : ∀ p, s.nextPid ≤ p → s.spt p = []
  live : ∀ p, ∀ q ∈ s.spt p, ∃ va, vaOf s q = some va ∧ va ≠ 0
  lt : ∀ p, ∀ q ∈ s.spt p, q < s.nextPage
  nodup : ∀ p, (s.spt p).Nodup
  apart : ∀ p p' q, q ∈ s.spt p → q ∈ s.spt p' → p = p'
  keyed : ∀ p, ∀ q ∈ s.spt p, ∀ q' ∈ s.spt p, vaOf s q = vaOf s q' → q = q'

/-- The tables, and the addresses of the pages, are as they were. -/
structure SameSpts (s s' : State) : Prop where
  pid : s'.nextPid = s.nextPid
  page : s'.nextPage = s.nextPage
  spt : ∀ p, s'.spt p = s.spt p
  va : ∀ q, vaOf s' q = vaOf s q

theorem SameSpts.refl (s : State) : SameSpts s s := ⟨rfl, rfl, fun _ => rfl, fun _ => rfl⟩

theorem SameSpts.trans {s₂ : State} (h : SameSpts s s₁) (h' : SameSpts s₁ s₂) : SameSpts s s₂ :=
  ⟨h'.pid.trans h.pid, h'.page.trans h.page, fun p => (h'.spt p).trans (h.spt p), fun q => (h'.va q).trans (h.va q)⟩

theorem Spts.same (h : Spts s) (hs : SameSpts s s') : Spts s' where
  idle p hp := by rw [hs.spt, h.idle p (hs.pid ▸ hp)]
  live p q hq := by
    rw [hs.spt] at hq
    rw [hs.va]
    exact h.live p q hq
  lt p q hq := by
    rw [hs.spt] at hq
    rw [hs.page]
    exact h.lt p q hq
  nodup p := by rw [hs.spt]; exact h.nodup p
  apart p p' q hq hq' := by
    rw [hs.spt] at hq hq'
    exact h.apart p p' q hq hq'
  keyed p q hq q' hq' he := by
    rw [hs.spt] at hq hq'
    rw [hs.va, hs.va] at he
    exact h.keyed p q hq q' hq' he

theorem vaOf_eq (h : s.pages q = some page) : vaOf s q = some page.va := by simp [vaOf, h]

theorem vaOf_some (h : vaOf s q = some va) : ∃ page, s.pages q = some page ∧ page.va = va := by
  simpa [vaOf] using h

/-- Writing a page over itself, address kept, moves no address. -/
theorem vaOf_update {page' : Page} (h : s.pages q = some page)
    (hs : s'.pages = Function.update s.pages q (some page')) (hva : page'.va = page.va) (q' : Nat) :
    vaOf s' q' = vaOf s q' := by
  by_cases he : q' = q
  · subst he
    simp [vaOf, hs, h, hva]
  · simp [vaOf, hs, Function.update_of_ne he]

theorem hashFind_eq : hashFind s p va = (s.spt p).find? fun q => vaOf s q == some va := by
  unfold hashFind
  congr 1
  funext q
  cases hq : s.pages q <;> simp [vaOf, hq]

theorem hashFind_same (h : SameSpts s s') : hashFind s' p va = hashFind s p va := by
  rw [hashFind_eq, hashFind_eq, h.spt]
  congr 1
  funext q
  rw [h.va]

theorem Spts.hashFind_iff (h : Spts s) : hashFind s p va = some q ↔ q ∈ s.spt p ∧ vaOf s q = some va := by
  rw [hashFind_eq]
  refine ⟨fun hf => ⟨List.mem_of_find?_eq_some hf, by simpa using List.find?_some hf⟩, fun ⟨hq, hva⟩ => ?_⟩
  cases hf : (s.spt p).find? fun q => vaOf s q == some va with
  | none => exact absurd (List.find?_eq_none.mp hf q hq) (by simp [hva])
  | some q' =>
    have hva' : vaOf s q' = some va := by simpa using List.find?_some hf
    rw [h.keyed p q' (List.mem_of_find?_eq_some hf) q hq (hva'.trans hva.symm)]

theorem hashFind_none : hashFind s p va = none ↔ ∀ q ∈ s.spt p, vaOf s q ≠ some va := by
  simp [hashFind_eq, List.find?_eq_none]

/-! ## What leaves the tables alone -/

theorem SameSpts.room (hr : Room s p s₁ kva) : SameSpts s s₁ := by
  cases hr with
  | free => exact ⟨rfl, rfl, fun _ => rfl, fun _ => rfl⟩
  | anon hfull hlist hvictim hback hpage =>
    exact ⟨rfl, rfl, fun p' => spt_pml4ClearPage s p _ p', vaOf_update hpage rfl rfl⟩
  | file hfull hlist hvictim hback hpage hframe hkind hwrite =>
    obtain ⟨hs, hspt, -⟩ := writeBack_spec hwrite
    rw [hs] at hspt ⊢
    exact ⟨rfl, rfl, fun p' => (spt_pml4ClearPage _ p _ p').trans (hspt p'), vaOf_update hpage rfl rfl⟩

theorem SameSpts.mapFrame {rw : Bool} (hpage : s.pages q = some page) :
    SameSpts s (mapFrame s p q page kva rw) :=
  ⟨rfl, rfl, fun p' => spt_pml4SetPage s p _ _ _ p', vaOf_update hpage rfl rfl⟩

/-- A page that was filled is as before but for its kind. -/
theorem Filled.pages {b : Bool} (hf : Filled s q kva page b s') (hpage : s.pages q = some page) :
    ∃ k, s'.pages = Function.update s.pages q (some { page with kind := k }) := by
  have hself : s.pages = Function.update s.pages q (some { page with kind := page.kind }) :=
    (Function.update_eq_self_iff.mpr hpage.symm).symm
  cases hf with
  | bare | load | swap => exact ⟨_, rfl⟩
  | resident | short | reload => exact ⟨_, hself⟩

theorem Filled.rest {b : Bool} (hf : Filled s q kva page b s') :
    s' = { s with pages := s'.pages, mem := s'.mem, swapTable := s'.swapTable } := by
  cases hf <;> rfl

/-- The entry of a page that was mapped and then filled. -/
theorem Filled.pte {s₁ : State} {pg : Page} {rw b : Bool} (hf : Filled (mapFrame s₁ p q page kva rw) q kva pg b s')
    (p' va' : Nat) :
    s'.pte p' va' = if p' = p ∧ va' = page.va then ⟨kva, true, rw, false⟩ else s₁.pte p' va' := by
  rw [hf.rest]
  exact pte_pml4SetPage ..

theorem Filled.mem_ne {k : Nat} {b : Bool} (hf : Filled s q kva page b s') (hk : k ≠ kva) : s'.mem k = s.mem k := by
  cases hf with
  | bare | resident => rfl
  | load | swap | short | reload => exact Function.update_of_ne hk ..

theorem SameSpts.filled {b : Bool} (hf : Filled s q kva page b s') (hpage : s.pages q = some page) :
    SameSpts s s' := by
  obtain ⟨k, hk⟩ := hf.pages hpage
  rw [hf.rest] at hk ⊢
  exact ⟨rfl, rfl, fun _ => rfl, vaOf_update hpage hk rfl⟩

/-! ## A page comes, a page goes -/

theorem Spts.inserted (h : Spts s) (hp : p < s.nextPid) (h0 : page.va ≠ 0) (hnone : hashFind s p page.va = none) :
    Spts (inserted s p page) := by
  have hva : ∀ {q}, vaOf (Vm.inserted s p page) q = if q = s.nextPage then some page.va else vaOf s q := by
    intro q
    by_cases he : q = s.nextPage
    · simp [he, vaOf, Vm.inserted, State.setSpt, State.setPage]
    · simp [he, vaOf, Vm.inserted, State.setSpt, State.setPage]
  have hold : ∀ {p q}, q ∈ s.spt p → q ≠ s.nextPage := fun hq => Nat.ne_of_lt (h.lt _ _ hq)
  have hspt : ∀ {p' q}, q ∈ (Vm.inserted s p page).spt p' → (p' = p ∧ q = s.nextPage) ∨ q ∈ s.spt p' := by
    intro p' q hq
    rw [spt_inserted] at hq
    split at hq
    · rename_i e
      rw [e]
      exact (List.mem_cons.mp hq).imp (fun e' => ⟨rfl, e'⟩) id
    · exact .inr hq
  refine ⟨?_, ?_, ?_, ?_, ?_, ?_⟩
  · intro p' hp'
    have hp' : s.nextPid ≤ p' := hp'
    rw [spt_inserted, if_neg (by omega), h.idle p' hp']
  · intro p' q hq
    rw [hva]
    rcases hspt hq with ⟨-, rfl⟩ | hq
    · exact ⟨page.va, if_pos rfl, h0⟩
    · rw [if_neg (hold hq)]
      exact h.live p' q hq
  · intro p' q hq
    show q < s.nextPage + 1
    rcases hspt hq with ⟨-, rfl⟩ | hq
    · omega
    · have := h.lt p' q hq
      omega
  · intro p'
    rw [spt_inserted]
    split
    · exact List.nodup_cons.mpr ⟨fun hm => hold hm rfl, h.nodup p⟩
    · exact h.nodup p'
  · intro p₁ p₂ q h₁ h₂
    rcases hspt h₁ with ⟨e₁, e⟩ | h₁ <;> rcases hspt h₂ with ⟨e₂, e'⟩ | h₂
    · rw [e₁, e₂]
    · exact absurd e (hold h₂)
    · exact absurd e' (hold h₁)
    · exact h.apart p₁ p₂ q h₁ h₂
  · intro p' q hq q' hq' he
    rw [hva, hva] at he
    rcases hspt hq with ⟨e₁, e⟩ | hq <;> rcases hspt hq' with ⟨e₂, e'⟩ | hq'
    · rw [e, e']
    · rw [if_pos e, if_neg (hold hq')] at he
      exact absurd he.symm (hashFind_none.mp hnone q' (e₁ ▸ hq'))
    · rw [if_neg (hold hq), if_pos e'] at he
      exact absurd he (hashFind_none.mp hnone q (e₂ ▸ hq))
    · rw [if_neg (hold hq), if_neg (hold hq')] at he
      exact h.keyed p' q hq q' hq' he

theorem Spts.erase (h : Spts s) : Spts (s.setSpt p ((s.spt p).erase q)) := by
  have hsub : ∀ {p' q'}, q' ∈ (s.setSpt p ((s.spt p).erase q)).spt p' → q' ∈ s.spt p' := by
    intro p' q' hq'
    by_cases he : p' = p
    · subst he
      rw [State.spt_setSpt_self] at hq'
      exact List.mem_of_mem_erase hq'
    · rwa [State.spt_setSpt_ne _ _ he] at hq'
  refine ⟨?_, fun p' q' hq' => h.live p' q' (hsub hq'), fun p' q' hq' => h.lt p' q' (hsub hq'), ?_,
    fun p₁ p₂ q' h₁ h₂ => h.apart p₁ p₂ q' (hsub h₁) (hsub h₂),
    fun p' q₁ h₁ q₂ h₂ => h.keyed p' q₁ (hsub h₁) q₂ (hsub h₂)⟩
  · intro p' hp'
    have hnil := h.idle p' hp'
    exact List.eq_nil_iff_forall_not_mem.mpr fun q' hq' => by
      have := hsub hq'
      simp [hnil] at this
  · intro p'
    by_cases he : p' = p
    · subst he
      rw [State.spt_setSpt_self]
      exact (h.nodup p').erase q
    · rw [State.spt_setSpt_ne _ _ he]
      exact h.nodup p'

/-- Freeing a page no table has. -/
theorem Spts.freePage (h : Spts s) (hq : ∀ p, q ∉ s.spt p) : Spts (s.freePage q) := by
  have hva : ∀ {p q'}, q' ∈ s.spt p → vaOf (s.freePage q) q' = vaOf s q' := by
    intro p q' hq'
    have hne : q' ≠ q := fun e => hq p (e ▸ hq')
    simp [vaOf, State.freePage, Function.update_of_ne hne]
  refine ⟨h.idle, fun p q' hq' => ?_, h.lt, h.nodup, h.apart, fun p q₁ h₁ q₂ h₂ he => ?_⟩
  · rw [hva (p := p) hq']
    exact h.live p q' hq'
  · rw [hva (p := p) h₁, hva (p := p) h₂] at he
    exact h.keyed p q₁ h₁ q₂ h₂ he

/-! ## One turn of the copy -/

/-- `vm_alloc_page_with_initializer` where there is no page. -/
theorem vmAlloc_new {type : VmType} {writable init : Bool} {aux : Option FileInfo} (ht : type = .anon ∨ type = .file)
    (hnone : hashFind s p va = none) :
    vmAllocPageWithInitializer s p type va writable init aux =
      (true, inserted s p ⟨va, none, writable, .uninit type init aux⟩) := by
  have hfind : sptFindPage s p (va * pgsize) = none := by
    simp only [sptFindPage, Nat.mul_div_cancel _ (show 0 < pgsize by decide), hnone]
    split <;> rfl
  have hins : ∀ {page : Page}, page.va = va → sptInsertPage s p page = (true, inserted s p page) := by
    intro page hva
    simp only [sptInsertPage, hva, hnone]
    rfl
  simp only [vmAllocPageWithInitializer, hfind]
  rcases ht with rfl | rfl <;> exact hins rfl

/-- `vm_stack_growth`, and what `setup_stack` and `fork` begin with. -/
theorem vmAllocPage_anon (hnone : hashFind s p va = none) (writable : Bool) :
    vmAllocPage s p .anon va writable = (true, inserted s p ⟨va, none, writable, .uninit .anon false none⟩) :=
  vmAlloc_new (.inl rfl) hnone

/-- Where there is one it fails. -/
theorem vmAlloc_old {type : VmType} {writable init : Bool} {aux : Option FileInfo}
    (hsome : hashFind s p va = some q) :
    vmAllocPageWithInitializer s p type va writable init aux = (false, s) := by
  rcases vmAlloc_cases s p type va writable init aux with h | ⟨hnone, -⟩
  · exact h
  · exact absurd (hnone.symm.trans hsome) (by simp)

theorem duplicateAux_eq (aux : Option FileInfo) : duplicateAux aux = aux := by
  cases aux <;> rfl

/-- The page of the child, sharing the frame `f` of the parent's page. -/
def shared (s : State) (c : Nat) (src : Page) (f : Nat) (frame : Frame) : State :=
  { s with
    pages := Function.update s.pages s.nextPage (some ⟨src.va, some f, src.writable, .anon none none⟩)
    frames := Function.update s.frames f (some { frame with rCnt := frame.rCnt + 1 })
    nextPage := s.nextPage + 1
    procs := (pml4SetPage (s.setSpt c (s.nextPage :: s.spt c)) c src.va frame.kva false).procs }

theorem spt_shared {src : Page} {f : Nat} {frame : Frame} (p' : Nat) :
    (shared s c src f frame).spt p' = if p' = c then s.nextPage :: s.spt c else s.spt p' := by
  show (pml4SetPage (s.setSpt c (s.nextPage :: s.spt c)) c src.va frame.kva false).spt p' = _
  rw [spt_pml4SetPage]
  by_cases h : p' = c
  · subst h
    rw [if_pos rfl, State.spt_setSpt_self]
  · rw [if_neg h, State.spt_setSpt_ne _ _ h]

theorem pte_shared {src : Page} {f : Nat} {frame : Frame} (p' va' : Nat) :
    (shared s c src f frame).pte p' va' =
      if p' = c ∧ va' = src.va then ⟨frame.kva, true, false, false⟩ else s.pte p' va' := by
  show (pml4SetPage (s.setSpt c (s.nextPage :: s.spt c)) c src.va frame.kva false).pte p' va' = _
  rw [pte_pml4SetPage, State.pte_setSpt]

variable {src : Page}

theorem copyPage_uninit {type : VmType} {init : Bool} {aux : Option FileInfo} (hsrc : s.pages q = some src)
    (hkind : src.kind = .uninit type init aux) :
    copyPage s c q = aux.map fun fi =>
      vmAllocPageWithInitializer s c type src.va src.writable init (some fi) := by
  simp only [copyPage, hsrc, hkind, duplicateAux_eq, Option.bind_eq_bind, Option.bind_some]
  cases aux <;> rfl

/-- Where the child has a page already the copy fails. -/
theorem copyPage_dup {d : Nat} {b : Bool} (hsrc : s.pages q = some src) (hfind : hashFind s c src.va = some d)
    (h : copyPage s c q = some (b, s')) : b = false ∧ s' = s := by
  simp only [copyPage, hsrc, Option.bind_eq_bind, Option.bind_some, vmAllocPage] at h
  split at h
  all_goals simp only [vmAlloc_old hfind, duplicateAux_eq, Option.bind_eq_some_iff, Option.some.injEq,
    Prod.mk.injEq] at h
  · obtain ⟨_, -, e, rfl⟩ := h
    exact ⟨e.symm, rfl⟩
  · obtain ⟨_, -, e, rfl⟩ := h
    exact ⟨e.symm, rfl⟩
  · exact ⟨h.1.symm, h.2.symm⟩

theorem copyPage_file {aux : Option FileInfo} (hsrc : s.pages q = some src) (hkind : src.kind = .file aux)
    (h0 : src.va ≠ 0) (hnone : hashFind s c src.va = none) :
    copyPage s c q = aux.bind fun fi =>
      vmDoClaimPage (inserted s c ⟨src.va, none, src.writable, .uninit .file true (some fi)⟩) c s.nextPage := by
  simp only [copyPage, hsrc, hkind, duplicateAux_eq, Option.bind_eq_bind, Option.bind_some]
  cases aux with
  | none => rfl
  | some fi =>
    simp only [Option.bind_some, vmAlloc_new (.inr rfl) hnone]
    have : sptFindPage (inserted s c ⟨src.va, none, src.writable, .uninit .file true (some fi)⟩) c (src.va * pgsize) =
        some s.nextPage := sptFindPage_inserted h0
    simp only [vmClaimPage, this]

theorem copyPage_anon {i : Option Nat} {aux : Option FileInfo} (hsrc : s.pages q = some src)
    (hkind : src.kind = .anon i aux) (hq : q ≠ s.nextPage) (h0 : src.va ≠ 0)
    (hnone : hashFind s c src.va = none) :
    copyPage s c q = src.frame.bind fun f => (s.frames f).map fun frame => (true, shared s c src f frame) := by
  have hnew : vmAllocPageWithInitializer s c .anon src.va src.writable false none =
      (true, inserted s c ⟨src.va, none, src.writable, .uninit .anon false none⟩) := vmAlloc_new (.inl rfl) hnone
  have hfind : sptFindPage (inserted s c ⟨src.va, none, src.writable, .uninit .anon false none⟩) c (src.va * pgsize) =
      some s.nextPage := sptFindPage_inserted h0
  have hsrc' : (inserted s c ⟨src.va, none, src.writable, .uninit .anon false none⟩).pages q = some src := by
    simp [inserted, State.setSpt, State.setPage, Function.update_of_ne hq, hsrc]
  have hdst : (inserted s c ⟨src.va, none, src.writable, .uninit .anon false none⟩).pages s.nextPage =
      some ⟨src.va, none, src.writable, .uninit .anon false none⟩ := by
    simp [inserted, State.setSpt, State.setPage]
  have hcopy : pageTableCopy (inserted s c ⟨src.va, none, src.writable, .uninit .anon false none⟩) c q src.va =
      src.frame.bind fun f => (s.frames f).map fun frame => (true, shared s c src f frame) := by
    simp only [pageTableCopy, hfind, hsrc', hdst, Option.bind_eq_bind, Option.bind_some]
    cases hf : src.frame with
    | none => rfl
    | some f =>
      simp only [Option.bind_some]
      show Option.bind (s.frames f) _ = _
      cases hfr : s.frames f with
      | none => rfl
      | some frame =>
        simp [swapIn, uninitInitialize, inserted, State.setSpt, State.setPage, State.setFrame, pml4SetPage,
          shared, pageInitializer]
  simp only [copyPage, hsrc, hkind, Option.bind_eq_bind, Option.bind_some, vmAllocPage, hnew, hcopy]
  cases hf : src.frame with
  | none => rfl
  | some f =>
    simp only [Option.bind_some]
    cases hfr : s.frames f with
    | none => rfl
    | some frame =>
      have hfind' : sptFindPage (shared s c src f frame) c (src.va * pgsize) = some s.nextPage := by
        have hpos : src.va * pgsize ≠ 0 := Nat.mul_ne_zero h0 (by decide)
        rw [sptFindPage, if_neg hpos, Nat.mul_div_cancel _ (by decide), hashFind, spt_shared, if_pos rfl]
        simp [shared]
      have hpg : (shared s c src f frame).pages s.nextPage = some ⟨src.va, some f, src.writable, .anon none none⟩ := by
        simp [shared]
      have hfr' : (shared s c src f frame).frames f = some { frame with rCnt := frame.rCnt + 1 } := by
        simp [shared]
      simp only [Option.map_some, Option.bind_some, if_true, hfind', hpg, hfr', State.setMem,
        Function.update_eq_self]

theorem Spts.va_ne_zero (h : Spts s) (hq : q ∈ s.spt p) (hpage : s.pages q = some page) : page.va ≠ 0 := by
  obtain ⟨va, hva, h0⟩ := h.live p q hq
  rw [vaOf_eq hpage] at hva
  exact Option.some.inj hva ▸ h0

/-- One turn of the copy: the child has a page there already, or gets one by
what the parent's page is. -/
theorem copyPage_cases {b : Bool} (h : Spts s) (hq : q ∈ s.spt p) (hcopy : copyPage s c q = some (b, s')) :
    (b = false ∧ s' = s) ∨
    (∃ src type init fi, s.pages q = some src ∧ src.kind = .uninit type init (some fi) ∧
      hashFind s c src.va = none ∧ b = true ∧
      s' = inserted s c ⟨src.va, none, src.writable, .uninit type init (some fi)⟩) ∨
    (∃ src fi, s.pages q = some src ∧ src.kind = .file (some fi) ∧ hashFind s c src.va = none ∧
      vmDoClaimPage (inserted s c ⟨src.va, none, src.writable, .uninit .file true (some fi)⟩) c s.nextPage =
        some (b, s')) ∨
    ∃ src f frame, s.pages q = some src ∧ src.kind.isAnon = true ∧ src.frame = some f ∧ s.frames f = some frame ∧
      hashFind s c src.va = none ∧ b = true ∧ s' = shared s c src f frame := by
  obtain ⟨va, hva, h0⟩ := h.live p q hq
  obtain ⟨src, hsrc, rfl⟩ := vaOf_some hva
  cases hfind : hashFind s c src.va with
  | some d => exact .inl (copyPage_dup hsrc hfind hcopy)
  | none =>
    cases hk : src.kind with
    | uninit type init aux =>
      rw [copyPage_uninit hsrc hk, Option.map_eq_some_iff] at hcopy
      obtain ⟨fi, rfl, e⟩ := hcopy
      rcases vmAlloc_cases s c type src.va src.writable init (some fi) with hs | ⟨-, -, hs⟩
      · rw [hs, Prod.mk.injEq] at e
        exact .inl ⟨e.1.symm, e.2.symm⟩
      · rw [hs, Prod.mk.injEq] at e
        exact .inr (.inl ⟨src, type, init, fi, hsrc, hk, hfind, e.1.symm, e.2.symm⟩)
    | file aux =>
      rw [copyPage_file hsrc hk h0 hfind, Option.bind_eq_some_iff] at hcopy
      obtain ⟨fi, rfl, hclaim⟩ := hcopy
      exact .inr (.inr (.inl ⟨src, fi, hsrc, hk, hfind, hclaim⟩))
    | anon i aux =>
      rw [copyPage_anon hsrc hk (Nat.ne_of_lt (h.lt p q hq)) h0 hfind, Option.bind_eq_some_iff] at hcopy
      obtain ⟨f, hf, hcopy⟩ := hcopy
      obtain ⟨frame, hframe, e⟩ := Option.map_eq_some_iff.mp hcopy
      rw [Prod.mk.injEq] at e
      exact .inr (.inr (.inr ⟨src, f, frame, hsrc, by simp [hk, Kind.isAnon], hf, hframe, hfind, e.1.symm, e.2.symm⟩))

/-- The tables of the shared page are those with a page without a frame. -/
theorem SameSpts.shared {f : Nat} {frame : Frame} :
    SameSpts (inserted s c ⟨src.va, none, src.writable, .anon none none⟩) (shared s c src f frame) := by
  refine ⟨rfl, rfl, fun p' => by rw [spt_shared, spt_inserted], fun q => ?_⟩
  simp only [vaOf, inserted, Vm.shared, State.setSpt, State.setPage, Function.update_apply]
  split <;> rfl

end PintosKaist.Vm
