/-
`sys_munmap` (`userprog/syscall.c`) and `do_munmap` (`vm/file.c`), with what
they read of `struct page`: the length of the mapping is in the record that
`page->file.aux` points to, and that is the first word of a union.

A function is `none` where the C follows a NULL pointer, fails an ASSERT or
reads a member of the union that is not the page's.
-/
import PintosKaist.Userprog.Mmap
import PintosKaist.Vm.Entries

namespace PintosKaist.Vm

open While
open LazyPages (sizeT)

/-- `page->file.aux`, which only a file-backed page has. -/
def Kind.fileAux : Kind → Option FileInfo
  | .file aux => aux
  | .uninit .. | .anon .. => none

/-- The record `munmap_cleaner` looks at: `page->uninit.aux`, unless the page is
file-backed. -/
def Kind.cleanerAux : Kind → Option FileInfo
  | .file aux => aux
  | .uninit _ _ aux => aux
  | .anon .. => none

/-- `do_munmap`, with the `ASSERT (is_user_vaddr (upage))` of
`pml4_clear_page`. -/
def munmapPage (s : State) (p addr : Nat) : Option State := do
  let q ← sptFindPage s p addr
  let page ← s.pages q
  let fi ← page.kind.cleanerAux
  let s ← writeBack (s.setSpt p ((s.spt p).erase q)) p page (some fi)
  if addr / pgsize * pgsize < kernBase then some (pml4ClearPage s p (addr / pgsize)) else none

/-- The loop of `sys_munmap`. -/
structure MunmapLoop where
  curAddr : Nat
  vm : State

def munmapTurn (p endAddr : Nat) (s : MunmapLoop) : Option (ForInStep MunmapLoop) :=
  if s.curAddr < endAddr then (munmapPage s.vm p s.curAddr).map fun vm => .yield ⟨sizeT (s.curAddr + pgsize), vm⟩
  else some (.done s)

/-- `sys_munmap`. -/
def sysMunmap (s : State) (p addr : Nat) : Option State := do
  let q ← sptFindPage s p addr
  let page ← s.pages q
  let fi ← page.kind.fileAux
  (whileLoop (munmapTurn p (sizeT (addr + fi.mmapLength))) (fi.mmapLength / pgsize + 2) ⟨addr, s⟩).map
    MunmapLoop.vm

/-! ## What it should do -/

/-- `DIV_ROUND_UP (length, PGSIZE)`. -/
def pagesIn (length : Nat) : Nat := (length + pgsize - 1) / pgsize

/-- A mapping of `n` bytes that `sys_mmap` made at `addr`: each of its pages is in
the table, touched or not, with the record `do_mmap` gave it. -/
structure LiveMapping (s : State) (p addr n : Nat) : Prop where
  addr_pos : 0 < addr
  addr_lt : addr < kernBase
  aligned : addr % pgsize = 0
  length_pos : 0 < n
  length_le : n ≤ addr
  pages : ∀ k < pagesIn n, ∃ q page fi, hashFind s p (addr / pgsize + k) = some q ∧ s.pages q = some page ∧
    (page.kind = .uninit .file true (some fi) ∨ page.kind = .file (some fi)) ∧
    fi.upage = addr + k * pgsize ∧ fi.mmapLength = n

/-- The table of a process, as `sys_mmap` looks for pages in it. -/
def TableOf (s : State) (p : Nat) (spt : LazyPages.Spt) : Prop := ∀ va, spt (va * pgsize) = none ↔ hashFind s p va = none

/-- The pages of the mapping are gone from both tables, and nothing else. -/
structure RangeGone (s s' : State) (p addr n : Nat) : Prop where
  gone : ∀ k < pagesIn n, hashFind s' p (addr / pgsize + k) = none ∧ (s'.pte p (addr / pgsize + k)).present = false
  other : ∀ va, (∀ k < pagesIn n, va ≠ addr / pgsize + k) → hashFind s' p va = hashFind s p va ∧ s'.pte p va = s.pte p va
  procs : ∀ p', p' ≠ p → s'.procs p' = s.procs p'
  pages : s'.pages = s.pages
  frames : s'.frames = s.frames
  mem : s'.mem = s.mem
  again : ∀ spt (a : Mmap.Args) file, TableOf s' p spt → a.Ok → a.addr = addr → a.length = n →
    ∃ spt', Mmap.mmapFile spt a file = some (addr, spt')

/-- `sys_munmap` undoes `sys_mmap`, and returns whatever the address. -/
def Undoes (s : State) (p addr : Nat) : Prop :=
  ∃ s', sysMunmap s p addr = some s' ∧ ∀ n, LiveMapping s p addr n → RangeGone s s' p addr n

/-! ## When it does -/

/-- The page of `addr` is in the table, with a record `munmap_cleaner` can take
and a frame if it is dirty, and it is a page of user memory. -/
def Cleanable (s : State) (p addr : Nat) : Prop :=
  ∃ q page fi, sptFindPage s p addr = some q ∧ s.pages q = some page ∧ page.kind.cleanerAux = some fi ∧
    ((s.pte p page.va).dirty = true → page.frame.bind s.frames ≠ none) ∧ addr / pgsize * pgsize < kernBase

/-- The turns of the loop. -/
def turns (addr endAddr : Nat) : Nat := pagesIn (endAddr - addr)

/-- The page of `addr` is file-backed and was touched, and every page of as many
bytes as its record says can be cleaned. -/
def CanUnmap (s : State) (p addr : Nat) : Prop :=
  ∃ q page fi, sptFindPage s p addr = some q ∧ s.pages q = some page ∧ page.kind.fileAux = some fi ∧
    ∀ k < turns addr (sizeT (addr + fi.mmapLength)), Cleanable s p (addr + k * pgsize)

variable {s s' vm : State} {p q addr endAddr k n : Nat} {page : Page} {fi : FileInfo}

/-! ## One page -/

/-- What a write-back leaves. -/
structure WroteBack (s s' : State) (p va : Nat) : Prop where
  pages : s'.pages = s.pages
  frames : s'.frames = s.frames
  mem : s'.mem = s.mem
  same : SameSpts s s'
  pte : ∀ va', va' ≠ va → s'.pte p va' = s.pte p va'
  procs : ∀ p', p' ≠ p → s'.procs p' = s.procs p'

/-- A page is written back when it is clean, or has a frame. -/
theorem writeBack_some (s : State) (p : Nat) (page : Page) (fi : FileInfo)
    (h : (s.pte p page.va).dirty = true → page.frame.bind s.frames ≠ none) :
    ∃ s', writeBack s p page (some fi) = some s' ∧ WroteBack s s' p page.va := by
  simp only [writeBack, Option.bind_eq_bind, Option.bind_some]
  split
  · rename_i hd
    obtain ⟨frame, hf⟩ := Option.ne_none_iff_exists'.mp (h hd)
    rw [hf]
    refine ⟨_, rfl, rfl, rfl, rfl, ⟨rfl, rfl, fun p' => State.spt_setPte .., fun _ => rfl⟩, fun va' hva => ?_,
      fun p' hp => Function.update_of_ne hp ..⟩
    rw [State.pte_setPte, if_neg fun h => hva h.2]
    rfl
  · exact ⟨s, rfl, rfl, rfl, rfl, .refl s, fun _ _ => rfl, fun _ _ => rfl⟩

/-- A dirty page without a frame is not. -/
theorem writeBack_none (hd : (s.pte p page.va).dirty = true) (hf : page.frame.bind s.frames = none) :
    writeBack s p page (some fi) = none := by
  simp only [writeBack, Option.bind_eq_bind, Option.bind_some, if_pos hd, hf, Option.bind_none]

/-- The page at page number `va` is gone from the tables of `p`. -/
structure Cleaned (s s' : State) (p va : Nat) : Prop where
  spts : Spts s'
  gone : hashFind s' p va = none ∧ (s'.pte p va).present = false
  other : ∀ va', va' ≠ va → hashFind s' p va' = hashFind s p va' ∧ s'.pte p va' = s.pte p va'
  procs : ∀ p', p' ≠ p → s'.procs p' = s.procs p'
  pages : s'.pages = s.pages
  frames : s'.frames = s.frames
  mem : s'.mem = s.mem

theorem WroteBack.cleaned {w : State} (h : Spts s) (hq : q ∈ s.spt p) (hpage : s.pages q = some page)
    (hw : WroteBack (s.setSpt p ((s.spt p).erase q)) w p page.va) : Cleaned s (pml4ClearPage w p page.va) p page.va := by
  have hsame := hw.same.trans (.clear w p page.va)
  have hfind : ∀ va', hashFind (pml4ClearPage w p page.va) p va' =
      if va' = page.va then none else hashFind s p va' := fun va' => by
    rw [h.hashFind_erase hq hpage hsame.spt (fun q' _ => hsame.va q')]
    simp only [true_and]
  refine ⟨h.erase.same hsame, ⟨?_, ?_⟩, fun va' hne => ⟨?_, ?_⟩, fun p' hne => ?_, hw.pages, hw.frames, hw.mem⟩
  · rw [hfind, if_pos rfl]
  · rw [pte_pml4ClearPage, if_pos ⟨rfl, rfl⟩]
  · rw [hfind, if_neg hne]
  · rw [pte_pml4ClearPage, if_neg fun h => hne h.2, hw.pte va' hne, State.pte_setSpt]
  · exact (Function.update_of_ne hne ..).trans ((hw.procs p' hne).trans (Function.update_of_ne hne ..))

/-- **`do_munmap` of a page** takes it out of the tables, or fails. -/
theorem munmapPage_cases (h : Spts s) (p addr : Nat) :
    Cleanable s p addr ∧ (∃ s', munmapPage s p addr = some s' ∧ Cleaned s s' p (addr / pgsize)) ∨
      ¬ Cleanable s p addr ∧ munmapPage s p addr = none := by
  cases hfind : sptFindPage s p addr with
  | none => exact .inr ⟨fun ⟨_, _, _, hq, _⟩ => by simp [hfind] at hq, by simp [munmapPage, hfind]⟩
  | some q =>
    obtain ⟨hq, page, hpage, hva⟩ := sptFindPage_some hfind
    cases haux : page.kind.cleanerAux with
    | none =>
      refine .inr ⟨fun ⟨_, _, _, hq', hp', ha', _⟩ => ?_, by simp [munmapPage, hfind, hpage, haux]⟩
      obtain rfl := Option.some.inj (hfind.symm.trans hq')
      obtain rfl := Option.some.inj (hpage.symm.trans hp')
      cases haux.symm.trans ha'
    | some fi =>
      have hiff : Cleanable s p addr ↔ ((s.pte p page.va).dirty = true → page.frame.bind s.frames ≠ none) ∧
          addr / pgsize * pgsize < kernBase := by
        refine ⟨fun ⟨_, _, _, hq', hp', _, hd, hu⟩ => ?_, fun ⟨hd, hu⟩ => ⟨q, page, fi, hfind, hpage, haux, hd, hu⟩⟩
        obtain rfl := Option.some.inj (hfind.symm.trans hq')
        obtain rfl := Option.some.inj (hpage.symm.trans hp')
        exact ⟨hd, hu⟩
      rw [hiff, ← hva]
      simp only [munmapPage, hfind, hpage, haux, Option.bind_eq_bind, Option.bind_some]
      by_cases hd : (s.pte p page.va).dirty = true → page.frame.bind s.frames ≠ none
      · obtain ⟨w, hw, hwrote⟩ := writeBack_some (s.setSpt p ((s.spt p).erase q)) p page fi
          (by rw [State.pte_setSpt]; exact hd)
        rw [hw, Option.bind_some, ← hva]
        by_cases hu : page.va * pgsize < kernBase
        · exact .inl ⟨⟨hd, hu⟩, _, if_pos hu, hwrote.cleaned h hq hpage⟩
        · exact .inr ⟨fun h => hu h.2, if_neg hu⟩
      · refine .inr ⟨fun h => hd h.1, ?_⟩
        obtain ⟨hdirty, hframe⟩ := Classical.not_imp.mp hd
        have hnone : writeBack (s.setSpt p ((s.spt p).erase q)) p page (some fi) = none :=
          writeBack_none (by rw [State.pte_setSpt]; exact hdirty) (not_not.mp hframe)
        rw [hnone, Option.bind_none]

/-! ## The loop -/

/-- The first `k` pages from page number `va` on are gone. -/
structure Unmapping (s vm : State) (p va k : Nat) : Prop where
  spts : Spts vm
  gone : ∀ j < k, hashFind vm p (va + j) = none ∧ (vm.pte p (va + j)).present = false
  other : ∀ va', (∀ j < k, va' ≠ va + j) → hashFind vm p va' = hashFind s p va' ∧ vm.pte p va' = s.pte p va'
  procs : ∀ p', p' ≠ p → vm.procs p' = s.procs p'
  pages : vm.pages = s.pages
  frames : vm.frames = s.frames
  mem : vm.mem = s.mem

theorem Unmapping.start {va : Nat} (h : Spts s) : Unmapping s s p va 0 :=
  ⟨h, by simp, fun _ _ => ⟨rfl, rfl⟩, fun _ _ => rfl, rfl, rfl, rfl⟩

theorem Unmapping.next {va : Nat} {vm' : State} (h : Unmapping s vm p va k) (hc : Cleaned vm vm' p (va + k)) :
    Unmapping s vm' p va (k + 1) := by
  refine ⟨hc.spts, fun j hj => ?_, fun va' hva => ?_, fun p' hp => (hc.procs p' hp).trans (h.procs p' hp),
    hc.pages.trans h.pages, hc.frames.trans h.frames, hc.mem.trans h.mem⟩
  · rcases Nat.lt_succ_iff_lt_or_eq.mp hj with hj | rfl
    · obtain ⟨hfind, hpte⟩ := hc.other (va + j) (by omega)
      rw [hfind, hpte]
      exact h.gone j hj
    · exact hc.gone
  · obtain ⟨hfind, hpte⟩ := hc.other va' (hva k (Nat.lt_succ_self k))
    rw [hfind, hpte]
    exact h.other va' fun j hj => hva j (Nat.lt_succ_of_lt hj)

theorem page_number (addr k : Nat) : (addr + k * pgsize) / pgsize = addr / pgsize + k :=
  Nat.add_mul_div_right _ _ (by decide)

/-- What the turns before did makes no difference to a page. -/
theorem Unmapping.cleanable (h : Unmapping s vm p (addr / pgsize) k) :
    Cleanable vm p (addr + k * pgsize) ↔ Cleanable s p (addr + k * pgsize) := by
  obtain ⟨hfind, hpte⟩ := h.other (addr / pgsize + k) fun j hj => by omega
  have hspt : sptFindPage vm p (addr + k * pgsize) = sptFindPage s p (addr + k * pgsize) := by
    simp only [sptFindPage, page_number, hfind]
  simp only [Cleanable, hspt, h.pages, h.frames]
  refine exists_congr fun q => exists_congr fun page => exists_congr fun fi => and_congr_right fun hq =>
    and_congr_right fun hp => ?_
  have hva : page.va = addr / pgsize + k := by
    obtain ⟨-, page', hpage', hva⟩ := sptFindPage_some hq
    obtain rfl := Option.some.inj (hp.symm.trans hpage')
    rw [hva, page_number]
  rw [hva, hpte]

/-- The head of the loop before turn `k`. -/
def AtTurn (s : State) (p addr k : Nat) (l : MunmapLoop) : Prop :=
  l.curAddr = addr + k * pgsize ∧ Unmapping s l.vm p (addr / pgsize) k

theorem lt_turns (addr endAddr k : Nat) : k < turns addr endAddr ↔ addr + k * pgsize < endAddr := by
  simp only [turns, pagesIn, pgsize]
  omega

theorem munmapTurn_cases (hk : k < turns addr endAddr) {l : MunmapLoop} (h : AtTurn s p addr k l) :
    Cleanable s p (addr + k * pgsize) ∧
        (∃ l', munmapTurn p endAddr l = some (.yield l') ∧ AtTurn s p addr (k + 1) l') ∨
      ¬ Cleanable s p (addr + k * pgsize) ∧ munmapTurn p endAddr l = none := by
  obtain ⟨hcur, hun⟩ := h
  have hlt : addr + k * pgsize < endAddr := (lt_turns addr endAddr k).mp hk
  simp only [munmapTurn, hcur, if_pos hlt]
  rcases munmapPage_cases hun.spts p (addr + k * pgsize) with ⟨hok, vm', hvm, hc⟩ | ⟨hbad, hnone⟩
  · have hok' := hun.cleanable.mp hok
    rw [page_number] at hc
    refine .inl ⟨hok', ⟨sizeT (↑(addr + k * pgsize) + ↑pgsize), vm'⟩, by rw [hvm, Option.map_some], ?_, hun.next hc⟩
    obtain ⟨-, -, -, -, -, -, -, huser⟩ := hok'
    simp only [sizeT, pgsize, kernBase] at huser ⊢
    omega
  · exact .inr ⟨fun hok => hbad (hun.cleanable.mpr hok), by rw [hnone, Option.map_none]⟩

/-- **The loop of `sys_munmap`** takes out every page of its range, or fails at the
first that cannot be. -/
theorem munmapLoop_cases (h : Spts s) (p addr endAddr : Nat) {fuel : Nat} (hf : turns addr endAddr < fuel) :
    (∀ k < turns addr endAddr, Cleanable s p (addr + k * pgsize)) ∧
        (∃ l, whileLoop (munmapTurn p endAddr) fuel ⟨addr, s⟩ = some l ∧
          Unmapping s l.vm p (addr / pgsize) (turns addr endAddr)) ∨
      (¬ ∀ k < turns addr endAddr, Cleanable s p (addr + k * pgsize)) ∧
        whileLoop (munmapTurn p endAddr) fuel ⟨addr, s⟩ = none := by
  have hstart : AtTurn s p addr 0 ⟨addr, s⟩ := ⟨by simp, .start h⟩
  have hdone : ∀ l, AtTurn s p addr (turns addr endAddr) l → munmapTurn p endAddr l = some (.done l) := by
    intro l hl
    have hend : ¬ l.curAddr < endAddr := by
      rw [hl.1, ← lt_turns]
      exact Nat.lt_irrefl _
    simp only [munmapTurn, if_neg hend]
  rcases whileLoop_count (fun k hk l hl => munmapTurn_cases hk hl) hdone (Nat.zero_le _) hstart hf with
    ⟨hall, l, hl, hat⟩ | ⟨hnot, hnone⟩
  · exact .inl ⟨fun k hk => hall k (Nat.zero_le k) hk, l, hl, hat.2⟩
  · exact .inr ⟨fun hall => hnot fun k _ hk => hall k hk, hnone⟩

/-! ## The call -/

theorem turns_le (addr length : Nat) : turns addr (sizeT (addr + length)) < length / pgsize + 2 := by
  simp only [turns, pagesIn, sizeT, pgsize]
  omega

/-- The loop of a mapping goes over its pages. -/
theorem LiveMapping.turns (h : LiveMapping s p addr n) : Vm.turns addr (sizeT (addr + n)) = pagesIn n := by
  have hlt := h.addr_lt
  have hle := h.length_le
  have hend : sizeT (addr + n) = addr + n := by
    simp only [sizeT, kernBase] at hlt ⊢
    omega
  rw [Vm.turns, hend, Nat.add_sub_cancel_left]

/-- The record that `sys_munmap` reads of a mapping is one of `do_mmap`. -/
theorem LiveMapping.length_eq (h : LiveMapping s p addr n) (hfind : sptFindPage s p addr = some q)
    (hpage : s.pages q = some page) (haux : page.kind.fileAux = some fi) : fi.mmapLength = n := by
  have hpos := h.addr_pos
  have h0 : 0 < pagesIn n := by
    have hn := h.length_pos
    simp only [pagesIn, pgsize]
    omega
  obtain ⟨q', page', fi', hq', hpage', hkind, -, hlen⟩ := h.pages 0 h0
  rw [sptFindPage, if_neg (by omega)] at hfind
  obtain rfl := Option.some.inj (hfind.symm.trans hq')
  obtain rfl := Option.some.inj (hpage.symm.trans hpage')
  rcases hkind with hk | hk
  · rw [hk] at haux
    cases haux
  · rw [hk] at haux
    obtain rfl := Option.some.inj haux
    exact hlen

/-- What the whole loop leaves of a mapping. -/
theorem LiveMapping.rangeGone (h : LiveMapping s p addr n) (hun : Unmapping s s' p (addr / pgsize) (pagesIn n)) :
    RangeGone s s' p addr n := by
  refine ⟨hun.gone, hun.other, hun.procs, hun.pages, hun.frames, hun.mem, fun spt a file ht hok haddr hlen => ?_⟩
  have hdiv : addr / pgsize * pgsize = addr := Nat.div_mul_cancel (Nat.dvd_of_mod_eq_zero h.aligned)
  have hfree : ∀ k < a.pages, spt (a.page k) = none := by
    intro k hk
    have hpages : a.pages = pagesIn n := by rw [Mmap.Args.pages, hlen, pagesIn]
    have hpage : a.page k = (addr / pgsize + k) * pgsize := by rw [Mmap.Args.page, haddr, Nat.add_mul, hdiv]
    rw [hpage]
    exact (ht _).mpr (hun.gone k (hpages ▸ hk)).1
  obtain ⟨spt', hmap, -⟩ := Mmap.mmapFile_free hok hfree file
  exact ⟨spt', haddr ▸ hmap⟩

/-- `sys_munmap` returns when it can unmap, and what it leaves. -/
theorem sysMunmap_cases (h : Spts s) (p addr : Nat) :
    CanUnmap s p addr ∧ (∃ s' q page fi, sysMunmap s p addr = some s' ∧ sptFindPage s p addr = some q ∧
        s.pages q = some page ∧ page.kind.fileAux = some fi ∧
        Unmapping s s' p (addr / pgsize) (turns addr (sizeT (addr + fi.mmapLength)))) ∨
      ¬ CanUnmap s p addr ∧ sysMunmap s p addr = none := by
  cases hfind : sptFindPage s p addr with
  | none => exact .inr ⟨fun ⟨_, _, _, hq, _⟩ => (by cases hfind.symm.trans hq), by simp [sysMunmap, hfind]⟩
  | some q =>
    obtain ⟨-, page, hpage, -⟩ := sptFindPage_some hfind
    cases haux : page.kind.fileAux with
    | none =>
      refine .inr ⟨fun ⟨_, _, _, hq', hp', ha', _⟩ => ?_, by simp [sysMunmap, hfind, hpage, haux]⟩
      obtain rfl := Option.some.inj (hfind.symm.trans hq')
      obtain rfl := Option.some.inj (hpage.symm.trans hp')
      cases haux.symm.trans ha'
    | some fi =>
      have hcall : sysMunmap s p addr = (whileLoop (munmapTurn p (sizeT (addr + fi.mmapLength)))
          (fi.mmapLength / pgsize + 2) ⟨addr, s⟩).map MunmapLoop.vm := by
        simp only [sysMunmap, hfind, hpage, haux, Option.bind_eq_bind, Option.bind_some]
      rcases munmapLoop_cases h p addr _ (turns_le addr fi.mmapLength) with ⟨hall, l, hl, hun⟩ | ⟨hnot, hnone⟩
      · refine .inl ⟨⟨q, page, fi, hfind, hpage, haux, hall⟩, l.vm, q, page, fi, ?_, rfl, hpage, haux, hun⟩
        rw [hcall, hl, Option.map_some]
      · refine .inr ⟨fun ⟨_, _, _, hq', hp', ha', hall⟩ => ?_, by rw [hcall, hnone, Option.map_none]⟩
        obtain rfl := Option.some.inj (hfind.symm.trans hq')
        obtain rfl := Option.some.inj (hpage.symm.trans hp')
        obtain rfl := Option.some.inj (haux.symm.trans ha')
        exact hnot hall

/-- **`sys_munmap` undoes `sys_mmap`** exactly when the first page of the range is
file-backed and was touched, and every page it goes on to has a record it can
take and, if it is dirty, a frame. -/
theorem munmap_undoes_iff {frames slots : Nat} {mem : Nat → Bytes} {disk : Nat → Sector} {inodes : Nat → Inode}
    {es : List Ev} (hrun : Run.run step (boot frames slots mem disk inodes) es = some s) (p addr : Nat) :
    Undoes s p addr ↔ CanUnmap s p addr := by
  have h : Entries s := entries_boot.run hrun
  rcases sysMunmap_cases h.spts p addr with ⟨hcan, s', q, page, fi, hres, hfind, hpage, haux, hun⟩ | ⟨hcannot, hres⟩
  · refine iff_of_true ⟨s', hres, fun n hlive => ?_⟩ hcan
    have hlen := hlive.length_eq hfind hpage haux
    rw [hlen, hlive.turns] at hun
    exact hlive.rangeGone hun
  · refine iff_of_false (fun ⟨s', hs', _⟩ => ?_) hcannot
    cases hres.symm.trans hs'

/-- The records of a mapping of 5000 bytes at page 16. -/
def firstOfTwo : FileInfo := ⟨0, 0, 0x10000, 4096, 0, true, 5000⟩
def secondOfTwo : FileInfo := ⟨0, 4096, 0x11000, 904, 3192, true, 5000⟩

def mapTwo : List Ev :=
  [.spawn, .alloc 0 .file 16 true true (some firstOfTwo), .alloc 0 .file 17 true true (some secondOfTwo)]

/-- The first page of the mapping was touched, the second one was not. -/
theorem munmap_undoes_iff_touched : ∃ s, Run.run step (small 2 1) (mapTwo ++ [.fault 0 0x10000 0 false]) = some s ∧
    CanUnmap s 0 0x10000 ∧ Undoes s 0 0x10000 := by
  obtain ⟨s, hs, hsome⟩ := (Option.any_eq_true ..).mp (show (Run.run step (small 2 1)
    (mapTwo ++ [.fault 0 0x10000 0 false])).any (fun s => (sysMunmap s 0 0x10000).isSome) = true by decide +kernel)
  have h : Entries s := entries_boot.run hs
  have hcan : CanUnmap s 0 0x10000 := by
    rcases sysMunmap_cases h.spts 0 0x10000 with ⟨hcan, -⟩ | ⟨-, hnone⟩
    · exact hcan
    · rw [hnone] at hsome
      cases hsome
  exact ⟨s, hs, hcan, (munmap_undoes_iff hs 0 0x10000).mpr hcan⟩

/-- No page of the mapping was touched; and there is nothing at page 5. -/
theorem not_undoes_untouched : ∃ s, Run.run step (small 2 1) mapTwo = some s ∧ LiveMapping s 0 0x10000 5000 ∧
    ¬ Undoes s 0 0x10000 ∧ ¬ Undoes s 0 0x5000 := by
  obtain ⟨s, hs, hd⟩ := (Option.any_eq_true ..).mp (show (Run.run step (small 2 1) mapTwo).any (fun s =>
    decide (hashFind s 0 16 = some 0 ∧ s.pages 0 = some ⟨16, none, true, .uninit .file true (some firstOfTwo)⟩ ∧
      hashFind s 0 17 = some 1 ∧ s.pages 1 = some ⟨17, none, true, .uninit .file true (some secondOfTwo)⟩) &&
      (sysMunmap s 0 0x10000).isNone && (sysMunmap s 0 0x5000).isNone) = true by decide +kernel)
  simp only [Bool.and_eq_true, decide_eq_true_eq, Option.isNone_iff_eq_none] at hd
  obtain ⟨⟨⟨h₀, hp₀, h₁, hp₁⟩, hfirst⟩, hother⟩ := hd
  refine ⟨s, hs, ⟨by decide, by decide, by decide, by decide, by decide, fun k hk => ?_⟩, fun ⟨s', hs', _⟩ => ?_,
    fun ⟨s', hs', _⟩ => ?_⟩
  · obtain rfl | rfl : k = 0 ∨ k = 1 := by
      simp only [pagesIn, pgsize] at hk
      omega
    · exact ⟨0, _, firstOfTwo, h₀, hp₀, .inl rfl, rfl, rfl⟩
    · exact ⟨1, _, secondOfTwo, h₁, hp₁, .inl rfl, rfl, rfl⟩
  · cases hfirst.symm.trans hs'
  · cases hother.symm.trans hs'

end PintosKaist.Vm
