/-
The struct files behind lazily loaded pages. `load_segment`, `do_mmap` and
`duplicate_aux` reopen the file for every page, and the page's `aux` keeps the
reopened file. `uninit_destroy` closes it. Nothing else does: once the page
has been touched `anon_destroy` and `file_backed_destroy` only drop the `aux`,
`munmap_cleaner` frees it, and a page that could not be allocated leaves its
`aux` behind.

So a process gives its files back exactly when it never takes one of the
steps `leaksFile` names.
-/
import PintosKaist.Lib.Ledger
import PintosKaist.Vm.Lazy

namespace PintosKaist.Vm

/-- Virtual memory, and the files `file_reopen` has made. -/
structure Handles where
  vm : State
  /-- Each file, with the process it was made for and its inode. -/
  files : List (Item Nat Nat)
  /-- `aux->file` of a page, by its place in `files`. -/
  auxFile : Nat → Option Nat
  /-- `open_cnt` of each inode. -/
  openCnt : Nat → Int

/-- The `aux` that `duplicate_aux` copies. -/
def Kind.dupAux : Kind → Option FileInfo
  | .uninit _ _ aux | .file aux => aux
  | .anon .. => none

namespace Handles

/-- `file_reopen` for the `aux` of the page `vm_alloc_page_with_initializer`
makes next. -/
def reopen (g : Handles) (p : Nat) (fi : FileInfo) : Handles :=
  { g with
    files := g.files ++ [⟨p, fi.file, 0⟩]
    auxFile := Function.update g.auxFile g.vm.nextPage (some g.files.length)
    openCnt := Function.update g.openCnt fi.file (g.openCnt fi.file + 1) }

/-- `file_close`. -/
def fileClose (g : Handles) (h : Nat) : Option Handles := do
  let f ← g.files[h]?
  some { g with
    files := g.files.set h { f with closed := f.closed + 1 }
    openCnt := Function.update g.openCnt f.on (g.openCnt f.on - 1) }

/-- What the event does to files; `munmap_cleaner` frees the `aux`. -/
def account (g : Handles) : Ev → Option Handles
  | .alloc p _ _ _ _ (some fi) => some (g.reopen p fi)
  | .copyPage c _ q =>
    match (g.vm.pages q).bind (·.kind.dupAux) with
    | some fi => some (g.reopen c fi)
    | none => some g
  | .munmap p va =>
    match sptFindPage g.vm p (va * pgsize) with
    | some q => some { g with auxFile := Function.update g.auxFile q none }
    | none => some g
  | .destroy _ q => if (uninitAux g.vm q).isSome then (g.auxFile q).bind g.fileClose else some g
  | _ => some g

def withVm (g : Handles) (vm : State) : Handles := { g with vm := vm }

def step (g : Handles) (e : Ev) : Option Handles := do
  let g' ← g.account e
  let vm ← Vm.step g.vm e
  some (g'.withVm vm)

/-- `supplemental_page_table_kill`: `hash_clear` destroys page after page. -/
def supplementalPageTableKill (g : Handles) (p : Nat) : Option Handles :=
  Run.run step g ((g.vm.spt p).map (.destroy p))

/-- No file reopened yet; `others` are the openers of each inode that are not
in `files`. -/
def start (vm : State) (others : Nat → Int) : Handles := ⟨vm, [], fun _ => none, others⟩

/-- A page holds the file of its `aux` until it is touched. -/
def ledger (g : Handles) : Ledger Nat Nat Nat :=
  ⟨g.files, fun q => (uninitAux g.vm q).bind fun _ => g.auxFile q, g.openCnt⟩

end Handles

/-- `vm_alloc_page_with_initializer` fails: the address is taken, or the type
has no initializer. -/
def refuses (s : State) (p : Nat) (type : VmType) (va : Nat) : Bool :=
  (hashFind s p va).isSome || type == .uninit || type == .pageCache

/-- The step leaves a file of the process that takes it open for good. -/
def leaksFile (s : State) : Ev → Bool
  | .alloc p type va _ _ aux => aux.isSome && refuses s p type va
  | .fault p addr _ _ =>
    decide (addr < kernBase) && !(s.pte p (addr / pgsize)).present &&
      (sptFindPage s p addr).any fun q => (uninitAux s q).isSome
  | .copyPage c _ q => (s.pages q).any fun page =>
    match page.kind with
    | .uninit type _ aux => aux.isSome && refuses s c type page.va
    | .file _ => true
    | .anon .. => false
  | .munmap p va => (sptFindPage s p (va * pgsize)).any fun q => (uninitAux s q).isSome
  | _ => false

namespace Handles

open Ledger

variable {g g' : Handles} {others : Nat → Int} {s' : State} {p c q va : Nat} {e : Ev} {x : Option Nat}

/-- Where the files are: a page that holds one is in the table of the process
it was made for, and a page that waits to be read has one. -/
structure Placed (g : Handles) : Prop where
  spts : Spts g.vm
  home : ∀ {q h f}, g.ledger.hold q = some h → g.files[h]? = some f → q ∈ g.vm.spt f.owner
  full : ∀ {p q}, q ∈ g.vm.spt p → (uninitAux g.vm q).isSome = true → (g.auxFile q).isSome = true
  lt : ∀ {q}, (uninitAux g.vm q).isSome = true → q < g.vm.nextPage

theorem hold_eq : g.ledger.hold q = (uninitAux g.vm q).bind fun _ => g.auxFile q := rfl

theorem hold_withVm : (g.withVm s').ledger.hold q = (uninitAux s' q).bind fun _ => g.auxFile q := rfl

theorem ledger_withVm : (g.withVm s').ledger = ⟨g.files, (g.withVm s').ledger.hold, g.openCnt⟩ := rfl

theorem auxFile_reopen {fi : FileInfo} :
    (g.reopen p fi).auxFile q = if q = g.vm.nextPage then some g.files.length else g.auxFile q :=
  Function.update_apply ..

theorem Placed.uninit_nextPage (h : g.Placed) : uninitAux g.vm g.vm.nextPage = none := by
  by_contra hne
  exact absurd (h.lt (Option.isSome_iff_ne_none.mpr hne)) (Nat.lt_irrefl _)

/-- A page in a table waits to be read exactly when it holds a file. -/
theorem Placed.hold_isSome (h : g.Placed) (hq : q ∈ g.vm.spt p) :
    (g.ledger.hold q).isSome = (uninitAux g.vm q).isSome := by
  rw [hold_eq]
  cases haux : uninitAux g.vm q with
  | none => rfl
  | some fi => exact h.full hq (by rw [haux]; rfl)

/-! ## What a step does to the ledger -/

/-- The pages that wait to be read are the same, and still in their tables. -/
structure SameAux (s s' : State) : Prop where
  spts : Spts s'
  next : s.nextPage ≤ s'.nextPage
  grow : ∀ {p q}, q ∈ s.spt p → q ∈ s'.spt p
  old : ∀ {p q}, q ∈ s'.spt p → (uninitAux s q).isSome = true → q ∈ s.spt p
  aux : ∀ q, uninitAux s' q = uninitAux s q

theorem SameAux.calm {s : State} (h : Spts s) (hc : Calm s s') : SameAux s s' :=
  ⟨h.same hc.toSameSpts, hc.page.ge, fun {p q} hq => by rwa [hc.spt p], fun {p q} hq _ => by rwa [← hc.spt p],
    hc.aux⟩

/-- A page that came in touched, or with nothing to read. -/
theorem SameAux.joined (h : g.Placed) (hj : Joined g.vm p none s') : SameAux g.vm s' := by
  refine ⟨hj.spts, by rw [hj.next]; omega, fun {p' q} hq => ?_, fun {p' q} hq haux => ?_, fun q => ?_⟩
  · rw [hj.spt]
    split
    next he => exact List.mem_cons_of_mem _ (he ▸ hq)
    next => exact hq
  · rw [hj.spt] at hq
    split at hq
    next he =>
      rcases List.mem_cons.mp hq with rfl | hq
      · rw [h.uninit_nextPage] at haux
        exact absurd haux (by simp)
      · exact he ▸ hq
    next => exact hq
  · rw [hj.aux]
    split
    next he => rw [he, h.uninit_nextPage]
    next => rfl

/-- No file was reopened or let go. -/
theorem Placed.keep (h : g.Placed) (hs : SameAux g.vm s') :
    (g.withVm s').Placed ∧ Move g.ledger none (g.withVm s').ledger := by
  have hhold : ∀ q, (g.withVm s').ledger.hold q = g.ledger.hold q := fun q => by
    rw [hold_withVm, hold_eq, hs.aux]
  have hledger : (g.withVm s').ledger = g.ledger := by
    rw [ledger_withVm, funext hhold]
    rfl
  refine ⟨⟨hs.spts, fun hq hf => ?_, fun hq (haux : (uninitAux s' _).isSome = true) => ?_,
    fun (haux : (uninitAux s' _).isSome = true) => ?_⟩, hledger ▸ .keep⟩
  · rw [hhold] at hq
    exact hs.grow (h.home hq hf)
  · rw [hs.aux] at haux
    exact h.full (hs.old hq haux) haux
  · rw [hs.aux] at haux
    exact Nat.lt_of_lt_of_le (h.lt haux) hs.next

/-- A file was reopened, and no page waits to read it. -/
theorem Placed.waste (h : g.Placed) (hl : g.ledger.Ok others) (p : Nat) (fi : FileInfo) (hs : SameAux g.vm s') :
    ((g.reopen p fi).withVm s').Placed ∧ Move g.ledger (some p) ((g.reopen p fi).withVm s').ledger := by
  have hhold : ∀ q, ((g.reopen p fi).withVm s').ledger.hold q = g.ledger.hold q := by
    intro q
    rw [hold_withVm, hold_eq, hs.aux]
    by_cases he : q = g.vm.nextPage
    · rw [he, h.uninit_nextPage]
      rfl
    · rw [auxFile_reopen, if_neg he]
  have hledger : ((g.reopen p fi).withVm s').ledger = g.ledger.opened p fi.file := by
    simp only [Ledger.opened, ← funext hhold]
    rfl
  refine ⟨⟨hs.spts, fun hq hf => ?_, fun hq (haux : (uninitAux s' _).isSome = true) => ?_,
    fun (haux : (uninitAux s' _).isSome = true) => ?_⟩, hledger ▸ .waste p fi.file⟩
  · rw [hhold] at hq
    exact hs.grow (h.home hq ((getElem?_opened (hl.hold_lt hq)).symm.trans hf))
  · rw [hs.aux] at haux
    show ((g.reopen p fi).auxFile _).isSome = true
    rw [auxFile_reopen, if_neg (h.lt haux).ne]
    exact h.full (hs.old hq haux) haux
  · rw [hs.aux] at haux
    exact Nat.lt_of_lt_of_le (h.lt haux) hs.next

/-- A file was reopened for a page that waits to read it. -/
theorem Placed.lend (h : g.Placed) (hl : g.ledger.Ok others) {fi : FileInfo} (hj : Joined g.vm p (some fi) s') :
    ((g.reopen p fi).withVm s').Placed ∧ Move g.ledger none ((g.reopen p fi).withVm s').ledger := by
  have haux : ∀ {q}, q ≠ g.vm.nextPage → uninitAux s' q = uninitAux g.vm q := fun hne => by rw [hj.aux, if_neg hne]
  have hhold : ∀ q, ((g.reopen p fi).withVm s').ledger.hold q =
      if q = g.vm.nextPage then some g.files.length else g.ledger.hold q := by
    intro q
    rw [hold_withVm, hold_eq]
    split
    next he => rw [hj.aux, if_pos he, auxFile_reopen, if_pos he, Option.bind_some]
    next he => rw [haux he, auxFile_reopen, if_neg he]
  have hledger : ((g.reopen p fi).withVm s').ledger = g.ledger.lent g.vm.nextPage p fi.file := by
    simp only [Ledger.lent, Ledger.opened]
    rw [show Function.update g.ledger.hold g.vm.nextPage (some g.ledger.items.length) = _ from
      funext fun q => (Function.update_apply ..).trans (hhold q).symm]
    rfl
  have hmem : ∀ {p' q}, q ∈ g.vm.spt p' → q ∈ s'.spt p' := by
    intro p' q hq
    rw [hj.spt]
    split
    next he => exact List.mem_cons_of_mem _ (he ▸ hq)
    next => exact hq
  refine ⟨⟨hj.spts, fun {q k f} hq hf => ?_, fun {p' q} (hq : q ∈ s'.spt p') (hsome : (uninitAux s' q).isSome) => ?_,
    fun {q} (hsome : (uninitAux s' q).isSome) => ?_⟩, ?_⟩
  · rw [hhold] at hq
    split at hq
    next he =>
      obtain rfl := Option.some.inj hq
      have hlast : (g.ledger.opened p fi.file).items[g.ledger.items.length]? = some f := hf
      rw [getElem?_opened_length, Option.some.injEq] at hlast
      subst hlast
      show q ∈ s'.spt p
      rw [hj.spt, if_pos rfl, he]
      exact List.mem_cons_self
    next he => exact hmem (h.home hq ((getElem?_opened (hl.hold_lt hq)).symm.trans hf))
  · show ((g.reopen p fi).auxFile q).isSome = true
    rw [auxFile_reopen]
    split
    next => rfl
    next he =>
      rw [haux he] at hsome
      rw [hj.spt] at hq
      split at hq
      next hp =>
        rcases List.mem_cons.mp hq with hq | hq
        · exact absurd hq he
        · exact h.full hq hsome
      next => exact h.full hq hsome
  · show q < s'.nextPage
    rw [hj.next]
    by_cases he : q = g.vm.nextPage
    · omega
    · rw [haux he] at hsome
      exact Nat.lt_succ_of_lt (h.lt hsome)
  · rw [hledger]
    refine .lend p fi.file ?_
    rw [hold_eq, h.uninit_nextPage]
    rfl

/-- The page lets go of its file, if it held one. -/
theorem Placed.move_drop (h : g.Placed) (hl : g.ledger.Ok others) (hq : q ∈ g.vm.spt p) :
    Move g.ledger (if (uninitAux g.vm q).isSome then some p else none) (g.ledger.dropped q) := by
  rw [← h.hold_isSome hq]
  cases hhold : g.ledger.hold q with
  | none =>
    rw [dropped_eq_self hhold]
    exact .keep
  | some k =>
    obtain ⟨f, hf, -⟩ := hl.held hhold
    obtain rfl := h.spts.apart _ _ _ hq (h.home hhold hf)
    exact .drop hhold hf

/-- A page of `p` was touched. -/
theorem Placed.touch (h : g.Placed) (hl : g.ledger.Ok others) (hq : q ∈ g.vm.spt p) (ht : Touched g.vm q s') :
    (g.withVm s').Placed ∧
      Move g.ledger (if (uninitAux g.vm q).isSome then some p else none) (g.withVm s').ledger := by
  have hhold : ∀ q', (g.withVm s').ledger.hold q' = if q' = q then none else g.ledger.hold q' := by
    intro q'
    rw [hold_withVm, hold_eq, ht.aux]
    split <;> rfl
  have hledger : (g.withVm s').ledger = g.ledger.dropped q := by
    simp only [Ledger.dropped]
    rw [show Function.update g.ledger.hold q none = _ from
      funext fun q' => (Function.update_apply ..).trans (hhold q').symm]
    rfl
  have hsub : ∀ {q'}, (uninitAux s' q').isSome = true → (uninitAux g.vm q').isSome = true := by
    intro q' hsome
    rw [ht.aux] at hsome
    split at hsome
    · exact absurd hsome (by simp)
    · exact hsome
  refine ⟨⟨h.spts.same ht.toSameSpts, fun {q' k f} hq' hf => ?_, fun {p' q'} hq' hsome => ?_, fun {q'} hsome => ?_⟩,
    hledger ▸ h.move_drop hl hq⟩
  · rw [hhold] at hq'
    split at hq'
    · exact absurd hq' (by simp)
    · exact (ht.spt _).symm ▸ h.home hq' hf
  · exact h.full (ht.spt p' ▸ hq') (hsub hsome)
  · exact ht.page.symm ▸ h.lt (hsub hsome)

/-- A page of `p` left the table and holds nothing any more. -/
theorem Placed.leave (g₁ : Handles) (h : g.Placed) (hq : q ∈ g.vm.spt p) (hleft : Left g.vm p q s')
    (haux : ∀ q', q' ≠ q → g₁.auxFile q' = g.auxFile q')
    (howner : g₁.files.map (·.owner) = g.files.map (·.owner))
    (hnone : (g₁.withVm s').ledger.hold q = none) :
    (g₁.withVm s').Placed ∧ (g₁.withVm s').ledger.hold = (g.ledger.dropped q).hold := by
  have hhold : ∀ q', (g₁.withVm s').ledger.hold q' = if q' = q then none else g.ledger.hold q' := by
    intro q'
    split
    next he => rw [he, hnone]
    next he => rw [hold_withVm, hold_eq, hleft.aux q' he, haux q' he]
  have hmem : ∀ {p' q'}, q' ∈ s'.spt p' ↔ q' ≠ q ∧ q' ∈ g.vm.spt p' := by
    intro p' q'
    rw [hleft.spt]
    split
    next he =>
      rw [he]
      exact (h.spts.nodup p).mem_erase_iff
    next he =>
      refine ⟨fun hq' => ⟨?_, hq'⟩, And.right⟩
      rintro rfl
      exact he (h.spts.apart _ _ _ hq' hq)
  refine ⟨⟨hleft.spts, fun {q' k f} hq' hf => ?_, fun {p' q'} hq' (hsome : (uninitAux s' q').isSome) => ?_,
    fun {q'} (hsome : (uninitAux s' q').isSome) => ?_⟩,
    funext fun q' => (hhold q').trans (Function.update_apply ..).symm⟩
  · rw [hhold] at hq'
    split at hq'
    next => exact absurd hq' (by simp)
    next he =>
      have hown : (g.files.map (·.owner))[k]? = some f.owner := by
        rw [← howner, List.getElem?_map]
        exact congrArg _ hf
      rw [List.getElem?_map, Option.map_eq_some_iff] at hown
      obtain ⟨f', hf', hown⟩ := hown
      exact hmem.mpr ⟨he, hown ▸ h.home hq' hf'⟩
  · obtain ⟨hne, hq'⟩ := hmem.mp hq'
    rw [hleft.aux q' hne] at hsome
    show (g₁.auxFile q').isSome = true
    rw [haux q' hne]
    exact h.full hq' hsome
  · show q' < s'.nextPage
    rw [hleft.next]
    by_cases he : q' = q
    · rw [he]
      exact h.spts.lt p q hq
    · rw [hleft.aux q' he] at hsome
      exact h.lt hsome

/-! ## Each event -/

theorem refuses_eq_false {s : State} {type : VmType} (h : refuses s p type va = false) :
    hashFind s p va = none ∧ (type = .anon ∨ type = .file) := by
  simp only [refuses, Bool.or_eq_false_iff, Option.isSome_eq_false_iff, Option.isNone_iff_eq_none, beq_eq_false_iff_ne,
    ne_eq] at h
  refine ⟨h.1.1, ?_⟩
  cases type <;> simp_all

/-- An allocation that is refused does nothing. -/
theorem vmAlloc_refused {s : State} {type : VmType} {writable init : Bool} {aux : Option FileInfo}
    (h : refuses s p type va = true) : vmAllocPageWithInitializer s p type va writable init aux = (false, s) := by
  rcases vmAlloc_cases s p type va writable init aux with hs | ⟨hnone, ht, -⟩
  · exact hs
  · rcases ht with rfl | rfl <;> simp [refuses, hnone] at h

/-- The reopened file goes with the page that is allocated, or stays behind. -/
theorem Placed.alloc {type : VmType} {writable init : Bool} {fi : FileInfo} (h : g.Placed)
    (hl : g.ledger.Ok others) (hp : p < g.vm.nextPid) (h0 : va ≠ 0) :
    ((g.reopen p fi).withVm (vmAllocPageWithInitializer g.vm p type va writable init (some fi)).2).Placed ∧
      Move g.ledger (if refuses g.vm p type va then some p else none)
        ((g.reopen p fi).withVm (vmAllocPageWithInitializer g.vm p type va writable init (some fi)).2).ledger := by
  cases hr : refuses g.vm p type va with
  | true =>
    rw [vmAlloc_refused hr]
    exact h.waste hl p fi (.calm h.spts (.refl _))
  | false =>
    obtain ⟨hnone, ht⟩ := refuses_eq_false hr
    rw [vmAlloc_new ht hnone]
    exact h.lend hl (.inserted ⟨va, none, writable, .uninit type init (some fi)⟩ h.spts hp h0 hnone)

/-- So does an allocation with nothing to read. -/
theorem Placed.allocBare {type : VmType} {writable init : Bool} (h : g.Placed) (hp : p < g.vm.nextPid) (h0 : va ≠ 0) :
    SameAux g.vm (vmAllocPageWithInitializer g.vm p type va writable init none).2 := by
  rcases vmAlloc_cases g.vm p type va writable init none with hs | ⟨hnone, -, hs⟩
  · rw [hs]
    exact .calm h.spts (.refl _)
  · rw [hs]
    exact .joined h (.inserted ⟨va, none, writable, .uninit type init none⟩ h.spts hp h0 hnone)

theorem Placed.fault {addr rsp : Nat} {write b : Bool} (h : g.Placed) (hl : g.ledger.Ok others)
    (hp : p < g.vm.nextPid)
    (hf : vmTryHandleFault g.vm p addr rsp write (!(g.vm.pte p (addr / pgsize)).present) = some (b, s')) :
    (g.withVm s').Placed ∧ Move g.ledger (if leaksFile g.vm (.fault p addr rsp write) then some p else none)
      (g.withVm s').ledger := by
  have hkeep : leaksFile g.vm (.fault p addr rsp write) = false → SameAux g.vm s' →
      (g.withVm s').Placed ∧ Move g.ledger (if leaksFile g.vm (.fault p addr rsp write) then some p else none)
        (g.withVm s').ledger := by
    intro hn hs
    rw [hn]
    exact h.keep hs
  have hidle : some (false, g.vm) = some (b, s') → SameAux g.vm s' := by
    intro e
    obtain ⟨-, rfl⟩ := Prod.mk.inj (Option.some.inj e)
    exact .calm h.spts (.refl _)
  simp only [vmTryHandleFault] at hf
  split at hf
  next hkern => exact hkeep (by simp [leaksFile, Nat.not_lt.mpr hkern]) (hidle hf)
  next hkern =>
    split at hf
    next q hfind =>
      obtain ⟨page, hpage, hf⟩ := Option.bind_eq_some_iff.mp hf
      cases hpres : (g.vm.pte p (addr / pgsize)).present with
      | true =>
        simp only [hpres, Bool.not_true, Bool.not_false, Bool.and_true] at hf
        refine hkeep (by simp [leaksFile, hpres]) ?_
        split at hf
        · split at hf
          · exact .calm h.spts (.wp hf)
          · exact hidle hf
        · split at hf
          · exact hidle hf
          · rename_i hw hw'
            simp [hw] at hw'
      | false =>
        simp only [hpres, Bool.not_false, Bool.not_true, Bool.and_false, Bool.false_eq_true, if_false] at hf
        have hleak : leaksFile g.vm (.fault p addr rsp write) = (uninitAux g.vm q).isSome := by
          simp [leaksFile, hpres, hfind, Nat.lt_of_not_le hkern]
        rw [hleak]
        exact h.touch hl (sptFindPage_some hfind).1 (.claim hf)
    next hfind =>
      refine hkeep (by simp [leaksFile, hfind]) ?_
      split at hf
      next hwin =>
        obtain ⟨-, rfl⟩ := Prod.mk.inj (Option.some.inj hf)
        exact h.allocBare hp (inStackWindow_ne_zero hwin)
      next => exact hidle hf

/-- A turn of `supplemental_page_table_copy`: the copy of an uninit page waits
to read its file, the copy of a file-backed one has read it. -/
theorem Placed.copyPage {b : Bool} {g₁ : Handles} (h : g.Placed) (hl : g.ledger.Ok others) (hc : c < g.vm.nextPid)
    (hq : q ∈ g.vm.spt p) (hcopy : copyPage g.vm c q = some (b, s')) (ha : g.account (.copyPage c p q) = some g₁) :
    (g₁.withVm s').Placed ∧ Move g.ledger (if leaksFile g.vm (.copyPage c p q) then some c else none)
      (g₁.withVm s').ledger := by
  obtain ⟨va, hva, h0⟩ := h.spts.live p q hq
  obtain ⟨src, hsrc, rfl⟩ := vaOf_some hva
  cases hk : src.kind with
  | uninit type init aux =>
    rw [copyPage_uninit hsrc hk, Option.map_eq_some_iff] at hcopy
    obtain ⟨fi, rfl, e⟩ := hcopy
    obtain ⟨-, rfl⟩ := Prod.mk.inj e
    simp only [account, hsrc, hk, Kind.dupAux, Option.bind_some, Option.some.injEq] at ha
    have hleak : leaksFile g.vm (.copyPage c p q) = refuses g.vm c type src.va := by
      simp [leaksFile, hsrc, hk]
    rw [← ha, hleak]
    exact h.alloc hl hc h0
  | file aux =>
    have hleak : leaksFile g.vm (.copyPage c p q) = true := by simp [leaksFile, hsrc, hk]
    obtain ⟨fi, rfl⟩ : ∃ fi, aux = some fi := by
      cases aux with
      | none => simp [Vm.copyPage, hsrc, hk, duplicateAux] at hcopy
      | some fi => exact ⟨fi, rfl⟩
    simp only [account, hsrc, hk, Kind.dupAux, Option.bind_some, Option.some.injEq] at ha
    rw [← ha, hleak]
    refine h.waste hl c fi ?_
    cases hfind : hashFind g.vm c src.va with
    | some d =>
      rw [(copyPage_dup hsrc hfind hcopy).2]
      exact .calm h.spts (.refl _)
    | none =>
      rw [copyPage_file hsrc hk h0 hfind, Option.bind_some] at hcopy
      exact .joined h (.claimNew hcopy h.spts hc h0 hfind)
  | anon i aux =>
    have hleak : leaksFile g.vm (.copyPage c p q) = false := by simp [leaksFile, hsrc, hk]
    simp only [account, hsrc, hk, Kind.dupAux, Option.bind_some, Option.some.injEq] at ha
    rw [← ha, hleak]
    refine h.keep ?_
    cases hfind : hashFind g.vm c src.va with
    | some d =>
      rw [(copyPage_dup hsrc hfind hcopy).2]
      exact .calm h.spts (.refl _)
    | none =>
      rw [copyPage_anon hsrc hk (Nat.ne_of_lt (h.spts.lt p q hq)) h0 hfind, Option.bind_eq_some_iff] at hcopy
      obtain ⟨f, -, hcopy⟩ := hcopy
      obtain ⟨frame, -, e⟩ := Option.map_eq_some_iff.mp hcopy
      obtain ⟨-, rfl⟩ := Prod.mk.inj e
      exact .joined h (.shared h.spts hc h0 hfind)

theorem Placed.munmap {g₁ : Handles} (h : g.Placed) (hl : g.ledger.Ok others) (hm : doMunmap g.vm p va = some s')
    (ha : g.account (.munmap p va) = some g₁) :
    (g₁.withVm s').Placed ∧ Move g.ledger (if leaksFile g.vm (.munmap p va) then some p else none)
      (g₁.withVm s').ledger := by
  obtain ⟨q, hfind, hleft⟩ := Left.munmap h.spts hm
  have hq := (sptFindPage_some hfind).1
  simp only [account, hfind, Option.some.injEq] at ha
  have hnone : (g₁.withVm s').ledger.hold q = none := by
    rw [hold_withVm, ← ha]
    simp
  obtain ⟨hplaced, hhold⟩ := h.leave g₁ hq hleft (fun q' hne => ha ▸ Function.update_of_ne hne ..) (ha ▸ rfl) hnone
  have hledger : (g₁.withVm s').ledger = g.ledger.dropped q := by
    rw [ledger_withVm, hhold, ← ha]
    rfl
  have hleak : leaksFile g.vm (.munmap p va) = (uninitAux g.vm q).isSome := by simp [leaksFile, hfind]
  rw [hleak, hledger]
  exact ⟨hplaced, h.move_drop hl hq⟩

/-- `uninit_destroy` closes the file of a page that was never touched. -/
theorem Placed.destroy {g₁ : Handles} (h : g.Placed) (hq : q ∈ g.vm.spt p)
    (hd : vmDeallocPage (g.vm.setSpt p ((g.vm.spt p).erase q)) p q = some s')
    (ha : g.account (.destroy p q) = some g₁) :
    (g₁.withVm s').Placed ∧ Move g.ledger none (g₁.withVm s').ledger := by
  obtain ⟨hleft, hgone⟩ := Left.destroy h.spts hq hd
  have hnone : (g₁.withVm s').ledger.hold q = none := by rw [hold_withVm, hgone]; rfl
  simp only [account] at ha
  split at ha
  next hsome =>
    obtain ⟨k, hk, ha⟩ := Option.bind_eq_some_iff.mp ha
    simp only [fileClose, Option.bind_eq_bind, Option.bind_eq_some_iff, Option.some.injEq] at ha
    obtain ⟨f, hf, ha⟩ := ha
    have howner : g₁.files.map (·.owner) = g.files.map (·.owner) := by
      obtain ⟨hlt, hfk⟩ := List.getElem?_eq_some_iff.mp hf
      have hlt' : k < (g.files.map (·.owner)).length := by simpa using hlt
      rw [← ha]
      show (g.files.set k { f with closed := f.closed + 1 }).map (·.owner) = _
      rw [List.map_set, show f.owner = (g.files.map (·.owner))[k] by simp [hfk], List.set_getElem_self hlt']
    obtain ⟨hplaced, hhold⟩ := h.leave g₁ hq hleft (fun q' _ => ha ▸ rfl) howner hnone
    have hheld : g.ledger.hold q = some k := by
      obtain ⟨fi, hfi⟩ := Option.isSome_iff_exists.mp hsome
      rw [hold_eq, hfi, Option.bind_some, hk]
    have hledger : (g₁.withVm s').ledger = (g.ledger.dropped q).closed k f := by
      rw [ledger_withVm, hhold, ← ha]
      rfl
    rw [hledger]
    exact ⟨hplaced, .close hheld hf⟩
  next hsome =>
    obtain rfl := Option.some.inj ha
    have hfree : g.ledger.hold q = none := by
      rw [hold_eq, Option.not_isSome_iff_eq_none.mp hsome]
      rfl
    obtain ⟨hplaced, hhold⟩ := h.leave g hq hleft (fun _ _ => rfl) rfl hnone
    rw [dropped_eq_self hfree] at hhold
    have hledger : (g.withVm s').ledger = g.ledger := by
      rw [ledger_withVm, hhold]
      rfl
    rw [hledger]
    exact ⟨hplaced, .keep⟩

/-- **One step.** The ledger makes one move, which loses a file of the process
exactly when the step is one of those `leaksFile` names. -/
theorem Placed.step (h : g.Placed) (hl : g.ledger.Ok others) (hs : g.step e = some g') :
    g'.Placed ∧ Move g.ledger (if leaksFile g.vm e then e.pid else none) g'.ledger := by
  simp only [Handles.step, Option.bind_eq_bind, Option.bind_eq_some_iff, Option.some.injEq] at hs
  obtain ⟨g₁, ha, s', hs, rfl⟩ := hs
  cases step_took hs with
  | spawn =>
    obtain rfl := Option.some.inj ha
    refine h.keep ⟨⟨fun p hp => h.spts.idle p ?_, h.spts.live, h.spts.lt, h.spts.nodup, h.spts.apart, h.spts.keyed⟩,
      Nat.le_refl _, id, fun hq _ => hq, fun _ => rfl⟩
    have : g.vm.nextPid + 1 ≤ p := hp
    omega
  | @alloc p va type writable init aux hp h0 =>
    cases aux with
    | none =>
      obtain rfl := Option.some.inj ha
      exact h.keep (h.allocBare hp h0)
    | some fi =>
      obtain rfl := Option.some.inj ha
      exact h.alloc hl hp h0
  | setupStack hp hst =>
    obtain rfl := Option.some.inj ha
    refine h.keep ?_
    rcases setupStack_cases hst with ⟨-, rfl⟩ | ⟨hnone, hc⟩
    · exact .calm h.spts (.refl _)
    · exact .joined h (.claimNew hc h.spts hp (by decide) hnone)
  | load hp =>
    obtain rfl := Option.some.inj ha
    exact h.keep (.calm h.spts (.refl _))
  | store hp hst =>
    obtain rfl := Option.some.inj ha
    obtain ⟨-, rfl⟩ := storeByte_eq hst
    exact h.keep (.calm h.spts (.of_pages (State.spt_setPte _ _ _ _) rfl rfl rfl))
  | fault hp hno hf =>
    obtain rfl := Option.some.inj ha
    exact h.fault hl hp hf
  | copyPage hc hq hcopy => exact h.copyPage hl hc hq hcopy ha
  | munmap hp hm => exact h.munmap hl hm ha
  | destroy hp hq hd => exact h.destroy hq hd ha
  | reap hp hnil hr =>
    obtain rfl := Option.some.inj ha
    exact h.keep (.calm h.spts (.reap hnil hr))

/-! ## Every run -/

/-- No step of `p` is one of those `leaksFile` names. -/
def GivesBack (p : Nat) (g : Handles) (e : Ev) : Prop := e.pid = some p → leaksFile g.vm e = false

instance (p : Nat) (g : Handles) (e : Ev) : Decidable (GivesBack p g e) :=
  inferInstanceAs (Decidable (_ → _))

/-- Along a run, a file of `p` is lost exactly when a step of `p` loses it. -/
theorem lost_run_iff {es : List Ev} (h : g.Placed) (hl : g.ledger.Ok others) (hr : Run.run step g es = some g') :
    (g'.Placed ∧ g'.ledger.Ok others) ∧
      (Lost g'.ledger p ↔ Lost g.ledger p ∨ ¬ Run.Always step (GivesBack p) g es) := by
  refine Run.run_mark (I := fun g => g.Placed ∧ g.ledger.Ok others) (M := fun g => Lost g.ledger p)
    (fun g e g' hI hs => ?_) ⟨h, hl⟩ hr
  obtain ⟨hp', hm⟩ := hI.1.step hI.2 hs
  refine ⟨⟨hp', hI.2.move hm⟩, (hm.lost_iff hI.2).trans (or_congr_right ?_)⟩
  rw [GivesBack, Classical.not_imp]
  cases leaksFile g.vm e <;> simp

theorem placed_start {frames slots : Nat} {mem : Nat → Bytes} {disk : Nat → Sector} {inodes : Nat → Inode} :
    (start (boot frames slots mem disk inodes) others).Placed :=
  ⟨links_boot.spts, fun h => absurd h (by simp [hold_eq, uninitAux, start, boot]),
    fun h => absurd h (by simp [start, boot, State.spt, Proc.empty]),
    fun h => absurd h (by simp [uninitAux, start, boot])⟩

theorem ok_start (s : State) : (start s others).ledger.Ok others :=
  ⟨fun h => absurd h (by simp [hold_eq, start]), fun h => absurd h (by simp [hold_eq, start]),
    fun _ h => absurd h (by simp [ledger, start]), fun i => by simp [ledger, start, openOn]⟩

theorem spt_destroy (h : g.Placed) (hs : g.step (.destroy p q) = some g') : g'.vm.spt p = (g.vm.spt p).erase q := by
  simp only [Handles.step, Option.bind_eq_bind, Option.bind_eq_some_iff, Option.some.injEq] at hs
  obtain ⟨g₁, -, s', hs, rfl⟩ := hs
  cases step_took hs with
  | destroy hp hq hd => rw [show (g₁.withVm s').vm = s' from rfl, (Left.destroy h.spts hq hd).1.spt, if_pos rfl]

/-- The loop of `hash_clear` leaves the table empty. -/
theorem spt_kill : ∀ {qs : List Nat} {g : Handles}, g.Placed → g.ledger.Ok others → g.vm.spt p = qs →
    Run.run step g (qs.map (.destroy p)) = some g' → g'.vm.spt p = []
  | [], g, _, _, hqs, hr => by
    obtain rfl := Option.some.inj hr
    exact hqs
  | q :: qs, g, h, hl, hqs, hr => by
    obtain ⟨t, ht, hr⟩ := Run.run_cons.mp hr
    obtain ⟨hp, hm⟩ := h.step hl ht
    refine spt_kill hp (hl.move hm) ?_ hr
    rw [spt_destroy h ht, hqs, List.erase_cons_head]

/-- Killing the table loses no file. -/
theorem lost_kill_iff (h : g.Placed) (hl : g.ledger.Ok others) (hk : g.supplementalPageTableKill p = some g') :
    (g'.Placed ∧ g'.ledger.Ok others) ∧ (Lost g'.ledger p ↔ Lost g.ledger p) := by
  obtain ⟨hok, hlost⟩ := lost_run_iff (p := p) h hl hk
  refine ⟨hok, hlost.trans (or_iff_left (not_not.mpr (Run.always_of_mem g fun e he g _ => ?_)))⟩
  obtain ⟨q, -, rfl⟩ := List.mem_map.mp he
  rfl

/-- **A process gives back its files** exactly when no step of it was one that
`leaksFile` names: then each file reopened for it has been closed once when
its supplemental page table has been killed, and the count of each inode is
that of its other openers. -/
theorem files_givenBack_iff {frames slots : Nat} {mem : Nat → Bytes} {disk : Nat → Sector} {inodes : Nat → Inode}
    {es : List Ev} (hrun : Run.run step (start (boot frames slots mem disk inodes) others) es = some g)
    (hkill : g.supplementalPageTableKill p = some g') :
    Settled others g'.ledger p ↔
      Run.Always step (GivesBack p) (start (boot frames slots mem disk inodes) others) es := by
  obtain ⟨⟨hp, hl⟩, hlost⟩ := lost_run_iff (p := p) placed_start (ok_start _) hrun
  obtain ⟨⟨hp', hl'⟩, hkeep⟩ := lost_kill_iff hp hl hkill
  have hnil := spt_kill hp hl rfl hkill
  rw [hl'.settled_iff fun q k f hq hf hown => ?_, hkeep, hlost]
  · have : ¬ Lost (start (boot frames slots mem disk inodes) others).ledger p := by
      intro ⟨k, f, hf, _⟩
      simp [ledger, start] at hf
    simp [this]
  · have := hp'.home hq hf
    rw [hown, hnil] at this
    exact absurd this (by simp)

/-- A process loads a program of one page, maps a file and forks; neither it nor
its child touches a page of either. -/
def execForkIdle : List Ev :=
  [.spawn, .alloc 0 .anon 1 true true (some smallFile), .setupStack 0, .alloc 0 .file 2 true true (some smallFile),
    .spawn, .copyPage 1 0 2, .copyPage 1 0 1, .copyPage 1 0 0]

/-- The two files of the child are closed, and the inode is open for the two
of the parent. -/
theorem files_givenBack_execForkIdle : ∃ g g', Run.run step (start (small 2 1) fun _ => 0) execForkIdle = some g ∧
    g.supplementalPageTableKill 1 = some g' ∧ g'.files = [⟨0, 0, 0⟩, ⟨0, 0, 0⟩, ⟨1, 0, 1⟩, ⟨1, 0, 1⟩] ∧
    Settled (fun _ => 0) g'.ledger 1 := by
  obtain ⟨g, hg, hkill⟩ := (Option.any_eq_true ..).mp
    (show (Run.run step (start (small 2 1) fun _ => 0) execForkIdle).any (fun g =>
      (g.supplementalPageTableKill 1).any fun g' =>
        decide (g'.files = [⟨0, 0, 0⟩, ⟨0, 0, 0⟩, ⟨1, 0, 1⟩, ⟨1, 0, 1⟩])) = true by decide +kernel)
  obtain ⟨g', hg', hfiles⟩ := (Option.any_eq_true ..).mp hkill
  exact ⟨g, g', hg, hg', of_decide_eq_true hfiles, (files_givenBack_iff hg hg').mpr (by decide +kernel)⟩

/-- A process loads a program of one page, runs it and exits: the page is
anonymous by then, and its file stays open. -/
theorem not_files_givenBack : ¬ ∀ es g g' p, Run.run step (start (small 2 1) fun _ => 0) es = some g →
    g.supplementalPageTableKill p = some g' → Settled (fun _ => 0) g'.ledger p := by
  intro h
  obtain ⟨g, hg, hkill⟩ := (Option.any_eq_true ..).mp
    (show (Run.run step (start (small 2 1) fun _ => 0) [.spawn, .alloc 0 .anon 1 true true (some smallFile),
      .setupStack 0, .fault 0 pgsize 0 false, .load 0 pgsize]).any (fun g =>
        (g.supplementalPageTableKill 0).any fun g' => decide (g'.files = [⟨0, 0, 0⟩])) = true by decide +kernel)
  obtain ⟨g', hg', hfiles⟩ := (Option.any_eq_true ..).mp hkill
  have hclosed := (h _ g g' 0 hg hg').1 ⟨0, 0, 0⟩ (by rw [ledger, of_decide_eq_true hfiles]; simp) rfl
  exact absurd hclosed (by decide)

end Handles

end PintosKaist.Vm
