/-
What a fresh anonymous page holds after its first claim: zeros when the user
pool has a page for it, and what the evicted frame held when it has none,
since only `palloc_get_page` fills the page with zeros.
-/
import PintosKaist.Vm.LinksRuns
import PintosKaist.Vm.Reads

namespace PintosKaist.Vm

variable {s s' : State} {p q f v va : Nat} {b : Bool}

/-- A page as `vm_alloc_page(VM_ANON, va, true)` makes it. -/
def freshPage (va : Nat) : Page := ⟨va, none, true, .uninit .anon false none⟩

/-- `vm_stack_growth` and `setup_stack` make such a page. -/
theorem vmAllocPage_fresh (h : vmAllocPage s p .anon va true = (true, s')) :
    s'.pages s.nextPage = some (freshPage va) ∧ s.nextPage ∈ s'.spt p := by
  unfold vmAllocPage vmAllocPageWithInitializer at h
  split at h
  · cases h
  · simp only [sptInsertPage] at h
    split at h
    · cases h
    · obtain ⟨-, rfl⟩ := Prod.mk.inj h
      refine ⟨?_, ?_⟩
      · simp [State.setSpt, State.setPage, freshPage]
      · rw [State.spt_setSpt_self]
        exact List.mem_cons_self

/-! ## Eviction leaves memory alone -/

/-- An eviction writes to no memory; it moves no frame, and the page it takes
has been claimed before. -/
structure Evicted (s s' : State) : Prop where
  mem : s'.mem = s.mem
  kva : ∀ f, (s'.frames f).map Frame.kva = (s.frames f).map Frame.kva
  pages : ∀ q va, s.pages q = some (freshPage va) → s'.pages q = s.pages q

theorem swapOut_evicted (h : swapOut s p q = some s') : Evicted s s' := by
  unfold swapOut at h
  simp only [Option.bind_eq_bind, Option.bind_eq_some_iff] at h
  obtain ⟨page, hpage, h⟩ := h
  split at h
  · cases h
  · rename_i i aux hkind
    simp only [anonSwapOut, Option.bind_eq_bind, Option.bind_eq_some_iff, Option.some.injEq, Prod.exists] at h
    obtain ⟨idx, slots, -, f, hf, frame, hframe, rfl⟩ := h
    refine ⟨rfl, fun f' => ?_, fun q' va hq' => ?_⟩
    · simp only [State.setPage, State.setFrame]
      by_cases hff : f' = f
      · subst hff
        rw [Function.update_self, hframe]
        rfl
      · rw [Function.update_of_ne hff]
    · refine Function.update_of_ne ?_ ..
      rintro rfl
      obtain rfl := Option.some.inj (hpage.symm.trans hq')
      cases hkind
  · have hs := (writeBack_spec h).1
    rw [hs]
    exact ⟨rfl, fun _ => rfl, fun _ _ _ => rfl⟩

theorem vmEvictFrame_evicted (h : vmEvictFrame s p = some (v, s')) :
    ∃ victim, s.frameList.head? = some v ∧ s.frames v = some victim ∧ Evicted s s' := by
  unfold vmEvictFrame at h
  split at h
  · cases h
  · rename_i v' rest hlist
    simp only [Option.bind_eq_bind, Option.bind_eq_some_iff, Option.some.injEq, Prod.mk.injEq] at h
    obtain ⟨victim, hvictim, q, -, s₁, hout, page, hpage, rfl, rfl⟩ := h
    obtain ⟨hmem, hkva, hpages⟩ := swapOut_evicted hout
    refine ⟨victim, by rw [hlist]; rfl, hvictim, hmem, hkva, fun q' va hq' => ?_⟩
    have hkeep : s₁.pages q' = s.pages q' := hpages q' va hq'
    refine (Function.update_of_ne ?_ ..).trans hkeep
    rintro rfl
    -- a page that was never claimed has no `swap_out`
    have hq₁ : s.pages q' = some (freshPage va) := hq'
    unfold swapOut at hout
    rw [Option.bind_eq_bind] at hout
    change Option.bind (s.pages q') _ = _ at hout
    rw [hq₁] at hout
    cases hout

/-! ## The frame of a claim -/

/-- The memory the next `vm_get_frame` gives is zero: it comes from the pool,
or the frame at the front of the list holds zeros. -/
def ZeroFrame (s : State) : Prop :=
  0 < s.userPool.free ∨ ∀ v ∈ s.frameList.head?, ∀ victim ∈ s.frames v, s.mem victim.kva = zeroPage

theorem vmGetFrame_mem (h : vmGetFrame s p = some (f, s')) :
    ∃ kva, s'.frames f = some ⟨kva, none, 0⟩ ∧ (s'.mem kva = zeroPage ↔ ZeroFrame s) ∧
      ∀ q va, s.pages q = some (freshPage va) → s'.pages q = s.pages q := by
  unfold vmGetFrame at h
  split at h
  · rename_i kva pool hscan
    simp only [pushFrame, Option.some.injEq, Prod.mk.injEq] at h
    obtain ⟨rfl, rfl⟩ := h
    have hfree := Bitmap.free_scanAndFlip hscan
    refine ⟨kva, by simp [State.setFrame], ⟨fun _ => .inl (by omega), fun _ => ?_⟩, fun _ _ _ => rfl⟩
    simp [State.setFrame, State.setMem]
  · rename_i hfull
    simp only [Option.bind_eq_bind, Option.bind_eq_some_iff, Option.some.injEq, Prod.exists] at h
    obtain ⟨v, s₁, hev, frame, hframe, h⟩ := h
    simp only [pushFrame, Prod.mk.injEq] at h
    obtain ⟨rfl, rfl⟩ := h
    obtain ⟨victim, hhead, hvictim, hmem, hkva, hpages⟩ := vmEvictFrame_evicted hev
    have hk := hkva v
    rw [hframe, hvictim] at hk
    have hk : frame.kva = victim.kva := Option.some.inj hk
    refine ⟨frame.kva, by simp [State.setFrame], ?_, hpages⟩
    show s₁.mem frame.kva = zeroPage ↔ _
    rw [hmem, hk]
    constructor
    · intro hz
      refine .inr fun v' hv' victim' hvictim' => ?_
      obtain rfl := Option.some.inj (hhead.symm.trans hv')
      obtain rfl := Option.some.inj (hvictim.symm.trans hvictim')
      exact hz
    · rintro (hpos | hz)
      · have := Bitmap.free_eq_zero hfull
        omega
      · exact hz v hhead victim hvictim

/-! ## The first claim -/

/-- **The first claim of a fresh page.** In any state, whatever the process
and the page: the claim succeeds when it returns, and then the process reads a
zero at every byte of the page exactly when the user pool had a page, or the
frame at the front of the list held zeros. -/
theorem first_claim_zero (hpage : s.pages q = some (freshPage va)) (hc : vmDoClaimPage s p q = some (b, s')) :
    b = true ∧ ((∀ o : Fin pgsize, loadByte s' p (va * pgsize + o) = some 0) ↔ ZeroFrame s) := by
  simp only [vmDoClaimPage, Option.bind_eq_bind, Option.bind_eq_some_iff, Prod.exists] at hc
  obtain ⟨f, s₁, hget, frame, hframe, page, hpage₁, hc⟩ := hc
  obtain ⟨kva, hf, hmem, hpages⟩ := vmGetFrame_mem hget
  obtain rfl := Option.some.inj (hf.symm.trans hframe)
  obtain rfl := Option.some.inj (hpage₁.symm.trans ((hpages q va hpage).trans hpage))
  simp only [swapIn, pml4SetPage, linkFrame, State.setPage, State.setFrame, Function.update_self, freshPage,
    uninitInitialize, Option.bind_eq_bind, Option.bind_some, Bool.false_eq_true, if_false, Option.some.injEq,
    Prod.mk.injEq] at hc
  obtain ⟨rfl, rfl⟩ := hc
  refine ⟨rfl, ?_⟩
  rw [← hmem]
  simp only [loadByte_addr, mapsTo, State.pte, Function.update_self, if_true, Option.map_some, Option.some.injEq]
  exact ⟨fun h => funext h, fun h o => congrFun h o⟩

/-- A process takes its first stack page with a frame free. -/
theorem first_claim_zero_setup : ∃ s s', Run.run step (small 1 1) [.spawn, .alloc 0 .anon 5 true false none] = some s ∧
    vmDoClaimPage s 0 0 = some (true, s') ∧ ∀ o : Fin pgsize, loadByte s' 0 (5 * pgsize + o) = some 0 := by
  obtain ⟨s, hs, hb⟩ := (Option.any_eq_true _ _).mp (show
    (Run.run step (small 1 1) [.spawn, .alloc 0 .anon 5 true false none]).any (fun s =>
      decide (s.pages 0 = some (freshPage 5) ∧ 0 < s.userPool.free ∧ (vmDoClaimPage s 0 0).isSome)) = true by
    decide +kernel)
  obtain ⟨hpage, hfree, hc⟩ := of_decide_eq_true hb
  obtain ⟨⟨b, s'⟩, hc⟩ := Option.isSome_iff_exists.mp hc
  obtain ⟨rfl, hz⟩ := first_claim_zero hpage hc
  exact ⟨s, s', hs, hc, hz.mpr (.inl hfree)⟩

/-- A process writes to the last byte of its stack, and grows the stack by a
page; the only frame goes to the new page. -/
def staleStack : List Ev :=
  [.spawn, .setupStack 0, .store 0 stackTop 7, .fault 0 (stackTop - pgsize) (stackTop - pgsize) false]

theorem not_first_claim_zero : ¬ ∀ es s p q va b s', Run.run step (small 1 1) es = some s → q ∈ s.spt p →
    s.pages q = some (freshPage va) → vmDoClaimPage s p q = some (b, s') →
    ∀ o : Fin pgsize, loadByte s' p (va * pgsize + o) = some 0 := by
  intro hall
  obtain ⟨s, hs, hb⟩ := (Option.any_eq_true _ _).mp (show
    (Run.run step (small 1 1) staleStack).any (fun s => decide (s.pages 1 = some (freshPage (userStack / pgsize - 2)) ∧
      1 ∈ s.spt 0 ∧ (vmDoClaimPage s 0 1).any fun r => loadByte r.2 0 (stackTop - pgsize) == some 7)) = true by
    decide +kernel)
  obtain ⟨hpage, hq, hc⟩ := of_decide_eq_true hb
  obtain ⟨⟨b, s'⟩, hc, hload⟩ := (Option.any_eq_true _ _).mp hc
  have hz := hall _ s 0 1 _ b s' hs hq hpage hc ⟨pgsize - 1, by decide⟩
  have h7 : loadByte s' 0 (stackTop - pgsize) = some 7 := by simpa using hload
  have haddr : (userStack / pgsize - 2) * pgsize + (pgsize - 1) = stackTop - pgsize := by decide
  simp only [haddr, h7] at hz
  exact absurd hz (by decide)

end PintosKaist.Vm
