/-
`malloc` and `free` keep the invariant of the heap, and none of their
assertions fails.
-/
import PintosKaist.Threads.MallocSlots
import Mathlib.Data.List.Nodup

namespace PintosKaist.Threads.Malloc

variable {a p n m i k cnt size : Nat} {d : DescId} {h h' : Heap} {live live' : List Block} {b : Block} {l : List Nat}

theorem setArena_arena {ar : Option Arena} {x : Nat} : (h.setArena a ar).arena x = if x = a then ar else h.arena x :=
  Function.update_apply ..

theorem setFree_freeList {x : DescId} : (h.setFree d l).freeList x = if x = d then l else h.freeList x :=
  Function.update_apply ..

@[simp] theorem setArena_freeList {ar : Option Arena} : (h.setArena a ar).freeList = h.freeList := rfl

@[simp] theorem setFree_arena : (h.setFree d l).arena = h.arena := rfl

@[simp] theorem setArena_pages {ar : Option Arena} : (h.setArena a ar).pages = h.pages := rfl

@[simp] theorem setFree_pages : (h.setFree d l).pages = h.pages := rfl

/-! ## Blocks that change hands -/

/-- A new count in the header of a small arena leaves all slots. -/
theorem Slot.recount {cap : Nat} (hs : Slot h p cap) (ha : h.arena a = some ⟨some d, n⟩) :
    Slot ((h.setFree d l).setArena a (some ⟨some d, m⟩)) p cap := by
  cases hs with
  | @small a' d' n' i ha' hi =>
    by_cases he : a' = a
    · subst he
      obtain ⟨rfl, -⟩ : d = d' ∧ n = n' := by simpa using ha.symm.trans ha'
      exact .small (n := m) (by rw [setArena_arena, if_pos rfl]) hi
    · exact .small (n := n') (by rw [setArena_arena, if_neg he]; exact ha') hi
  | @big a' n' ha' =>
    have he : a' ≠ a := by
      rintro rfl
      cases ha.symm.trans ha'
    exact .big (by rw [setArena_arena, if_neg he]; exact ha')

/-- A change of one free list, with the header's count following it, and of the
live blocks. -/
theorem Inv.recount (hI : Inv h live) (ha : h.arena a = some ⟨some d, n⟩)
    (hm : m = (l.filter fun b => pgRoundDown b = a).length)
    (hother : ∀ a', a' ≠ a → (l.filter fun b => pgRoundDown b = a') = freeIn h d a')
    (hbig : ∀ a n, h.arena a = some ⟨none, n⟩ → ∃ b ∈ live', b.addr = a + arenaSize)
    (hlive : ∀ b ∈ live', 0 < b.size ∧ ∃ cap, Slot h b.addr cap ∧ b.size ≤ cap) (hnd : (live'.map Block.addr).Nodup)
    (hfree : ∀ p ∈ l, (∃ a n i, h.arena a = some ⟨some d, n⟩ ∧ i < blocksPerArena d ∧ p = slot a d i) ∧
      ∀ b ∈ live', b.addr ≠ p)
    (hfree' : ∀ d', d' ≠ d → ∀ p ∈ h.freeList d', ∀ b ∈ live', b.addr ≠ p) (hl : l.Nodup)
    (hcover : ∀ a d' n i, h.arena a = some ⟨some d', n⟩ → i < blocksPerArena d' →
      slot a d' i ∈ (if d' = d then l else h.freeList d') ∨ ∃ b ∈ live', b.addr = slot a d' i) :
    Inv ((h.setFree d l).setArena a (some ⟨some d, m⟩)) live' := by
  -- a header of the new heap is one of the old, up to the count at `a`
  have hback : ∀ a' d' n', ((h.setFree d l).setArena a (some ⟨some d, m⟩)).arena a' = some ⟨some d', n'⟩ →
      (a' = a ∧ d' = d ∧ n' = m) ∨ (a' ≠ a ∧ h.arena a' = some ⟨some d', n'⟩) := by
    intro a' d' n' ha'
    rw [setArena_arena] at ha'
    by_cases he : a' = a
    · rw [if_pos he] at ha'
      obtain ⟨rfl, rfl⟩ : d = d' ∧ m = n' := by simpa using ha'
      exact .inl ⟨he, rfl, rfl⟩
    · rw [if_neg he] at ha'
      exact .inr ⟨he, ha'⟩
  refine ⟨fun a' d' n' ha' => ?_, fun a' n' ha' => ?_, fun a' c' hp => ?_, hI.apart, fun b hb => ?_, hnd,
    fun d' p hp => ?_, fun d' => ?_, fun a' d' n' i ha' hi => ?_⟩
  · obtain ⟨rfl, rfl, rfl⟩ | ⟨he, ha'⟩ := hback a' d' n' ha'
    · refine ⟨(hI.small a' d' n ha).1, ?_⟩
      unfold freeIn
      rw [setArena_freeList, setFree_freeList, if_pos rfl]
      exact hm
    · obtain ⟨hin, hn⟩ := hI.small a' d' n' ha'
      refine ⟨hin, ?_⟩
      by_cases hd : d' = d
      · subst hd
        unfold freeIn
        rw [setArena_freeList, setFree_freeList, if_pos rfl, hother a' he]
        exact hn
      · unfold freeIn
        rw [setArena_freeList, setFree_freeList, if_neg hd]
        exact hn
  · rw [setArena_arena] at ha'
    split at ha'
    · cases ha'
    · exact ⟨(hI.big a' n' ha').1, hbig a' n' ha'⟩
  · obtain ⟨h₁, h₂, h₃, h₄⟩ := hI.held a' c' hp
    refine ⟨h₁, h₂, h₃, ?_⟩
    rw [setArena_arena]
    split
    · rfl
    · exact h₄
  · obtain ⟨hpos, cap, hs, hcap⟩ := hlive b hb
    exact ⟨hpos, cap, hs.recount ha, hcap⟩
  · rw [setArena_freeList, setFree_freeList] at hp
    have hp' : (∃ a n i, h.arena a = some ⟨some d', n⟩ ∧ i < blocksPerArena d' ∧ p = slot a d' i) ∧
        ∀ b ∈ live', b.addr ≠ p := by
      split at hp
      · subst_vars
        exact hfree p hp
      · exact ⟨(hI.freeSlot d' p hp).1, hfree' d' ‹_› p hp⟩
    obtain ⟨⟨c, n', i, hc, hi, rfl⟩, hnl⟩ := hp'
    by_cases he : c = a
    · subst he
      obtain ⟨rfl, -⟩ : d = d' ∧ n = n' := by simpa using ha.symm.trans hc
      exact ⟨⟨c, m, i, by rw [setArena_arena, if_pos rfl], hi, rfl⟩, hnl⟩
    · exact ⟨⟨c, n', i, by rw [setArena_arena, if_neg he]; exact hc, hi, rfl⟩, hnl⟩
  · rw [setArena_freeList, setFree_freeList]
    split
    · exact hl
    · exact hI.freeNodup d'
  · rw [setArena_freeList, setFree_freeList]
    obtain ⟨rfl, rfl, rfl⟩ | ⟨-, ha'⟩ := hback a' d' n' ha'
    · exact hcover a' d' n i ha hi
    · exact hcover a' d' n' i ha' hi

/-- `malloc` with a block on the free list. -/
theorem takeBlock_inv (hI : Inv h live) (hf : h.freeList d = p :: l) (h0 : 0 < size) (hsize : size ≤ blockSizeOf d) :
    ∃ h', takeBlock h d = some (some p, h') ∧ Inv h' (⟨p, size⟩ :: live) ∧ h'.pages = h.pages := by
  obtain ⟨⟨a, n, i, ha, hi, hslot⟩, hnl⟩ := hI.freeSlot d p (by rw [hf]; simp)
  obtain ⟨hin, hn⟩ := hI.small a d n ha
  obtain ⟨hal, hne, -, -⟩ := hI.held a 1 hin
  have hpa : pgRoundDown p = a := hslot ▸ pgRoundDown_slot hal hi
  have hnd := hI.freeNodup d
  rw [hf] at hnd
  obtain ⟨hpl, hnd⟩ := List.nodup_cons.mp hnd
  have hb2a : blockToArena (h.setFree d l) p = some (a, ⟨some d, n⟩) := by
    rw [hslot]
    exact blockToArena_slot hal hne ha hi
  refine ⟨(h.setFree d l).setArena a (some ⟨some d, n - 1⟩), ?_, ?_, rfl⟩
  · unfold takeBlock
    rw [hf]
    simp only [hb2a, Option.bind_eq_bind, Option.bind_some]
  · refine hI.recount ha ?_ (fun a' he => ?_) (fun a' n' ha' => ?_) (fun b hb => ?_) ?_ (fun q hq => ?_)
      (fun d' hd q hq b hb => ?_) hnd (fun a' d' n' j ha' hj => ?_)
    · unfold freeIn at hn
      rw [hf, List.filter_cons_of_pos (by simpa using hpa), List.length_cons] at hn
      omega
    · unfold freeIn
      rw [hf, List.filter_cons_of_neg (by simpa [hpa] using fun h => he h.symm)]
    · obtain ⟨b, hb, hba⟩ := (hI.big a' n' ha').2
      exact ⟨b, List.mem_cons_of_mem _ hb, hba⟩
    · obtain rfl | hb := List.mem_cons.mp hb
      · refine ⟨h0, blockSizeOf d, ?_, hsize⟩
        rw [hslot]
        exact .small ha hi
      · exact hI.liveSlot b hb
    · rw [List.map_cons, List.nodup_cons]
      refine ⟨fun hm => ?_, hI.nodup⟩
      obtain ⟨b, hb, hbp⟩ := List.mem_map.mp hm
      exact hnl b hb hbp
    · have hq' : q ∈ h.freeList d := by rw [hf]; exact List.mem_cons_of_mem _ hq
      obtain ⟨hs, hnl'⟩ := hI.freeSlot d q hq'
      refine ⟨hs, fun b hb => ?_⟩
      obtain rfl | hb := List.mem_cons.mp hb
      · intro he
        have he' : p = q := he
        exact hpl (he' ▸ hq)
      · exact hnl' b hb
    · obtain ⟨⟨c, n', j, hc, hj, hqs⟩, hnl'⟩ := hI.freeSlot d' q hq
      obtain rfl | hb := List.mem_cons.mp hb
      · -- a block of another size is in another page
        intro he
        have hqc : pgRoundDown q = c := hqs ▸ pgRoundDown_slot (hI.held c 1 (hI.small c d' n' hc).1).1 hj
        have hca : c = a := by rw [← hqc, ← hpa]; exact congrArg _ he.symm
        rw [hca, ha] at hc
        obtain ⟨rfl, -⟩ : d = d' ∧ n = n' := by simpa using hc
        exact hd rfl
      · exact hnl' b hb
    · obtain hm | ⟨b, hb, hba⟩ := hI.cover a' d' n' j ha' hj
      · by_cases hd : d' = d
        · subst hd
          rw [if_pos rfl]
          rw [hf, List.mem_cons] at hm
          obtain hm | hm := hm
          · exact .inr ⟨⟨p, size⟩, List.mem_cons_self, hm.symm⟩
          · exact .inl hm
        · rw [if_neg hd]
          exact .inl hm
      · exact .inr ⟨b, List.mem_cons_of_mem _ hb, hba⟩

/-! ## New pages -/

/-- A page that `palloc` gives is the header of nothing yet. -/
theorem Inv.fresh (hI : Inv h live) (hf : Fresh h a cnt) (hcnt : 1 ≤ cnt) :
    h.arena a = none ∧ ∀ a' cnt', (a', cnt') ∈ h.pages → a' ≠ a := by
  have hnot : ∀ a' cnt', (a', cnt') ∈ h.pages → a' ≠ a := by
    rintro a' cnt' hin rfl
    have hap := hf.2.2 _ hin
    have hc := (hI.held a' cnt' hin).2.2.1
    have h₁ : pgSize ≤ cnt * pgSize := Nat.le_mul_of_pos_left _ hcnt
    have h₂ : pgSize ≤ cnt' * pgSize := Nat.le_mul_of_pos_left _ hc
    have hpg : 0 < pgSize := by decide
    simp only at hap
    omega
  refine ⟨?_, hnot⟩
  cases ha : h.arena a with
  | none => rfl
  | some ar =>
    obtain ⟨_ | d, n⟩ := ar
    · exact absurd rfl (hnot a n (hI.big a n ha).1)
    · exact absurd rfl (hnot a 1 (hI.small a d n ha).1)

/-- Headers that stay leave their slots. -/
theorem Slot.keep {cap : Nat} (hs : Slot h p cap) (hk : ∀ a ar, h.arena a = some ar → h'.arena a = some ar) :
    Slot h' p cap := by
  cases hs with
  | small ha hi => exact .small (hk _ _ ha) hi
  | big ha => exact .big (hk _ _ ha)

/-- The pages of a new arena, with its header. -/
def withPages (h : Heap) (a cnt : Nat) (ar : Arena) : Heap := (pallocGet h a cnt).setArena a (some ar)

theorem withPages_keep {ar ar' : Arena} {x : Nat} (hn : h.arena a = none) (hx : h.arena x = some ar') :
    (withPages h a cnt ar).arena x = some ar' := by
  have hne : x ≠ a := by
    rintro rfl
    rw [hn] at hx
    cases hx
  unfold withPages
  rw [setArena_arena, if_neg hne]
  exact hx

theorem Inv.held_withPages (hI : Inv h live) (ar : Arena) (hf : Fresh h a cnt) (hcnt : 1 ≤ cnt) :
    (∀ a' c', (a', c') ∈ (withPages h a cnt ar).pages →
      a' % pgSize = 0 ∧ a' ≠ 0 ∧ 1 ≤ c' ∧ ((withPages h a cnt ar).arena a').isSome) ∧
    (withPages h a cnt ar).pages.Pairwise Apart := by
  refine ⟨fun a' c' hin => ?_, List.pairwise_cons.mpr ⟨fun r hr => hf.2.2 r hr, hI.apart⟩⟩
  unfold withPages
  rw [setArena_arena]
  obtain he | hin := List.mem_cons.mp hin
  · obtain ⟨rfl, rfl⟩ : a' = a ∧ c' = cnt := by simpa using he
    exact ⟨hf.1, hf.2.1, hcnt, by rw [if_pos rfl]; rfl⟩
  · obtain ⟨h₁, h₂, h₃, h₄⟩ := hI.held a' c' hin
    rw [if_neg ((hI.fresh hf hcnt).2 a' c' hin)]
    exact ⟨h₁, h₂, h₃, h₄⟩

/-- `malloc` of a big block. -/
theorem bigBlock_inv (hI : Inv h live) (hf : Fresh h a cnt) (hcnt : 1 ≤ cnt) (h0 : 0 < size)
    (hsize : arenaSize + size ≤ cnt * pgSize) : Inv (withPages h a cnt ⟨none, cnt⟩) (⟨a + arenaSize, size⟩ :: live) := by
  obtain ⟨hnone, hnot⟩ := hI.fresh hf hcnt
  obtain ⟨hheld, hap⟩ := hI.held_withPages ⟨none, cnt⟩ hf hcnt
  have hkeep : ∀ x ar, h.arena x = some ar → (withPages h a cnt ⟨none, cnt⟩).arena x = some ar :=
    fun x ar hx => withPages_keep hnone hx
  have hback : ∀ x d n, (withPages h a cnt ⟨none, cnt⟩).arena x = some ⟨some d, n⟩ →
      h.arena x = some ⟨some d, n⟩ := by
    intro x d n hx
    unfold withPages at hx
    rw [setArena_arena] at hx
    split at hx
    · cases hx
    · exact hx
  -- the block is in a page of its own
  have hapart : ∀ q cap, Slot h q cap → q ≠ a + arenaSize := by
    intro q cap hs he
    obtain ⟨c, c', hc, hqc, -⟩ := hI.slot_in hs
    rw [he, pgRoundDown_big hf.1] at hqc
    exact hnot c c' hc hqc.symm
  refine ⟨fun x d n hx => ?_, fun x n hx => ?_, hheld, hap, fun b hb => ?_, ?_, fun d q hq => ?_, hI.freeNodup,
    fun x d n i hx hi => ?_⟩
  · obtain ⟨hin, hn⟩ := hI.small x d n (hback x d n hx)
    exact ⟨List.mem_cons_of_mem _ hin, hn⟩
  · unfold withPages at hx
    rw [setArena_arena] at hx
    split at hx
    · subst_vars
      obtain rfl : cnt = n := by simpa using hx
      exact ⟨List.mem_cons_self, _, List.mem_cons_self, rfl⟩
    · obtain ⟨hin, b, hb, hba⟩ := hI.big x n hx
      exact ⟨List.mem_cons_of_mem _ hin, b, List.mem_cons_of_mem _ hb, hba⟩
  · obtain rfl | hb := List.mem_cons.mp hb
    · refine ⟨h0, _, .big (n := cnt) ?_, by simp only; omega⟩
      unfold withPages
      rw [setArena_arena, if_pos rfl]
    · obtain ⟨hpos, cap, hs, hcap⟩ := hI.liveSlot b hb
      exact ⟨hpos, cap, hs.keep hkeep, hcap⟩
  · rw [List.map_cons, List.nodup_cons]
    refine ⟨fun hm => ?_, hI.nodup⟩
    obtain ⟨b, hb, hba⟩ := List.mem_map.mp hm
    obtain ⟨-, cap, hs, -⟩ := hI.liveSlot b hb
    exact hapart _ cap hs hba
  · obtain ⟨⟨c, n, i, hc, hi, hqs⟩, hnl⟩ := hI.freeSlot d q hq
    refine ⟨⟨c, n, i, hkeep c _ hc, hi, hqs⟩, fun b hb => ?_⟩
    obtain rfl | hb := List.mem_cons.mp hb
    · have hs : Slot h q (blockSizeOf d) := hqs ▸ .small hc hi
      exact fun he => hapart q _ hs he.symm
    · exact hnl b hb
  · obtain hm | ⟨b, hb, hba⟩ := hI.cover x d n i (hback x d n hx) hi
    · exact .inl hm
    · exact .inr ⟨b, List.mem_cons_of_mem _ hb, hba⟩

/-- The loop that puts the blocks of a new arena on the free list. -/
theorem pushBlocks_eq (h0 : a ≠ 0) (ha : h.arena a = some ⟨some d, n⟩) (hk : k ≤ blocksPerArena d) :
    Run.run (pushBlock d a) h (List.range k) = some (h.setFree d (h.freeList d ++ (List.range k).map (slot a d))) := by
  induction k with
  | zero =>
    simp only [List.range_zero, Run.run_nil, List.map_nil, List.append_nil, Option.some.injEq]
    unfold Heap.setFree
    rw [Function.update_eq_self]
  | succ k ih =>
    rw [List.range_succ, Run.run_append, ih (by omega), Option.bind_some]
    have hb : arenaToBlock (h.setFree d (h.freeList d ++ (List.range k).map (slot a d))) a k = some (slot a d k) :=
      arenaToBlock_eq h0 ha (by omega)
    simp only [Run.run, pushBlock, hb, Option.bind_eq_bind, Option.bind_some, Option.some.injEq]
    unfold Heap.setFree
    simp only [Function.update_self, Function.update_idem, List.map_append, List.map_cons, List.map_nil,
      List.append_assoc]

/-- A new arena: all of its blocks are on the free list, which was empty. -/
theorem newArena_inv (hI : Inv h live) (hf : Fresh h a 1) (he : h.freeList d = []) :
    ∃ h', newArena h d a = some h' ∧ Inv h' live ∧ h'.freeList d = (List.range (blocksPerArena d)).map (slot a d) ∧
      h'.pages = (a, 1) :: h.pages := by
  obtain ⟨hnone, hnot⟩ := hI.fresh hf (Nat.le_refl 1)
  obtain ⟨hheld, hap⟩ := hI.held_withPages ⟨some d, blocksPerArena d⟩ hf (Nat.le_refl 1)
  have hself : (withPages h a 1 ⟨some d, blocksPerArena d⟩).arena a = some ⟨some d, blocksPerArena d⟩ := by
    unfold withPages
    rw [setArena_arena, if_pos rfl]
  have hrun := pushBlocks_eq hf.2.1 hself (Nat.le_refl (blocksPerArena d))
  have hfl : (withPages h a 1 ⟨some d, blocksPerArena d⟩).freeList d = [] := he
  rw [hfl, List.nil_append] at hrun
  have hkeep : ∀ x ar, h.arena x = some ar → (withPages h a 1 ⟨some d, blocksPerArena d⟩).arena x = some ar :=
    fun x ar hx => withPages_keep hnone hx
  have hback : ∀ x ar, (withPages h a 1 ⟨some d, blocksPerArena d⟩).arena x = some ar →
      (x = a ∧ ar = ⟨some d, blocksPerArena d⟩) ∨ (x ≠ a ∧ h.arena x = some ar) := by
    intro x ar hx
    unfold withPages at hx
    rw [setArena_arena] at hx
    split at hx
    · exact .inl ⟨‹_›, (Option.some.inj hx).symm⟩
    · exact .inr ⟨‹_›, hx⟩
  have hpg : ∀ i < blocksPerArena d, pgRoundDown (slot a d i) = a := fun i hi => pgRoundDown_slot hf.1 hi
  have hin : ∀ p ∈ (List.range (blocksPerArena d)).map (slot a d),
      ∃ i < blocksPerArena d, p = slot a d i := by
    intro p hp
    obtain ⟨i, hi, rfl⟩ := List.mem_map.mp hp
    exact ⟨i, List.mem_range.mp hi, rfl⟩
  refine ⟨_, hrun, ⟨fun x d' n hx => ?_, fun x n hx => ?_, hheld, hap, fun b hb => ?_, hI.nodup,
    fun d' p hp => ?_, fun d' => ?_, fun x d' n i hx hi => ?_⟩, ?_, rfl⟩
  · obtain ⟨rfl, hd⟩ | ⟨hne, hx⟩ := hback x _ hx
    · obtain ⟨rfl, rfl⟩ : d' = d ∧ n = blocksPerArena d := by simpa using hd
      refine ⟨List.mem_cons_self, ?_⟩
      unfold freeIn
      rw [setFree_freeList, if_pos rfl, List.filter_eq_self.mpr, List.length_map, List.length_range]
      intro p hp
      obtain ⟨i, hi, rfl⟩ := hin p hp
      simpa using hpg i hi
    · obtain ⟨hx', hn⟩ := hI.small x d' n hx
      refine ⟨List.mem_cons_of_mem _ hx', ?_⟩
      unfold freeIn
      rw [setFree_freeList]
      by_cases hd : d' = d
      · subst hd
        rw [if_pos rfl, List.filter_eq_nil_iff.mpr]
        · rw [hn]
          unfold freeIn
          rw [he]
          rfl
        · intro p hp
          obtain ⟨i, hi, rfl⟩ := hin p hp
          rw [hpg i hi]
          simpa using fun h => hne h.symm
      · rw [if_neg hd]
        exact hn
  · obtain ⟨-, hd⟩ | ⟨hne, hx⟩ := hback x _ hx
    · cases hd
    · obtain ⟨hin, hb⟩ := hI.big x n hx
      exact ⟨List.mem_cons_of_mem _ hin, hb⟩
  · obtain ⟨hpos, cap, hs, hcap⟩ := hI.liveSlot b hb
    exact ⟨hpos, cap, hs.keep hkeep, hcap⟩
  · rw [setFree_freeList] at hp
    split at hp
    · subst_vars
      obtain ⟨i, hi, rfl⟩ := hin p hp
      refine ⟨⟨a, _, i, hself, hi, rfl⟩, fun b hb heq => ?_⟩
      obtain ⟨-, cap, hs, -⟩ := hI.liveSlot b hb
      obtain ⟨c, c', hc, hbc, -⟩ := hI.slot_in hs
      rw [heq, hpg i hi] at hbc
      exact hnot c c' hc hbc.symm
    · obtain ⟨⟨c, n, i, hc, hi, hps⟩, hnl⟩ := hI.freeSlot d' p hp
      exact ⟨⟨c, n, i, hkeep c _ hc, hi, hps⟩, hnl⟩
  · rw [setFree_freeList]
    split
    · exact List.nodup_range.map fun i j hij => slot_inj hij
    · exact hI.freeNodup d'
  · rw [setFree_freeList]
    obtain ⟨rfl, hd⟩ | ⟨hne, hx⟩ := hback x _ hx
    · obtain ⟨rfl, rfl⟩ : d' = d ∧ n = blocksPerArena d := by simpa using hd
      rw [if_pos rfl]
      exact .inl (List.mem_map.mpr ⟨i, List.mem_range.mpr hi, rfl⟩)
    · obtain hm | hb := hI.cover x d' n i hx hi
      · by_cases hd : d' = d
        · subst hd
          rw [he] at hm
          cases hm
        · rw [if_neg hd]
          exact .inl hm
      · exact .inr hb
  · rw [setFree_freeList, if_pos rfl]

end PintosKaist.Threads.Malloc
