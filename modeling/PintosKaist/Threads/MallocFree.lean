/-
`free` keeps the invariant of the heap, gives a page back exactly when no live
block is left in it, and fails no assertion.
-/
import PintosKaist.Threads.MallocOps

namespace PintosKaist.Threads.Malloc

variable {a p n k cnt : Nat} {d : DescId} {h h' : Heap} {live live' : List Block} {b : Block} {l : List Nat}

/-! ## Full arenas -/

theorem Inv.mem_freeIn (hI : Inv h live) (ha : h.arena a = some ⟨some d, n⟩) :
    p ∈ freeIn h d a ↔ ∃ i < blocksPerArena d, p = slot a d i ∧ slot a d i ∈ h.freeList d := by
  unfold freeIn
  rw [List.mem_filter, decide_eq_true_eq]
  constructor
  · intro ⟨hp, hpa⟩
    obtain ⟨⟨c, n', i, hc, hi, rfl⟩, -⟩ := hI.freeSlot d p hp
    rw [pgRoundDown_slot (hI.held c 1 (hI.small c d n' hc).1).1 hi] at hpa
    subst hpa
    exact ⟨i, hi, rfl, hp⟩
  · intro ⟨i, hi, he, hp⟩
    subst he
    exact ⟨hp, pgRoundDown_slot (hI.held a 1 (hI.small a d n ha).1).1 hi⟩

/-- The count of a small arena is at most that of its blocks, and when it is
that, they are all free. -/
theorem Inv.count_le (hI : Inv h live) (ha : h.arena a = some ⟨some d, n⟩) :
    n ≤ blocksPerArena d ∧ (n = blocksPerArena d ↔ ∀ i < blocksPerArena d, slot a d i ∈ h.freeList d) := by
  have hn := (hI.small a d n ha).2
  have hnd : (freeIn h d a).Nodup := (hI.freeNodup d).filter _
  have hsub : freeIn h d a ⊆ (List.range (blocksPerArena d)).map (slot a d) := by
    intro p hp
    obtain ⟨i, hi, rfl, -⟩ := (hI.mem_freeIn ha).mp hp
    exact List.mem_map.mpr ⟨i, List.mem_range.mpr hi, rfl⟩
  have hperm := hnd.subperm hsub
  have hlen : n ≤ blocksPerArena d := by
    have hle := hperm.length_le
    rwa [← hn, List.length_map, List.length_range] at hle
  refine ⟨hlen, fun he i hi => ?_, fun hall => ?_⟩
  · have hp := hperm.perm_of_length_le (by rw [← hn, he, List.length_map, List.length_range])
    have hm : slot a d i ∈ freeIn h d a :=
      hp.mem_iff.mpr (List.mem_map.mpr ⟨i, List.mem_range.mpr hi, rfl⟩)
    exact (List.mem_filter.mp hm).1
  · have hslots : ((List.range (blocksPerArena d)).map (slot a d)).Nodup :=
      List.nodup_range.map fun i j hij => slot_inj hij
    have hsub' : (List.range (blocksPerArena d)).map (slot a d) ⊆ freeIn h d a := by
      intro p hp
      obtain ⟨i, hi, rfl⟩ := List.mem_map.mp hp
      have hi' := List.mem_range.mp hi
      exact (hI.mem_freeIn ha).mpr ⟨i, hi', rfl, hall i hi'⟩
    have hle := (hslots.subperm hsub').length_le
    rw [← hn, List.length_map, List.length_range] at hle
    omega

/-- The loop that takes the blocks of an arena off the free list. -/
theorem removeBlocks_eq (h0 : a ≠ 0) (ha : h.arena a = some ⟨some d, n⟩) (hk : k ≤ blocksPerArena d)
    (hnd : (h.freeList d).Nodup) (hall : ∀ i < blocksPerArena d, slot a d i ∈ h.freeList d) :
    Run.run (removeBlock d a) h (List.range k) =
      some (h.setFree d ((h.freeList d).filter fun p => ∀ i < k, p ≠ slot a d i)) := by
  induction k with
  | zero =>
    rw [List.filter_eq_self.mpr fun p _ => by simp]
    unfold Heap.setFree
    rw [Function.update_eq_self]
    rfl
  | succ k ih =>
    rw [List.range_succ, Run.run_append, ih (by omega), Option.bind_some]
    have hb : arenaToBlock (h.setFree d ((h.freeList d).filter fun p => ∀ i < k, p ≠ slot a d i)) a k =
        some (slot a d k) := arenaToBlock_eq h0 ha (by omega)
    have hin : slot a d k ∈ (h.freeList d).filter fun p => ∀ i < k, p ≠ slot a d i := by
      rw [List.mem_filter, decide_eq_true_eq]
      refine ⟨hall k (by omega), fun i hi he => ?_⟩
      have hki := slot_inj he
      omega
    have herase : ((h.freeList d).filter fun p => ∀ i < k, p ≠ slot a d i).erase (slot a d k) =
        (h.freeList d).filter fun p => ∀ i < k + 1, p ≠ slot a d i := by
      rw [(hnd.filter _).erase_eq_filter, List.filter_filter]
      refine List.filter_congr fun p _ => ?_
      rw [Bool.eq_iff_iff]
      simp only [bne_iff_ne, Bool.and_eq_true, decide_eq_true_eq]
      constructor
      · intro ⟨hpk, hlt⟩ i hi
        by_cases hik : i = k
        · rw [hik]
          exact hpk
        · exact hlt i (by omega)
      · exact fun hlt => ⟨hlt k (by omega), fun i hi => hlt i (by omega)⟩
    simp only [Run.run, removeBlock, hb, Option.bind_eq_bind, Option.bind_some, setFree_freeList, if_true, if_pos hin,
      herase, Option.some.injEq]
    unfold Heap.setFree
    simp only [Function.update_idem]

/-! ## Pages that go back -/

theorem Inv.pages_nodup (hI : Inv h live) : h.pages.Nodup := by
  refine hI.apart.imp_of_mem ?_
  intro r r' hr hr' hap he
  subst he
  have hc := (hI.held r.1 r.2 hr).2.2.1
  have hge : pgSize ≤ r.2 * pgSize := Nat.le_mul_of_pos_left _ hc
  have hpg : 0 < pgSize := by decide
  unfold Apart at hap
  omega

theorem Inv.page_unique {c : Nat} (hI : Inv h live) (hc : (a, cnt) ∈ h.pages) (hc' : (a, c) ∈ h.pages) : cnt = c := by
  by_contra hne
  have hsymm : Std.Symm Apart := ⟨fun _ _ => Or.symm⟩
  have hap : Apart (a, cnt) (a, c) := hI.apart.forall hc hc' fun he => hne (congrArg Prod.snd he)
  have h₁ := (hI.held a cnt hc).2.2.1
  have h₂ := (hI.held a c hc').2.2.1
  have h₃ : pgSize ≤ cnt * pgSize := Nat.le_mul_of_pos_left _ h₁
  have h₄ : pgSize ≤ c * pgSize := Nat.le_mul_of_pos_left _ h₂
  have hpg : 0 < pgSize := by decide
  unfold Apart at hap
  simp only at hap
  omega

/-- The heap without the pages at `a`, and with other free lists. -/
def dropped (h : Heap) (a cnt : Nat) (fl : DescId → List Nat) : Heap :=
  ⟨Function.update h.arena a none, fl, h.pages.erase (a, cnt)⟩

/-- Pages in which nothing is live go back, and their blocks are no longer on
a free list. -/
theorem Inv.drop {fl : DescId → List Nat} (hI : Inv h live) (hin : (a, cnt) ∈ h.pages)
    (hsub : ∀ b, b ∈ live' ↔ b ∈ live ∧ pgRoundDown b.addr ≠ a) (hnd : (live'.map Block.addr).Nodup)
    (hfl : ∀ d p, p ∈ fl d ↔ p ∈ h.freeList d ∧ pgRoundDown p ≠ a) (hfn : ∀ d, (fl d).Nodup)
    (hcount : ∀ d a', a' ≠ a → ((fl d).filter fun b => pgRoundDown b = a') = freeIn h d a') :
    Inv (dropped h a cnt fl) live' := by
  have hback : ∀ x ar, (dropped h a cnt fl).arena x = some ar → x ≠ a ∧ h.arena x = some ar := by
    intro x ar hx
    unfold dropped at hx
    simp only [Function.update_apply] at hx
    split at hx
    · cases hx
    · exact ⟨‹_›, hx⟩
  have hforth : ∀ x ar, x ≠ a → h.arena x = some ar → (dropped h a cnt fl).arena x = some ar := by
    intro x ar hne hx
    unfold dropped
    simp only [Function.update_of_ne hne]
    exact hx
  have hpages : ∀ x c, (x, c) ∈ (dropped h a cnt fl).pages ↔ x ≠ a ∧ (x, c) ∈ h.pages := by
    intro x c
    show (x, c) ∈ h.pages.erase (a, cnt) ↔ _
    rw [hI.pages_nodup.mem_erase_iff]
    constructor
    · intro ⟨hne, hx⟩
      refine ⟨fun he => hne ?_, hx⟩
      subst he
      rw [hI.page_unique hx hin]
    · intro ⟨hne, hx⟩
      exact ⟨fun he => hne (congrArg Prod.fst he), hx⟩
  refine ⟨fun x d n hx => ?_, fun x n hx => ?_, fun x c hx => ?_, hI.apart.sublist List.erase_sublist,
    fun b hb => ?_, hnd, fun d p hp => ?_, hfn, fun x d n i hx hi => ?_⟩
  · obtain ⟨hne, hx⟩ := hback x _ hx
    obtain ⟨hx', hn⟩ := hI.small x d n hx
    refine ⟨(hpages x 1).mpr ⟨hne, hx'⟩, ?_⟩
    show n = ((fl d).filter fun b => pgRoundDown b = x).length
    rw [hcount d x hne]
    exact hn
  · obtain ⟨hne, hx⟩ := hback x _ hx
    obtain ⟨hx', b, hb, hba⟩ := hI.big x n hx
    refine ⟨(hpages x n).mpr ⟨hne, hx'⟩, b, (hsub b).mpr ⟨hb, ?_⟩, hba⟩
    rw [hba, pgRoundDown_big (hI.held x n hx').1]
    exact hne
  · obtain ⟨hne, hx⟩ := (hpages x c).mp hx
    obtain ⟨h₁, h₂, h₃, h₄⟩ := hI.held x c hx
    obtain ⟨ar, har⟩ := Option.isSome_iff_exists.mp h₄
    exact ⟨h₁, h₂, h₃, Option.isSome_iff_exists.mpr ⟨ar, hforth x ar hne har⟩⟩
  · obtain ⟨hb, hba⟩ := (hsub b).mp hb
    obtain ⟨hpos, cap, hs, hcap⟩ := hI.liveSlot b hb
    refine ⟨hpos, cap, ?_, hcap⟩
    generalize b.addr = q at hs hba
    cases hs with
    | @small c d n i hc hi =>
      rw [pgRoundDown_slot (hI.held c 1 (hI.small c d n hc).1).1 hi] at hba
      exact .small (hforth c _ hba hc) hi
    | @big c n hc =>
      rw [pgRoundDown_big (hI.held c n (hI.big c n hc).1).1] at hba
      exact .big (hforth c _ hba hc)
  · obtain ⟨hp, hpa⟩ := (hfl d p).mp hp
    obtain ⟨⟨c, n, i, hc, hi, rfl⟩, hnl⟩ := hI.freeSlot d p hp
    rw [pgRoundDown_slot (hI.held c 1 (hI.small c d n hc).1).1 hi] at hpa
    exact ⟨⟨c, n, i, hforth c _ hpa hc, hi, rfl⟩, fun b hb => hnl b ((hsub b).mp hb).1⟩
  · obtain ⟨hne, hx⟩ := hback x _ hx
    have hpx : pgRoundDown (slot x d i) = x := pgRoundDown_slot (hI.held x 1 (hI.small x d n hx).1).1 hi
    obtain hm | ⟨b, hb, hba⟩ := hI.cover x d n i hx hi
    · exact .inl ((hfl d _).mpr ⟨hm, by rw [hpx]; exact hne⟩)
    · exact .inr ⟨b, (hsub b).mpr ⟨hb, by rw [hba, hpx]; exact hne⟩, hba⟩

/-! ## `free` -/

theorem mem_without : b ∈ without live (some p) ↔ b ∈ live ∧ b.addr ≠ p := by
  unfold without
  simp [List.mem_filter]

theorem nodup_without (hnd : (live.map Block.addr).Nodup) : ((without live (some p)).map Block.addr).Nodup :=
  hnd.sublist (List.filter_sublist.map _)

/-- A block that goes on the free list of its arena. -/
theorem pushFree_inv {i : Nat} (hI : Inv h live) (hb : b ∈ live) (ha : h.arena a = some ⟨some d, n⟩)
    (hi : i < blocksPerArena d) (hbs : b.addr = slot a d i) :
    Inv ((h.setFree d (b.addr :: h.freeList d)).setArena a (some ⟨some d, n + 1⟩)) (without live (some b.addr)) := by
  have hal := (hI.held a 1 (hI.small a d n ha).1).1
  have hba : pgRoundDown b.addr = a := hbs ▸ pgRoundDown_slot hal hi
  have hnot : b.addr ∉ h.freeList d := fun hm => (hI.freeSlot d _ hm).2 b hb rfl
  refine hI.recount ha ?_ (fun a' he => ?_) (fun a' n' ha' => ?_) (fun c hc => ?_) (nodup_without hI.nodup)
    (fun q hq => ?_) (fun d' hd q hq c hc => ?_) (List.nodup_cons.mpr ⟨hnot, hI.freeNodup d⟩)
    (fun a' d' n' j ha' hj => ?_)
  · rw [List.filter_cons_of_pos (by simpa using hba), List.length_cons, (hI.small a d n ha).2]
    rfl
  · rw [List.filter_cons_of_neg (by simpa [hba] using fun h => he h.symm)]
    rfl
  · obtain ⟨hin, c, hc, hca⟩ := hI.big a' n' ha'
    refine ⟨c, mem_without.mpr ⟨hc, fun he => ?_⟩, hca⟩
    rw [hca] at he
    rw [← he, pgRoundDown_big (hI.held a' n' hin).1] at hba
    subst hba
    cases ha.symm.trans ha'
  · exact hI.liveSlot c (mem_without.mp hc).1
  · obtain rfl | hq := List.mem_cons.mp hq
    · exact ⟨⟨a, n, i, ha, hi, hbs⟩, fun c hc => (mem_without.mp hc).2⟩
    · obtain ⟨hs, hnl⟩ := hI.freeSlot d q hq
      exact ⟨hs, fun c hc => hnl c (mem_without.mp hc).1⟩
  · exact (hI.freeSlot d' q hq).2 c (mem_without.mp hc).1
  · obtain hm | ⟨c, hc, hcs⟩ := hI.cover a' d' n' j ha' hj
    · refine .inl ?_
      split
      · subst_vars
        exact List.mem_cons_of_mem _ hm
      · exact hm
    · by_cases hcb : c.addr = b.addr
      · have hpa' : pgRoundDown b.addr = a' := by
          rw [← hcb, hcs]
          exact pgRoundDown_slot (hI.held a' 1 (hI.small a' d' n' ha').1).1 hj
        obtain rfl : a = a' := hba.symm.trans hpa'
        obtain ⟨rfl, -⟩ : d = d' ∧ n = n' := by simpa using ha.symm.trans ha'
        rw [if_pos rfl, ← hcs, hcb]
        exact .inl List.mem_cons_self
      · exact .inr ⟨c, mem_without.mpr ⟨hc, hcb⟩, hcs⟩

/-- An arena with all blocks on the free list is taken apart, and its page goes
back. -/
theorem dropArena_inv (hI : Inv h live) (ha : h.arena a = some ⟨some d, blocksPerArena d⟩) :
    ∃ h', ((Run.run (removeBlock d a) h (List.range (blocksPerArena d))).bind fun h => pallocFree h a 1) = some h' ∧
      Inv h' live ∧ h'.pages = h.pages.erase (a, 1) := by
  obtain ⟨hin, -⟩ := hI.small a d _ ha
  obtain ⟨hal, h0, -, -⟩ := hI.held a 1 hin
  have hall := (hI.count_le ha).2.mp rfl
  have hrun := removeBlocks_eq h0 ha (Nat.le_refl _) (hI.freeNodup d) hall
  have hlive : ∀ b ∈ live, pgRoundDown b.addr ≠ a := by
    intro b hb hba
    obtain ⟨-, cap, hs, -⟩ := hI.liveSlot b hb
    generalize hq : b.addr = q at hs hba
    cases hs with
    | @small c d' n' i hc hi =>
      rw [pgRoundDown_slot (hI.held c 1 (hI.small c d' n' hc).1).1 hi] at hba
      subst hba
      obtain ⟨rfl, -⟩ : d = d' ∧ blocksPerArena d = n' := by simpa using ha.symm.trans hc
      exact (hI.freeSlot d _ (hall i hi)).2 b hb hq
    | @big c n' hc =>
      rw [pgRoundDown_big (hI.held c n' (hI.big c n' hc).1).1] at hba
      subst hba
      cases ha.symm.trans hc
  -- on the list of `d`, being in the page is being one of the slots
  have hpage : ∀ p ∈ h.freeList d, (∀ i < blocksPerArena d, p ≠ slot a d i) ↔ pgRoundDown p ≠ a := by
    intro p hp
    constructor
    · intro hne hpa
      obtain ⟨i, hi, he, -⟩ := (hI.mem_freeIn ha).mp (List.mem_filter.mpr ⟨hp, by simpa using hpa⟩)
      exact hne i hi he
    · rintro hne i hi rfl
      exact hne (pgRoundDown_slot hal hi)
  have hother : ∀ d', d' ≠ d → ∀ p ∈ h.freeList d', pgRoundDown p ≠ a := by
    intro d' hd p hp hpa
    obtain ⟨⟨c, n', i, hc, hi, rfl⟩, -⟩ := hI.freeSlot d' p hp
    rw [pgRoundDown_slot (hI.held c 1 (hI.small c d' n' hc).1).1 hi] at hpa
    subst hpa
    obtain ⟨he, -⟩ : d = d' ∧ blocksPerArena d = n' := by simpa using ha.symm.trans hc
    exact hd he.symm
  let fl := Function.update h.freeList d ((h.freeList d).filter fun p => ∀ i < blocksPerArena d, p ≠ slot a d i)
  have hfl : ∀ d' p, p ∈ fl d' ↔ p ∈ h.freeList d' ∧ pgRoundDown p ≠ a := by
    intro d' p
    by_cases hd : d' = d
    · subst hd
      simp only [fl, Function.update_self, List.mem_filter, decide_eq_true_eq]
      constructor
      · exact fun ⟨hp, hne⟩ => ⟨hp, (hpage p hp).mp hne⟩
      · exact fun ⟨hp, hne⟩ => ⟨hp, (hpage p hp).mpr hne⟩
    · simp only [fl, Function.update_of_ne hd]
      exact ⟨fun hp => ⟨hp, hother d' hd p hp⟩, And.left⟩
  refine ⟨dropped h a 1 fl, ?_, hI.drop hin (fun b => ⟨fun hb => ⟨hb, hlive b hb⟩, And.left⟩) hI.nodup hfl
    (fun d' => ?_) (fun d' a' hne => ?_), rfl⟩
  · rw [hrun, Option.bind_some]
    unfold pallocFree
    rw [if_neg (by decide), setFree_pages, if_pos hin]
    rfl
  · by_cases hd : d' = d
    · subst hd
      simp only [fl, Function.update_self]
      exact (hI.freeNodup d').filter _
    · simp only [fl, Function.update_of_ne hd]
      exact hI.freeNodup d'
  · by_cases hd : d' = d
    · subst hd
      simp only [fl, Function.update_self]
      unfold freeIn
      rw [List.filter_filter]
      refine List.filter_congr fun p hp => ?_
      have hiff := hpage p hp
      rw [Bool.eq_iff_iff]
      simp only [Bool.and_eq_true, decide_eq_true_eq]
      exact ⟨And.left, fun he => ⟨he, hiff.mpr (he ▸ hne)⟩⟩
    · simp only [fl, Function.update_of_ne hd]
      rfl

/-- A big block goes back with its pages. -/
theorem freeBig_inv (hI : Inv h live) (ha : h.arena a = some ⟨none, n⟩)
    (hba : b.addr = a + arenaSize) :
    ∃ h', pallocFree h a n = some h' ∧ Inv h' (without live (some b.addr)) ∧ h'.pages = h.pages.erase (a, n) := by
  obtain ⟨hin, -⟩ := hI.big a n ha
  obtain ⟨hal, -, hn, -⟩ := hI.held a n hin
  have hfree : ∀ d, ∀ p ∈ h.freeList d, pgRoundDown p ≠ a := by
    intro d p hp hpa
    obtain ⟨⟨c, n', i, hc, hi, rfl⟩, -⟩ := hI.freeSlot d p hp
    rw [pgRoundDown_slot (hI.held c 1 (hI.small c d n' hc).1).1 hi] at hpa
    subst hpa
    cases ha.symm.trans hc
  have hsub : ∀ c, c ∈ without live (some b.addr) ↔ c ∈ live ∧ pgRoundDown c.addr ≠ a := by
    intro c
    rw [mem_without]
    refine and_congr_right fun hc => not_congr ⟨fun he => ?_, fun he => ?_⟩
    · rw [he, hba, pgRoundDown_big hal]
    · obtain ⟨-, cap, hs, -⟩ := hI.liveSlot c hc
      generalize c.addr = q at hs he
      cases hs with
      | @small x d' n' i hx hi =>
        rw [pgRoundDown_slot (hI.held x 1 (hI.small x d' n' hx).1).1 hi] at he
        subst he
        cases ha.symm.trans hx
      | @big x n' hx =>
        rw [pgRoundDown_big (hI.held x n' (hI.big x n' hx).1).1] at he
        rw [he, hba]
  refine ⟨dropped h a n h.freeList, ?_, hI.drop hin hsub (nodup_without hI.nodup)
    (fun d p => ⟨fun hp => ⟨hp, hfree d p hp⟩, And.left⟩) hI.freeNodup (fun _ _ _ => rfl), rfl⟩
  unfold pallocFree
  rw [if_neg (by omega), if_pos hin]
  rfl

/-- `free` of a live block. -/
theorem free_inv (hI : Inv h live) (hB : Busy h live) (hb : b ∈ live) :
    ∃ h', free h (some b.addr) = some h' ∧ Inv h' (without live (some b.addr)) ∧
      Busy h' (without live (some b.addr)) := by
  -- another page keeps the live block that it has
  have hkeep : ∀ a, pgRoundDown b.addr = a → ∀ x c, (x, c) ∈ h.pages → x ≠ a →
      ∃ b' ∈ without live (some b.addr), pgRoundDown b'.addr = x := by
    intro a hba x c hx hne
    obtain ⟨b', hb', hbx⟩ := hB x c hx
    refine ⟨b', mem_without.mpr ⟨hb', fun he => hne ?_⟩, hbx⟩
    rw [← hbx, he, hba]
  obtain ⟨-, cap, hs, -⟩ := hI.liveSlot b hb
  generalize hq : b.addr = q at hs
  cases hs with
  | @small a d n i ha hi =>
    obtain ⟨hin, -⟩ := hI.small a d n ha
    obtain ⟨hal, h0, -, -⟩ := hI.held a 1 hin
    have hba : pgRoundDown b.addr = a := hq ▸ pgRoundDown_slot hal hi
    have hI₁ := pushFree_inv hI hb ha hi hq
    rw [hq] at hI₁ hkeep hba
    have ha₁ : ((h.setFree d (slot a d i :: h.freeList d)).setArena a (some ⟨some d, n + 1⟩)).arena a =
        some ⟨some d, n + 1⟩ := by rw [setArena_arena, if_pos rfl]
    have hcount := hI₁.count_le ha₁
    have hb2a := blockToArena_slot hal h0 ha hi
    unfold free
    simp only [hb2a, Option.bind_eq_bind, Option.bind_some]
    by_cases hfull : n + 1 = blocksPerArena d
    · rw [if_pos (by omega), if_pos hfull]
      rw [hfull] at ha₁ hI₁ ⊢
      obtain ⟨h', hrun, hI', hpages⟩ := dropArena_inv hI₁ ha₁
      refine ⟨h', hrun, hI', fun x c hx => ?_⟩
      rw [hpages] at hx
      have hmem := (hI₁.pages_nodup.mem_erase_iff).mp hx
      refine hkeep a hba x c hmem.2 fun he => hmem.1 ?_
      subst he
      rw [hI.page_unique hmem.2 hin]
    · rw [if_neg (by omega)]
      refine ⟨_, rfl, hI₁, fun x c hx => ?_⟩
      by_cases hxa : x = a
      · subst hxa
        -- some slot of the arena is not free, so it is live
        have hex : ∃ j < blocksPerArena d, slot x d j ∉
            ((h.setFree d (slot x d i :: h.freeList d)).setArena x (some ⟨some d, n + 1⟩)).freeList d := by
          by_contra hall
          push Not at hall
          exact hfull (hcount.2.mpr hall)
        obtain ⟨j, hj, hnot⟩ := hex
        obtain hm | ⟨b', hb', hbs⟩ := hI₁.cover x d (n + 1) j ha₁ hj
        · exact absurd hm hnot
        · exact ⟨b', hb', by rw [hbs]; exact pgRoundDown_slot hal hj⟩
      · exact hkeep a hba x c hx hxa
  | @big a n ha =>
    obtain ⟨hin, -⟩ := hI.big a n ha
    obtain ⟨hal, h0, -, -⟩ := hI.held a n hin
    have hba : pgRoundDown b.addr = a := hq ▸ pgRoundDown_big hal
    obtain ⟨h', hfree, hI', hpages⟩ := freeBig_inv hI ha hq
    rw [hq] at hI' hkeep hba
    have hb2a := blockToArena_big hal h0 ha
    refine ⟨h', ?_, hI', fun x c hx => ?_⟩
    · unfold free
      simp only [hb2a, Option.bind_eq_bind, Option.bind_some]
      exact hfree
    · rw [hpages] at hx
      have hmem := (hI.pages_nodup.mem_erase_iff).mp hx
      refine hkeep a hba x c hmem.2 fun he => hmem.1 ?_
      subst he
      rw [hI.page_unique hmem.2 hin]

end PintosKaist.Threads.Malloc
