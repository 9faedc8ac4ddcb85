/-
Where the blocks of an arena lie, and the invariant of the kernel's heap: the
slots of the arenas are apart, and each is either on its free list or live.
-/
import PintosKaist.Threads.Malloc
import Mathlib.Data.List.Perm.Subperm
import Mathlib.Data.List.Pairwise

namespace PintosKaist.Threads.Malloc

/-- The place of a block in its arena. -/
def slot (a : Nat) (d : DescId) (i : Nat) : Nat := a + arenaSize + i * blockSizeOf d

/-- `p` is where a block of `cap` bytes may be: in an arena of small blocks, or
after the header of a big one. -/
inductive Slot (h : Heap) : Nat → Nat → Prop
  | small {a : Nat} {d : DescId} {n i : Nat} (ha : h.arena a = some ⟨some d, n⟩) (hi : i < blocksPerArena d) :
    Slot h (slot a d i) (blockSizeOf d)
  | big {a n : Nat} (ha : h.arena a = some ⟨none, n⟩) : Slot h (a + arenaSize) (n * pgSize - arenaSize)

/-- The blocks of arena `a` on the list of free blocks. -/
def freeIn (h : Heap) (d : DescId) (a : Nat) : List Nat := (h.freeList d).filter fun b => pgRoundDown b = a

/-- Two runs of pages have none in common. -/
def Apart (r r' : Nat × Nat) : Prop := r.1 + r.2 * pgSize ≤ r'.1 ∨ r'.1 + r'.2 * pgSize ≤ r.1

structure Inv (h : Heap) (live : List Block) : Prop where
  small : ∀ a d n, h.arena a = some ⟨some d, n⟩ → (a, 1) ∈ h.pages ∧ n = (freeIn h d a).length
  big : ∀ a n, h.arena a = some ⟨none, n⟩ → (a, n) ∈ h.pages ∧ ∃ b ∈ live, b.addr = a + arenaSize
  held : ∀ a cnt, (a, cnt) ∈ h.pages → a % pgSize = 0 ∧ a ≠ 0 ∧ 1 ≤ cnt ∧ (h.arena a).isSome
  apart : h.pages.Pairwise Apart
  liveSlot : ∀ b ∈ live, 0 < b.size ∧ ∃ cap, Slot h b.addr cap ∧ b.size ≤ cap
  nodup : (live.map Block.addr).Nodup
  freeSlot : ∀ d, ∀ p ∈ h.freeList d, (∃ a n i, h.arena a = some ⟨some d, n⟩ ∧ i < blocksPerArena d ∧ p = slot a d i) ∧
    ∀ b ∈ live, b.addr ≠ p
  freeNodup : ∀ d, (h.freeList d).Nodup
  cover : ∀ a d n i, h.arena a = some ⟨some d, n⟩ → i < blocksPerArena d →
    slot a d i ∈ h.freeList d ∨ ∃ b ∈ live, b.addr = slot a d i

/-- Every run of pages that is out has a live block in it. -/
def Busy (h : Heap) (live : List Block) : Prop := ∀ a cnt, (a, cnt) ∈ h.pages → ∃ b ∈ live, pgRoundDown b.addr = a

/-! ## Slots in pages -/

theorem desc_ok (d : DescId) :
    16 ≤ blockSizeOf d ∧ 1 ≤ blocksPerArena d ∧ arenaSize + blocksPerArena d * blockSizeOf d ≤ pgSize := by
  revert d
  decide

section
variable {a p q cap cap' i j n size : Nat} {d : DescId} {h h' : Heap} {live : List Block} {b : Block}

theorem slot_end (hi : i < blocksPerArena d) : slot a d i + blockSizeOf d ≤ a + pgSize := by
  obtain ⟨-, -, hfit⟩ := desc_ok d
  have hmul : (i + 1) * blockSizeOf d ≤ blocksPerArena d * blockSizeOf d := Nat.mul_le_mul_right _ hi
  rw [Nat.add_mul, Nat.one_mul] at hmul
  unfold slot
  omega

theorem slot_apart (hij : i ≠ j) :
    slot a d i + blockSizeOf d ≤ slot a d j ∨ slot a d j + blockSizeOf d ≤ slot a d i := by
  unfold slot
  obtain hlt | hlt := Nat.lt_or_gt_of_ne hij
  · have hmul : (i + 1) * blockSizeOf d ≤ j * blockSizeOf d := Nat.mul_le_mul_right _ hlt
    rw [Nat.add_mul, Nat.one_mul] at hmul
    omega
  · have hmul : (j + 1) * blockSizeOf d ≤ i * blockSizeOf d := Nat.mul_le_mul_right _ hlt
    rw [Nat.add_mul, Nat.one_mul] at hmul
    omega

theorem slot_inj (he : slot a d i = slot a d j) : i = j := by
  by_contra hij
  have hpos := (desc_ok d).1
  have hap := slot_apart (a := a) (d := d) hij
  omega

theorem pgOfs_slot (ha : a % pgSize = 0) (hi : i < blocksPerArena d) :
    pgOfs (slot a d i) = arenaSize + i * blockSizeOf d := by
  have hend := slot_end (a := 0) hi
  have hpos := (desc_ok d).1
  unfold pgOfs slot at *
  rw [Nat.add_assoc, Nat.add_mod, ha, Nat.zero_add, Nat.mod_mod]
  exact Nat.mod_eq_of_lt (by omega)

theorem pgRoundDown_slot (ha : a % pgSize = 0) (hi : i < blocksPerArena d) : pgRoundDown (slot a d i) = a := by
  unfold pgRoundDown
  rw [pgOfs_slot ha hi]
  unfold slot
  omega

theorem pgOfs_big (ha : a % pgSize = 0) : pgOfs (a + arenaSize) = arenaSize := by
  unfold pgOfs
  rw [Nat.add_mod, ha]
  rfl

theorem pgRoundDown_big (ha : a % pgSize = 0) : pgRoundDown (a + arenaSize) = a := by
  unfold pgRoundDown
  rw [pgOfs_big ha]
  omega

theorem ofs_mod {m k x : Nat} (hx : x < m) : (k + x + m - k) % m = x := by
  have he : k + x + m - k = x + m := by omega
  rw [he, Nat.add_mod_right, Nat.mod_eq_of_lt hx]

theorem arenaAt_eq {ar : Arena} (h0 : a ≠ 0) (har : h.arena a = some ar) : arenaAt h a = some ar := by
  unfold arenaAt
  rw [if_neg h0, har]

theorem blockToArena_eq {ar : Arena} (hp : pgRoundDown p = a) (h0 : a ≠ 0) (har : h.arena a = some ar)
    (hok : offsetOk ar p = true) : blockToArena h p = some (a, ar) := by
  unfold blockToArena
  rw [hp, arenaAt_eq h0 har, Option.bind_some, hok]
  rfl

theorem blockToArena_slot (ha : a % pgSize = 0) (h0 : a ≠ 0) (har : h.arena a = some ⟨some d, n⟩)
    (hi : i < blocksPerArena d) : blockToArena h (slot a d i) = some (a, ⟨some d, n⟩) := by
  refine blockToArena_eq (pgRoundDown_slot ha hi) h0 har ?_
  have hend := slot_end (a := 0) hi
  have hlt : i * blockSizeOf d < sizeMod := by
    unfold slot pgSize at hend
    unfold sizeMod
    omega
  show ((pgOfs (slot a d i) + sizeMod - arenaSize) % sizeMod % blockSizeOf d == 0) = true
  rw [pgOfs_slot ha hi, ofs_mod hlt, Nat.mul_mod_left]
  rfl

theorem blockToArena_big (ha : a % pgSize = 0) (h0 : a ≠ 0) (har : h.arena a = some ⟨none, n⟩) :
    blockToArena h (a + arenaSize) = some (a, ⟨none, n⟩) := by
  refine blockToArena_eq (pgRoundDown_big ha) h0 har ?_
  show (pgOfs (a + arenaSize) == arenaSize) = true
  rw [pgOfs_big ha]
  rfl

theorem arenaToBlock_eq (h0 : a ≠ 0) (har : h.arena a = some ⟨some d, n⟩) (hi : i < blocksPerArena d) :
    arenaToBlock h a i = some (slot a d i) := by
  unfold arenaToBlock
  rw [arenaAt_eq h0 har]
  exact if_pos hi

/-! ## Slots over the whole heap -/

/-- A slot lies in the pages of its arena, after the header. -/
theorem Inv.slot_in (hI : Inv h live) (hs : Slot h p cap) :
    ∃ a cnt, (a, cnt) ∈ h.pages ∧ pgRoundDown p = a ∧ a + arenaSize ≤ p ∧ p + cap ≤ a + cnt * pgSize := by
  cases hs with
  | @small a d n i ha hi =>
    have hin := (hI.small a d n ha).1
    refine ⟨a, 1, hin, pgRoundDown_slot (hI.held a 1 hin).1 hi, ?_, ?_⟩
    · unfold slot
      omega
    · rw [Nat.one_mul]
      exact slot_end hi
  | @big a n ha =>
    have hin := (hI.big a n ha).1
    obtain ⟨hal, -, hn, -⟩ := hI.held a n hin
    refine ⟨a, n, hin, pgRoundDown_big hal, Nat.le_refl _, ?_⟩
    have hge : pgSize ≤ n * pgSize := Nat.le_mul_of_pos_left _ hn
    unfold arenaSize pgSize at *
    omega

theorem Inv.pages_apart (hI : Inv h live) {r r' : Nat × Nat} (hr : r ∈ h.pages) (hr' : r' ∈ h.pages)
    (hne : r.1 ≠ r'.1) : Apart r r' := by
  have hsymm : Std.Symm Apart := ⟨fun _ _ => Or.symm⟩
  exact hI.apart.forall hr hr' fun he => hne (he ▸ rfl)

/-- Different slots have no byte in common. -/
theorem Inv.slots_apart (hI : Inv h live) (hp : Slot h p cap) (hq : Slot h q cap') (hne : p ≠ q) :
    p + cap ≤ q ∨ q + cap' ≤ p := by
  obtain ⟨a, cnt, ha, hpa, hap, hend⟩ := hI.slot_in hp
  obtain ⟨a', cnt', ha', hqa, hap', hend'⟩ := hI.slot_in hq
  by_cases he : a = a'
  · subst he
    cases hp with
    | @small c d n i hc hi =>
      obtain rfl := (pgRoundDown_slot (hI.held c 1 (hI.small c d n hc).1).1 hi).symm.trans hpa
      cases hq with
      | @small c' d' n' j hc' hj =>
        obtain rfl := (pgRoundDown_slot (hI.held c' 1 (hI.small c' d' n' hc').1).1 hj).symm.trans hqa
        obtain ⟨rfl, rfl⟩ : d = d' ∧ n = n' := by simpa using hc.symm.trans hc'
        exact slot_apart fun hij => hne (by rw [hij])
      | @big c' n' hc' =>
        obtain rfl := (pgRoundDown_big (hI.held c' n' (hI.big c' n' hc').1).1).symm.trans hqa
        cases hc.symm.trans hc'
    | @big c n hc =>
      obtain rfl := (pgRoundDown_big (hI.held c n (hI.big c n hc).1).1).symm.trans hpa
      cases hq with
      | @small c' d' n' j hc' hj =>
        obtain rfl := (pgRoundDown_slot (hI.held c' 1 (hI.small c' d' n' hc').1).1 hj).symm.trans hqa
        cases hc.symm.trans hc'
      | @big c' n' hc' =>
        obtain rfl := (pgRoundDown_big (hI.held c' n' (hI.big c' n' hc').1).1).symm.trans hqa
        exact absurd rfl hne
  · obtain hle | hle := hI.pages_apart ha ha' he
    · exact .inl (by simp only at hle; omega)
    · exact .inr (by simp only at hle; omega)

/-! ## What the invariant says -/

theorem Inv.safe (hI : Inv h live) (hB : Busy h live) : Safe ⟨h, live⟩ where
  apart := by
    have hpw : live.Pairwise fun b c => b.addr ≠ c.addr := List.pairwise_map.mp hI.nodup
    refine (List.pairwise_iff_forall_sublist.mpr ?_)
    intro b c hsub
    have hne := (List.pairwise_iff_forall_sublist.mp hpw) hsub
    have hb := hI.liveSlot b (hsub.subset (by simp))
    have hc := hI.liveSlot c (hsub.subset (by simp))
    obtain ⟨-, cap, hsb, hcap⟩ := hb
    obtain ⟨-, cap', hsc, hcap'⟩ := hc
    have hap := hI.slots_apart hsb hsc hne
    unfold Block.bytes
    rw [Set.Ico_disjoint_Ico]
    omega
  headers b hb a ar ha := by
    obtain ⟨hpos, cap, hs, hcap⟩ := hI.liveSlot b hb
    obtain ⟨c, cnt, hc, -, hge, hend⟩ := hI.slot_in hs
    have hin : ∃ cnt', (a, cnt') ∈ h.pages := by
      obtain ⟨_ | d, n⟩ := ar
      · exact ⟨n, (hI.big a n ha).1⟩
      · exact ⟨1, (hI.small a d n ha).1⟩
    obtain ⟨cnt', hin⟩ := hin
    have hcnt := (hI.held a cnt' hin).2.2.1
    have hge' : pgSize ≤ cnt' * pgSize := Nat.le_mul_of_pos_left _ hcnt
    unfold Block.bytes
    rw [Set.Ico_disjoint_Ico]
    by_cases he : a = c
    · subst he
      omega
    · have hap := hI.pages_apart hin hc he
      unfold Apart at hap
      simp only at hap
      unfold arenaSize pgSize at *
      omega
  freeCnt a d n ha := (hI.small a d n ha).2
  pages a := by
    constructor
    · intro ⟨cnt, ha⟩
      exact hB a cnt ha
    · intro ⟨b, hb, hba⟩
      obtain ⟨-, cap, hs, -⟩ := hI.liveSlot b hb
      obtain ⟨c, cnt, hc, hpc, -⟩ := hI.slot_in hs
      exact ⟨cnt, by rw [← hba, hpc]; exact hc⟩

end

end PintosKaist.Threads.Malloc
