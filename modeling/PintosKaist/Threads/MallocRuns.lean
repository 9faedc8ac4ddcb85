/-
The kernel's heap over any calls of `malloc`, `realloc` and `free`: as long as
every size that is asked for, with the header and rounded up to pages, is a
`size_t` or is not there to be had, no two live blocks overlap and no assertion
fails.
-/
import PintosKaist.Threads.MallocFree

namespace PintosKaist.Threads.Malloc

variable {a p size : Nat} {d : DescId} {h h' : Heap} {live : List Block} {b : Block} {page : Option Nat} {s : Sys}

/-! ## `malloc` -/

theorem findDesc_some (hd : findDesc size = some d) : size ≤ blockSizeOf d := by
  have hp := (List.findFinIdx?_eq_some_iff.mp hd).1
  unfold blockSizeOf
  rw [List.get_eq_getElem]
  simpa using hp

/-- A size that fits is rounded up to enough pages. -/
theorem pageCnt_fits (hfit : Fits size) : 1 ≤ pageCnt size ∧ arenaSize + size ≤ pageCnt size * pgSize := by
  unfold Fits at hfit
  have hpos : 0 < pgSize := by decide
  have h24 : arenaSize = 24 := rfl
  have hpg : pgSize = 4096 := rfl
  unfold pageCnt
  rw [Nat.mod_eq_of_lt (by omega : size + arenaSize < sizeMod), Nat.mod_eq_of_lt hfit]
  generalize sizeMod = m at hfit
  simp only [h24, hpg]
  omega

/-- A taken block keeps every other page busy. -/
theorem takeBlock_busy (hI : Inv h live) (hf : (h.freeList d).head? = some p) (h0 : 0 < size)
    (hsize : size ≤ blockSizeOf d)
    (hB : ∀ a cnt, (a, cnt) ∈ h.pages → pgRoundDown p = a ∨ ∃ b ∈ live, pgRoundDown b.addr = a) :
    ∃ h', takeBlock h d = some (some p, h') ∧ Inv h' (⟨p, size⟩ :: live) ∧ Busy h' (⟨p, size⟩ :: live) := by
  obtain ⟨l, hl⟩ := List.head?_eq_some_iff.mp hf
  obtain ⟨h', hrun, hI', hpages⟩ := takeBlock_inv hI hl h0 hsize
  refine ⟨h', hrun, hI', fun a cnt hin => ?_⟩
  rw [hpages] at hin
  obtain hpa | ⟨b, hb, hba⟩ := hB a cnt hin
  · exact ⟨_, List.mem_cons_self, hpa⟩
  · exact ⟨b, List.mem_cons_of_mem _ hb, hba⟩

theorem malloc_inv (hI : Inv h live) (hB : Busy h live) (hs : Fits size ∨ page = none)
    (hfresh : FreshFor h size page) :
    ∃ r h', malloc h size page = some (r, h') ∧ Inv h' (gotten r size ++ live) ∧ Busy h' (gotten r size ++ live) := by
  unfold malloc
  by_cases h0 : size = 0
  · rw [if_pos h0]
    exact ⟨none, h, rfl, hI, hB⟩
  rw [if_neg h0]
  have hpos : 0 < size := Nat.pos_of_ne_zero h0
  unfold FreshFor asked at hfresh
  cases hd : findDesc size with
  | none =>
    rw [hd] at hfresh
    cases page with
    | none => exact ⟨none, h, rfl, hI, hB⟩
    | some a =>
      obtain ⟨hone, hroom⟩ := pageCnt_fits (hs.resolve_right (by simp))
      have hf : Fresh h a (pageCnt size) := hfresh a rfl
      refine ⟨some (a + arenaSize), withPages h a (pageCnt size) ⟨none, pageCnt size⟩, rfl,
        bigBlock_inv hI hf hone hpos hroom, fun x c hx => ?_⟩
      obtain he | hx := List.mem_cons.mp hx
      · obtain ⟨rfl, -⟩ : x = a ∧ c = pageCnt size := by simpa using he
        exact ⟨_, List.mem_cons_self, pgRoundDown_big hf.1⟩
      · obtain ⟨b, hb, hba⟩ := hB x c hx
        exact ⟨b, List.mem_cons_of_mem _ hb, hba⟩
  | some d =>
    rw [hd] at hfresh
    have hsize := findDesc_some hd
    cases hf : h.freeList d with
    | cons p l =>
      obtain ⟨h', hrun, hI', hB'⟩ := takeBlock_busy hI (by rw [hf]; rfl) hpos hsize
        fun a cnt hin => .inr (hB a cnt hin)
      refine ⟨some p, h', ?_, hI', hB'⟩
      simp only [hf, List.isEmpty_cons, Bool.false_eq_true, if_false]
      exact hrun
    | nil =>
      cases page with
      | none =>
        refine ⟨none, h, ?_, hI, hB⟩
        simp only [hf, List.isEmpty_nil, if_true]
      | some a =>
        have hfr : Fresh h a 1 := hfresh a rfl
        obtain ⟨h₁, hrun₁, hI₁, hfl, hpages⟩ := newArena_inv hI hfr hf
        have hone := (desc_ok d).2.1
        have hhead : (h₁.freeList d).head? = some (slot a d 0) := by
          rw [hfl]
          obtain ⟨k, hk⟩ : ∃ k, blocksPerArena d = k + 1 := ⟨blocksPerArena d - 1, by omega⟩
          rw [hk, List.range_succ_eq_map]
          rfl
        obtain ⟨h', hrun, hI', hB'⟩ := takeBlock_busy hI₁ hhead hpos hsize fun x c hx => by
          rw [hpages] at hx
          obtain he | hx := List.mem_cons.mp hx
          · obtain ⟨rfl, -⟩ : x = a ∧ c = 1 := by simpa using he
            exact .inl (pgRoundDown_slot hfr.1 hone)
          · exact .inr (hB x c hx)
        refine ⟨some (slot a d 0), h', ?_, hI', hB'⟩
        simp only [hf, List.isEmpty_nil, if_true, hrun₁, Option.bind_some]
        exact hrun

/-! ## A call -/

theorem free_live (hI : Inv h live) (hB : Busy h live) {q : Option Nat} (hq : ∀ a ∈ q, ∃ b ∈ live, b.addr = a) :
    ∃ h', free h q = some h' ∧ Inv h' (without live q) ∧ Busy h' (without live q) := by
  cases q with
  | none =>
    have hall : without live none = live := List.filter_eq_self.mpr fun b _ => by simp
    rw [hall]
    exact ⟨h, rfl, hI, hB⟩
  | some a =>
    obtain ⟨b, hb, rfl⟩ := hq a rfl
    exact free_inv hI hB hb

theorem blockSize_live (hI : Inv h live) (hb : b ∈ live) : ∃ n, blockSize h b.addr = some n := by
  obtain ⟨-, cap, hs, -⟩ := hI.liveSlot b hb
  unfold blockSize
  generalize b.addr = q at hs
  cases hs with
  | @small a d n i ha hi =>
    obtain ⟨hal, h0, -, -⟩ := hI.held a 1 (hI.small a d n ha).1
    rw [blockToArena_slot hal h0 ha hi]
    exact ⟨_, rfl⟩
  | @big a n ha =>
    obtain ⟨hal, h0, -, -⟩ := hI.held a n (hI.big a n ha).1
    rw [blockToArena_big hal h0 ha]
    exact ⟨_, rfl⟩

/-- `realloc` is a `malloc` and then a `free`, or only one of them. -/
theorem realloc_inv (hI : Inv h live) (hB : Busy h live) (hs : Fits size ∨ page = none)
    (hfresh : FreshFor h size page) {old : Option Nat} (hold : ∀ a ∈ old, ∃ b ∈ live, b.addr = a) :
    let after (r : Option Nat) := gotten r size ++ if size = 0 ∨ r.isSome then without live old else live
    ∃ r h', realloc h old size page = some (r, h') ∧ Inv h' (after r) ∧ Busy h' (after r) := by
  intro after
  unfold realloc
  by_cases h0 : size = 0
  · rw [if_pos h0]
    obtain ⟨h', hrun, hI', hB'⟩ := free_live hI hB hold
    have hafter : after none = without live old := by
      simp only [after, h0, true_or, if_true]
      rfl
    refine ⟨none, h', ?_, by rw [hafter]; exact hI', by rw [hafter]; exact hB'⟩
    rw [hrun]
    rfl
  rw [if_neg h0]
  obtain ⟨r, h₁, hrun, hI₁, hB₁⟩ := malloc_inv hI hB hs hfresh
  simp only [hrun, Option.bind_eq_bind, Option.bind_some]
  cases r with
  | none =>
    have hafter : after none = live := by
      simp only [after, h0, Option.isSome_none, Bool.false_eq_true, or_self, if_false]
      rfl
    refine ⟨none, h₁, ?_, by rw [hafter]; exact hI₁, by rw [hafter]; exact hB₁⟩
    cases old <;> rfl
  | some new =>
    have hafter : after (some new) = ⟨new, size⟩ :: without live old := by
      simp only [after, Option.isSome_some, or_true, if_true]
      rfl
    cases old with
    | none =>
      have hall : without live none = live := List.filter_eq_self.mpr fun b _ => by simp
      rw [hall] at hafter
      exact ⟨some new, h₁, rfl, by rw [hafter]; exact hI₁, by rw [hafter]; exact hB₁⟩
    | some o =>
      obtain ⟨b, hb, rfl⟩ := hold o rfl
      have hb₁ : b ∈ gotten (some new) size ++ live := List.mem_cons_of_mem _ hb
      obtain ⟨n, hn⟩ := blockSize_live hI₁ hb₁
      obtain ⟨h', hfree, hI', hB'⟩ := free_inv hI₁ hB₁ hb₁
      -- the new block is another one than the old
      have hne : new ≠ b.addr := by
        have hnd : (new :: live.map Block.addr).Nodup := hI₁.nodup
        exact fun he => (List.nodup_cons.mp hnd).1 (he ▸ List.mem_map.mpr ⟨b, hb, rfl⟩)
      have hwithout : without (gotten (some new) size ++ live) (some b.addr) =
          ⟨new, size⟩ :: without live (some b.addr) := List.filter_cons_of_pos (by simpa using hne)
      rw [hwithout] at hI' hB'
      refine ⟨some new, h', ?_, by rw [hafter]; exact hI', by rw [hafter]; exact hB'⟩
      simp only [hn, Option.bind_some, hfree]

theorem step_inv {e : Event} (hI : Inv s.heap s.live) (hB : Busy s.heap s.live) (ha : Allowed s e) (hs : e.Sized) :
    ∃ s', step s e = some s' ∧ Inv s'.heap s'.live ∧ Busy s'.heap s'.live := by
  cases e with
  | malloc size page =>
    obtain ⟨r, h', hrun, hI', hB'⟩ := malloc_inv hI hB hs ha.2
    refine ⟨⟨h', gotten r size ++ s.live⟩, ?_, hI', hB'⟩
    simp only [step, hrun, Option.map_some]
  | realloc old size page =>
    obtain ⟨r, h', hrun, hI', hB'⟩ := realloc_inv hI hB hs ha.2.1 ha.2.2
    refine ⟨⟨h', gotten r size ++ if size = 0 ∨ r.isSome then without s.live old else s.live⟩, ?_, hI', hB'⟩
    simp only [step, hrun, Option.map_some]
  | free q =>
    obtain ⟨h', hrun, hI', hB'⟩ := free_live hI hB ha
    refine ⟨⟨h', without s.live q⟩, ?_, hI', hB'⟩
    simp only [step, hrun, Option.map_some]

/-! ## Runs -/

theorem boot_inv : Inv boot.heap boot.live ∧ Busy boot.heap boot.live := by
  refine ⟨⟨?_, ?_, ?_, List.Pairwise.nil, ?_, List.nodup_nil, ?_, fun _ => List.nodup_nil, ?_⟩, ?_⟩
  · exact fun a d n ha => by cases ha
  · exact fun a n ha => by cases ha
  · exact fun a cnt ha => by cases ha
  · exact fun b hb => by cases hb
  · exact fun d p hp => by cases hp
  · exact fun a d n i ha => by cases ha
  · exact fun a cnt ha => by cases ha

/-- Every run of calls in which live blocks are freed, `palloc` gives fresh
pages or none, and each size fits with its header and its rounding or finds no
pages, goes through without a failed assertion, and the blocks are safe after it (and, a
run being any list of calls, after each call of it). -/
theorem blocks_safe {es : List Event} (hG : Run.Always step (fun s e => Allowed s e ∧ e.Sized) boot es) :
    ∃ s, Run.run step boot es = some s ∧ Safe s := by
  obtain ⟨s, hs, hI, hB⟩ := Run.run_progress (fun s e hs hG => step_inv hs.1 hs.2 hG.1 hG.2) boot_inv hG
  exact ⟨s, hs, hI.safe hB⟩

theorem blocks_safe_reused : ∃ s, Run.run step boot [.malloc 600 (some 4096), .malloc 1000 none, .malloc 5000 (some 8192),
    .free (some 4120), .realloc (some 5144) 2000 (some 16384), .malloc 16 (some 4096)] = some s ∧ Safe s :=
  blocks_safe (by decide +kernel)

/-- The size of the first request wraps around: it gets one page. -/
def wrapped : List Event := [.malloc (2 ^ 64 - 1) (some 4096), .malloc 600 (some 8192)]

theorem not_blocks_safe : ∃ es s, Run.Always step Allowed boot es ∧ Run.run step boot es = some s ∧ ¬ Safe s := by
  obtain ⟨s, hs, hl⟩ := (Option.any_eq_true _ _).mp (show (Run.run step boot wrapped).any (fun s =>
    decide (s.live = [⟨8216, 600⟩, ⟨4120, 2 ^ 64 - 1⟩])) = true by decide +kernel)
  refine ⟨wrapped, s, by decide +kernel, hs, fun hsafe => ?_⟩
  have hap := hsafe.apart
  rw [of_decide_eq_true hl, List.pairwise_cons] at hap
  have hdis := hap.1 ⟨4120, 2 ^ 64 - 1⟩ (by simp)
  unfold Block.bytes at hdis
  rw [Set.Ico_disjoint_Ico] at hdis
  exact absurd hdis (by decide)

end PintosKaist.Threads.Malloc
