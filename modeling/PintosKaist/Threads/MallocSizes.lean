/-
How much is reserved for a block of `threads/malloc.c`. Up to 4119 bytes below
`SIZE_MAX` the header and the rounding wrap around, and `malloc` asks `palloc`
for one page or for none. `calloc` compares the product with its factors only,
which a product that has wrapped around can pass.
-/
import PintosKaist.Threads.MallocRuns
import PintosKaist.Threads.Palloc

namespace PintosKaist.Threads.Malloc

open Palloc (Memory memset)

/-- `calloc`. `mem` is the memory, as `malloc` leaves it. -/
def calloc (h : Heap) (a b : Nat) (page : Option Nat) (mem : Memory) : Option (Option Nat × Heap × Memory) :=
  let size := a * b % sizeMod
  if size < a ∨ size < b then some (none, h, mem)
  else do
    let (p, h) ← malloc h size page
    match p with
    | some p => some (some p, h, memset mem p 0 size)
    | none => some (none, h, mem)

inductive Call where
  | heap (e : Event)
  | calloc (a b : Nat) (page : Option Nat) (mem : Memory)

def call (s : Sys) : Call → Option Sys
  | .heap e => step s e
  | .calloc a b page mem =>
      (calloc s.heap a b page mem).map fun (p, h, _) => ⟨h, gotten p (a * b % sizeMod) ++ s.live⟩

/-- What the callers and `palloc` keep to. -/
def Permitted (s : Sys) : Call → Prop
  | .heap e => Allowed s e
  | .calloc a b page _ => a < sizeMod ∧ b < sizeMod ∧ FreshFor s.heap (a * b % sizeMod) page

/-- `calloc` stops at the product. -/
def Stopped (a b : Nat) : Prop := a * b % sizeMod < a ∨ a * b % sizeMod < b

/-- The size that is asked for fits, or `palloc` has no pages. -/
def Call.Sized : Call → Prop
  | .heap e => e.Sized
  | .calloc a b page _ => Stopped a b ∨ Fits (a * b) ∨ page = none

instance (s : Sys) : (c : Call) → Decidable (Permitted s c)
  | .heap e => inferInstanceAs (Decidable (Allowed s e))
  | .calloc .. => inferInstanceAs (Decidable (_ ∧ _ ∧ _))

instance (a b : Nat) : Decidable (Stopped a b) := inferInstanceAs (Decidable (_ ∨ _))

instance : (c : Call) → Decidable c.Sized
  | .heap e => inferInstanceAs (Decidable e.Sized)
  | .calloc .. => inferInstanceAs (Decidable (_ ∨ _ ∨ _))

/-- What is reserved for the block at `p` ends at `e`: with the block, in an
arena of small ones, which is not on the free list; with the run of pages, of a
big one. -/
inductive ReservedTo (h : Heap) : Nat → Nat → Prop
  | block {a i n : Nat} {d : DescId} (hp : (a, 1) ∈ h.pages) (ha : h.arena a = some ⟨some d, n⟩)
      (hi : i < blocksPerArena d) (hf : slot a d i ∉ h.freeList d) :
      ReservedTo h (slot a d i) (slot a d i + blockSizeOf d)
  | pages {a cnt : Nat} (hp : (a, cnt) ∈ h.pages) (ha : h.arena a = some ⟨none, cnt⟩) :
      ReservedTo h (a + arenaSize) (a + cnt * pgSize)

/-- At least `n` bytes from `p` on are reserved for the block at `p`. -/
def Enough (h : Heap) (p n : Nat) : Prop := ∃ e, ReservedTo h p e ∧ p + n ≤ e

/-- `malloc` gives NULL or a block that is large enough. -/
def MallocEnough (h : Heap) (size : Nat) (page : Option Nat) : Prop :=
  ∃ r h', malloc h size page = some (r, h') ∧ ∀ p ∈ r, Enough h' p size

/-- `calloc` gives NULL or a block that is large enough for the product of the
two numbers, and zero. -/
def CallocEnough (h : Heap) (a b : Nat) (page : Option Nat) (mem : Memory) : Prop :=
  ∃ r h' mem', calloc h a b page mem = some (r, h', mem') ∧
    ∀ p ∈ r, Enough h' p (a * b) ∧ ∀ i < a * b, mem' (p + i) = 0

variable {a b p e n size : Nat} {h h' : Heap} {live : List Block} {page : Option Nat} {mem : Memory} {s : Sys}

/-! ## What is reserved -/

theorem Inv.reservedTo {cap : Nat} (hI : Inv h live) (hs : Slot h p cap) (hlive : ∃ b ∈ live, b.addr = p) :
    ReservedTo h p (p + cap) := by
  cases hs with
  | @small a d n i ha hi =>
    refine .block (hI.small a d n ha).1 ha hi fun hf => ?_
    obtain ⟨b, hb, hba⟩ := hlive
    exact (hI.freeSlot d _ hf).2 b hb hba
  | @big a n ha =>
    have hin := (hI.big a n ha).1
    obtain ⟨-, -, hone, -⟩ := hI.held a n hin
    have h24 : arenaSize = 24 := rfl
    have hpg : pgSize = 4096 := rfl
    have hend : a + arenaSize + (n * pgSize - arenaSize) = a + n * pgSize := by
      rw [hpg]
      omega
    rw [hend]
    exact .pages hin ha

theorem Inv.enough (hI : Inv h (⟨p, n⟩ :: live)) : Enough h p n := by
  obtain ⟨-, cap, hs, hcap⟩ := hI.liveSlot ⟨p, n⟩ List.mem_cons_self
  exact ⟨p + cap, hI.reservedTo hs ⟨_, List.mem_cons_self, rfl⟩, Nat.add_le_add_left hcap p⟩

/-- What is reserved behind the header of a big block ends with its pages. -/
theorem ReservedTo.big {cnt : Nat} (hr : ReservedTo h (a + arenaSize) e) (hal : ∀ r ∈ h.pages, r.1 % pgSize = 0)
    (ha : h.arena a = some ⟨none, cnt⟩) (hin : (a, cnt) ∈ h.pages) : e = a + cnt * pgSize := by
  have hdown : pgRoundDown (a + arenaSize) = a := pgRoundDown_big (hal _ hin)
  generalize hp : a + arenaSize = p at hr hdown
  cases hr with
  | @block x i n d hx hax hi =>
    have hxa : x = a := (pgRoundDown_slot (hal _ hx) hi).symm.trans hdown
    rw [hxa, ha] at hax
    cases hax
  | @pages x m hx hax =>
    obtain rfl : a = x := by omega
    obtain rfl : cnt = m := by simpa [ha] using hax
    rfl

/-! ## Sizes -/

theorem findDesc_big (hn : 1024 < size) : findDesc size = none := by
  unfold findDesc
  rw [List.findFinIdx?_eq_none_iff]
  have hle : ∀ d ∈ descs, d.blockSize ≤ 1024 := by decide
  intro d hd
  have hd := hle d hd
  simp only [decide_eq_true_eq]
  omega

theorem big_of_not_fits (hn : ¬ Fits size) : 1024 < size := by
  unfold Fits at hn
  have h24 : arenaSize = 24 := rfl
  have hpg : pgSize = 4096 := rfl
  have hsz : sizeMod = 2 ^ 64 := rfl
  omega

/-- A size that does not fit is rounded up to one page at most. -/
theorem pageCnt_wraps (hn : size < sizeMod) (hfit : ¬ Fits size) : pageCnt size ≤ 1 := by
  unfold Fits at hfit
  have h24 : arenaSize = 24 := rfl
  have hpg : pgSize = 4096 := rfl
  have hsz : sizeMod = 2 ^ 64 := rfl
  unfold pageCnt
  simp only [h24, hpg, hsz] at hn hfit ⊢
  omega

/-- The pages are never a page more than the size and the header. -/
theorem pageCnt_le (size : Nat) : pageCnt size * pgSize < size + arenaSize + pgSize := by
  have h24 : arenaSize = 24 := rfl
  have hpg : pgSize = 4096 := rfl
  have hsz : sizeMod = 2 ^ 64 := rfl
  unfold pageCnt
  rw [h24, hpg, hsz]
  omega

/-- A product that has wrapped around and is not below its factors is big. -/
theorem big_of_wrapped (hab : sizeMod ≤ a * b) (hs : ¬ Stopped a b) : 1024 < a * b % sizeMod := by
  unfold Stopped at hs
  obtain ⟨ha, hb⟩ : a ≤ a * b % sizeMod ∧ b ≤ a * b % sizeMod := by omega
  by_contra hle
  have hmul : a * b ≤ 1024 * 1024 := Nat.mul_le_mul (by omega) (by omega)
  have hsz : sizeMod = 2 ^ 64 := rfl
  omega

/-! ## `malloc` and `calloc` -/

theorem malloc_big (hn : 1024 < size) :
    malloc h size page = some (page.elim (none, h) fun a =>
      (some (a + arenaSize), withPages h a (pageCnt size) ⟨none, pageCnt size⟩)) := by
  unfold malloc
  rw [if_neg (by omega), findDesc_big hn]
  cases page <;> rfl

/-- What `malloc` reserves for a big block ends with the pages. -/
theorem enough_big {q : Nat} (hI : Inv h live) (hf : FreshFor h size (some q))
    (he : Enough (withPages h q (pageCnt size) ⟨none, pageCnt size⟩) (q + arenaSize) n) :
    arenaSize + n ≤ pageCnt size * pgSize := by
  obtain ⟨e, hr, hle⟩ := he
  have hq : q % pgSize = 0 := (hf q rfl).1
  have hal : ∀ r ∈ (withPages h q (pageCnt size) ⟨none, pageCnt size⟩).pages, r.1 % pgSize = 0 := by
    intro r hr
    obtain rfl | hr := List.mem_cons.mp hr
    · exact hq
    · exact (hI.held r.1 r.2 hr).1
  have hend := hr.big hal (by unfold withPages; rw [setArena_arena, if_pos rfl]) List.mem_cons_self
  omega

theorem mallocEnough_iff (hI : Inv h live) (hB : Busy h live) (hn : size < sizeMod) (hf : FreshFor h size page) :
    MallocEnough h size page ↔ Fits size ∨ page = none := by
  constructor
  · rintro ⟨r, h', hrun, henough⟩
    by_contra hno
    obtain ⟨hfit, hp⟩ := not_or.mp hno
    obtain ⟨q, rfl⟩ := Option.ne_none_iff_exists'.mp hp
    have hbig := big_of_not_fits hfit
    rw [malloc_big hbig] at hrun
    obtain ⟨rfl, rfl⟩ : some (q + arenaSize) = r ∧ withPages h q (pageCnt size) ⟨none, pageCnt size⟩ = h' := by
      simpa using hrun
    have hend := enough_big hI hf (henough _ rfl)
    have hone := Nat.mul_le_mul_right pgSize (pageCnt_wraps hn hfit)
    unfold Fits at hfit
    have h24 : arenaSize = 24 := rfl
    have hpg : pgSize = 4096 := rfl
    have hsz : sizeMod = 2 ^ 64 := rfl
    omega
  · intro hs
    obtain ⟨r, h', hrun, hI', -⟩ := malloc_inv hI hB hs hf
    refine ⟨r, h', hrun, fun p hp => ?_⟩
    obtain rfl : r = some p := hp
    exact hI'.enough

theorem calloc_run {r : Option Nat} (hs : ¬ Stopped a b) (hrun : malloc h (a * b % sizeMod) page = some (r, h')) :
    calloc h a b page mem = some (r, h', r.elim mem fun p => memset mem p 0 (a * b % sizeMod)) := by
  unfold calloc
  unfold Stopped at hs
  simp only [if_neg hs, hrun, Option.bind_eq_bind, Option.bind_some]
  cases r <;> rfl

theorem calloc_stopped (hs : Stopped a b) : calloc h a b page mem = some (none, h, mem) := if_pos hs

/-- What `calloc` asks for fits or is answered by NULL, if the product does or
is. -/
theorem sized_of_product (hp : Fits (a * b) ∨ page = none) : Fits (a * b % sizeMod) ∨ page = none := by
  refine hp.imp_left fun hfit => ?_
  unfold Fits at hfit ⊢
  have hle := Nat.mod_le (a * b) sizeMod
  omega

/-- The pages that `calloc` gets for a product that does not fit are too few
for it. -/
theorem pageCnt_product (hs : ¬ Stopped a b) (hfit : ¬ Fits (a * b)) :
    1024 < a * b % sizeMod ∧ pageCnt (a * b % sizeMod) * pgSize < arenaSize + a * b := by
  have h24 : arenaSize = 24 := rfl
  have hpg : pgSize = 4096 := rfl
  have hsz : sizeMod = 2 ^ 64 := rfl
  by_cases hab : a * b < sizeMod
  · rw [Nat.mod_eq_of_lt hab]
    have hone := Nat.mul_le_mul_right pgSize (pageCnt_wraps hab hfit)
    refine ⟨big_of_not_fits hfit, ?_⟩
    unfold Fits at hfit
    omega
  · refine ⟨big_of_wrapped (by omega) hs, ?_⟩
    have hle := pageCnt_le (a * b % sizeMod)
    have hdiv := Nat.div_add_mod (a * b) sizeMod
    have hone : sizeMod * 1 ≤ sizeMod * (a * b / sizeMod) :=
      Nat.mul_le_mul_left _ ((Nat.one_le_div_iff (by decide)).mpr (by omega))
    omega

theorem callocEnough_iff (hI : Inv h live) (hB : Busy h live) (hf : FreshFor h (a * b % sizeMod) page) :
    CallocEnough h a b page mem ↔ Stopped a b ∨ Fits (a * b) ∨ page = none := by
  by_cases hs : Stopped a b
  · exact ⟨fun _ => .inl hs, fun _ => ⟨none, h, mem, calloc_stopped hs, fun p hp => by cases hp⟩⟩
  constructor
  · rintro ⟨r, h', mem', hrun, henough⟩
    refine .inr (by_contra fun hno => ?_)
    obtain ⟨hfit, hp⟩ := not_or.mp hno
    obtain ⟨q, rfl⟩ := Option.ne_none_iff_exists'.mp hp
    obtain ⟨hbig, hfew⟩ := pageCnt_product hs hfit
    rw [calloc_run hs (malloc_big hbig)] at hrun
    obtain ⟨rfl, rfl, -⟩ := by simpa using hrun
    have hend := enough_big hI hf (henough _ rfl).1
    omega
  · intro hp
    have hp := hp.resolve_left hs
    obtain ⟨r, h', hrun, hI', -⟩ := malloc_inv hI hB (sized_of_product hp) hf
    refine ⟨r, h', _, calloc_run hs hrun, fun p hpr => ?_⟩
    obtain rfl : r = some p := hpr
    have hfit : Fits (a * b) := by
      by_contra hfit
      obtain rfl := hp.resolve_left hfit
      rw [malloc_big (pageCnt_product hs hfit).1] at hrun
      cases hrun
    have hmod : a * b % sizeMod = a * b := by
      unfold Fits at hfit
      exact Nat.mod_eq_of_lt (by omega)
    rw [hmod] at hI' ⊢
    refine ⟨hI'.enough, fun i hi => ?_⟩
    exact if_pos ⟨Nat.le_add_right p i, Nat.add_lt_add_left hi p⟩

/-! ## Runs -/

theorem call_inv {c : Call} (hI : Inv s.heap s.live) (hB : Busy s.heap s.live) (hc : Permitted s c) (hs : c.Sized) :
    ∃ s', call s c = some s' ∧ Inv s'.heap s'.live ∧ Busy s'.heap s'.live := by
  cases c with
  | heap e => exact step_inv hI hB hc hs
  | calloc a b page mem =>
    by_cases hstop : Stopped a b
    · refine ⟨s, ?_, hI, hB⟩
      simp only [call, calloc_stopped hstop, Option.map_some]
      rfl
    · obtain ⟨r, h', hrun, hI', hB'⟩ := malloc_inv hI hB (sized_of_product (hs.resolve_left hstop)) hc.2.2
      refine ⟨⟨h', gotten r (a * b % sizeMod) ++ s.live⟩, ?_, hI', hB'⟩
      simp only [call, calloc_run hstop hrun, Option.map_some]

/-- After any calls that fit or find no pages, `malloc` gives NULL or a block
that is large enough exactly when the next size fits or finds no pages, and so
does `calloc`, unless it stops at the product. -/
theorem blocks_large_enough_iff {cs : List Call} (hG : Run.Always call (fun s c => Permitted s c ∧ c.Sized) boot cs) :
    ∃ s, Run.run call boot cs = some s ∧
      (∀ size page, size < sizeMod → FreshFor s.heap size page →
        (MallocEnough s.heap size page ↔ Fits size ∨ page = none)) ∧
      ∀ a b page mem, a < sizeMod → b < sizeMod → FreshFor s.heap (a * b % sizeMod) page →
        (CallocEnough s.heap a b page mem ↔ Stopped a b ∨ Fits (a * b) ∨ page = none) := by
  obtain ⟨s, hs, hI, hB⟩ := Run.run_progress (fun s c hs hG => call_inv hs.1 hs.2 hG.1 hG.2) boot_inv hG
  exact ⟨s, hs, fun size page hn hf => mallocEnough_iff hI hB hn hf,
    fun a b page mem _ _ hf => callocEnough_iff hI hB hf⟩

theorem blocks_large_enough_zeroed :
    ∃ s, Run.run call boot [.heap (.malloc 600 (some 4096)), .calloc 3 400 (some 8192) fun _ => 0xcc,
        .heap (.free (some 4120)), .heap (.malloc (2 ^ 64 - 1) none)] = some s ∧
      (∀ size page, size < sizeMod → FreshFor s.heap size page →
        (MallocEnough s.heap size page ↔ Fits size ∨ page = none)) ∧
      ∀ a b page mem, a < sizeMod → b < sizeMod → FreshFor s.heap (a * b % sizeMod) page →
        (CallocEnough s.heap a b page mem ↔ Stopped a b ∨ Fits (a * b) ∨ page = none) :=
  blocks_large_enough_iff (by decide +kernel)

/-- The size and its header wrap around to one page; the product of the two
numbers, which is above `SIZE_MAX`, to `2 ^ 33 + 1`. -/
theorem not_blocks_large_enough :
    (∃ size page, size < sizeMod ∧ FreshFor boot.heap size page ∧ ¬ MallocEnough boot.heap size page) ∧
      ∃ a b page mem, a < sizeMod ∧ b < sizeMod ∧ FreshFor boot.heap (a * b % sizeMod) page ∧
        ¬ CallocEnough boot.heap a b page mem := by
  refine ⟨⟨2 ^ 64 - 1, some 4096, by decide, by decide, ?_⟩,
    2 ^ 32 + 1, 2 ^ 32 + 1, some 4096, fun _ => 0xcc, by decide, by decide, by decide, ?_⟩
  · rw [mallocEnough_iff boot_inv.1 boot_inv.2 (by decide) (by decide)]
    decide
  · rw [callocEnough_iff boot_inv.1 boot_inv.2 (by decide)]
    decide

end PintosKaist.Threads.Malloc
