/-
The dirty and accessed bits of a page-table entry (`threads/mmu.c`). To clear
one, the source masks the 64-bit entry with the complement of a `uint32_t`,
whose upper half is zero: only an entry that has nothing there comes through.
-/
import PintosKaist.Threads.MmuMap

namespace PintosKaist.Mmu

open Pte

variable {m m' : Mem} {t va a e f : U64} {b : Bool} {s : Slot} {p : List (Fin 512)}

/-- `PTE_A`, `PTE_D`. -/
def pteA : U64 := 0x20#64
def pteD : U64 := 0x40#64

/-- `~(uint32_t) f`, as a 64-bit word. -/
def clearMask (f : U64) : U64 := (~~~(f.setWidth 32)).setWidth 64

/-- A flag of the entry of `vpage`, if there is one, is set or cleared. -/
def pml4SetFlag (f : U64) (m : Mem) (t vpage : U64) (b : Bool) : Mem :=
  match (pml4eWalk m t vpage false).1 with
  | none => m
  | some s => m.set s (if b then m.get s ||| f else m.get s &&& clearMask f)

/-- `pml4_set_dirty`. -/
def pml4SetDirty (m : Mem) (t vpage : U64) (dirty : Bool) : Mem := pml4SetFlag pteD m t vpage dirty

/-- `pml4_set_accessed`. -/
def pml4SetAccessed (m : Mem) (t vpage : U64) (accessed : Bool) : Mem := pml4SetFlag pteA m t vpage accessed

/-! ## One bit -/

/-- The entry with the flag `f` set to `b`. -/
def withFlag (f : U64) (b : Bool) (e : U64) : U64 := if b then e ||| f else e &&& ~~~f

/-- A flag that is neither `PTE_P` nor a bit of the address. -/
structure Flag (f : U64) : Prop where
  present : f &&& pteP = 0
  addr : pteAddr f = 0

theorem flag_dirty : Flag pteD := ⟨by decide, by decide⟩

theorem flag_accessed : Flag pteA := ⟨by decide, by decide⟩

/-- The lower half of a word. -/
def low32 : U64 := 0xFFFFFFFF#64

theorem and_low32_toNat : (e &&& low32).toNat = e.toNat % 2 ^ 32 := by
  rw [BitVec.toNat_and]
  exact Nat.and_two_pow_sub_one_eq_mod _ 32

theorem and_low32_iff : e &&& low32 = e ↔ e.toNat < 2 ^ 32 := by
  rw [← BitVec.toNat_inj, and_low32_toNat]
  omega

/-- Bits apart from the flag stay. -/
theorem withFlag_and {mask : U64} (h : f &&& mask = 0) : withFlag f b e &&& mask = e &&& mask := by
  ext i hi
  have hbit : (f[i] && mask[i]) = false := by
    rw [← BitVec.getElem_and, h, BitVec.ofNat_eq_ofNat, BitVec.getElem_zero]
  unfold withFlag
  cases b
  · simp only [Bool.false_eq_true, if_false, BitVec.getElem_and, BitVec.getElem_not]
    revert hbit
    cases f[i] <;> cases mask[i] <;> cases e[i] <;> decide
  · simp only [if_true, BitVec.getElem_and, BitVec.getElem_or]
    revert hbit
    cases f[i] <;> cases mask[i] <;> cases e[i] <;> decide

/-- A flag does not change where an entry leads. -/
theorem leads_withFlag (h : Flag f) : leads (withFlag f b e) = leads e := by
  have hp : present (withFlag f b e) = present e := by
    unfold present
    rw [withFlag_and h.present]
  have ha : pteAddr (withFlag f b e) = pteAddr e := withFlag_and h.addr
  simp only [leads, hp, child, ha]

theorem clearMask_eq : clearMask f = ~~~f &&& low32 := by
  apply BitVec.eq_of_toNat_eq
  rw [and_low32_toNat, clearMask, BitVec.toNat_setWidth, BitVec.toNat_not, BitVec.toNat_setWidth, BitVec.toNat_not]
  omega

/-- A word is in the lower half when nothing of it is in the upper. -/
theorem and_low32_iff_high : e &&& low32 = e ↔ e &&& ~~~low32 = 0 := by
  have hsplit : (e &&& low32) ||| (e &&& ~~~low32) = e := by
    rw [← BitVec.and_or_distrib_left, show low32 ||| ~~~low32 = BitVec.allOnes 64 by decide, BitVec.and_allOnes]
  constructor
  · intro h
    rw [← h, BitVec.and_assoc, show low32 &&& ~~~low32 = 0#64 by decide]
    exact BitVec.and_zero
  · intro h
    rw [h] at hsplit
    exact (BitVec.or_zero (x := e &&& low32)).symm.trans hsplit

/-- The mask of the source clears the flag, and the upper half with it. -/
theorem clear_iff (h : Flag f) : e &&& clearMask f = withFlag f false e ↔ e.toNat < 2 ^ 32 := by
  have hhigh : f &&& ~~~low32 = 0 := by
    have hmask : ~~~low32 = ~~~0xFFF#64 &&& ~~~low32 := by decide
    rw [hmask, ← BitVec.and_assoc]
    exact (congrArg (· &&& ~~~low32) h.addr).trans BitVec.zero_and
  have hw : e &&& clearMask f = withFlag f false e &&& low32 := by
    rw [clearMask_eq, ← BitVec.and_assoc]
    rfl
  rw [hw, and_low32_iff_high, withFlag_and hhigh, ← and_low32_iff_high, and_low32_iff]

/-! ## The page table -/

/-- The tables look alike where no entry leads elsewhere. -/
theorem table_congr (h : ∀ s, leads (m'.get s) = leads (m.get s)) : table m' t p = table m t p := by
  induction p generalizing t with
  | nil => rfl
  | cons i p ih =>
    rw [table_cons, table_cons, show leads (m'.entries t i) = leads (m.entries t i) from h ⟨t, i⟩]
    exact congrArg _ (funext fun u => ih)

/-- From `m` to `m'` the flag `f` of the entry of `va`, if there is one, has
become `b`, and nothing else has changed: no other bit of it, no other entry,
and not what any address is mapped to. -/
structure OnlyFlag (f : U64) (m : Mem) (t va : U64) (b : Bool) (m' : Mem) : Prop where
  pool : m'.pool = m.pool
  entry : ∀ s, lookup m t va = some s → m'.get s = withFlag f b (m.get s)
  others : ∀ s, lookup m t va ≠ some s → m'.get s = m.get s
  pages : ∀ a, pml4GetPage m' t a = pml4GetPage m t a

/-- The entry of `va`, if there is one, has nothing in its upper half. -/
def EntryLow (m : Mem) (t va : U64) : Prop := ∀ s, lookup m t va = some s → (m.get s).toNat < 2 ^ 32

theorem get_set_ne {s' : Slot} (h : s' ≠ s) : (m.set s e).get s' = m.get s' := by
  show (m.set s e).entries s'.table s'.idx = _
  rw [set_entries, if_neg]
  · rfl
  · rintro ⟨h₁, h₂⟩
    exact h (by cases s'; cases s; simp_all)

/-- Writing the entry with its flag changed. -/
theorem onlyFlag_set (h : Flag f) (hs : lookup m t va = some s) :
    OnlyFlag f m t va b (m.set s (withFlag f b (m.get s))) := by
  have hentry (s') : (m.set s (withFlag f b (m.get s))).get s' =
      if s' = s then withFlag f b (m.get s) else m.get s' := by
    split
    · rename_i he
      rw [he, get_set]
    · rename_i hne
      exact get_set_ne hne
  refine ⟨rfl, fun s' hs' => ?_, fun s' hs' => ?_, fun a => ?_⟩
  · obtain rfl := Option.some.inj (hs.symm.trans hs')
    exact get_set
  · exact get_set_ne fun he => hs' (he ▸ hs)
  · rw [pml4GetPage_eq, pml4GetPage_eq, table_congr fun s' => ?_]
    rw [hentry]
    split
    · rename_i he
      rw [he, leads_withFlag h]
    · rfl

/-- **When a flag update touches nothing else**: when it sets the flag, or the
entry is below 2^32. -/
theorem pml4SetFlag_iff (h : Flag f) : OnlyFlag f m t va b (pml4SetFlag f m t va b) ↔ b = true ∨ EntryLow m t va := by
  have hset : pml4SetFlag f m t va b = match lookup m t va with
      | none => m
      | some s => m.set s (if b then m.get s ||| f else m.get s &&& clearMask f) := rfl
  rw [hset]
  cases hs : lookup m t va with
  | none =>
    refine iff_of_true ⟨rfl, fun s hc => ?_, fun _ _ => rfl, fun _ => rfl⟩ (.inr fun s hc => ?_)
    · cases hs.symm.trans hc
    · cases hs.symm.trans hc
  | some s =>
    cases b with
    | true => exact iff_of_true (onlyFlag_set (b := true) h hs) (.inl rfl)
    | false =>
      have hlow : EntryLow m t va ↔ m.get s &&& clearMask f = withFlag f false (m.get s) := by
        rw [clear_iff h]
        refine ⟨fun hl => hl s hs, fun hl s' hs' => ?_⟩
        obtain rfl := Option.some.inj (hs.symm.trans hs')
        exact hl
      simp only [Bool.false_eq_true, if_false, false_or, hlow]
      constructor
      · intro ho
        have := ho.entry s hs
        rwa [get_set] at this
      · intro he
        rw [he]
        exact onlyFlag_set h hs

theorem dirty_accessed_iff (m : Mem) (t va : U64) (b : Bool) :
    (OnlyFlag pteD m t va b (pml4SetDirty m t va b) ↔ b = true ∨ EntryLow m t va) ∧
      (OnlyFlag pteA m t va b (pml4SetAccessed m t va b) ↔ b = true ∨ EntryLow m t va) :=
  ⟨pml4SetFlag_iff flag_dirty, pml4SetFlag_iff flag_accessed⟩

/-- A user page mapped to the physical page at 4 GiB: clearing a bit of its
entry makes it the physical page at 0. -/
theorem not_onlyFlag_high : ∃ m, pml4SetPage smallPool 0#64 0x8004200000#64 0x400000#64 0x8104000000#64 true =
      some (true, m) ∧ WellFormed m 0x8004200000#64 ∧
    pml4GetPage m 0x8004200000#64 0x400000#64 = some 0x8104000000#64 ∧
    pml4GetPage (pml4SetDirty m 0x8004200000#64 0x400000#64 false) 0x8004200000#64 0x400000#64 = some 0x8004000000#64 ∧
    pml4GetPage (pml4SetAccessed m 0x8004200000#64 0x400000#64 false) 0x8004200000#64 0x400000#64 =
      some 0x8004000000#64 := by
  obtain ⟨⟨b, m⟩, hset, hb⟩ := (Option.any_eq_true _ _).mp (show
    (pml4SetPage smallPool 0#64 0x8004200000#64 0x400000#64 0x8104000000#64 true).any (fun r => r.1 &&
      decide (pml4GetPage (pml4SetDirty r.2 0x8004200000#64 0x400000#64 false) 0x8004200000#64 0x400000#64 =
          some 0x8004000000#64 ∧
        pml4GetPage (pml4SetAccessed r.2 0x8004200000#64 0x400000#64 false) 0x8004200000#64 0x400000#64 =
          some 0x8004000000#64)) = true by
      decide +kernel)
  obtain ⟨rfl, hb⟩ := (Bool.and_eq_true _ _).mp hb
  obtain ⟨hd, ha⟩ := of_decide_eq_true hb
  obtain ⟨w, hmap⟩ := pml4SetPage_map smallPool_wellFormed hset
  refine ⟨m, hset, w, ?_, hd, ha⟩
  rw [hmap _ (by decide), if_pos (by decide)]
  decide

end PintosKaist.Mmu
