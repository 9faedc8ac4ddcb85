/-
The hash table of `lib/kernel/hash.c` is a finite set in which no two elements
are equal by `less`, whatever the history of the table and of the memory that
`rehash` got.
-/
import PintosKaist.LibKernel.HashScan
import Mathlib.Data.Finset.Card

namespace PintosKaist.LibKernel

inductive HashOp (α : Type*) where
  | insert (new : α) (ok : Bool)
  | replace (new : α) (ok : Bool)
  | delete (e : α) (ok : Bool)
  | find (e : α)
  | clear (destructor : Bool)

section
variable {α : Type*} [DecidableEq α] (hash : α → UInt64) (less : α → α → Bool)

/-- The call: what it returns, and the table after it. -/
def HashOp.run (h : Hash α) : HashOp α → Option α × Hash α
  | insert new ok => hashInsert hash less h new ok
  | replace new ok => hashReplace hash less h new ok
  | delete e ok => hashDelete hash less h e ok
  | find e => (hashFind hash less h e, h)
  | clear destructor => (none, (hashClear h destructor).2)

/-- What the call makes of the set. -/
def HashOp.spec (S : Finset α) : HashOp α → Finset α
  | insert new _ => if ∃ x ∈ S, Equal less x new then S else Insert.insert new S
  | replace new _ => Insert.insert new (S.filter fun x => ¬ Equal less x new)
  | delete e _ => S.filter fun x => ¬ Equal less x e
  | find _ => S
  | clear _ => ∅

/-- The element of the set that equals `e`, and NULL when there is none. -/
def Found (S : Finset α) (e : α) : Option α → Prop
  | some x => x ∈ S ∧ Equal less x e
  | none => ∀ x ∈ S, ¬ Equal less x e

/-- What the call may return. -/
def HashOp.Answer (S : Finset α) : HashOp α → Option α → Prop
  | insert new _, r => Found less S new r
  | replace new _, r => Found less S new r
  | delete e _, r => Found less S e r
  | find e, r => Found less S e r
  | clear _, r => r = none

/-- The table after the calls, from `hash_init` on. -/
def tableAfter (ops : List (HashOp α)) (h : Hash α) : Hash α := ops.foldl (fun h op => (op.run hash less h).2) h

/-- The set after the calls. -/
def setAfter (ops : List (HashOp α)) : Finset α := ops.foldl (fun S op => op.spec less S) ∅

/-- The table is well formed and holds the elements of the set. -/
structure Refines (h : Hash α) (S : Finset α) : Prop where
  table : Table hash less h
  mem : ∀ e, e ∈ elems h ↔ e ∈ S

end

section
variable {α : Type*} [DecidableEq α] {hash : α → UInt64} {less : α → α → Bool} {h : Hash α} {S : Finset α}
variable {e x new : α}

omit [DecidableEq α] in
theorem Refines.found (hr : Refines hash less h S) (hhash : ∀ a b, Equal less a b → hash a = hash b) :
    Found less S e (findElem less (h.buckets (findBucket hash h.bucketCnt e)) e) := by
  cases hf : findElem less (h.buckets (findBucket hash h.bucketCnt e)) e with
  | none => exact fun x hx => findElem_none hr.table hhash hf x ((hr.mem x).mpr hx)
  | some x =>
    obtain ⟨hin, heq, -⟩ := findElem_some hr.table hf
    exact ⟨(hr.mem x).mp hin, heq⟩

omit [DecidableEq α] in
theorem Refines.rehash (hr : Refines hash less h S) (ok : Bool) : Refines hash less (rehash hash h ok) S := by
  obtain ⟨ht, hperm⟩ := rehash_table hr.table ok
  exact ⟨ht, fun e => hperm.mem_iff.trans (hr.mem e)⟩

theorem Refines.insert (hr : Refines hash less h S) (hnew : ∀ x ∈ S, ¬ Equal less x new) :
    Refines hash less (insertElem h (findBucket hash h.bucketCnt new) new) (Insert.insert new S) := by
  obtain ⟨ht, hperm⟩ := insert_table hr.table fun x hx => hnew x ((hr.mem x).mp hx)
  refine ⟨ht, fun e => ?_⟩
  rw [hperm.mem_iff, List.mem_cons, Finset.mem_insert, hr.mem e]

omit [DecidableEq α] in
theorem Refines.filter_none (hr : Refines hash less h S) (hn : ∀ x ∈ S, ¬ Equal less x e) :
    Refines hash less h (S.filter fun y => ¬ Equal less y e) := by
  rw [Finset.filter_true_of_mem hn]
  exact hr

variable [IsStrictWeakOrder α fun a b => less a b = true]

/-- Taking out the element that equals `e` takes out all that do. -/
theorem Refines.remove (hr : Refines hash less h S) (hx : x ∈ elems h) (he : Equal less x e) :
    Refines hash less (removeElem h x) (S.filter fun y => ¬ Equal less y e) := by
  obtain ⟨ht, hperm⟩ := remove_table hr.table hx
  have hdist := List.pairwise_cons.mp (distinct_perm hr.table.distinct hperm.symm)
  refine ⟨ht, fun y => ?_⟩
  rw [Finset.mem_filter, ← hr.mem y, hperm.mem_iff, List.mem_cons]
  constructor
  · intro hy
    exact ⟨.inr hy, fun hye => hdist.1 y hy (he.trans hye.symm)⟩
  · intro ⟨hy, hye⟩
    obtain rfl | hy := hy
    · exact absurd he hye
    · exact hy

/-- One call. -/
theorem refines_step (hr : Refines hash less h S) (hhash : ∀ a b, Equal less a b → hash a = hash b)
    (op : HashOp α) :
    op.Answer less S (op.run hash less h).1 ∧ Refines hash less (op.run hash less h).2 (op.spec less S) := by
  cases op with
  | insert new ok =>
    refine ⟨hr.found hhash, ?_⟩
    have hfound : Found less S new _ := hr.found hhash
    unfold HashOp.run HashOp.spec hashInsert
    simp only
    cases hf : findElem less (h.buckets (findBucket hash h.bucketCnt new)) new with
    | none =>
      rw [hf] at hfound
      have hnone : ¬ ∃ x ∈ S, Equal less x new := fun ⟨x, hx, he⟩ => hfound x hx he
      simp only [if_neg hnone]
      exact (hr.insert hfound).rehash ok
    | some old =>
      rw [hf] at hfound
      have hsome : ∃ x ∈ S, Equal less x new := ⟨old, hfound⟩
      simp only [if_pos hsome]
      exact hr.rehash ok
  | replace new ok =>
    refine ⟨hr.found hhash, ?_⟩
    have hfound : Found less S new _ := hr.found hhash
    have hclear : ∀ x ∈ S.filter (fun y => ¬ Equal less y new), ¬ Equal less x new :=
      fun x hx => (Finset.mem_filter.mp hx).2
    unfold HashOp.run HashOp.spec hashReplace
    simp only
    cases hf : findElem less (h.buckets (findBucket hash h.bucketCnt new)) new with
    | none =>
      rw [hf] at hfound
      exact ((hr.filter_none hfound).insert hclear).rehash ok
    | some old =>
      obtain ⟨hin, heq, -⟩ := findElem_some hr.table hf
      exact ((hr.remove hin heq).insert hclear).rehash ok
  | delete e ok =>
    have hfound : Found less S e _ := hr.found hhash
    unfold HashOp.run HashOp.spec HashOp.Answer hashDelete
    simp only
    cases hf : findElem less (h.buckets (findBucket hash h.bucketCnt e)) e with
    | none =>
      rw [hf] at hfound
      exact ⟨hfound, hr.filter_none hfound⟩
    | some x =>
      obtain ⟨hin, heq, -⟩ := findElem_some hr.table hf
      rw [hf] at hfound
      exact ⟨hfound, (hr.remove hin heq).rehash ok⟩
  | find e =>
    refine ⟨?_, hr⟩
    unfold HashOp.run HashOp.Answer hashFind hashEmpty
    simp only
    split
    · rename_i hz
      have hnil : elems h = [] := by
        have hc := hr.table.count
        rw [beq_iff_eq.mp hz] at hc
        exact List.length_eq_zero_iff.mp hc.symm
      intro x hx
      have hx' := (hr.mem x).mpr hx
      rw [hnil] at hx'
      cases hx'
    · exact hr.found hhash
  | clear destructor =>
    obtain ⟨ht, hnil⟩ := clear_table hr.table destructor
    refine ⟨rfl, ht, fun e => ?_⟩
    show e ∈ elems (hashClear h destructor).2 ↔ e ∈ (∅ : Finset α)
    rw [hnil]
    simp

theorem refines_run (hhash : ∀ a b, Equal less a b → hash a = hash b) (hr : Refines hash less h S)
    (ops : List (HashOp α)) :
    Refines hash less (tableAfter hash less ops h) (ops.foldl (fun S op => op.spec less S) S) := by
  induction ops generalizing h S with
  | nil => exact hr
  | cons op ops ih => exact ih (refines_step hr hhash op).2

/-- After any calls on a new table, whatever memory `rehash` got: the bucket
count is a power of two from 4 on, every element is in the bucket of its hash,
`elem_cnt` counts the elements, no two of them are equal, they are those of the
set, each call returns the element it should, and a scan gives each of them
once. -/
theorem hash_refines (hhash : ∀ a b, Equal less a b → hash a = hash b) {h₀ : Hash α}
    (hi : hashInit true = some h₀) (ops : List (HashOp α)) :
    let h := tableAfter hash less ops h₀
    let S := setAfter less ops
    (∃ k, h.bucketCnt = 2 ^ k) ∧ 4 ≤ h.bucketCnt ∧
    (∀ i < h.bucketCnt, ∀ e ∈ h.buckets i, (hash e).toNat &&& (h.bucketCnt - 1) = i) ∧
    h.elemCnt = S.card ∧
    (∀ x ∈ S, ∀ y ∈ S, Equal less x y → x = y) ∧
    (∀ e, (∃ i < h.bucketCnt, e ∈ h.buckets i) ↔ e ∈ S) ∧
    (∀ op : HashOp α, op.Answer less S (op.run hash less h).1) ∧
    ∃ xs : List α, xs.Nodup ∧ (∀ e, e ∈ xs ↔ e ∈ S) ∧ h.elemCnt = xs.length ∧
      ∀ fuel, xs.length < fuel → hashScan h fuel hashFirst = some xs := by
  intro h S
  obtain ⟨ht₀, hnil⟩ : Table hash less h₀ ∧ elems h₀ = [] := init_table hi
  have hr₀ : Refines hash less h₀ ∅ := ⟨ht₀, fun e => by rw [hnil]; simp⟩
  have hr : Refines hash less h S := refines_run hhash hr₀ ops
  obtain ⟨k, hk, hpow⟩ := hr.table.pow
  have h4 : 4 ≤ h.bucketCnt := by
    have hle : 2 ^ 2 ≤ 2 ^ k := Nat.pow_le_pow_right (by omega) hk
    omega
  have hnd : (elems h).Nodup := by
    refine hr.table.distinct.imp ?_
    intro a b hab he
    rw [he] at hab
    exact hab (Equal.refl b)
  have hS : S = (elems h).toFinset := by
    ext e
    rw [List.mem_toFinset, hr.mem e]
  refine ⟨⟨k, hpow⟩, h4, hr.table.placed, ?_, ?_, fun e => ?_, fun op => (refines_step hr hhash op).1,
    elems h, hnd, hr.mem, hr.table.count, fun fuel hf => hashScan_eq hnd (by omega) hf⟩
  · rw [hS, List.toFinset_card_of_nodup hnd]
    exact hr.table.count
  · intro x hx y hy he
    by_contra hne
    have hsymm : Std.Symm fun a b => ¬ Equal less a b := ⟨fun _ _ hab hba => hab hba.symm⟩
    exact hr.table.distinct.forall ((hr.mem x).mpr hx) ((hr.mem y).mpr hy) hne he
  · rw [← hr.mem e]
    exact Buckets.mem_all.symm

end

/-- Numbers compared by their last digit. -/
def digitLess (a b : Nat) : Bool := a % 10 < b % 10

instance : IsStrictWeakOrder Nat fun a b => digitLess a b = true where
  irrefl a := by simp [digitLess]
  trans a b c hab hbc := by
    simp only [digitLess, decide_eq_true_eq] at hab hbc ⊢
    omega
  incomp_trans a b c hab hbc := by
    simp only [digitLess, decide_eq_true_eq] at hab hbc ⊢
    omega

theorem hash_refines_digits :
    let hash := fun a : Nat => UInt64.ofNat (a % 10)
    let ops : List (HashOp Nat) := [.insert 12 true, .insert 22 true, .replace 32 false, .insert 7 true, .delete 17 true]
    (tableAfter hash digitLess ops ⟨0, 4, fun _ => []⟩).elemCnt = (setAfter digitLess ops).card := by
  intro hash ops
  have hhash : ∀ a b, Equal digitLess a b → hash a = hash b := by
    intro a b ⟨h₁, h₂⟩
    simp only [digitLess, decide_eq_false_iff_not] at h₁ h₂
    have hab : a % 10 = b % 10 := by omega
    simp only [hash, hab]
  exact (hash_refines hhash rfl ops).2.2.2.1

end PintosKaist.LibKernel
