/-
The invariant of the hash table of `lib/kernel/hash.c`, and the finite set
that the table stands for.
-/
import PintosKaist.LibKernel.Hash
import PintosKaist.LibKernel.ListRefine
import PintosKaist.Lib.Buckets
import Mathlib.Data.Finset.Insert
import Mathlib.Data.Finset.Filter
import Mathlib.Order.Defs.Unbundled

namespace PintosKaist.LibKernel

open Buckets

/-- All elements, bucket by bucket. -/
def elems {α : Type*} (h : Hash α) : List α := all h.bucketCnt h.buckets

structure Table {α : Type*} (hash : α → UInt64) (less : α → α → Bool) (h : Hash α) : Prop where
  pow : ∃ k, 2 ≤ k ∧ h.bucketCnt = 2 ^ k
  placed : Placed (findBucket hash h.bucketCnt) h.bucketCnt h.buckets
  count : h.elemCnt = (elems h).length
  distinct : (elems h).Pairwise fun a b => ¬ Equal less a b

/-! ## Bucket counts -/

theorem isPowerOf2_iff {x : Nat} : isPowerOf2 x = true ↔ x.isPowerOfTwo := by
  unfold isPowerOf2 turnOffLeast1bit
  rw [← Nat.ne_zero_and_sub_one_eq_zero_iff_isPowerOfTwo]
  simp

/-- The loop only turns off bits below the highest, and ends with that one. -/
theorem turnOffBits_pow {fuel x : Nat} (hx : 4 ≤ x) (hf : x ≤ fuel) :
    ∃ k, 2 ≤ k ∧ turnOffBits fuel x = 2 ^ k := by
  induction fuel generalizing x with
  | zero => omega
  | succ fuel ih =>
    unfold turnOffBits
    split
    · rename_i hp
      obtain ⟨k, hk⟩ := isPowerOf2_iff.mp hp
      refine ⟨k, ?_, hk⟩
      by_contra hlt
      have hle : 2 ^ k ≤ 2 ^ 1 := Nat.pow_le_pow_right (by omega) (by omega)
      omega
    · rename_i hp
      have hbit := Nat.and_sub_one_testBit_log2 (n := x) (by omega) fun h => hp (isPowerOf2_iff.mpr h)
      have hge : 2 ^ x.log2 ≤ turnOffLeast1bit x := Nat.ge_two_pow_of_testBit hbit
      have hlog : 2 ≤ x.log2 := (Nat.le_log2 (by omega)).mpr hx
      have h4 : 2 ^ 2 ≤ 2 ^ x.log2 := Nat.pow_le_pow_right (by omega) hlog
      have hlt : turnOffLeast1bit x ≤ x - 1 := Nat.and_le_right
      exact ih (by omega) (by omega)

theorem newBucketCnt_pow (n : Nat) : ∃ k, 2 ≤ k ∧ newBucketCnt n = 2 ^ k := by
  unfold newBucketCnt
  refine turnOffBits_pow ?_ (Nat.le_refl _)
  split <;> omega

section
variable {α : Type*} {hash : α → UInt64} {less : α → α → Bool} {h : Hash α} {e x new : α}

theorem findBucket_lt {n : Nat} (hn : ∃ k, 2 ≤ k ∧ n = 2 ^ k) (e : α) : findBucket hash n e < n := by
  obtain ⟨k, -, rfl⟩ := hn
  unfold findBucket
  rw [Nat.and_two_pow_sub_one_eq_mod]
  exact Nat.mod_lt _ (Nat.two_pow_pos k)

/-! ## Being equal -/

theorem Equal.symm (he : Equal less e x) : Equal less x e := ⟨he.2, he.1⟩

variable [IsStrictWeakOrder α fun a b => less a b = true]

theorem Equal.refl (e : α) : Equal less e e := by
  have hirr : ¬ less e e = true := irrefl_of (fun a b => less a b = true) e
  exact ⟨by simpa using hirr, by simpa using hirr⟩

theorem Equal.trans (h₁ : Equal less e x) (h₂ : Equal less x new) : Equal less e new := by
  have htrans : ∀ a b c, ¬ less a b = true ∧ ¬ less b a = true → ¬ less b c = true ∧ ¬ less c b = true →
      ¬ less a c = true ∧ ¬ less c a = true := IsStrictWeakOrder.incomp_trans
  simp only [Bool.not_eq_true] at htrans
  exact htrans e x new h₁ h₂

end

/-! ## `rehash` -/

section
variable {α : Type*} {hash : α → UInt64} {less : α → α → Bool} {h h' : Hash α} {e x new : α}

theorem distinct_perm {xs ys : List α} (hp : xs.Pairwise fun a b => ¬ Equal less a b) (hxy : ys.Perm xs) :
    ys.Pairwise fun a b => ¬ Equal less a b :=
  (hxy.pairwise_iff fun hab hba => hab hba.symm).mpr hp

/-- A table with the same elements in other buckets. -/
theorem Table.perm (ht : Table hash less h) (hpow : ∃ k, 2 ≤ k ∧ h'.bucketCnt = 2 ^ k)
    (hpl : Placed (findBucket hash h'.bucketCnt) h'.bucketCnt h'.buckets) (hc : h'.elemCnt = h.elemCnt)
    (hp : (elems h').Perm (elems h)) : Table hash less h' where
  pow := hpow
  placed := hpl
  count := by rw [hc, ht.count, hp.length_eq]
  distinct := distinct_perm ht.distinct hp

theorem rehash_table (ht : Table hash less h) (ok : Bool) :
    Table hash less (rehash hash h ok) ∧ (elems (rehash hash h ok)).Perm (elems h) := by
  unfold rehash
  simp only
  split
  · exact ⟨ht, List.Perm.refl _⟩
  · split
    · have hn := newBucketCnt_pow h.elemCnt
      generalize newBucketCnt h.elemCnt = n at hn
      have hfold : (List.range h.bucketCnt).foldl (fun b i => moveBucket hash n b (h.buckets i)) (fun _ => []) =
          (elems h).foldl (put (findBucket hash n)) fun _ => [] := by
        unfold elems all
        rw [List.foldl_flatMap]
        rfl
      have hnil : Placed (findBucket hash n) n fun _ => [] := fun i _ x hx => absurd hx (by simp)
      obtain ⟨hpl, hperm⟩ : Placed _ n ((elems h).foldl (put (findBucket hash n)) fun _ => []) ∧
          (all n ((elems h).foldl (put (findBucket hash n)) fun _ => [])).Perm (elems h ++ all n fun _ => []) :=
        putAll (findBucket_lt hn) hnil
      rw [all_nil fun _ _ => rfl, List.append_nil] at hperm
      rw [hfold]
      exact ⟨ht.perm hn hpl rfl hperm, hperm⟩
    · exact ⟨ht, List.Perm.refl _⟩

theorem init_table (hi : hashInit true = some h) : Table hash less h ∧ elems h = [] := by
  unfold hashInit at hi
  obtain rfl : (⟨0, 4, fun _ => []⟩ : Hash α) = h := by simpa using hi
  refine ⟨⟨⟨2, le_refl 2, rfl⟩, fun i _ x hx => absurd hx (by simp), rfl, List.Pairwise.nil⟩, rfl⟩

theorem clear_table (ht : Table hash less h) (d : Bool) :
    Table hash less (hashClear h d).2 ∧ elems (hashClear h d).2 = [] := by
  have hnil : elems (hashClear h d).2 = [] := all_nil fun i hi => if_pos hi
  refine ⟨⟨ht.pow, fun i hi x hx => ?_, ?_, ?_⟩, hnil⟩
  · have he : (hashClear h d).2.buckets i = [] := if_pos hi
    rw [he] at hx
    cases hx
  · rw [hnil]
    rfl
  · rw [hnil]
    exact List.Pairwise.nil

/-! ## Finding, inserting, removing -/

theorem mem_bucket (ht : Table hash less h) : x ∈ elems h ↔ x ∈ h.buckets (findBucket hash h.bucketCnt x) :=
  ht.placed.mem_iff (findBucket_lt ht.pow x)

/-- `find_elem` in the bucket of `e` finds what equals `e` in the whole
table. -/
theorem findElem_some (ht : Table hash less h)
    (hf : findElem less (h.buckets (findBucket hash h.bucketCnt e)) e = some x) :
    x ∈ elems h ∧ Equal less x e ∧ x ∈ h.buckets (findBucket hash h.bucketCnt x) := by
  unfold findElem at hf
  have hmem := List.mem_of_find?_eq_some hf
  have heq := List.find?_some hf
  have hin : x ∈ elems h := mem_all.mpr ⟨_, findBucket_lt ht.pow e, hmem⟩
  refine ⟨hin, ?_, (mem_bucket ht).mp hin⟩
  simpa [Equal] using heq

theorem findElem_none (ht : Table hash less h) (hhash : ∀ a b, Equal less a b → hash a = hash b)
    (hf : findElem less (h.buckets (findBucket hash h.bucketCnt e)) e = none) :
    ∀ x ∈ elems h, ¬ Equal less x e := by
  intro x hx heq
  unfold findElem at hf
  have hb := (mem_bucket ht).mp hx
  have hidx : findBucket hash h.bucketCnt x = findBucket hash h.bucketCnt e := by
    unfold findBucket
    rw [hhash x e heq]
  rw [hidx] at hb
  have hne := List.find?_eq_none.mp hf x hb
  exact hne (by simp [heq.1, heq.2])

theorem insert_table (ht : Table hash less h) (hnew : ∀ x ∈ elems h, ¬ Equal less x new) :
    Table hash less (insertElem h (findBucket hash h.bucketCnt new) new) ∧
      (elems (insertElem h (findBucket hash h.bucketCnt new) new)).Perm (new :: elems h) := by
  have hperm : (elems (insertElem h (findBucket hash h.bucketCnt new) new)).Perm (new :: elems h) :=
    all_put (findBucket_lt ht.pow new)
  refine ⟨⟨ht.pow, ht.placed.put, ?_, ?_⟩, hperm⟩
  · rw [hperm.length_eq, List.length_cons, ← ht.count]
    rfl
  · exact distinct_perm (List.pairwise_cons.mpr ⟨fun x hx he => hnew x hx he.symm, ht.distinct⟩) hperm

variable [DecidableEq α]

theorem remove_table (ht : Table hash less h) (hx : x ∈ elems h) :
    Table hash less (removeElem h x) ∧ (elems h).Perm (x :: elems (removeElem h x)) := by
  have hperm : (elems h).Perm (x :: elems (removeElem h x)) :=
    all_take ht.placed (findBucket_lt ht.pow x) ((mem_bucket ht).mp hx)
  refine ⟨⟨ht.pow, ht.placed.take, ?_, ?_⟩, hperm⟩
  · have hlen := hperm.length_eq
    rw [List.length_cons, ← ht.count] at hlen
    show h.elemCnt - 1 = _
    omega
  · exact (List.pairwise_cons.mp (distinct_perm ht.distinct hperm.symm)).2

end

end PintosKaist.LibKernel
