/-
The lists of `lib/kernel/list.c` as sequences: any number of lists over one
heap, and what each operation does to the sequence of each. Nodes that no list
holds are free; they are what may be inserted, and what a removal leaves.
-/
import PintosKaist.LibKernel.ListRows
import Mathlib.Data.List.Destutter

namespace PintosKaist.LibKernel

open Linked

variable {ι α : Type*} [DecidableEq ι] [DecidableEq α]

/-- The nodes of a list that holds `xs`, sentinels included. -/
def nodes (l : KList α) (xs : List α) : List α := l.head :: (xs ++ [l.tail])

/-- Each list `ls i` is well formed and holds `σ i`, and no node is in two of
them. -/
structure Represents (h : Heap α) (ls : ι → KList α) (σ : ι → List α) : Prop where
  closed : ∀ i, Closed h (nodes (ls i) (σ i))
  apart : ∀ i j x, x ∈ nodes (ls i) (σ i) → x ∈ nodes (ls j) (σ j) → i = j

def Free (ls : ι → KList α) (σ : ι → List α) (x : α) : Prop := ∀ i, x ∉ nodes (ls i) (σ i)

/-! ## The operations on sequences -/

/-- `ms` just before the node `before`, and at the end when `before` is the
tail. -/
def insertBefore (before : α) (ms xs : List α) : List α :=
  xs.takeWhile (· ≠ before) ++ ms ++ xs.dropWhile (· ≠ before)

/-- Neither is less than the other. -/
def Equal (less : α → α → Bool) (a b : α) : Prop := less a b = false ∧ less b a = false

instance (less : α → α → Bool) : DecidableRel (Equal less) := fun _ _ => inferInstanceAs (Decidable (_ ∧ _))

/-- Each node that is not equal to the last one kept. -/
def kept (less : α → α → Bool) (xs : List α) : List α := xs.destutter fun a b => ¬ Equal less a b

/-- The nodes after `a` that are equal to the last one kept. -/
def stutters (less : α → α → Bool) : α → List α → List α
  | _, [] => []
  | a, b :: xs => if Equal less a b then b :: stutters less a xs else stutters less b xs

/-- The nodes that `kept` drops, in order. -/
def dropped (less : α → α → Bool) : List α → List α
  | [] => []
  | a :: xs => stutters less a xs

inductive Op (ι α : Type*) where
  | insert (before elem : α)
  | splice (before first last : α)
  | remove (elem : α)
  | pushFront (list : ι) (elem : α)
  | pushBack (list : ι) (elem : α)
  | popFront (list : ι)
  | popBack (list : ι)
  | reverse (list : ι)
  | unique (list : ι) (duplicates : Option ι) (less : α → α → Bool)

/-- The call: what it returns, and the heap after it. -/
def Op.run (ls : ι → KList α) (fuel : Nat) (h : Heap α) : Op ι α → Option (Option α × Heap α)
  | insert before elem => (listInsert h before elem).map (none, ·)
  | splice before first last => (listSplice h before first last).map (none, ·)
  | remove elem => listRemove h elem
  | pushFront list elem => (listPushFront h (ls list) elem).map (none, ·)
  | pushBack list elem => (listPushBack h (ls list) elem).map (none, ·)
  | popFront list => listPopFront h (ls list)
  | popBack list => listPopBack h (ls list)
  | reverse list => (listReverse h fuel (ls list)).map (none, ·)
  | unique list duplicates less => (listUnique h fuel (ls list) (duplicates.map ls) less).map (none, ·)

/-- The sequences after `list_unique`. -/
def uniqueEffect (σ : ι → List α) (list : ι) (duplicates : Option ι) (xs ys : List α) : ι → List α :=
  let σ := Function.update σ list xs
  match duplicates with
  | some j => Function.update σ j (σ j ++ ys)
  | none => σ

/-- What an operation returns and makes of the sequences, for arguments that
it is meant for. -/
inductive Effect (ls : ι → KList α) (σ : ι → List α) : Op ι α → Option α → (ι → List α) → Prop
  | insert {i : ι} {before elem : α} (hb : before ∈ σ i ++ [(ls i).tail]) (he : Free ls σ elem) :
    Effect ls σ (.insert before elem) none (Function.update σ i (insertBefore before [elem] (σ i)))
  | splice {i j : ι} {before first last : α} {xs ms ys : List α} (hσ : σ i = xs ++ ms ++ ys)
      (hf : (ms ++ ys ++ [(ls i).tail]).head? = some first) (hl : (ys ++ [(ls i).tail]).head? = some last)
      (hb : before ∈ σ j ++ [(ls j).tail]) (hm : before ∉ ms) :
    Effect ls σ (.splice before first last) none
      (let σ' := Function.update σ i (xs ++ ys)
       Function.update σ' j (insertBefore before ms (σ' j)))
  | remove {i : ι} {elem next : α} {xs ys : List α} (hσ : σ i = xs ++ elem :: ys)
      (hn : (ys ++ [(ls i).tail]).head? = some next) :
    Effect ls σ (.remove elem) (some next) (Function.update σ i (xs ++ ys))
  | pushFront {i : ι} {elem : α} (he : Free ls σ elem) :
    Effect ls σ (.pushFront i elem) none (Function.update σ i (elem :: σ i))
  | pushBack {i : ι} {elem : α} (he : Free ls σ elem) :
    Effect ls σ (.pushBack i elem) none (Function.update σ i (σ i ++ [elem]))
  | popFront {i : ι} {elem : α} {xs : List α} (hσ : σ i = elem :: xs) :
    Effect ls σ (.popFront i) (some elem) (Function.update σ i xs)
  | popBack {i : ι} {elem : α} {xs : List α} (hσ : σ i = xs ++ [elem]) :
    Effect ls σ (.popBack i) (some elem) (Function.update σ i xs)
  | reverse {i : ι} : Effect ls σ (.reverse i) none (Function.update σ i (σ i).reverse)
  | unique {i : ι} {duplicates : Option ι} {less : α → α → Bool} (hd : duplicates ≠ some i) :
    Effect ls σ (.unique i duplicates less) none
      (uniqueEffect σ i duplicates (kept less (σ i)) (dropped less (σ i)))

/-- The nodes that a call names, a list by its head. -/
def Op.names (ls : ι → KList α) : Op ι α → List α
  | insert before elem => [before, elem]
  | splice before first last => [before, first, last]
  | remove elem => [elem]
  | pushFront list elem => [(ls list).head, elem]
  | pushBack list elem => [(ls list).head, elem]
  | popFront list => [(ls list).head]
  | popBack list => [(ls list).head]
  | reverse list => [(ls list).head]
  | unique list duplicates _ => (ls list).head :: (duplicates.map fun j => (ls j).head).toList

/-- The call does not name `x`, nor any node of the list that `x` is in. -/
def Unrelated (ls : ι → KList α) (σ : ι → List α) (op : Op ι α) (x : α) : Prop :=
  x ∉ op.names ls ∧ ∀ i, x ∈ nodes (ls i) (σ i) → ∀ y ∈ op.names ls, y ∉ nodes (ls i) (σ i)

/-! ## Places in a list -/

/-- The place between `xs` and `ys`: `a` is the node before it and `b` the one
after, either of which may be a sentinel. -/
structure Seam (l : KList α) (xs ys us : List α) (a b : α) (vs : List α) : Prop where
  left : l.head :: xs = us ++ [a]
  right : ys ++ [l.tail] = b :: vs

section
variable {α : Type*} {l : KList α} {a b before : α} {xs ms ys us vs : List α}

theorem exists_seam (l : KList α) (xs ys : List α) : ∃ us a b vs, Seam l xs ys us a b vs := by
  obtain ⟨us, a, hl⟩ : ∃ us a, l.head :: xs = us ++ [a] :=
    ⟨_, _, (List.dropLast_append_getLast (List.cons_ne_nil l.head xs)).symm⟩
  obtain ⟨b, vs, hr⟩ := List.exists_cons_of_ne_nil (List.append_ne_nil_of_right_ne_nil ys (List.cons_ne_nil l.tail []))
  exact ⟨us, a, b, vs, hl, hr⟩

theorem Seam.nodes (hs : Seam l xs ys us a b vs) (ms : List α) :
    nodes l (xs ++ ms ++ ys) = us ++ a :: ms ++ b :: vs := by
  have he : LibKernel.nodes l (xs ++ ms ++ ys) = l.head :: xs ++ ms ++ (ys ++ [l.tail]) := by simp [LibKernel.nodes]
  rw [he, hs.left, hs.right]
  simp

theorem Seam.nodes_nil (hs : Seam l xs ys us a b vs) : LibKernel.nodes l (xs ++ ys) = us ++ a :: b :: vs := by
  simpa using hs.nodes []

end

theorem insertBefore_eq {before t : α} {xs : List α} (hb : before ∈ xs ++ [t]) :
    ∃ cs ds vs, xs = cs ++ ds ∧ ds ++ [t] = before :: vs ∧ ∀ ms, insertBefore before ms xs = cs ++ ms ++ ds := by
  have hv : ∃ vs, xs.dropWhile (· ≠ before) ++ [t] = before :: vs := by
    induction xs with
    | nil =>
      obtain rfl : before = t := by simpa using hb
      exact ⟨[], rfl⟩
    | cons x xs ih =>
      by_cases hx : x = before
      · subst hx
        exact ⟨xs ++ [t], by simp⟩
      · have hb' : before ∈ xs ++ [t] := by
          rw [List.cons_append, List.mem_cons] at hb
          exact hb.resolve_left fun he => hx he.symm
        obtain ⟨vs, hvs⟩ := ih hb'
        exact ⟨vs, by rwa [List.dropWhile_cons_of_pos (by simpa using hx)]⟩
  obtain ⟨vs, hv⟩ := hv
  exact ⟨_, _, vs, (List.takeWhile_append_dropWhile ..).symm, hv, fun ms => rfl⟩

/-! ## A change to one list -/

section
variable {ι α : Type*} {h h' : Heap α} {ls : ι → KList α} {σ : ι → List α} {i j : ι} {e : α} {xs : List α}

theorem Represents.not_mem (hr : Represents h ls σ) (hx : e ∈ nodes (ls i) (σ i)) (hj : j ≠ i) :
    e ∉ nodes (ls j) (σ j) := fun hm => hj (hr.apart j i e hm hx)

theorem Represents.change [DecidableEq ι] (hr : Represents h ls σ) (hc : Closed h' (nodes (ls i) xs))
    (hm : ∀ x ∈ xs, x ∈ nodes (ls i) (σ i) ∨ Free ls σ x)
    (hf : ∀ j, j ≠ i → ∀ x ∈ nodes (ls j) (σ j), h' x = h x) : Represents h' ls (Function.update σ i xs) := by
  -- a node of the changed list is in no other
  have hi : ∀ x ∈ nodes (ls i) xs, ∀ j, x ∈ nodes (ls j) (σ j) → i = j := by
    intro x hx j hj
    have hcases : x ∈ nodes (ls i) (σ i) ∨ Free ls σ x := by
      unfold nodes at hx
      rw [List.mem_cons, List.mem_append, List.mem_singleton] at hx
      obtain rfl | hx | rfl := hx
      · exact .inl List.mem_cons_self
      · exact hm x hx
      · exact .inl (by simp [nodes])
    obtain hx | hx := hcases
    · exact hr.apart i j x hx hj
    · exact absurd hj (hx j)
  refine ⟨fun j => ?_, fun j k x hj hk => ?_⟩
  · by_cases hji : j = i
    · subst hji
      rw [Function.update_self]
      exact hc
    · rw [Function.update_of_ne hji]
      exact (hr.closed j).frame (hf j hji)
  · by_cases hji : j = i
    · subst hji
      rw [Function.update_self] at hj
      by_cases hki : k = j
      · exact hki.symm
      · rw [Function.update_of_ne hki] at hk
        exact hi x hj k hk
    · rw [Function.update_of_ne hji] at hj
      by_cases hki : k = i
      · subst hki
        rw [Function.update_self] at hk
        exact (hi x hk j hj).symm
      · rw [Function.update_of_ne hki] at hk
        exact hr.apart j k x hj hk

end

section
variable {h : Heap α} {ls : ι → KList α} {σ : ι → List α} {i : ι} {a b p q : α} {xs ms ys us vs : List α}

/-- The nodes between `xs` and `ys` leave the list. -/
theorem Represents.cut (hr : Represents h ls σ) (hσ : σ i = xs ++ ms ++ ys) (hs : Seam (ls i) xs ys us a b vs) :
    Represents (link h a b) ls (Function.update σ i (xs ++ ys)) := by
  have hn := hs.nodes ms
  rw [← hσ] at hn
  have ha : a ∈ nodes (ls i) (σ i) := by rw [hn]; simp
  have hb : b ∈ nodes (ls i) (σ i) := by rw [hn]; simp
  have hc := hr.closed i
  rw [hn] at hc
  refine hr.change (hs.nodes_nil ▸ hc.cut) (fun x hx => .inl ?_) (fun j hj x hx => ?_)
  · rw [hσ]
    unfold nodes
    simp only [List.mem_append, List.mem_cons] at hx ⊢
    tauto
  · exact link_of_ne (fun he => hr.not_mem ha hj (he ▸ hx)) (fun he => hr.not_mem hb hj (he ▸ hx))

/-- Free nodes that are a row come in between `xs` and `ys`. -/
theorem Represents.paste (hr : Represents h ls σ) (hm : Row h ms) (hd : ms.Nodup) (hfree : ∀ x ∈ ms, Free ls σ x)
    (hσ : σ i = xs ++ ys) (hs : Seam (ls i) xs ys us a b vs) (hp : ms.head? = some p) (hq : ms.getLast? = some q) :
    Represents (link (link h a p) q b) ls (Function.update σ i (xs ++ ms ++ ys)) := by
  have hn := hs.nodes_nil
  rw [← hσ] at hn
  have ha : a ∈ nodes (ls i) (σ i) := by rw [hn]; simp
  have hb : b ∈ nodes (ls i) (σ i) := by rw [hn]; simp
  have hc := hr.closed i
  rw [hn] at hc
  have hnd : (us ++ a :: ms ++ b :: vs).Nodup := by
    have hperm : (us ++ a :: ms ++ b :: vs).Perm (ms ++ (us ++ a :: b :: vs)) := by
      have hperm := List.perm_append_comm_assoc (us ++ [a]) ms (b :: vs)
      simpa using hperm
    rw [hperm.nodup_iff]
    exact List.nodup_append.mpr ⟨hd, hc.nodup, fun x hx y hy he => hfree x hx i (by rw [hn, he]; exact hy)⟩
  have hpf := hfree p (List.mem_of_mem_head? hp)
  have hqf := hfree q (List.mem_of_mem_getLast? hq)
  refine hr.change (hs.nodes ms ▸ hc.paste hm hp hq hnd) (fun x hx => ?_) (fun j hj x hx => ?_)
  · by_cases hx' : x ∈ ms
    · exact .inr (hfree x hx')
    · refine .inl ?_
      rw [hσ]
      unfold nodes
      simp only [List.mem_append, List.mem_cons] at hx ⊢
      tauto
  · have hxa : x ≠ a := fun he => hr.not_mem ha hj (he ▸ hx)
    have hxb : x ≠ b := fun he => hr.not_mem hb hj (he ▸ hx)
    have hxp : x ≠ p := fun he => hpf j (he ▸ hx)
    have hxq : x ≠ q := fun he => hqf j (he ▸ hx)
    rw [link_of_ne hxq hxb, link_of_ne hxa hxp]

end

end PintosKaist.LibKernel
