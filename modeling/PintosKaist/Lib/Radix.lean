/-
Radix trees in a memory of nodes: a node has an entry for every index, and an
entry may lead to a node. A key is a path of indices from the root, and what
the tree gives for it is what the last entry leads to.

In a tree of depth `d` no node is reached over two paths of `d` indices or
fewer. Then a write to one entry changes what one path leads to, and no other.
What is below a node, entry by entry, comes in the order of the indices
(`below_pairwise`).
-/
import Mathlib.Data.List.Basic
import Mathlib.Data.List.Induction
import Mathlib.Logic.Function.Basic

namespace PintosKaist.Radix

variable {A I E : Type*} {child : E → Option A} {mem mem' : A → I → E} {root t u : A} {p q : List I} {i : I} {d : Nat}

/-- Where a path leads. -/
def node (child : E → Option A) (mem : A → I → E) : A → List I → Option A
  | t, [] => some t
  | t, i :: p => (child (mem t i)).bind fun u => node child mem u p

/-- No node is reached over two paths of `d` indices or fewer. -/
def Tree (child : E → Option A) (mem : A → I → E) (root : A) (d : Nat) : Prop :=
  ∀ p q t, p.length ≤ d → q.length ≤ d → node child mem root p = some t → node child mem root q = some t → p = q

theorem node_append : node child mem root (p ++ q) = (node child mem root p).bind fun t => node child mem t q := by
  induction p generalizing root with
  | nil => rfl
  | cons i p ih =>
    simp only [List.cons_append, node, Option.bind_assoc]
    exact congrArg _ (funext fun u => ih)

theorem node_concat : node child mem root (p ++ [i]) = (node child mem root p).bind fun t => child (mem t i) := by
  rw [node_append]
  refine congrArg _ (funext fun t => ?_)
  simp only [node, Option.bind_fun_some]

/-- What `g` gives for the entries of a node that lead somewhere, in the order
of `is`. -/
def below {B : Type*} (child : E → Option A) (mem : A → I → E) (is : List I) (g : I → A → List B) (t : A) : List B :=
  is.flatMap fun i => (child (mem t i)).elim [] (g i)

section Below

variable {B : Type*} {is : List I} {g : I → A → List B} {x : B}

theorem mem_below (his : ∀ i, i ∈ is) :
    x ∈ below child mem is g t ↔ ∃ i u, child (mem t i) = some u ∧ x ∈ g i u := by
  unfold below
  rw [List.mem_flatMap]
  constructor
  · rintro ⟨i, -, hx⟩
    cases hc : child (mem t i) with
    | none =>
      rw [hc] at hx
      cases hx
    | some u =>
      rw [hc] at hx
      exact ⟨i, u, hc, hx⟩
  · rintro ⟨i, u, hc, hx⟩
    refine ⟨i, his i, ?_⟩
    rw [hc]
    exact hx

/-- What comes from the entries in their order is in order, when what comes
from each of them is. -/
theorem below_pairwise {R : B → B → Prop} {r : I → I → Prop} (his : is.Pairwise r)
    (hg : ∀ i u, child (mem t i) = some u → (g i u).Pairwise R)
    (hr : ∀ i j u v, r i j → ∀ x ∈ g i u, ∀ y ∈ g j v, R x y) : (below child mem is g t).Pairwise R := by
  unfold below
  rw [List.pairwise_flatMap]
  constructor
  · intro i _
    cases hc : child (mem t i) with
    | none => exact .nil
    | some u => exact hg i u hc
  · refine his.imp fun {i j} hij => ?_
    intro x hx y hy
    cases hi : child (mem t i) with
    | none =>
      rw [hi] at hx
      cases hx
    | some u =>
      cases hj : child (mem t j) with
      | none =>
        rw [hj] at hy
        cases hy
      | some v =>
        rw [hi] at hx
        rw [hj] at hy
        exact hr i j u v hij x hx y hy

end Below

/-- The memory `mem'` is `mem` but for the entry `i` of the node `t`, which the
path `p` leads to; an entry above the last level led nowhere before, and now
to an empty node. -/
structure Written (child : E → Option A) (mem mem' : A → I → E) (root : A) (d : Nat) (p : List I) (t : A) (i : I) :
    Prop where
  at_path : node child mem root p = some t
  length_le : p.length ≤ d
  elsewhere : ∀ q u, q.length ≤ d → node child mem root q = some u → u ≠ t → mem' u = mem u
  others : ∀ j, j ≠ i → mem' t j = mem t j
  absent : p.length < d → child (mem t i) = none
  empty : p.length < d → ∀ u, child (mem' t i) = some u → ∀ j, child (mem' u j) = none
  fresh : p.length < d → ∀ u, child (mem' t i) = some u → ∀ q, q.length ≤ d → node child mem root q ≠ some u

/-- **A write changes one path.** -/
theorem Written.node_eq [DecidableEq I] (w : Written child mem mem' root d p t i) (tr : Tree child mem root d) :
    ∀ q, q.length ≤ d + 1 →
      node child mem' root q = if q = p ++ [i] then child (mem' t i) else node child mem root q := by
  intro q
  induction q using List.reverseRecOn with
  | nil =>
    intro _
    rw [if_neg (by simp)]
    rfl
  | append_singleton q j ih =>
    intro hlen
    have hq : q.length ≤ d := by simpa using hlen
    have ih := ih (by omega)
    rw [node_concat, node_concat, ih]
    by_cases hqp : q = p ++ [i]
    · -- below the node that was hung there is nothing, as there was before
      have hlt : p.length < d := by
        rw [hqp, List.length_append, List.length_singleton] at hq
        omega
      have hne : q ++ [j] ≠ p ++ [i] := fun he => by
        have := congrArg List.length (hqp ▸ he)
        simp at this
      rw [if_pos hqp, if_neg hne, hqp, node_concat, w.at_path, Option.bind_some, w.absent hlt]
      cases hc : child (mem' t i) with
      | none => rfl
      | some u => exact w.empty hlt u hc j
    · rw [if_neg hqp]
      cases hn : node child mem root q with
      | none =>
        have hne : q ++ [j] ≠ p ++ [i] := fun he => by
          obtain ⟨rfl, -⟩ := List.append_inj' he rfl
          rw [w.at_path] at hn
          cases hn
        rw [if_neg hne]
        rfl
      | some u =>
        simp only [Option.bind_some]
        by_cases hut : u = t
        · subst hut
          obtain rfl := tr _ _ _ hq w.length_le hn w.at_path
          by_cases hj : j = i
          · rw [hj, if_pos rfl]
          · rw [if_neg (by simp [hj]), w.others j hj]
        · have hne : q ++ [j] ≠ p ++ [i] := fun he => by
            obtain ⟨rfl, -⟩ := List.append_inj' he rfl
            rw [w.at_path] at hn
            exact hut (Option.some.inj hn).symm
          rw [if_neg hne, w.elsewhere q u hq hn hut]

/-- A write keeps a tree a tree. -/
theorem Written.tree [DecidableEq I] (w : Written child mem mem' root d p t i) (tr : Tree child mem root d) :
    Tree child mem' root d := by
  intro q r u hq hr hqu hru
  rw [w.node_eq tr q (by omega)] at hqu
  rw [w.node_eq tr r (by omega)] at hru
  have hlt {x : List I} (hx : x.length ≤ d) (he : x = p ++ [i]) : p.length < d := by
    rw [he, List.length_append, List.length_singleton] at hx
    omega
  by_cases hqp : q = p ++ [i]
  · rw [if_pos hqp] at hqu
    by_cases hrp : r = p ++ [i]
    · rw [hqp, hrp]
    · rw [if_neg hrp] at hru
      exact absurd hru (w.fresh (hlt hq hqp) u hqu r hr)
  · rw [if_neg hqp] at hqu
    by_cases hrp : r = p ++ [i]
    · rw [if_pos hrp] at hru
      exact absurd hqu (w.fresh (hlt hr hrp) u hru q hq)
    · rw [if_neg hrp] at hru
      exact tr q r u hq hr hqu hru

/-- The memory `mem'` is `mem` but for the entry `i` of the node `t`, which the
path `p` leads to and which now leads nowhere, and for the node it led to. -/
structure Cut (child : E → Option A) (mem mem' : A → I → E) (root : A) (d : Nat) (p : List I) (t : A) (i : I) :
    Prop where
  at_path : node child mem root p = some t
  length_lt : p.length < d
  gone : child (mem' t i) = none
  elsewhere : ∀ q u j, q.length ≤ d → node child mem root q = some u → q ≠ p ++ [i] → (u ≠ t ∨ j ≠ i) →
    child (mem' u j) = child (mem u j)

/-- **A cut takes away the paths over the entry**, and no other. -/
theorem Cut.node_eq [DecidableEq I] (c : Cut child mem mem' root d p t i) (tr : Tree child mem root d) :
    ∀ q, q.length ≤ d + 1 → node child mem' root q = if p ++ [i] <+: q then none else node child mem root q := by
  intro q
  induction q using List.reverseRecOn with
  | nil =>
    intro _
    rw [if_neg (by simp)]
    rfl
  | append_singleton q j ih =>
    intro hlen
    have hq : q.length ≤ d := by simpa using hlen
    have hconcat : p ++ [i] <+: q ++ [j] ↔ p ++ [i] = q ++ [j] ∨ p ++ [i] <+: q := List.prefix_concat_iff
    rw [node_concat, node_concat, ih (by omega)]
    by_cases hpre : p ++ [i] <+: q
    · rw [if_pos hpre, if_pos (hconcat.mpr (.inr hpre))]
      rfl
    · rw [if_neg hpre]
      have hne : q ≠ p ++ [i] := fun he => hpre (he ▸ List.prefix_rfl)
      cases hn : node child mem root q with
      | none => simp
      | some u =>
        simp only [Option.bind_some]
        by_cases hat : p ++ [i] = q ++ [j]
        · obtain ⟨rfl, hij⟩ := List.append_inj' hat rfl
          obtain rfl := Option.some.inj (hn.symm.trans c.at_path)
          obtain rfl := List.singleton_inj.mp hij
          rw [if_pos List.prefix_rfl, c.gone]
        · rw [if_neg fun h => (hconcat.mp h).elim hat hpre]
          refine c.elsewhere q u j hq hn hne ?_
          rw [← not_and_or]
          rintro ⟨rfl, rfl⟩
          exact hat (by rw [tr q p u hq (Nat.le_of_lt c.length_lt) hn c.at_path])

end PintosKaist.Radix
