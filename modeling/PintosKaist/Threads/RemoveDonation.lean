/-
`remove_donation_for_lock` on the links of the list of donations.

`list_remove` leaves the links of the node it takes out as they were, so
`list_next` of that node still leads on in the list (`removeTurn_removed`).
-/
import PintosKaist.Lib.While
import PintosKaist.LibKernel.ListLoops

namespace PintosKaist.LibKernel

open Linked While

section

variable {α L : Type*} [DecidableEq α] [DecidableEq L]

/-- A turn of the loop of `remove_donation_for_lock`; `lockOf` is the lock of
the donation that a node is in. -/
def removeTurn (lockOf : α → L) (lock : L) (donations : KList α) (s : Heap α × α) : Option (ForInStep (Heap α × α)) :=
  match s with
  | (h, e) =>
    if e = listEnd donations then some (.done (h, e))
    else
      (if lockOf e = lock then (listRemove h e).map Prod.snd else some h).bind fun h =>
      (listNext h e).map fun e => .yield (h, e)

/-- `remove_donation_for_lock`, with the donations of the current thread. -/
def removeDonationForLock (fuel : Nat) (lockOf : α → L) (lock : L) (donations : KList α) (h : Heap α) :
    Option (Heap α) :=
  (listBegin h donations).bind fun e =>
  (whileLoop (removeTurn lockOf lock donations) fuel (h, e)).map Prod.fst

end

variable {ι α L : Type*} [DecidableEq ι] [DecidableEq α] [DecidableEq L]
variable {h : Heap α} {ls : ι → KList α} {σ : ι → List α} {i : ι} {e : α} {xs ys : List α} {fuel : Nat}
variable {lockOf : α → L} {lock : L}

/-- A node that is taken out keeps its own links. -/
theorem listRemove_keeps (hr : Represents h ls σ) (hσ : σ i = xs ++ e :: ys) :
    ∃ h', listRemove h e = some (some (firstNode (ls i) ys), h') ∧ Represents h' ls (Function.update σ i (xs ++ ys)) ∧
      h' e = h e := by
  obtain ⟨h', hrun, hrep, -⟩ := listRemove_represents hr hσ (head?_firstNode (ls i) ys)
  refine ⟨h', hrun, hrep, ?_⟩
  obtain ⟨us, a, b, vs, hs⟩ := exists_seam (ls i) xs (e :: ys)
  obtain rfl : e = b := by simpa using congrArg List.head? hs.right
  have hadj : Adj h a e := hr.adj hσ hs
  have hnext := hr.adjacent hσ
  have hne : e ≠ a := by
    have hnd := (hr.closed i).nodup
    rw [hσ, hs.nodes_nil] at hnd
    exact fun heq => (List.nodup_cons.mp hnd.of_append_right).1 (heq ▸ List.mem_cons_self)
  have hσ' : σ i = xs ++ e :: ([] ++ ys) := hσ
  have hne' : e ≠ firstNode (ls i) ys := hr.ne_firstNode hσ'
  rw [listRemove_eq hadj.2 hnext.1 hne] at hrun
  obtain rfl := (Prod.mk.inj (Option.some.inj hrun)).2
  exact link_of_ne hne hne'

/-- The loop goes on behind a node that it has taken out. -/
theorem removeTurn_removed (hr : Represents h ls σ) (hσ : σ i = xs ++ e :: ys) (hlock : lockOf e = lock) :
    ∃ h', removeTurn lockOf lock (ls i) (h, e) = some (.yield (h', firstNode (ls i) ys)) ∧
      Represents h' ls (Function.update σ i (xs ++ ys)) := by
  obtain ⟨h', hrun, hrep, hkeep⟩ := listRemove_keeps hr hσ
  have hnext : listNext h' e = some (firstNode (ls i) ys) := listNext_eq (by rw [hkeep]; exact (hr.adjacent hσ).1)
  refine ⟨h', ?_, hrep⟩
  simp only [removeTurn, if_neg (hr.ne_end hσ), if_pos hlock, hrun, Option.map_some, Option.bind_some, hnext]

omit [DecidableEq ι] in
theorem removeTurn_kept (hr : Represents h ls σ) (hσ : σ i = xs ++ e :: ys) (hlock : lockOf e ≠ lock) :
    removeTurn lockOf lock (ls i) (h, e) = some (.yield (h, firstNode (ls i) ys)) := by
  simp only [removeTurn, if_neg (hr.ne_end hσ), if_neg hlock, Option.bind_some, listNext_eq (hr.adjacent hσ).1,
    Option.map_some]

theorem removeLoop_represents (lockOf : α → L) (lock : L) (hr : Represents h ls σ) (hσ : σ i = xs ++ ys)
    (hf : ys.length < fuel) :
    ∃ h' e', whileLoop (removeTurn lockOf lock (ls i)) fuel (h, firstNode (ls i) ys) = some (h', e') ∧
      Represents h' ls (Function.update σ i (xs ++ ys.filter fun e => decide (lockOf e ≠ lock))) := by
  induction ys generalizing h σ xs fuel with
  | nil =>
    obtain ⟨fuel, rfl⟩ : ∃ n, fuel = n + 1 := ⟨fuel - 1, by omega⟩
    exact ⟨h, _, whileLoop_done (if_pos rfl), hr.of_eq hσ.symm⟩
  | cons e ys ih =>
    obtain ⟨fuel, rfl⟩ : ∃ n, fuel = n + 1 := ⟨fuel - 1, by omega⟩
    have hf' : ys.length < fuel := Nat.lt_of_succ_lt_succ hf
    by_cases hlock : lockOf e = lock
    · obtain ⟨h₁, hturn, hrep₁⟩ := removeTurn_removed hr hσ hlock
      obtain ⟨h', e', hloop, hrep⟩ := ih hrep₁ (Function.update_self ..) hf'
      rw [Function.update_idem] at hrep
      refine ⟨h', e', (whileLoop_yield hturn).trans hloop, ?_⟩
      rwa [List.filter_cons_of_neg (by simpa using hlock)]
    · have hσ' : σ i = (xs ++ [e]) ++ ys := by rw [hσ]; simp
      obtain ⟨h', e', hloop, hrep⟩ := ih hr hσ' hf'
      refine ⟨h', e', (whileLoop_yield (removeTurn_kept hr hσ hlock)).trans hloop, ?_⟩
      rw [List.filter_cons_of_pos (by simpa using hlock)]
      simpa using hrep

/-- **`remove_donation_for_lock` keeps the donations for other locks**, in the
order they were in, and the list well formed: it ends, follows no NULL and fails
no assertion. -/
theorem removeDonationForLock_filters (lockOf : α → L) (lock : L) (hr : Represents h ls σ) (i : ι)
    (hf : (σ i).length < fuel) :
    ∃ h', removeDonationForLock fuel lockOf lock (ls i) h = some h' ∧
      Represents h' ls (Function.update σ i ((σ i).filter fun e => decide (lockOf e ≠ lock))) := by
  obtain ⟨h', e', hloop, hrep⟩ := removeLoop_represents lockOf lock hr (List.nil_append (σ i)).symm hf
  rw [List.nil_append] at hrep
  exact ⟨h', by rw [removeDonationForLock, hr.begin i, Option.bind_some, hloop, Option.map_some], hrep⟩

/-- The first of two donations is for the lock that is released. -/
theorem removeDonationForLock_filters_two : ∃ h',
    removeDonationForLock 3 (fun e => e) 2 ⟨0, 1⟩ twoNodes = some h' ∧
      Represents h' (fun _ : Unit => ⟨0, 1⟩)
        (Function.update (fun _ => [2, 3]) () ([2, 3].filter fun e => decide (e ≠ 2))) :=
  removeDonationForLock_filters (fun e => e) 2 twoNodes_represents () (by decide)

end PintosKaist.LibKernel
