/-
What each operation of `lib/kernel/list.c` does to the links, told as joins of
two nodes.
-/
import PintosKaist.LibKernel.List

namespace PintosKaist.LibKernel

open Linked

section
variable {α : Type*} {h : Heap α} {a b e p : α}

theorem before_ok (hp : (h b).prev = some p) : (isInterior h b || isTail h b) = true := by
  unfold isInterior isTail
  rw [hp]
  cases (h b).next <;> rfl

theorem interior_ok (hp : (h e).prev = some a) (hn : (h e).next = some b) : isInterior h e = true := by
  unfold isInterior
  rw [hp, hn]
  rfl

theorem listNext_eq (hn : (h e).next = some b) : listNext h e = some b := by
  unfold listNext
  have hok : (isHead h e || isInterior h e) = true := by
    unfold isHead isInterior
    rw [hn]
    cases (h e).prev <;> rfl
  rw [if_pos hok, hn]

theorem listPrev_eq (hp : (h e).prev = some p) : listPrev h e = some p := by
  unfold listPrev
  rw [if_pos (before_ok hp), hp]

end

section
variable {α : Type*} [DecidableEq α] {h : Heap α} {a b c e p q x : α} {xs ys : List α}

/-- `list_insert` joins the new node to what was before `before`, and to
`before`. -/
theorem listInsert_eq (hp : (h b).prev = some p) (hb : e ≠ b) (hpe : e ≠ p) :
    listInsert h b e = some (link (link h p e) e b) := by
  unfold listInsert
  rw [if_pos (before_ok hp)]
  have hp' : (setNext (setPrev h e (h b).prev) e (some b) b).prev = some p := by
    rw [setNext_prev, setPrev_prev, if_neg hb.symm, hp]
  simp only [hp', Option.bind_eq_bind, Option.bind_some, Option.some.injEq]
  refine heap_ext (fun x => ?_) (fun x => ?_)
  · simp only [setPrev_next, setNext_next, link_next]
    by_cases hx : x = p
    · subst hx
      rw [if_pos rfl, if_neg hpe.symm, if_pos rfl]
    · rw [if_neg hx, if_neg hx]
  · rw [setPrev_prev, setNext_prev, setNext_prev, setPrev_prev, link_prev, link_prev, hp]

/-- `list_remove` joins the two neighbours of the node. -/
theorem listRemove_eq (hp : (h e).prev = some a) (hn : (h e).next = some b) (ha : e ≠ a) :
    listRemove h e = some (some b, link h a b) := by
  unfold listRemove
  rw [if_pos (interior_ok hp hn)]
  have hn' : (setNext h a (some b) e).next = some b := by rw [setNext_next, if_neg ha, hn]
  simp only [hp, hn, hn', Option.bind_eq_bind, Option.bind_some, setNext_prev, setPrev_next]
  rfl

theorem listSplice_self (hp : (h b).prev = some p) : listSplice h b a a = some h := by
  unfold listSplice
  rw [if_pos (before_ok hp), if_pos rfl]

/-- `list_splice` of the nodes from `p` to `q`: their outer neighbours are
joined, and then they are between `before` and what was before it. -/
theorem listSplice_eq {before last : α} (hb : (h before).prev = some x) (hne : p ≠ last)
    (hlast : (h last).prev = some q) (hp : (h p).prev = some a) (hpn : ((h p).next).isSome)
    (hq : (h q).next = some last) (hqp : ((h q).prev).isSome) (haq : q ≠ a)
    (hc : (link h a last before).prev = some c) (hpb : p ≠ before) (hqc : q ≠ c) :
    listSplice h before p last = some (link (link (link h a last) c p) q before) := by
  obtain ⟨n, hn⟩ := Option.isSome_iff_exists.mp hpn
  obtain ⟨m, hm⟩ := Option.isSome_iff_exists.mp hqp
  unfold listSplice
  rw [if_pos (before_ok hb), if_neg hne]
  simp only [listPrev_eq hlast, Option.bind_eq_bind, Option.bind_some, interior_ok hp hn, interior_ok hm hq,
    Bool.and_true, if_true, hp, hq]
  have hq' : (setNext h a (some last) q).next = some last := by rw [setNext_next, if_neg haq, hq]
  simp only [hq', Option.bind_some, setNext_prev, hp]
  have hlink : setPrev (setNext h a (some last)) last (some a) = link h a last := rfl
  have hc' : (setNext (setPrev (link h a last) p (link h a last before).prev) q (some before) before).prev =
      some c := by
    rw [setNext_prev, setPrev_prev, if_neg hpb.symm, hc]
  rw [setNext_prev] at hc'
  simp only [hlink, hc', Option.bind_some, Option.some.injEq]
  refine heap_ext (fun x => ?_) (fun x => ?_)
  · simp only [setPrev_next, setNext_next, link_next]
    by_cases hx : x = c
    · subst hx
      rw [if_pos rfl, if_neg hqc.symm, if_pos rfl]
    · rw [if_neg hx, if_neg hx]
  · simp only [setPrev_prev, setNext_prev, link_prev]
    rw [← link_prev, hc]

/-! ## The loop of `list_reverse` -/

theorem swapLinks_self : swapLinks h e e = ⟨(h e).next, (h e).prev⟩ := by
  unfold swapLinks
  ext1
  · rw [setNext_prev, setPrev_prev, if_pos rfl]
  · rw [setNext_next, if_pos rfl]

theorem swapLinks_of_ne (hx : x ≠ e) : swapLinks h e x = h x := by
  unfold swapLinks
  ext1
  · rw [setNext_prev, setPrev_prev, if_neg hx]
  · rw [setNext_next, if_neg hx, setPrev_next]

/-- The walk along a row up to the tail turns each node it passes, and no
other. -/
theorem reverseLoop_eq {list : KList α} {fuel : Nat} (hf : xs.length < fuel)
    (hr : Row h (xs ++ [list.tail])) (hd : (xs ++ [list.tail]).Nodup) (he : (xs ++ [list.tail]).head? = some e) :
    ∃ h', reverseLoop list fuel h e = some h' ∧ (∀ x ∈ xs, h' x = ⟨(h x).next, (h x).prev⟩) ∧
      ∀ x ∉ xs, h' x = h x := by
  induction xs generalizing h e fuel with
  | nil =>
    obtain ⟨fuel, rfl⟩ : ∃ n, fuel = n + 1 := ⟨fuel - 1, by simp at hf; omega⟩
    obtain rfl : list.tail = e := by simpa using he
    refine ⟨h, ?_, by simp, fun x _ => rfl⟩
    unfold reverseLoop
    exact if_pos rfl
  | cons y xs ih =>
    obtain ⟨fuel, rfl⟩ : ∃ n, fuel = n + 1 := ⟨fuel - 1, by simp at hf; omega⟩
    obtain rfl : y = e := by simpa using he
    obtain ⟨hy, hd⟩ := List.nodup_cons.mp hd
    have hyt : y ≠ list.tail := fun he => hy (by simp [he])
    obtain ⟨n, ns, hn⟩ : ∃ n ns, xs ++ [list.tail] = n :: ns := List.exists_cons_of_ne_nil (by simp)
    have hadj : (h y).next = some n := by
      rw [List.cons_append, hn] at hr
      exact (row_cons_cons.mp hr).1.1
    have hne : ∀ x ∈ xs ++ [list.tail], x ≠ y := fun x hx he => hy (he ▸ hx)
    have hr' : Row (swapLinks h y) (xs ++ [list.tail]) :=
      (show Row h ([y] ++ (xs ++ [list.tail])) from hr).right.frame fun x hx => swapLinks_of_ne (hne x hx)
    obtain ⟨h', hrun, hin, hout⟩ := ih (by simpa using hf) hr' hd (by rw [hn]; rfl)
    refine ⟨h', ?_, fun x hx => ?_, fun x hx => ?_⟩
    · unfold reverseLoop
      rw [if_neg (show y ≠ listEnd list from hyt)]
      simp only [swapLinks_self, hadj, Option.bind_eq_bind, Option.bind_some]
      exact hrun
    · obtain rfl | hx := List.mem_cons.mp hx
      · rw [hout x fun m => hy (List.mem_append_left _ m), swapLinks_self]
      · rw [hin x hx, swapLinks_of_ne (hne x (List.mem_append_left _ hx))]
    · rw [List.mem_cons, not_or] at hx
      rw [hout x hx.2, swapLinks_of_ne hx.1]

end

end PintosKaist.LibKernel
