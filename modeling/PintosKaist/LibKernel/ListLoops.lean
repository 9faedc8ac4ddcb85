/-
`list_reverse` and `list_unique`, which walk the list that they change, and
the theorem over all the operations of `lib/kernel/list.c`.
-/
import PintosKaist.LibKernel.ListOps

namespace PintosKaist.LibKernel

open Linked

variable {ι α : Type*} [DecidableEq ι] [DecidableEq α]
variable {h : Heap α} {ls : ι → KList α} {σ : ι → List α} {i : ι} {a b e : α} {xs : List α}

/-! ## What is left of a list -/

section

variable {ι α : Type*} {h : Heap α} {ls : ι → KList α} {σ : ι → List α} {i : ι} {e : α} {xs ys rest : List α}

/-- The node at the start of what is left of a list. -/
def firstNode (list : KList α) (l : List α) : α := l.headD list.tail

theorem head?_firstNode (list : KList α) (l : List α) : (l ++ [list.tail]).head? = some (firstNode list l) := by
  cases l <;> rfl

theorem Represents.adjacent (hr : Represents h ls σ) (hσ : σ i = xs ++ e :: ys) : Adj h e (firstNode (ls i) ys) := by
  obtain ⟨us, a, b, vs, hs⟩ := exists_seam (ls i) (xs ++ [e]) ys
  obtain rfl : b = firstNode (ls i) ys := by
    have hhead := head?_firstNode (ls i) ys
    rw [hs.right] at hhead
    exact Option.some.inj hhead
  obtain rfl : a = e := by
    have hl := hs.left
    rw [← List.cons_append] at hl
    simpa using (List.append_inj_right' hl rfl).symm
  exact hr.adj (by rw [hσ]; simp) hs

theorem Represents.nodup (hr : Represents h ls σ) (i : ι) : (σ i ++ [(ls i).tail]).Nodup :=
  (List.nodup_cons.mp (hr.closed i).nodup).2

theorem Represents.begin (hr : Represents h ls σ) (i : ι) : listBegin h (ls i) = some (firstNode (ls i) (σ i)) := by
  have hrow := (hr.closed i).row
  have hhead := head?_firstNode (ls i) (σ i)
  unfold nodes at hrow
  cases hl : σ i ++ [(ls i).tail] with
  | nil => simp at hl
  | cons b bs =>
    rw [hl] at hrow hhead
    obtain rfl := Option.some.inj hhead
    exact (row_cons_cons.mp hrow).1.1

/-- A node is not the start of what is behind it. -/
theorem Represents.ne_firstNode (hr : Represents h ls σ) (hσ : σ i = xs ++ e :: (ys ++ rest)) : e ≠ firstNode (ls i) rest := by
  intro heq
  have hnd := hr.nodup i
  have hmem : firstNode (ls i) rest ∈ rest ++ [(ls i).tail] := List.mem_of_mem_head? (head?_firstNode (ls i) rest)
  rw [hσ, List.append_assoc, List.cons_append, List.append_assoc] at hnd
  have hnot := (List.nodup_cons.mp hnd.of_append_right).1
  exact hnot (List.mem_append_right _ (heq ▸ hmem))

theorem Represents.ne_end (hr : Represents h ls σ) (hσ : σ i = xs ++ e :: ys) : e ≠ listEnd (ls i) := by
  rw [← List.append_nil ys] at hσ
  exact hr.ne_firstNode hσ

end

/-! ## `list_reverse` -/

omit [DecidableEq α] in
theorem Represents.of_eq (hr : Represents h ls σ) (he : xs = σ i) : Represents h ls (Function.update σ i xs) := by
  rw [he, Function.update_eq_self]
  exact hr

omit [DecidableEq ι] in
theorem Represents.empty (hr : Represents h ls σ) (he : σ i = []) : listEmpty h (ls i) = true := by
  have hrow := (hr.closed i).row
  unfold nodes at hrow
  rw [he] at hrow
  have hnext : (h (ls i).head).next = some (ls i).tail := (row_cons_cons.mp hrow).1.1
  unfold listEmpty listBegin listEnd
  rw [hnext]
  simp

/-- A list whose nodes are turned and whose ends are joined to the sentinels
again is the list reversed. -/
theorem Represents.turn {h' : Heap α} (hr : Represents h ls σ) (hf : (σ i).head? = some a)
    (hl : (σ i).getLast? = some b) (hin : ∀ x ∈ σ i, h' x = ⟨(h x).next, (h x).prev⟩)
    (hout : ∀ x ∉ σ i, h' x = h x) :
    Represents (link (link h' (ls i).head b) a (ls i).tail) ls (Function.update σ i (σ i).reverse) := by
  have hc := hr.closed i
  have hnd := hc.nodup
  unfold nodes at hnd
  obtain ⟨hhead, hnd⟩ := List.nodup_cons.mp hnd
  obtain ⟨hnd, -, htail⟩ := List.nodup_append.mp hnd
  have hth : (ls i).head ≠ (ls i).tail := fun he => hhead (by simp [he])
  have hne : ∀ x ∈ σ i, x ≠ (ls i).head ∧ x ≠ (ls i).tail := fun x hx =>
    ⟨fun he => hhead (by rw [← he]; simp [hx]), htail x hx (ls i).tail (by simp)⟩
  have ha : a ∈ σ i := List.mem_of_mem_head? hf
  have hb : b ∈ σ i := List.mem_of_mem_getLast? hl
  -- the list with nothing in it, and the turned row put in
  let h₁ := link h' (ls i).head (ls i).tail
  have hempty : Closed h₁ ([] ++ (ls i).head :: (ls i).tail :: []) := by
    refine closed_join (List.isChain_singleton _) (List.isChain_singleton _) (by simpa using hth)
      (fun c hm => ?_) (fun c hm => ?_)
    · obtain rfl : (ls i).head = c := by simpa using hm
      rw [hout _ fun m => (hne _ m).1 rfl]
      exact hc.first _ (by simp [nodes])
    · obtain rfl : (ls i).tail = c := by simpa using hm
      rw [hout _ fun m => (hne _ m).2 rfl]
      refine hc.last _ ?_
      unfold nodes
      rw [← List.cons_append]
      exact List.getLast?_concat ..
  have hrow : Row h₁ (σ i).reverse := by
    have hrow' := hc.row
    unfold nodes at hrow'
    have hrev := hrow'.tail.left.reverse hin
    refine hrev.frame fun x hx => ?_
    rw [List.mem_reverse] at hx
    exact link_of_ne (hne x hx).1 (hne x hx).2
  have hnd' : ([] ++ (ls i).head :: (σ i).reverse ++ (ls i).tail :: []).Nodup :=
    (((List.reverse_perm (σ i)).append_right _).cons _).nodup_iff.mpr hc.nodup
  have hpaste := hempty.paste hrow (by rw [List.head?_reverse]; exact hl) (by rw [List.getLast?_reverse]; exact hf)
    hnd'
  have hheap : link (link h₁ (ls i).head b) a (ls i).tail = link (link h' (ls i).head b) a (ls i).tail := by
    refine heap_ext (fun x => ?_) (fun x => ?_)
    · simp only [h₁, link_next]
      by_cases hx : x = (ls i).head
      · rw [if_pos hx, if_pos hx]
      · rw [if_neg hx, if_neg hx, if_neg hx]
    · simp only [h₁, link_prev]
      by_cases hx : x = (ls i).tail
      · rw [if_pos hx, if_pos hx]
      · rw [if_neg hx, if_neg hx, if_neg hx]
  rw [hheap] at hpaste
  refine hr.change (by simpa [nodes] using hpaste) (fun x hx => .inl ?_) (fun j hj x hx => ?_)
  · rw [List.mem_reverse] at hx
    simp [nodes, hx]
  · have hnot : ∀ y ∈ nodes (ls i) (σ i), x ≠ y := fun y hy he => hr.not_mem hy hj (he ▸ hx)
    have hx₁ : x ≠ (ls i).head := hnot _ (by simp [nodes])
    have hx₂ : x ≠ (ls i).tail := hnot _ (by simp [nodes])
    have hx₃ : x ≠ a := hnot a (by simp [nodes, ha])
    have hx₄ : x ≠ b := hnot b (by simp [nodes, hb])
    have hx₅ : x ∉ σ i := fun m => hnot x (by simp [nodes, m]) rfl
    rw [link_of_ne hx₃ hx₂, link_of_ne hx₁ hx₄, hout x hx₅]

theorem listReverse_represents {fuel : Nat} (hr : Represents h ls σ) (hfuel : (σ i).length < fuel) :
    ∃ h', listReverse h fuel (ls i) = some h' ∧ Represents h' ls (Function.update σ i (σ i).reverse) ∧
      ∀ x, x ∉ nodes (ls i) (σ i) → h' x = h x := by
  by_cases hnil : σ i = []
  · refine ⟨h, ?_, hr.of_eq (by rw [hnil]; rfl), fun _ _ => rfl⟩
    unfold listReverse
    rw [if_pos (hr.empty hnil)]
  obtain ⟨a, ha⟩ : ∃ a, (σ i).head? = some a := ⟨_, List.head?_eq_some_head hnil⟩
  obtain ⟨b, hb⟩ : ∃ b, (σ i).getLast? = some b := ⟨_, List.getLast?_eq_some_getLast hnil⟩
  obtain ⟨hne, hfirst, hlast⟩ := hr.ends ha hb
  have hc := hr.closed i
  obtain ⟨hhead, hnd⟩ := List.nodup_cons.mp hc.nodup
  have hhd : (σ i ++ [(ls i).tail]).head? = some a := by rw [List.head?_append, ha]; rfl
  obtain ⟨h', hloop, hin, hout⟩ := reverseLoop_eq hfuel hc.row.tail hnd hhd
  have htail : ∀ x ∈ σ i, x ≠ (ls i).tail := fun x hx => (List.nodup_append.mp hnd).2.2 x hx _ (by simp)
  have ham : a ∈ σ i := List.mem_of_mem_head? ha
  have hbm : b ∈ σ i := List.mem_of_mem_getLast? hb
  -- the links at the ends: the sentinels' own are as before the loop
  have hh : (h' (ls i).head).next = some a := by
    rw [hout _ fun m => hhead (by simp [m]), hfirst]
  have ht : (h' (ls i).tail).prev = some b := by
    rw [hout _ fun m => htail _ m rfl, hlast]
  have hap : (h' a).next = some (ls i).head := by
    rw [hin a ham]
    obtain ⟨xs, hx⟩ := List.head?_eq_some_iff.mp ha
    have hrow := hc.row
    unfold nodes at hrow
    rw [hx] at hrow
    exact (row_cons_cons.mp hrow).1.2
  have hbn : (h' b).prev = some (ls i).tail := by
    rw [hin b hbm]
    obtain ⟨ys, hy⟩ := List.getLast?_eq_some_iff.mp hb
    have hrow := hc.row.tail
    rw [hy, List.append_assoc] at hrow
    exact hrow.adj.1
  have hha : a ≠ (ls i).head := fun he => hhead (by rw [← he]; simp [ham])
  refine ⟨_, ?_, hr.turn ha hb hin hout, fun x hx => ?_⟩
  · unfold listReverse listBegin
    rw [if_neg (by rw [hne]; simp), hfirst]
    simp only [Option.bind_eq_bind, Option.bind_some, hloop, setPrev_next, setNext_next, setPrev_prev, setNext_prev,
      if_pos, hh, ht, hap, hbn, if_neg hha, if_neg (htail b hbm), Option.some.injEq]
    refine heap_ext (fun x => ?_) (fun x => ?_)
    · simp only [setPrev_next, setNext_next, link_next]
    · simp only [setPrev_prev, setNext_prev, link_prev]
      by_cases hx : x = b
      · subst hx
        rw [if_pos rfl, if_neg (htail x hbm), if_pos rfl]
      · rw [if_neg hx, if_neg hx]
  · have hx₁ : x ≠ (ls i).head := fun he => hx (by simp [nodes, he])
    have hx₂ : x ≠ (ls i).tail := fun he => hx (by simp [nodes, he])
    have hx₃ : x ≠ a := fun he => hx (by simp [nodes, he, ham])
    have hx₄ : x ≠ b := fun he => hx (by simp [nodes, he, hbm])
    rw [link_of_ne hx₃ hx₂, link_of_ne hx₁ hx₄, hout x fun m => hx (by simp [nodes, m])]

/-! ## `list_unique` -/

omit [DecidableEq ι] [DecidableEq α] in
theorem Represents.next (hr : Represents h ls σ) {ys : List α} (hσ : σ i = xs ++ e :: ys)
    (hb : (ys ++ [(ls i).tail]).head? = some b) : (h e).next = some b := by
  obtain ⟨us, a, b', vs, hs⟩ := exists_seam (ls i) (xs ++ [e]) ys
  obtain rfl : b' = b := by simpa [hs.right] using hb
  obtain rfl : a = e := by
    have hl := hs.left
    rw [← List.cons_append] at hl
    simpa using (List.append_inj_right' hl rfl).symm
  exact (hr.adj (by rw [hσ]; simp) hs).1

omit [DecidableEq α] in
theorem uniqueEffect_nil {duplicates : Option ι} : uniqueEffect σ i duplicates (σ i) [] = σ := by
  unfold uniqueEffect
  cases duplicates with
  | none => exact Function.update_eq_self ..
  | some j => simp only [Function.update_eq_self, List.append_nil]

omit [DecidableEq α] in
/-- One removed node, and the rest of the walk. -/
theorem uniqueEffect_cons {duplicates : Option ι} {ys zs : List α} (hd : duplicates ≠ some i) :
    uniqueEffect (uniqueEffect σ i duplicates xs [e]) i duplicates ys zs =
      uniqueEffect σ i duplicates ys (e :: zs) := by
  unfold uniqueEffect
  cases duplicates with
  | none => exact Function.update_idem ..
  | some j =>
    have hj : j ≠ i := fun he => hd (by rw [he])
    simp only [Function.update_of_ne hj, Function.update_self]
    rw [Function.update_comm hj, Function.update_idem, Function.update_idem, List.append_assoc]
    rfl

/-- A node that is taken out of a list, and put on the list of duplicates. -/
theorem unique_step {duplicates : Option ι} {ys : List α} (hr : Represents h ls σ) (hd : duplicates ≠ some i)
    (hσ : σ i = xs ++ e :: ys) :
    ∃ h₁ h', listRemove h e = some (((ys ++ [(ls i).tail]).head?), h₁) ∧
      pushDuplicate h₁ (duplicates.map ls) e = some h' ∧
      Represents h' ls (uniqueEffect σ i duplicates (xs ++ ys) [e]) ∧
      ∀ x, x ∉ nodes (ls i) (σ i) → (∀ j ∈ duplicates, x ∉ nodes (ls j) (σ j)) → h' x = h x := by
  obtain ⟨b, bs, hb⟩ : ∃ b bs, ys ++ [(ls i).tail] = b :: bs := List.exists_cons_of_ne_nil (by simp)
  have hb' : (ys ++ [(ls i).tail]).head? = some b := by rw [hb]; rfl
  obtain ⟨h₁, hrun, hrep, hf⟩ := listRemove_represents hr hσ hb'
  have hei : e ∈ nodes (ls i) (σ i) := by rw [hσ]; simp [nodes]
  cases duplicates with
  | none => exact ⟨h₁, h₁, by rw [hb']; exact hrun, rfl, hrep, fun x hx _ => hf x hx⟩
  | some j =>
    have hj : j ≠ i := fun he => hd (by rw [he])
    have hfree : Free ls (Function.update σ i (xs ++ ys)) e := by
      intro k hk
      by_cases hki : k = i
      · subst hki
        rw [Function.update_self] at hk
        have hnd := (hr.closed k).nodup
        unfold nodes at hnd hk
        rw [hσ] at hnd
        have hperm : ((ls k).head :: (xs ++ e :: ys ++ [(ls k).tail])).Perm
            (e :: ((ls k).head :: (xs ++ ys ++ [(ls k).tail]))) := by
          rw [List.append_assoc, List.append_assoc, List.cons_append]
          exact (List.perm_middle.cons _).trans (List.Perm.swap ..)
        exact (List.nodup_cons.mp (hperm.nodup_iff.mp hnd)).1 hk
      · rw [Function.update_of_ne hki] at hk
        exact hr.not_mem hei hki hk
    obtain ⟨h', hpush, hrep', hf'⟩ := listPushBack_represents (i := j) hrep hfree
    refine ⟨h₁, h', by rw [hb']; exact hrun, hpush, hrep', fun x hx hxj => ?_⟩
    have hxj' : x ∉ nodes (ls j) (Function.update σ i (xs ++ ys) j) := by
      rw [Function.update_of_ne hj]
      exact hxj j rfl
    rw [hf' x hxj' (ne_of_mem_of_not_mem hei hx).symm, hf x hx]

/-- By induction on the nodes that the walk has still to pass. -/
theorem uniqueLoop_represents {duplicates : Option ι} (less : α → α → Bool) {fuel : Nat} {ys : List α}
    (hr : Represents h ls σ) (hd : duplicates ≠ some i) (hσ : σ i = xs ++ e :: ys) (hfuel : ys.length < fuel) :
    ∃ h', uniqueLoop (ls i) (duplicates.map ls) less fuel h e = some h' ∧
      Represents h' ls (uniqueEffect σ i duplicates (xs ++ ys.destutter' (fun a b => ¬ Equal less a b) e)
        (stutters less e ys)) ∧
      ∀ x, x ∉ nodes (ls i) (σ i) → (∀ j ∈ duplicates, x ∉ nodes (ls j) (σ j)) → h' x = h x := by
  induction ys generalizing h σ xs e fuel with
  | nil =>
    obtain ⟨fuel, rfl⟩ : ∃ n, fuel = n + 1 := ⟨fuel - 1, by simp at hfuel; omega⟩
    refine ⟨h, ?_, ?_, fun _ _ _ => rfl⟩
    · unfold uniqueLoop
      have hend : listNext h e = some (listEnd (ls i)) := listNext_eq (hr.next hσ rfl)
      simp only [hend, Option.bind_eq_bind, Option.bind_some, if_true]
    · have he : uniqueEffect σ i duplicates (σ i) [] = σ := uniqueEffect_nil
      unfold stutters
      rw [List.destutter'_nil, ← hσ, he]
      exact hr
  | cons next ys ih =>
    obtain ⟨fuel, rfl⟩ : ∃ n, fuel = n + 1 := ⟨fuel - 1, by simp at hfuel; omega⟩
    have hfuel' : ys.length < fuel := by simpa using hfuel
    have hnext : listNext h e = some next := listNext_eq (hr.next hσ rfl)
    have hnt : next ≠ listEnd (ls i) := by
      intro he
      have hnd := (hr.closed i).nodup
      unfold nodes at hnd
      unfold listEnd at he
      rw [hσ, he] at hnd
      simp [List.nodup_append] at hnd
    unfold uniqueLoop
    simp only [hnext, Option.bind_eq_bind, Option.bind_some, if_neg hnt]
    by_cases heq : Equal less e next
    · have hσ' : σ i = (xs ++ [e]) ++ next :: ys := by rw [hσ]; simp
      obtain ⟨h₁, h₂, hrun, hpush, hrep, hf⟩ := unique_step hr hd hσ'
      have hσ₂ : uniqueEffect σ i duplicates (xs ++ [e] ++ ys) [next] i = xs ++ e :: ys := by
        unfold uniqueEffect
        cases duplicates with
        | none => simp
        | some j =>
          have hj : i ≠ j := fun he => hd (by rw [he])
          simp [Function.update_of_ne hj]
      obtain ⟨h', hloop, hrep', hf'⟩ := ih hrep hσ₂ hfuel'
      refine ⟨h', ?_, ?_, fun x hx hxd => ?_⟩
      · rw [if_pos (by simp [heq.1, heq.2])]
        simp only [hrun, Option.bind_some, hpush]
        exact hloop
      · rw [uniqueEffect_cons hd] at hrep'
        rw [List.destutter'_cons_neg _ (not_not.mpr heq)]
        unfold stutters
        rw [if_pos heq]
        exact hrep'
      · have hxn : x ≠ next := (ne_of_mem_of_not_mem (by rw [hσ]; simp [nodes]) hx).symm
        rw [hf' x ?_ ?_, hf x hx hxd]
        · rw [hσ₂]
          rw [hσ] at hx
          unfold nodes at hx ⊢
          simp only [List.mem_cons, List.mem_append] at hx ⊢
          tauto
        · intro j hj
          obtain rfl : duplicates = some j := hj
          have hji : j ≠ i := fun he => hd (by rw [he])
          have hxj := hxd j rfl
          unfold uniqueEffect
          simp only [Function.update_self, Function.update_of_ne hji]
          unfold nodes at hxj ⊢
          simp only [List.mem_cons, List.mem_append] at hxj ⊢
          tauto
    · obtain ⟨h', hloop, hrep', hf'⟩ := ih hr (show σ i = (xs ++ [e]) ++ next :: ys by rw [hσ]; simp) hfuel'
      refine ⟨h', ?_, ?_, hf'⟩
      · rw [if_neg (by simpa [Equal] using heq)]
        exact hloop
      · rw [List.destutter'_cons_pos _ heq]
        unfold stutters
        rw [if_neg heq]
        simpa using hrep'

theorem listUnique_represents {duplicates : Option ι} (less : α → α → Bool) {fuel : Nat}
    (hr : Represents h ls σ) (hd : duplicates ≠ some i) (hfuel : (σ i).length < fuel) :
    ∃ h', listUnique h fuel (ls i) (duplicates.map ls) less = some h' ∧
      Represents h' ls (uniqueEffect σ i duplicates (kept less (σ i)) (dropped less (σ i))) ∧
      ∀ x, x ∉ nodes (ls i) (σ i) → (∀ j ∈ duplicates, x ∉ nodes (ls j) (σ j)) → h' x = h x := by
  unfold listUnique
  cases hσ : σ i with
  | nil =>
    refine ⟨h, if_pos (hr.empty hσ), ?_, fun _ _ _ => rfl⟩
    have he : uniqueEffect σ i duplicates (σ i) [] = σ := uniqueEffect_nil
    rw [hσ] at he
    exact he.symm ▸ hr
  | cons a xs =>
    obtain ⟨b, hb⟩ : ∃ b, (σ i).getLast? = some b :=
      ⟨_, List.getLast?_eq_some_getLast (by rw [hσ]; exact List.cons_ne_nil a xs)⟩
    obtain ⟨hne, hfirst, -⟩ := hr.ends (a := a) (by rw [hσ]; rfl) hb
    rw [hσ] at hfuel
    obtain ⟨h', hloop, hrep, hf⟩ := uniqueLoop_represents less hr hd (show σ i = [] ++ a :: xs from hσ)
      (Nat.lt_of_succ_lt hfuel)
    rw [hσ] at hf
    refine ⟨h', ?_, hrep, hf⟩
    rw [if_neg (by rw [hne]; simp)]
    unfold listBegin
    rw [hfirst]
    exact hloop

/-! ## All the operations -/

omit [DecidableEq ι] [DecidableEq α] in
theorem Unrelated.not_mem {op : Op ι α} {x y : α} (hu : Unrelated ls σ op x) (hy : y ∈ op.names ls)
    (hm : y ∈ nodes (ls i) (σ i)) : x ∉ nodes (ls i) (σ i) := fun hx => hu.2 i hx y hy hm

/-- Over any number of well-formed lists: a call that is meant for them ends,
fails no assertion and follows no NULL, returns what it should, and leaves the
lists well formed, with the sequences it is to make of them, and all that has
nothing to do with the call as it was. -/
theorem list_refines {op : Op ι α} {r : Option α} {σ' : ι → List α} (hr : Represents h ls σ)
    (he : Effect ls σ op r σ') :
    ∃ n, ∀ fuel, n ≤ fuel → ∃ h', op.run ls fuel h = some (r, h') ∧ Represents h' ls σ' ∧
      ∀ x, Unrelated ls σ op x → h' x = h x := by
  cases he with
  | @insert i before elem hb hfree =>
    obtain ⟨cs, ds, vs, hσ, hds, hins⟩ := insertBefore_eq hb
    obtain ⟨h', hrun, hrep, hf⟩ := listInsert_represents hr hσ (by rw [hds]; rfl) hfree
    have hbn : before ∈ nodes (ls i) (σ i) := List.mem_cons_of_mem _ hb
    refine ⟨0, fun fuel _ => ⟨h', ?_, ?_, fun x hu => hf x (hu.not_mem (by simp [Op.names]) hbn) fun hx => ?_⟩⟩
    · simp only [Op.run, hrun, Option.map_some]
    · rw [hins, List.append_assoc]
      exact hrep
    · exact hu.1 (by simp [Op.names, hx])
  | @splice i j before first last xs ms ys hσ hf hl hb hm =>
    obtain ⟨h', hrun, hrep, hfr⟩ := listSplice_represents hr hσ hf hl hb hm
    have hbn : before ∈ nodes (ls j) (σ j) := List.mem_cons_of_mem _ hb
    have hfn : first ∈ nodes (ls i) (σ i) := by
      have hmem := List.mem_of_mem_head? hf
      unfold nodes
      rw [hσ]
      simp only [List.mem_cons, List.mem_append] at hmem ⊢
      tauto
    refine ⟨0, fun fuel _ => ⟨h', ?_, hrep, fun x hu => hfr x ?_ ?_⟩⟩
    · simp only [Op.run, hrun, Option.map_some]
    · exact hu.not_mem (by simp [Op.names]) hfn
    · exact hu.not_mem (by simp [Op.names]) hbn
  | @remove i elem next xs ys hσ hn =>
    obtain ⟨h', hrun, hrep, hf⟩ := listRemove_represents hr hσ hn
    have hen : elem ∈ nodes (ls i) (σ i) := by rw [hσ]; simp [nodes]
    exact ⟨0, fun fuel _ => ⟨h', hrun, hrep, fun x hu => hf x (hu.not_mem (by simp [Op.names]) hen)⟩⟩
  | @pushFront i elem hfree =>
    obtain ⟨h', hrun, hrep, hf⟩ := listPushFront_represents (i := i) hr hfree
    refine ⟨0, fun fuel _ => ⟨h', ?_, hrep, fun x hu => hf x ?_ fun hx => hu.1 (by simp [Op.names, hx])⟩⟩
    · simp only [Op.run, hrun, Option.map_some]
    · exact hu.not_mem (by simp [Op.names]) List.mem_cons_self
  | @pushBack i elem hfree =>
    obtain ⟨h', hrun, hrep, hf⟩ := listPushBack_represents (i := i) hr hfree
    refine ⟨0, fun fuel _ => ⟨h', ?_, hrep, fun x hu => hf x ?_ fun hx => hu.1 (by simp [Op.names, hx])⟩⟩
    · simp only [Op.run, hrun, Option.map_some]
    · exact hu.not_mem (by simp [Op.names]) List.mem_cons_self
  | @popFront i elem xs hσ =>
    obtain ⟨h', hrun, hrep, hf⟩ := listPopFront_represents hr hσ
    exact ⟨0, fun fuel _ => ⟨h', hrun, hrep, fun x hu =>
      hf x (hu.not_mem (by simp [Op.names]) List.mem_cons_self)⟩⟩
  | @popBack i elem xs hσ =>
    obtain ⟨h', hrun, hrep, hf⟩ := listPopBack_represents hr hσ
    exact ⟨0, fun fuel _ => ⟨h', hrun, hrep, fun x hu =>
      hf x (hu.not_mem (by simp [Op.names]) List.mem_cons_self)⟩⟩
  | @reverse i =>
    refine ⟨(σ i).length + 1, fun fuel hfuel => ?_⟩
    obtain ⟨h', hrun, hrep, hf⟩ := listReverse_represents (i := i) hr hfuel
    refine ⟨h', ?_, hrep, fun x hu => hf x (hu.not_mem (by simp [Op.names]) List.mem_cons_self)⟩
    simp only [Op.run, hrun, Option.map_some]
  | @unique i duplicates less hd =>
    refine ⟨(σ i).length + 1, fun fuel hfuel => ?_⟩
    obtain ⟨h', hrun, hrep, hf⟩ := listUnique_represents less hr hd hfuel
    refine ⟨h', ?_, hrep, fun x hu => hf x ?_ fun j hj => ?_⟩
    · simp only [Op.run, hrun, Option.map_some]
    · exact hu.not_mem (by simp [Op.names]) List.mem_cons_self
    · obtain rfl : duplicates = some j := hj
      exact hu.not_mem (by simp [Op.names]) (i := j) List.mem_cons_self

/-- A list of the nodes 2 and 3 between the sentinels 0 and 1. -/
def twoNodes : Heap Nat
  | 0 => ⟨none, some 2⟩
  | 1 => ⟨some 3, none⟩
  | 2 => ⟨some 0, some 3⟩
  | 3 => ⟨some 2, some 1⟩
  | _ => ⟨none, none⟩

theorem twoNodes_represents : Represents twoNodes (fun _ : Unit => ⟨0, 1⟩) fun _ => [2, 3] where
  closed _ := {
    row := row_cons_cons.mpr ⟨⟨rfl, rfl⟩, row_cons_cons.mpr ⟨⟨rfl, rfl⟩, row_cons_cons.mpr
      ⟨⟨rfl, rfl⟩, List.isChain_singleton _⟩⟩⟩
    nodup := by decide
    first := fun a ha => by
      obtain rfl : 0 = a := by simpa [nodes] using ha
      rfl
    last := fun b hb => by
      obtain rfl : 1 = b := by simpa [nodes] using hb
      rfl }
  apart _ _ _ _ _ := rfl

theorem list_refines_reverse : ∃ n, ∀ fuel, n ≤ fuel → ∃ h',
    Op.run (fun _ : Unit => ⟨0, 1⟩) fuel twoNodes (.reverse ()) = some (none, h') ∧
      Represents h' (fun _ : Unit => ⟨0, 1⟩) (Function.update (fun _ => [2, 3]) () [3, 2]) ∧
      ∀ x, Unrelated (fun _ : Unit => ⟨0, 1⟩) (fun _ => [2, 3]) (.reverse ()) x → h' x = twoNodes x :=
  list_refines twoNodes_represents .reverse

end PintosKaist.LibKernel
