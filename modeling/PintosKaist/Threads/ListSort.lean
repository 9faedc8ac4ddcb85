/-
`list_sort` of `lib/kernel/list.c`: passes over the list that merge adjacent
runs, until a pass leaves one run. With a comparison of keys it ends, and is
the stable sort that `OrdList.sortBy` names.
-/
import PintosKaist.Lib.OrdList

namespace PintosKaist.Threads

open OrdList

section
variable {α : Type*} (less : α → α → Bool)

/-- `find_end_of_run`: the rest of the run that `a` starts, and what follows
the run. -/
def findEndOfRun : α → List α → List α × List α
  | _, [] => ([], [])
  | a, b :: l =>
    if less b a then ([], b :: l)
    else
      let (run, rest) := findEndOfRun b l
      (b :: run, rest)

/-- `inplace_merge`: an element of the second run moves up before the first
element of the first run that it is less than. -/
def inplaceMerge : List α → List α → List α
  | [], ys => ys
  | x :: xs, [] => x :: xs
  | x :: xs, y :: ys =>
    if !less y x then x :: inplaceMerge xs (y :: ys) else y :: inplaceMerge (x :: xs) ys

theorem findEndOfRun_length (a : α) (l : List α) : (findEndOfRun less a l).2.length ≤ l.length := by
  induction l generalizing a with
  | nil => exact le_refl _
  | cons b l ih =>
    simp only [findEndOfRun]
    split
    · exact le_refl _
    · exact Nat.le_succ_of_le (ih b)

/-- The `for` of `list_sort`: the list after a pass, and `output_run_cnt`. -/
def sortPass : List α → List α × Nat
  | [] => ([], 0)
  | a :: l =>
    let run := a :: (findEndOfRun less a l).1
    match h : (findEndOfRun less a l).2 with
    | [] => (run, 1)
    | b :: l' =>
      let next := sortPass (findEndOfRun less b l').2
      (inplaceMerge less run (b :: (findEndOfRun less b l').1) ++ next.1, next.2 + 1)
termination_by l => l.length
decreasing_by
  have h₁ := findEndOfRun_length less a l
  have h₂ := findEndOfRun_length less b l'
  rw [h] at h₁
  simp only [List.length_cons] at h₁ ⊢
  omega

/-- The `do` of `list_sort`. `fuel` bounds its passes. -/
def sortPasses : Nat → List α → Option (List α)
  | 0, _ => none
  | fuel + 1, l =>
    let (out, runs) := sortPass less l
    if 1 < runs then sortPasses fuel out else some out

/-- `list_sort`. Each pass but the last leaves fewer runs. -/
def listSort (l : List α) : Option (List α) := sortPasses less (l.length + 1) l

end

/-! ## It sorts -/

variable {α P : Type*} [LinearOrder P] {key : α → P} {a b : α} {l l' : List α} {p : P}

/-- `compare_priority` and its like, which compare a key. -/
def lessBy (key : α → P) (a b : α) : Bool := key b < key a

theorem findEndOfRun_append (key : α → P) (a : α) (l : List α) :
    (findEndOfRun (lessBy key) a l).1 ++ (findEndOfRun (lessBy key) a l).2 = l := by
  induction l generalizing a with
  | nil => rfl
  | cons b l ih =>
    simp only [findEndOfRun]
    split
    · rfl
    · exact congrArg (b :: ·) (ih b)

/-- A run is in order. -/
theorem findEndOfRun_desc (a : α) (l : List α) : Desc key (a :: (findEndOfRun (lessBy key) a l).1) := by
  induction l generalizing a with
  | nil => exact List.pairwise_singleton ..
  | cons b l ih =>
    simp only [findEndOfRun]
    split
    · exact List.pairwise_singleton ..
    · rename_i hlt
      have hba : key b ≤ key a := not_lt.mp (by simpa [lessBy] using hlt)
      have hb := ih b
      refine List.pairwise_cons.mpr ⟨fun c hc => ?_, hb⟩
      obtain rfl | hc := List.mem_cons.mp hc
      · exact hba
      · exact le_trans (hb.head_max c hc) hba

theorem mem_inplaceMerge {c : α} : c ∈ inplaceMerge (lessBy key) l l' ↔ c ∈ l ∨ c ∈ l' := by
  fun_induction inplaceMerge (lessBy key) l l' with
  | case1 ys => simp
  | case2 x xs => simp
  | case3 x xs y ys h ih => simp only [List.mem_cons, ih, or_assoc]
  | case4 x xs y ys h ih =>
    simp only [List.mem_cons, ih]
    tauto

theorem inplaceMerge_desc (h : Desc key l) (h' : Desc key l') : Desc key (inplaceMerge (lessBy key) l l') := by
  fun_induction inplaceMerge (lessBy key) l l' with
  | case1 ys => exact h'
  | case2 x xs => exact h
  | case3 x xs y ys hle ih =>
    have hyx : key y ≤ key x := by simpa [lessBy] using hle
    refine List.pairwise_cons.mpr ⟨fun c hc => ?_, ih h.tail h'⟩
    obtain hc | hc := mem_inplaceMerge.mp hc
    · exact h.head_max c hc
    · obtain rfl | hc := List.mem_cons.mp hc
      · exact hyx
      · exact le_trans (h'.head_max c hc) hyx
  | case4 x xs y ys hlt ih =>
    have hxy : key x < key y := by simpa [lessBy] using hlt
    refine List.pairwise_cons.mpr ⟨fun c hc => ?_, ih h h'.tail⟩
    obtain hc | hc := mem_inplaceMerge.mp hc
    · obtain rfl | hc := List.mem_cons.mp hc
      · exact hxy.le
      · exact le_trans (h.head_max c hc) hxy.le
    · exact h'.head_max c hc

/-- Merging two runs leaves the elements with one key in the order they had:
those of the first run come first. -/
theorem level_inplaceMerge (h : Desc key l) (h' : Desc key l') :
    level key p (inplaceMerge (lessBy key) l l') = level key p l ++ level key p l' := by
  fun_induction inplaceMerge (lessBy key) l l' with
  | case1 ys => rfl
  | case2 x xs => simp
  | case3 x xs y ys hle ih =>
    rw [level_cons, ih h.tail h', level_cons (a := x)]
    split <;> rfl
  | case4 x xs y ys hlt ih =>
    have hxy : key x < key y := by simpa [lessBy] using hlt
    rw [level_cons, ih h h'.tail, level_cons (a := y)]
    split
    · -- `y` moves up before elements with smaller keys only
      rename_i hy
      have hnil : level key p (x :: xs) = [] := level_eq_nil fun c hc => by
        obtain rfl | hc := List.mem_cons.mp hc
        · exact hy ▸ hxy
        · exact lt_of_le_of_lt (h.head_max c hc) (hy ▸ hxy)
      rw [hnil]
      rfl
    · rfl

/-- How often the key goes up from one element to the next: one less than
there are runs. -/
def breaks (key : α → P) : List α → Nat
  | a :: b :: l => (if key a < key b then 1 else 0) + breaks key (b :: l)
  | _ => 0

theorem desc_of_breaks (h : breaks key l = 0) : Desc key l := by
  induction l with
  | nil => exact List.Pairwise.nil
  | cons a l ih =>
    cases l with
    | nil => exact List.pairwise_singleton ..
    | cons b l =>
      simp only [breaks, Nat.add_eq_zero_iff] at h
      have hba : key b ≤ key a := not_lt.mp fun hlt => by simp [hlt] at h
      have hl := ih h.2
      refine List.pairwise_cons.mpr ⟨fun c hc => ?_, hl⟩
      obtain rfl | hc := List.mem_cons.mp hc
      · exact hba
      · exact le_trans (hl.head_max c hc) hba

/-- What follows a run starts with a break. -/
theorem findEndOfRun_breaks (a : α) (l : List α) (h : (findEndOfRun (lessBy key) a l).2 ≠ []) :
    breaks key (a :: l) = 1 + breaks key (findEndOfRun (lessBy key) a l).2 := by
  induction l generalizing a with
  | nil => exact absurd rfl h
  | cons b l ih =>
    simp only [findEndOfRun] at h ⊢
    by_cases hlt : lessBy key b a = true
    · rw [if_pos hlt, breaks, if_pos (by simpa [lessBy] using hlt)]
    · rw [if_neg hlt] at h ⊢
      rw [breaks, if_neg (by simpa [lessBy] using hlt), ih b h, Nat.zero_add]

theorem breaks_append_le (h : Desc key l) (l' : List α) : breaks key (l ++ l') ≤ 1 + breaks key l' := by
  induction l with
  | nil => exact Nat.le_add_left ..
  | cons a l ih =>
    cases l with
    | nil =>
      cases l' with
      | nil => exact Nat.zero_le _
      | cons b l' =>
        simp only [List.cons_append, List.nil_append, breaks]
        split <;> omega
    | cons b l =>
      have hle : ¬ key a < key b := not_lt.mpr (h.head_max b List.mem_cons_self)
      simp only [List.cons_append, breaks, if_neg hle]
      have := ih h.tail
      simp only [List.cons_append] at this
      omega

theorem breaks_of_desc (h : Desc key l) : breaks key l = 0 := by
  induction l with
  | nil => rfl
  | cons a l ih =>
    cases l with
    | nil => rfl
    | cons b l => rw [breaks, if_neg (not_lt.mpr (h.head_max b List.mem_cons_self)), ih h.tail]

/-! ## The passes -/

/-- A pass leaves the levels alone, and about half of the runs. -/
structure Pass (key : α → P) (l : List α) (r : List α × Nat) : Prop where
  levels : ∀ p, level key p r.1 = level key p l
  fewer : breaks key r.1 ≤ r.2 - 1
  count : r.2 ≤ breaks key l / 2 + 1
  none : r.2 = 0 → r.1 = [] ∧ l = []

theorem sortPass_pass (key : α → P) (l : List α) : Pass key l (sortPass (lessBy key) l) := by
  fun_induction sortPass (lessBy key) l with
  | case1 => exact ⟨fun _ => rfl, Nat.zero_le _, Nat.zero_le _, fun _ => ⟨rfl, rfl⟩⟩
  | case2 a l run h =>
    have hl := findEndOfRun_append key a l
    rw [h, List.append_nil] at hl
    have hrun : run = a :: l := congrArg (a :: ·) hl
    exact ⟨fun p => by rw [hrun], (breaks_of_desc (findEndOfRun_desc a l)).le, Nat.le_add_left .., by simp⟩
  | case3 a l run b l' h next ih =>
    change Pass key (findEndOfRun (lessBy key) b l').2 next at ih
    have hrun : Desc key run := findEndOfRun_desc a l
    have hrun' : Desc key (b :: (findEndOfRun (lessBy key) b l').1) := findEndOfRun_desc b l'
    have hmerge := inplaceMerge_desc hrun hrun'
    have hl := findEndOfRun_append key a l
    have hl' := findEndOfRun_append key b l'
    rw [h] at hl
    refine ⟨fun p => ?_, ?_, ?_, by simp⟩
    · rw [level_append, level_inplaceMerge hrun hrun', ih.levels, List.append_assoc, ← level_append, List.cons_append, hl',
        ← level_append]
      show level key p (a :: ((findEndOfRun (lessBy key) a l).1 ++ b :: l')) = _
      rw [hl]
    · by_cases hnil : next.2 = 0
      · rw [(ih.none hnil).1, List.append_nil, breaks_of_desc hmerge]
        exact Nat.zero_le _
      · have h₁ := breaks_append_le hmerge next.1
        have h₂ := ih.fewer
        dsimp only
        omega
    · have hb : breaks key (a :: l) = 1 + breaks key (b :: l') := by
        rw [findEndOfRun_breaks a l (by rw [h]; simp), h]
      by_cases hnil : next.2 = 0
      · omega
      · have hne : (findEndOfRun (lessBy key) b l').2 ≠ [] := fun he => by
          simp [next, he, sortPass] at hnil
        have hb' := findEndOfRun_breaks b l' hne
        have h₁ := ih.count
        omega

/-- The passes end, with the list sorted. -/
theorem sortPasses_eq {fuel : Nat} (h : breaks key l < fuel) :
    sortPasses (lessBy key) fuel l = some (sortBy key l) := by
  induction fuel generalizing l with
  | zero => omega
  | succ fuel ih =>
    have hp := sortPass_pass key l
    have h₁ := hp.fewer
    have h₂ := hp.count
    simp only [sortPasses]
    split
    · rename_i hruns
      rw [ih (by omega)]
      exact congrArg some (sortBy_eq desc_sortBy fun p => by rw [level_sortBy, hp.levels]).symm
    · rename_i hruns
      exact congrArg some (sortBy_eq (desc_of_breaks (by omega)) hp.levels).symm

theorem breaks_le_length (l : List α) : breaks key l ≤ l.length := by
  induction l with
  | nil => exact Nat.zero_le _
  | cons a l ih =>
    cases l with
    | nil => exact Nat.zero_le _
    | cons b l =>
      simp only [breaks, List.length_cons] at ih ⊢
      split <;> omega

/-- **`list_sort` is stable sorting by the key.** -/
theorem listSort_eq (key : α → P) (l : List α) : listSort (lessBy key) l = some (sortBy key l) :=
  sortPasses_eq (Nat.lt_succ_of_le (breaks_le_length l))

end PintosKaist.Threads
