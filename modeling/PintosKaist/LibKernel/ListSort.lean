/-
`list_sort` on the links of a list, with its assertions.

Each of its functions does to the sequence of a list what the function of the
same name in `Threads.ListSort` does (`inplaceMerge_represents`,
`pass_represents`); and a comparison that is a strict weak order is one of keys
(`exists_key`). So the sequence comes out sorted, and stably so.
-/
import Mathlib.Order.Antisymmetrization
import PintosKaist.Lib.While
import PintosKaist.LibKernel.ListLoops
import PintosKaist.Threads.ListSort

namespace PintosKaist.LibKernel

open Linked OrdList While

universe u

section

variable {α : Type*} [DecidableEq α] (less : α → α → Bool)

/-- A turn of the loop of `is_sorted`. -/
def sortedTurn (h : Heap α) (b : α) (s : α × Bool) : Option (ForInStep (α × Bool)) :=
  (listNext h s.1).bind fun a =>
    if a = b then some (.done (a, true))
    else (listPrev h a).map fun p => if less a p then .done (a, false) else .yield (a, true)

/-- `is_sorted`. -/
def isSorted (fuel : Nat) (h : Heap α) (a b : α) : Option Bool :=
  if a ≠ b then (whileLoop (sortedTurn less h b) fuel (a, true)).map Prod.snd else some true

/-- A turn of the loop of `find_end_of_run`. -/
def runTurn (h : Heap α) (b a : α) : Option (ForInStep α) :=
  (listNext h a).bind fun a =>
    if a = b then some (.done a)
    else (listPrev h a).map fun p => if less a p then .done a else .yield a

/-- `find_end_of_run`. -/
def findEndOfRun (fuel : Nat) (h : Heap α) (a b : α) : Option α :=
  if a ≠ b then whileLoop (runTurn less h b) fuel a else none

/-- A turn of the loop of `inplace_merge`. -/
def mergeTurn (b1 : α) (s : Heap α × α × α) : Option (ForInStep (Heap α × α × α)) :=
  match s with
  | (h, a0, a1b0) =>
    if a0 ≠ a1b0 ∧ a1b0 ≠ b1 then
      if !less a1b0 a0 then (listNext h a0).map fun a0 => .yield (h, a0, a1b0)
      else
        (listNext h a1b0).bind fun a1b0 =>
        (listPrev h a1b0).bind fun first =>
        (listSplice h a0 first a1b0).map fun h => .yield (h, a0, a1b0)
    else some (.done (h, a0, a1b0))

/-- `inplace_merge`. -/
def inplaceMerge (fuel : Nat) (h : Heap α) (a0 a1b0 b1 : α) : Option (Heap α) :=
  (isSorted less fuel h a0 a1b0).bind fun first =>
  (isSorted less fuel h a1b0 b1).bind fun second =>
    if first && second then (whileLoop (mergeTurn less b1) fuel (h, a0, a1b0)).map Prod.fst else none

/-- A turn of the `for` of `list_sort`; the last of the state is
`output_run_cnt`. -/
def passTurn (fuel : Nat) (list : KList α) (s : Heap α × α × Nat) : Option (ForInStep (Heap α × α × Nat)) :=
  match s with
  | (h, a0, runs) =>
    if a0 = listEnd list then some (.done (h, a0, runs))
    else
      (findEndOfRun less fuel h a0 (listEnd list)).bind fun a1b0 =>
        if a1b0 = listEnd list then some (.done (h, a0, runs + 1))
        else
          (findEndOfRun less fuel h a1b0 (listEnd list)).bind fun b1 =>
          (inplaceMerge less fuel h a0 a1b0 b1).map fun h => .yield (h, b1, runs + 1)

/-- A turn of its `do`. -/
def sortTurn (fuel : Nat) (list : KList α) (h : Heap α) : Option (ForInStep (Heap α)) :=
  (listBegin h list).bind fun a0 =>
  (whileLoop (passTurn less fuel list) fuel (h, a0, 0)).map fun s => if s.2.2 > 1 then .yield s.1 else .done s.1

/-- `list_sort`. No loop of it goes round more than `fuel` times. -/
def listSort (fuel : Nat) (list : KList α) (h : Heap α) : Option (Heap α) :=
  (whileLoop (sortTurn less fuel list) fuel h).bind fun h =>
  (listBegin h list).bind fun a =>
  (isSorted less fuel h a (listEnd list)).bind fun sorted => if sorted then some h else none

end

/-! ## The loops -/

section

variable {ι α P : Type*} [DecidableEq ι] [DecidableEq α] [LinearOrder P] {key : α → P} {h : Heap α} {ls : ι → KList α}
  {σ : ι → List α} {i : ι} {a b e : α} {xs ys l rest rs ss : List α} {fuel : Nat}

omit [DecidableEq ι] in
theorem sortedLoop_eq (hr : Represents h ls σ) (hσ : σ i = xs ++ a :: (l ++ rest)) (hl : Desc key (a :: l))
    (hf : l.length < fuel) :
    ∃ a', whileLoop (sortedTurn (Threads.lessBy key) h (firstNode (ls i) rest)) fuel (a, true) = some (a', true) := by
  induction l generalizing a xs fuel with
  | nil =>
    obtain ⟨fuel, rfl⟩ : ∃ n, fuel = n + 1 := ⟨fuel - 1, by omega⟩
    have hnext := listNext_eq (hr.adjacent hσ).1
    exact ⟨_, whileLoop_done (by rw [sortedTurn, hnext, Option.bind_some]; exact if_pos rfl)⟩
  | cons c l ih =>
    obtain ⟨fuel, rfl⟩ : ∃ n, fuel = n + 1 := ⟨fuel - 1, by omega⟩
    have hσ' : σ i = (xs ++ [a]) ++ c :: (l ++ rest) := by rw [hσ]; simp
    have hadj : Adj h a c := hr.adjacent hσ
    have hle : Threads.lessBy key c a = false := by
      have hca := hl.head_max c List.mem_cons_self
      simpa [Threads.lessBy] using hca
    obtain ⟨a', hrun⟩ := ih hσ' hl.tail (Nat.lt_of_succ_lt_succ hf)
    refine ⟨a', (whileLoop_yield ?_).trans hrun⟩
    rw [sortedTurn, listNext_eq hadj.1, Option.bind_some, if_neg (hr.ne_firstNode hσ'), listPrev_eq hadj.2, Option.map_some,
      if_neg (Bool.eq_false_iff.mp hle)]

omit [DecidableEq ι] in
/-- A run is sorted. -/
theorem isSorted_eq (hr : Represents h ls σ) (hσ : σ i = xs ++ (l ++ rest)) (hl : Desc key l) (hf : l.length < fuel) :
    isSorted (Threads.lessBy key) fuel h (firstNode (ls i) (l ++ rest)) (firstNode (ls i) rest) = some true := by
  cases l with
  | nil => exact if_neg (not_not.mpr rfl)
  | cons a l =>
    obtain ⟨a', hrun⟩ := sortedLoop_eq hr hσ hl (Nat.lt_of_succ_lt hf)
    show isSorted (Threads.lessBy key) fuel h a (firstNode (ls i) rest) = some true
    rw [isSorted, if_pos (hr.ne_firstNode hσ), hrun, Option.map_some]

omit [DecidableEq ι] in
theorem runLoop_eq (less : α → α → Bool) (hr : Represents h ls σ) (hσ : σ i = xs ++ a :: l) (hf : l.length < fuel) :
    whileLoop (runTurn less h (listEnd (ls i))) fuel a = some (firstNode (ls i) (Threads.findEndOfRun less a l).2) := by
  induction l generalizing a xs fuel with
  | nil =>
    obtain ⟨fuel, rfl⟩ : ∃ n, fuel = n + 1 := ⟨fuel - 1, by omega⟩
    have hnext := listNext_eq (hr.adjacent hσ).1
    exact whileLoop_done (by rw [runTurn, hnext, Option.bind_some]; exact if_pos rfl)
  | cons c l ih =>
    obtain ⟨fuel, rfl⟩ : ∃ n, fuel = n + 1 := ⟨fuel - 1, by omega⟩
    have hσ' : σ i = (xs ++ [a]) ++ c :: l := by rw [hσ]; simp
    have hadj : Adj h a c := hr.adjacent hσ
    have hne : c ≠ listEnd (ls i) := hr.ne_end hσ'
    have hturn : runTurn less h (listEnd (ls i)) a = some (if less c a then .done c else .yield c) := by
      rw [runTurn, listNext_eq hadj.1, Option.bind_some, if_neg hne, listPrev_eq hadj.2, Option.map_some]
    rw [Threads.findEndOfRun]
    split_ifs at hturn ⊢
    · exact whileLoop_done hturn
    · exact (whileLoop_yield hturn).trans (ih hσ' (Nat.lt_of_succ_lt_succ hf))

omit [DecidableEq ι] in
/-- `find_end_of_run` finds it. -/
theorem findEndOfRun_eq (less : α → α → Bool) (hr : Represents h ls σ) (hσ : σ i = xs ++ a :: l) (hf : l.length < fuel) :
    findEndOfRun less fuel h a (listEnd (ls i)) = some (firstNode (ls i) (Threads.findEndOfRun less a l).2) := by
  have hne : a ≠ listEnd (ls i) := hr.ne_end hσ
  rw [findEndOfRun, if_pos hne, runLoop_eq less hr hσ hf]

theorem insertBefore_of_not_mem {before : α} (ms : List α) (h : before ∉ xs) (ys : List α) :
    insertBefore before ms (xs ++ before :: ys) = xs ++ ms ++ before :: ys := by
  have hpos : ∀ x ∈ xs, decide (x ≠ before) = true := fun x hx => decide_eq_true fun heq => h (heq ▸ hx)
  rw [insertBefore, List.takeWhile_append_of_pos hpos, List.dropWhile_append_of_pos hpos,
    List.takeWhile_cons_of_neg (by simp), List.dropWhile_cons_of_neg (by simp), List.append_nil]

/-- The first node of the second run goes in front of the first run. -/
theorem spliceFirst_represents {x y : α} (hr : Represents h ls σ) (hσ : σ i = xs ++ x :: rs ++ y :: ys) :
    ∃ h', (listSplice h x y (firstNode (ls i) ys)) = some h' ∧
      Represents h' ls (Function.update σ i (xs ++ [y] ++ x :: rs ++ ys)) := by
  have hnd : (xs ++ x :: rs ++ y :: ys).Nodup := hσ ▸ (hr.nodup i).of_append_left
  have hyx : x ≠ y := by
    intro heq
    rw [List.nodup_append] at hnd
    exact hnd.2.2 x (by simp) y (by simp) heq
  have hxs : x ∉ xs := by
    intro hmem
    have hleft := hnd.of_append_left
    rw [List.nodup_append] at hleft
    exact hleft.2.2 x hmem x (by simp) rfl
  have hσ' : σ i = (xs ++ x :: rs) ++ [y] ++ ys := by rw [hσ]; simp
  have hmem : x ∈ σ i ++ [(ls i).tail] := by rw [hσ]; simp
  have hnot : x ∉ [y] := by simpa using hyx
  obtain ⟨h', hrun, hrep, -⟩ := listSplice_represents hr hσ' rfl (head?_firstNode (ls i) ys) hmem hnot
  refine ⟨h', hrun, ?_⟩
  simp only [Function.update_self, Function.update_idem] at hrep
  rw [List.append_assoc, List.cons_append, insertBefore_of_not_mem [y] hxs] at hrep
  simpa using hrep

/-- The loop of `inplace_merge`. -/
theorem mergeLoop_represents (less : α → α → Bool) (hr : Represents h ls σ) (hσ : σ i = xs ++ (rs ++ (ss ++ rest)))
    (hf : rs.length + ss.length < fuel) :
    ∃ h' a0 a1b0, whileLoop (mergeTurn less (firstNode (ls i) rest)) fuel
        (h, firstNode (ls i) (rs ++ (ss ++ rest)), firstNode (ls i) (ss ++ rest)) = some (h', a0, a1b0) ∧
      Represents h' ls (Function.update σ i (xs ++ (Threads.inplaceMerge less rs ss ++ rest))) := by
  induction rs, ss using Threads.inplaceMerge.induct less generalizing h σ xs fuel with
  | case1 ss =>
    obtain ⟨fuel, rfl⟩ : ∃ n, fuel = n + 1 := ⟨fuel - 1, by omega⟩
    refine ⟨h, _, _, whileLoop_done (by rw [mergeTurn]; exact if_neg fun hne => hne.1 rfl), ?_⟩
    rw [Threads.inplaceMerge]
    exact hr.of_eq hσ.symm
  | case2 x rs =>
    obtain ⟨fuel, rfl⟩ : ∃ n, fuel = n + 1 := ⟨fuel - 1, by omega⟩
    refine ⟨h, _, _, whileLoop_done (by rw [mergeTurn]; exact if_neg fun hne => hne.2 rfl), ?_⟩
    rw [Threads.inplaceMerge]
    exact hr.of_eq hσ.symm
  | case3 x rs y ss hle ih =>
    obtain ⟨fuel, rfl⟩ : ∃ n, fuel = n + 1 := ⟨fuel - 1, by omega⟩
    have hσx : σ i = xs ++ x :: (rs ++ (y :: ss ++ rest)) := hσ
    have hσy : σ i = (xs ++ x :: rs) ++ y :: (ss ++ rest) := by rw [hσ]; simp
    have hx : x ≠ y := hr.ne_firstNode hσx
    have hy : y ≠ firstNode (ls i) rest := hr.ne_firstNode hσy
    have hnext : listNext h x = some (firstNode (ls i) (rs ++ (y :: ss ++ rest))) := listNext_eq (hr.adjacent hσx).1
    have hturn : mergeTurn less (firstNode (ls i) rest) (h, x, y) =
        some (.yield (h, firstNode (ls i) (rs ++ (y :: ss ++ rest)), y)) := by
      simp only [mergeTurn, ne_eq, hx, hy, not_false_eq_true, and_self, if_true, hle, hnext, Option.map_some]
    have hσ' : σ i = (xs ++ [x]) ++ (rs ++ (y :: ss ++ rest)) := by rw [hσx]; simp
    have hf' : rs.length + (y :: ss).length < fuel := by
      simp only [List.length_cons] at hf ⊢
      omega
    obtain ⟨h', a0, a1b0, hrun, hrep⟩ := ih hr hσ' hf'
    refine ⟨h', a0, a1b0, (whileLoop_yield hturn).trans hrun, ?_⟩
    rw [Threads.inplaceMerge, if_pos hle]
    simpa using hrep
  | case4 x rs y ss hlt ih =>
    obtain ⟨fuel, rfl⟩ : ∃ n, fuel = n + 1 := ⟨fuel - 1, by omega⟩
    have hσx : σ i = xs ++ x :: (rs ++ (y :: ss ++ rest)) := hσ
    have hσy : σ i = (xs ++ x :: rs) ++ y :: (ss ++ rest) := by rw [hσ]; simp
    have hx : x ≠ y := hr.ne_firstNode hσx
    have hy : y ≠ firstNode (ls i) rest := hr.ne_firstNode hσy
    have hadj := hr.adjacent hσy
    obtain ⟨h₁, hsplice, hrep₁⟩ := spliceFirst_represents hr hσy
    have hturn : mergeTurn less (firstNode (ls i) rest) (h, x, y) = some (.yield (h₁, x, firstNode (ls i) (ss ++ rest))) := by
      simp only [mergeTurn, ne_eq, hx, hy, not_false_eq_true, and_self, if_true, hlt, listNext_eq hadj.1,
        listPrev_eq hadj.2, hsplice, Option.bind_some, Option.map_some, Bool.false_eq_true, if_false]
    have hσ₁ : Function.update σ i (xs ++ [y] ++ x :: rs ++ (ss ++ rest)) i =
        (xs ++ [y]) ++ (x :: rs ++ (ss ++ rest)) := by simp
    have hf' : (x :: rs).length + ss.length < fuel := by
      simp only [List.length_cons] at hf ⊢
      omega
    obtain ⟨h', a0, a1b0, hrun, hrep⟩ := ih hrep₁ hσ₁ hf'
    refine ⟨h', a0, a1b0, (whileLoop_yield hturn).trans hrun, ?_⟩
    rw [Threads.inplaceMerge, if_neg hlt]
    simpa using hrep

/-- `inplace_merge` of two runs, its assertions included. -/
theorem inplaceMerge_represents (hr : Represents h ls σ) (hσ : σ i = xs ++ (rs ++ (ss ++ rest))) (hrs : Desc key rs)
    (hss : Desc key ss) (hf : (σ i).length < fuel) :
    ∃ h', inplaceMerge (Threads.lessBy key) fuel h (firstNode (ls i) (rs ++ (ss ++ rest))) (firstNode (ls i) (ss ++ rest))
        (firstNode (ls i) rest) = some h' ∧
      Represents h' ls
        (Function.update σ i (xs ++ (Threads.inplaceMerge (Threads.lessBy key) rs ss ++ rest))) := by
  have hlen := congrArg List.length hσ
  simp only [List.length_append] at hlen
  have hσ' : σ i = (xs ++ rs) ++ (ss ++ rest) := by rw [hσ]; simp
  have hfm : rs.length + ss.length < fuel := by omega
  have hfr : rs.length < fuel := by omega
  have hfs : ss.length < fuel := by omega
  obtain ⟨h', a0, a1b0, hrun, hrep⟩ := mergeLoop_represents (Threads.lessBy key) hr hσ hfm
  have hfirst := isSorted_eq hr hσ hrs hfr
  have hsecond := isSorted_eq hr hσ' hss hfs
  refine ⟨h', ?_, hrep⟩
  rw [inplaceMerge, hfirst, Option.bind_some, hsecond, Option.bind_some, Bool.and_true, if_pos rfl, hrun,
    Option.map_some]

omit [LinearOrder P] [DecidableEq ι] [DecidableEq α] in
theorem length_inplaceMerge (less : α → α → Bool) (rs ss : List α) :
    (Threads.inplaceMerge less rs ss).length = rs.length + ss.length := by
  induction rs, ss using Threads.inplaceMerge.induct less with
  | case1 ss => simp [Threads.inplaceMerge]
  | case2 x rs => simp [Threads.inplaceMerge]
  | case3 x rs y ss hle ih =>
    rw [Threads.inplaceMerge, if_pos hle, List.length_cons, ih]
    simp only [List.length_cons]
    omega
  | case4 x rs y ss hlt ih =>
    rw [Threads.inplaceMerge, if_neg hlt, List.length_cons, ih]
    simp only [List.length_cons]
    omega

omit [LinearOrder P] [DecidableEq ι] [DecidableEq α] in
theorem sortPass_run {less : α → α → Bool} (h : (Threads.findEndOfRun less a l).2 = []) :
    Threads.sortPass less (a :: l) = (a :: (Threads.findEndOfRun less a l).1, 1) := by
  rw [Threads.sortPass]
  split
  · rfl
  · rename_i heq
    rw [h] at heq
    cases heq

omit [LinearOrder P] [DecidableEq ι] [DecidableEq α] in
theorem sortPass_runs {less : α → α → Bool} (h : (Threads.findEndOfRun less a l).2 = b :: ys) :
    Threads.sortPass less (a :: l) =
      (Threads.inplaceMerge less (a :: (Threads.findEndOfRun less a l).1) (b :: (Threads.findEndOfRun less b ys).1) ++
        (Threads.sortPass less (Threads.findEndOfRun less b ys).2).1,
        (Threads.sortPass less (Threads.findEndOfRun less b ys).2).2 + 1) := by
  rw [Threads.sortPass]
  split
  · rename_i heq
    rw [h] at heq
    cases heq
  · rename_i b' ys' heq
    obtain ⟨rfl, rfl⟩ := List.cons.inj (h.symm.trans heq)
    rfl

/-- A pass over the list. -/
theorem pass_represents (key : α → P) {n : Nat} (runs : Nat) (hr : Represents h ls σ) (hσ : σ i = xs ++ l)
    (hf : (σ i).length < fuel) (hn : l.length < n) :
    ∃ h' a', whileLoop (passTurn (Threads.lessBy key) fuel (ls i)) n (h, firstNode (ls i) l, runs) =
        some (h', a', runs + (Threads.sortPass (Threads.lessBy key) l).2) ∧
      Represents h' ls (Function.update σ i (xs ++ (Threads.sortPass (Threads.lessBy key) l).1)) := by
  induction l using Threads.sortPass.induct (Threads.lessBy key) generalizing h σ xs n runs with
  | case1 =>
    obtain ⟨n, rfl⟩ : ∃ k, n = k + 1 := ⟨n - 1, by omega⟩
    rw [Threads.sortPass]
    exact ⟨h, _, whileLoop_done (by rw [passTurn]; exact if_pos rfl), hr.of_eq hσ.symm⟩
  | case2 a l hrest =>
    obtain ⟨n, rfl⟩ : ∃ k, n = k + 1 := ⟨n - 1, by omega⟩
    have hl := Threads.findEndOfRun_append key a l
    rw [hrest, List.append_nil] at hl
    have hlen := congrArg List.length hσ
    simp only [List.length_append, List.length_cons] at hlen
    have hfa : l.length < fuel := by omega
    have hrun := findEndOfRun_eq (Threads.lessBy key) hr hσ hfa
    rw [hrest] at hrun
    have hturn : passTurn (Threads.lessBy key) fuel (ls i) (h, a, runs) = some (.done (h, a, runs + 1)) := by
      simp only [passTurn, if_neg (hr.ne_end hσ), hrun, Option.bind_some]
      exact if_pos rfl
    rw [sortPass_run hrest, hl]
    exact ⟨h, a, whileLoop_done hturn, hr.of_eq hσ.symm⟩
  | case3 a l b l' hrest ih =>
    obtain ⟨n, rfl⟩ : ∃ k, n = k + 1 := ⟨n - 1, by omega⟩
    obtain ⟨ra, hra⟩ : ∃ ra, Threads.findEndOfRun (Threads.lessBy key) a l = (ra, b :: l') := ⟨_, Prod.ext rfl hrest⟩
    obtain ⟨rb, rest, hrb⟩ : ∃ rb rest, Threads.findEndOfRun (Threads.lessBy key) b l' = (rb, rest) := ⟨_, _, rfl⟩
    have hl := Threads.findEndOfRun_append key a l
    have hl' := Threads.findEndOfRun_append key b l'
    have hda := @Threads.findEndOfRun_desc _ _ _ key a l
    have hdb := @Threads.findEndOfRun_desc _ _ _ key b l'
    rw [sortPass_runs hrest]
    simp only [hra, hrb] at hl hl' hda hdb ih ⊢
    have hσb : σ i = (xs ++ a :: ra) ++ b :: l' := by
      rw [hσ, ← hl]
      simp
    have hσm : σ i = xs ++ (a :: ra ++ (b :: rb ++ rest)) := by
      rw [hσb, ← hl']
      simp
    have hlen := congrArg List.length hσb
    have hlen' := congrArg List.length hl
    have hlen'' := congrArg List.length hl'
    simp only [List.length_append, List.length_cons] at hlen hlen' hlen'' hn
    have hfa : l.length < fuel := by omega
    have hfb : l'.length < fuel := by omega
    have hrun := findEndOfRun_eq (Threads.lessBy key) hr hσ hfa
    have hrun' := findEndOfRun_eq (Threads.lessBy key) hr hσb hfb
    rw [hra] at hrun
    rw [hrb] at hrun'
    obtain ⟨h₁, hmerge, hrep₁⟩ := inplaceMerge_represents hr hσm hda hdb hf
    have hturn : passTurn (Threads.lessBy key) fuel (ls i) (h, a, runs) =
        some (.yield (h₁, firstNode (ls i) rest, runs + 1)) := by
      have hb : firstNode (ls i) (b :: l') = b := rfl
      have hb' : firstNode (ls i) (b :: rb ++ rest) = b := rfl
      have ha : firstNode (ls i) (a :: ra ++ (b :: rb ++ rest)) = a := rfl
      rw [ha, hb'] at hmerge
      simp only [passTurn, if_neg (hr.ne_end hσ), hrun, Option.bind_some, hb, if_neg (hr.ne_end hσb), hrun', hmerge,
        Option.map_some]
    have hσ₁ : Function.update σ i (xs ++ (Threads.inplaceMerge (Threads.lessBy key) (a :: ra) (b :: rb) ++ rest)) i =
        (xs ++ Threads.inplaceMerge (Threads.lessBy key) (a :: ra) (b :: rb)) ++ rest := by simp
    have hf₁ : (Function.update σ i
        (xs ++ (Threads.inplaceMerge (Threads.lessBy key) (a :: ra) (b :: rb) ++ rest)) i).length < fuel := by
      rw [hσ₁]
      simp only [List.length_append, List.length_cons, length_inplaceMerge]
      omega
    have hn₁ : rest.length < n := by omega
    obtain ⟨h', a', hloop, hrep'⟩ := ih (runs + 1) hrep₁ hσ₁ hf₁ hn₁
    refine ⟨h', a', (whileLoop_yield hturn).trans ?_, ?_⟩
    · rw [hloop, Nat.add_assoc, Nat.add_comm 1]
    · simpa using hrep'

omit [DecidableEq ι] [DecidableEq α] in
theorem length_sortPass (key : α → P) (l : List α) : (Threads.sortPass (Threads.lessBy key) l).1.length = l.length := by
  induction l using Threads.sortPass.induct (Threads.lessBy key) with
  | case1 => rw [Threads.sortPass]
  | case2 a l hrest =>
    have hl := Threads.findEndOfRun_append key a l
    rw [hrest, List.append_nil] at hl
    rw [sortPass_run hrest, hl]
  | case3 a l b l' hrest ih =>
    have hl := congrArg List.length (Threads.findEndOfRun_append key a l)
    have hl' := congrArg List.length (Threads.findEndOfRun_append key b l')
    rw [hrest] at hl
    rw [sortPass_runs hrest, List.length_append, ih, length_inplaceMerge]
    simp only [List.length_append, List.length_cons] at hl hl' ⊢
    omega

/-- The passes over the list. -/
theorem passes_represents (key : α → P) {n : Nat} {r : List α} (hr : Represents h ls σ)
    (hpure : Threads.sortPasses (Threads.lessBy key) n (σ i) = some r) (hf : (σ i).length < fuel) :
    ∃ h', whileLoop (sortTurn (Threads.lessBy key) fuel (ls i)) n h = some h' ∧
      Represents h' ls (Function.update σ i r) := by
  induction n generalizing h σ with
  | zero => nomatch hpure
  | succ n ih =>
    obtain ⟨h₁, a', hpass, hrep₁⟩ := pass_represents key 0 hr (List.nil_append (σ i)).symm hf hf
    rw [List.nil_append] at hrep₁
    rw [Nat.zero_add] at hpass
    have hturn : sortTurn (Threads.lessBy key) fuel (ls i) h =
        some (if (Threads.sortPass (Threads.lessBy key) (σ i)).2 > 1 then .yield h₁ else .done h₁) := by
      rw [sortTurn, hr.begin i, Option.bind_some, hpass, Option.map_some]
    simp only [Threads.sortPasses] at hpure
    split_ifs at hpure with hruns
    · rw [if_pos hruns] at hturn
      have hupd : Function.update σ i (Threads.sortPass (Threads.lessBy key) (σ i)).1 i =
          (Threads.sortPass (Threads.lessBy key) (σ i)).1 := Function.update_self ..
      obtain ⟨h', hloop, hrep⟩ := ih hrep₁ (by rw [hupd]; exact hpure) (by rw [hupd, length_sortPass]; exact hf)
      rw [Function.update_idem] at hrep
      exact ⟨h', (whileLoop_yield hturn).trans hloop, hrep⟩
    · rw [if_neg hruns] at hturn
      obtain rfl := Option.some.inj hpure
      exact ⟨h₁, whileLoop_done hturn, hrep₁⟩

/-- With a comparison of keys, `list_sort` sorts stably. -/
theorem listSort_represents (key : α → P) (hr : Represents h ls σ) (hf : (σ i).length < fuel) :
    ∃ h', listSort (Threads.lessBy key) fuel (ls i) h = some h' ∧
      Represents h' ls (Function.update σ i (sortBy key (σ i))) := by
  have hpure : Threads.sortPasses (Threads.lessBy key) fuel (σ i) = some (sortBy key (σ i)) :=
    Threads.sortPasses_eq (Nat.lt_of_le_of_lt (Threads.breaks_le_length (σ i)) hf)
  obtain ⟨h', hrun, hrep⟩ := passes_represents key hr hpure hf
  refine ⟨h', ?_, hrep⟩
  have hupd : Function.update σ i (sortBy key (σ i)) i = [] ++ (sortBy key (σ i) ++ []) := by simp
  have hf' : (sortBy key (σ i)).length < fuel := by
    rw [perm_sortBy.length_eq]
    exact hf
  have hsorted := isSorted_eq hrep hupd desc_sortBy hf'
  rw [List.append_nil] at hsorted
  have hbegin := hrep.begin i
  rw [Function.update_self] at hbegin
  rw [listSort, hrun, Option.bind_some, hbegin, Option.bind_some]
  exact (congrArg (Option.bind · _) hsorted).trans rfl

end

/-! ## Strict weak orders -/

section

variable {α : Type u} {less : α → α → Bool}

/-- A comparison that is a strict weak order. -/
structure StrictWeak (less : α → α → Bool) : Prop where
  irrefl : ∀ a, less a a = false
  trans : ∀ a b c, less a b = true → less b c = true → less a c = true
  equal_trans : ∀ a b c, Equal less a b → Equal less b c → Equal less a c

theorem StrictWeak.asymm (h : StrictWeak less) {a b : α} (hab : less a b = true) : less b a = false := by
  by_contra hba
  have haa := h.trans a b a hab (Bool.eq_true_of_not_eq_false hba)
  rw [h.irrefl] at haa
  cases haa

theorem StrictWeak.not_less_trans (h : StrictWeak less) {a b c : α} (hab : less a b = false) (hbc : less b c = false) :
    less a c = false := by
  by_contra hac
  have hac' := Bool.eq_true_of_not_eq_false hac
  have hba : less b a = false := by
    by_contra hba
    have hlt := h.trans b a c (Bool.eq_true_of_not_eq_false hba) hac'
    rw [hbc] at hlt
    cases hlt
  have hcb : less c b = false := by
    by_contra hcb
    have hlt := h.trans a c b hac' (Bool.eq_true_of_not_eq_false hcb)
    rw [hab] at hlt
    cases hlt
  exact hac (h.equal_trans a b c ⟨hab, hba⟩ ⟨hbc, hcb⟩).1

/-- Its order, the greatest first. -/
abbrev StrictWeak.preorder (h : StrictWeak less) : Preorder α where
  le a b := less a b = false
  lt a b := less b a = true
  le_refl := h.irrefl
  le_trans _ _ _ := h.not_less_trans
  lt_iff_le_not_ge _ _ :=
    ⟨fun hlt => ⟨h.asymm hlt, Bool.not_eq_false _ ▸ hlt⟩, fun hlt => Bool.eq_true_of_not_eq_false hlt.2⟩

/-- A strict weak order compares keys: the classes of elements none of which is
less than another. -/
theorem StrictWeak.exists_key (h : StrictWeak less) :
    ∃ (P : Type u) (_ : LinearOrder P) (key : α → P), less = Threads.lessBy key := by
  let : Preorder α := h.preorder
  let : DecidableLE α := fun a b => inferInstanceAs (Decidable (less a b = false))
  let : DecidableLT α := fun a b => inferInstanceAs (Decidable (less b a = true))
  have : @Std.Total α (· ≤ ·) := ⟨fun a b => by
    by_cases hab : less a b = true
    · exact .inr (h.asymm hab)
    · exact .inl (Bool.eq_false_of_not_eq_true hab)⟩
  refine ⟨Antisymmetrization α (· ≤ ·), inferInstance, toAntisymmetrization (· ≤ ·), ?_⟩
  funext a b
  rw [Bool.eq_iff_iff, Threads.lessBy, decide_eq_true_iff]
  exact Iff.rfl

end

section

variable {ι : Type*} {α : Type u} [DecidableEq ι] [DecidableEq α] {less : α → α → Bool} {h : Heap α} {ls : ι → KList α}
  {σ : ι → List α} {fuel : Nat}

/-- **`list_sort` is a stable sort**: with every comparison that is a strict weak
order it ends, none of its assertions fails, and it leaves a well-formed list of
the same nodes, in order, those that are equal in the order they were in. -/
theorem listSort_stable (hless : StrictWeak less) (hr : Represents h ls σ) (i : ι) (hf : (σ i).length < fuel) :
    ∃ h' xs, listSort less fuel (ls i) h = some h' ∧ Represents h' ls (Function.update σ i xs) ∧ xs.Perm (σ i) ∧
      xs.Pairwise (fun a b => less b a = false) ∧
      ∀ a, xs.filter (fun b => decide (Equal less a b)) = (σ i).filter fun b => decide (Equal less a b) := by
  obtain ⟨P, _, key, rfl⟩ := hless.exists_key
  obtain ⟨h', hrun, hrep⟩ := listSort_represents key hr hf
  refine ⟨h', _, hrun, hrep, perm_sortBy, desc_sortBy.imp fun {a b} hle => ?_, fun a => ?_⟩
  · simpa [Threads.lessBy] using hle
  · have hequal (b : α) : decide (Equal (Threads.lessBy key) a b) = decide (key b = key a) := by
      refine decide_eq_decide.mpr ?_
      simp only [Equal, Threads.lessBy, decide_eq_false_iff_not, not_lt]
      exact ⟨fun hle => le_antisymm hle.2 hle.1, fun heq => ⟨heq.ge, heq.le⟩⟩
    have hlevel : level key (key a) (sortBy key (σ i)) = level key (key a) (σ i) := level_sortBy
    simp only [hequal]
    exact hlevel

end

/-- The greater number first. -/
theorem greater_strictWeak : StrictWeak fun a b : Nat => decide (b < a) where
  irrefl a := by simp
  trans a b c hab hbc := by
    simp only [decide_eq_true_eq] at hab hbc ⊢
    exact hbc.trans hab
  equal_trans a b c hab hbc := by
    simp only [Equal, decide_eq_false_iff_not, not_lt] at hab hbc ⊢
    exact ⟨hab.1.trans hbc.1, hbc.2.trans hab.2⟩

theorem listSort_stable_two : ∃ h' xs, listSort (fun a b => decide (b < a)) 3 ⟨0, 1⟩ twoNodes = some h' ∧
    Represents h' (fun _ : Unit => ⟨0, 1⟩) (Function.update (fun _ => [2, 3]) () xs) ∧ xs.Perm [2, 3] ∧
    xs.Pairwise (fun a b => decide (a < b) = false) ∧
    ∀ a, xs.filter (fun b => decide (Equal (fun a b => decide (b < a)) a b)) =
      [2, 3].filter fun b => decide (Equal (fun a b => decide (b < a)) a b) :=
  listSort_stable greater_strictWeak twoNodes_represents () (by decide)

end PintosKaist.LibKernel
