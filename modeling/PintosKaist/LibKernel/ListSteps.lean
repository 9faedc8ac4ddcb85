/-
The functions of `lib/kernel/list.c` on a list that others may change while they
run: each is the code that reads and writes the links one node at a time, and
compares two elements when it comes to it. Without a break it does what the
function of the same name in `LibKernel.List` and `LibKernel.ListSort` does
(`run_listSort`).
-/
import PintosKaist.Lib.Prog
import PintosKaist.LibKernel.ListSort

namespace PintosKaist.LibKernel.Steps

open Linked Prog While

/-- An access to the list. -/
inductive Access (α : Type) where
  /-- The links of a node. -/
  | read (e : α)
  | setPrev (e : α) (v : Option α)
  | setNext (e : α) (v : Option α)
  | less (a b : α)

/-- What an access is answered with. -/
abbrev Access.Answer {α : Type} : Access α → Type
  | .read _ => Links α
  | .setPrev .. | .setNext .. => Unit
  | .less .. => Bool

abbrev Code (α ρ : Type) := Prog (Access α) Access.Answer ρ

section
variable {α : Type} [DecidableEq α]

/-- What an access does, `less` being how the elements compare at that moment. -/
def perform (less : α → α → Bool) : (a : Access α) → Heap α → a.Answer × Heap α
  | .read e, h => (h e, h)
  | .setPrev e v, h => ((), setPrev h e v)
  | .setNext e v, h => ((), setNext h e v)
  | .less a b, h => (less a b, h)

def readLinks (e : α) : Code α (Links α) := access (Access.read e)
def writePrev (e : α) (v : Option α) : Code α Unit := access (Access.setPrev e v)
def writeNext (e : α) (v : Option α) : Code α Unit := access (Access.setNext e v)
def compare (a b : α) : Code α Bool := access (Access.less a b)

/-- `is_head`, `is_interior` and `is_tail` of a node with these links. -/
def headLinks (l : Links α) : Bool := l.prev.isNone && l.next.isSome
def interiorLinks (l : Links α) : Bool := l.prev.isSome && l.next.isSome
def tailLinks (l : Links α) : Bool := l.prev.isSome && l.next.isNone

/-- `list_begin`. -/
def listBegin (list : KList α) : Code α α := (readLinks list.head).bind fun l => some? l.next

/-- `list_next`. -/
def listNext (elem : α) : Code α α :=
  (readLinks elem).bind fun l =>
    some? (if headLinks l || interiorLinks l then l.next else none)

/-- `list_prev`. -/
def listPrev (elem : α) : Code α α :=
  (readLinks elem).bind fun l =>
    some? (if interiorLinks l || tailLinks l then l.prev else none)

/-- `list_insert`. -/
def listInsert (before elem : α) : Code α Unit :=
  (readLinks before).bind fun b =>
    if interiorLinks b || tailLinks b then
      (readLinks before).bind fun b =>
      (writePrev elem b.prev).bind fun _ =>
      (writeNext elem (some before)).bind fun _ =>
      (readLinks before).bind fun b =>
      (some? b.prev).bind fun p =>
      (writeNext p (some elem)).bind fun _ =>
      writePrev before (some elem)
    else .fail

/-- `list_splice`. -/
def listSplice (before first last : α) : Code α Unit :=
  (readLinks before).bind fun b =>
    if interiorLinks b || tailLinks b then
      if first = last then .ret ()
      else
        (listPrev last).bind fun last =>
        (readLinks first).bind fun f =>
        (readLinks last).bind fun l =>
          if interiorLinks f && interiorLinks l then
            -- Cleanly remove FIRST...LAST from its current list.
            (readLinks first).bind fun f =>
            (some? f.prev).bind fun p =>
            (readLinks last).bind fun l =>
            (writeNext p l.next).bind fun _ =>
            (readLinks last).bind fun l =>
            (some? l.next).bind fun n =>
            (readLinks first).bind fun f =>
            (writePrev n f.prev).bind fun _ =>
            -- Splice FIRST...LAST into new list.
            (readLinks before).bind fun b =>
            (writePrev first b.prev).bind fun _ =>
            (writeNext last (some before)).bind fun _ =>
            (readLinks before).bind fun b =>
            (some? b.prev).bind fun p =>
            (writeNext p (some first)).bind fun _ =>
            writePrev before (some last)
          else .fail
    else .fail

/-- A turn of the loop of `is_sorted`. -/
def sortedTurn (b : α) (s : α × Bool) : Code α (ForInStep (α × Bool)) :=
  (listNext s.1).bind fun a =>
    if a = b then .ret (.done (a, true))
    else
      (listPrev a).bind fun p =>
      (compare a p).bind fun less => .ret (if less then .done (a, false) else .yield (a, true))

/-- `is_sorted`. -/
def isSorted (fuel : Nat) (a b : α) : Code α Bool :=
  if a ≠ b then (loop (sortedTurn b) fuel (a, true)).bind fun s => .ret s.2 else .ret true

/-- A turn of the loop of `find_end_of_run`. -/
def runTurn (b a : α) : Code α (ForInStep α) :=
  (listNext a).bind fun a =>
    if a = b then .ret (.done a)
    else
      (listPrev a).bind fun p =>
      (compare a p).bind fun less => .ret (if less then .done a else .yield a)

/-- `find_end_of_run`. -/
def findEndOfRun (fuel : Nat) (a b : α) : Code α α :=
  if a ≠ b then loop (runTurn b) fuel a else .fail

/-- A turn of the loop of `inplace_merge`. -/
def mergeTurn (b1 : α) (s : α × α) : Code α (ForInStep (α × α)) :=
  match s with
  | (a0, a1b0) =>
    if a0 ≠ a1b0 ∧ a1b0 ≠ b1 then
      (compare a1b0 a0).bind fun less =>
        if !less then (listNext a0).bind fun a0 => .ret (.yield (a0, a1b0))
        else
          (listNext a1b0).bind fun a1b0 =>
          (listPrev a1b0).bind fun first =>
          (listSplice a0 first a1b0).bind fun _ => .ret (.yield (a0, a1b0))
    else .ret (.done (a0, a1b0))

/-- `inplace_merge`. -/
def inplaceMerge (fuel : Nat) (a0 a1b0 b1 : α) : Code α Unit :=
  (isSorted fuel a0 a1b0).bind fun first =>
  (isSorted fuel a1b0 b1).bind fun second =>
    if first && second then (loop (mergeTurn b1) fuel (a0, a1b0)).bind fun _ => .ret () else .fail

/-- A turn of the `for` of `list_sort`; the last of the state is
`output_run_cnt`. -/
def passTurn (fuel : Nat) (list : KList α) (s : α × Nat) : Code α (ForInStep (α × Nat)) :=
  match s with
  | (a0, runs) =>
    if a0 = listEnd list then .ret (.done (a0, runs))
    else
      (findEndOfRun fuel a0 (listEnd list)).bind fun a1b0 =>
        if a1b0 = listEnd list then .ret (.done (a0, runs + 1))
        else
          (findEndOfRun fuel a1b0 (listEnd list)).bind fun b1 =>
          (inplaceMerge fuel a0 a1b0 b1).bind fun _ => .ret (.yield (b1, runs + 1))

/-- A turn of its `do`. -/
def sortTurn (fuel : Nat) (list : KList α) (_ : Unit) : Code α (ForInStep Unit) :=
  (listBegin list).bind fun a0 =>
  (loop (passTurn fuel list) fuel (a0, 0)).bind fun s => .ret (if s.2 > 1 then .yield () else .done ())

/-- `list_sort`, each of its loops followed for `fuel` turns. -/
def listSort (fuel : Nat) (list : KList α) : Code α Unit :=
  (loop (sortTurn fuel list) fuel ()).bind fun _ =>
  (listBegin list).bind fun a =>
  (isSorted fuel a (listEnd list)).bind fun sorted => if sorted then .ret () else .fail

/-- A turn of the `for` of `list_insert_ordered`. -/
def orderedTurn (list : KList α) (elem e : α) : Code α (ForInStep α) :=
  if e = listEnd list then .ret (.done e)
  else
    (compare elem e).bind fun less =>
      if less then .ret (.done e) else (listNext e).bind fun e => .ret (.yield e)

/-- `list_insert_ordered`. -/
def listInsertOrdered (fuel : Nat) (list : KList α) (elem : α) : Code α Unit :=
  (listBegin list).bind fun e =>
  (loop (orderedTurn list elem) fuel e).bind fun e => listInsert e elem

/-- `list_remove`: the element after the removed one. -/
def listRemove (elem : α) : Code α α :=
  (readLinks elem).bind fun l =>
    if interiorLinks l then
      (readLinks elem).bind fun l =>
      (some? l.prev).bind fun p =>
      (writeNext p l.next).bind fun _ =>
      (readLinks elem).bind fun l =>
      (some? l.next).bind fun n =>
      (writePrev n l.prev).bind fun _ =>
      (readLinks elem).bind fun l => some? l.next
    else .fail

/-- `list_pop_front`. -/
def listPopFront (list : KList α) : Code α α :=
  (listBegin list).bind fun front =>
    if front = listEnd list then .fail else (listRemove front).bind fun _ => .ret front

/-! ## Without a break -/

variable {less : α → α → Bool} {h : Heap α} {a b e : α} {fuel : Nat} {list : KList α}

@[simp] theorem run_readLinks : (readLinks e).run (perform less) h = some (h e, h) := rfl

@[simp] theorem run_writePrev {v : Option α} : (writePrev e v).run (perform less) h = some ((), setPrev h e v) := rfl

@[simp] theorem run_writeNext {v : Option α} : (writeNext e v).run (perform less) h = some ((), setNext h e v) := rfl

@[simp] theorem run_compare : (compare a b).run (perform less) h = some (less a b, h) := rfl

@[simp] theorem run_listBegin :
    (listBegin list).run (perform less) h = (LibKernel.listBegin h list).map fun a => (a, h) := by
  simp [listBegin, LibKernel.listBegin]

@[simp] theorem run_listNext : (listNext e).run (perform less) h = (LibKernel.listNext h e).map fun a => (a, h) := by
  rw [listNext, run_bind, run_readLinks, Option.bind_some, run_some?]
  rfl

@[simp] theorem run_listPrev : (listPrev e).run (perform less) h = (LibKernel.listPrev h e).map fun a => (a, h) := by
  rw [listPrev, run_bind, run_readLinks, Option.bind_some, run_some?]
  rfl

theorem run_ite {ρ : Type} {c : Prop} [Decidable c] {p q : Code α ρ} :
    (if c then p else q).run (perform less) h = if c then p.run (perform less) h else q.run (perform less) h :=
  apply_ite (fun p : Code α ρ => p.run (perform less) h) c p q

@[simp] theorem run_listSplice {before first last : α} :
    (listSplice before first last).run (perform less) h =
      (LibKernel.listSplice h before first last).map fun h => ((), h) := by
  have hin (e : α) : interiorLinks (h e) = isInterior h e := rfl
  have htail (e : α) : tailLinks (h e) = isTail h e := rfl
  rw [listSplice, LibKernel.listSplice, run_bind, run_readLinks, Option.bind_some, hin, htail, run_ite, run_ite]
  split_ifs
  · rfl
  · rw [run_bind, run_listPrev]
    cases LibKernel.listPrev h last with
    | none => rfl
    | some last =>
      simp only [Option.map_some, Option.bind_some, Option.bind_eq_bind, run_bind, run_readLinks, hin, run_ite]
      split_ifs
      · simp [Option.map_bind, Option.bind_map]
      · rfl
  · rfl

/-- `is_sorted` and `find_end_of_run` write nothing. -/
@[simp] theorem run_isSorted :
    (isSorted fuel a b).run (perform less) h = (LibKernel.isSorted less fuel h a b).map fun r => (r, h) := by
  have hturn (s : α × Bool) :
      (sortedTurn b s).run (perform less) h = (LibKernel.sortedTurn less h b s).map fun r => (r, h) := by
    rw [sortedTurn, LibKernel.sortedTurn, run_bind, run_listNext, Option.bind_map, Option.map_bind]
    refine Option.bind_congr fun a _ => ?_
    simp only [Function.comp_apply, run_ite, run_bind, run_listPrev]
    split_ifs
    · rfl
    · cases LibKernel.listPrev h a <;> rfl
  rw [isSorted, LibKernel.isSorted, run_ite, run_bind, run_loop_reads hturn]
  split_ifs
  · cases whileLoop (LibKernel.sortedTurn less h b) fuel (a, true) <;> rfl
  · rfl

@[simp] theorem run_findEndOfRun :
    (findEndOfRun fuel a b).run (perform less) h = (LibKernel.findEndOfRun less fuel h a b).map fun r => (r, h) := by
  have hturn (a : α) : (runTurn b a).run (perform less) h = (LibKernel.runTurn less h b a).map fun r => (r, h) := by
    rw [runTurn, LibKernel.runTurn, run_bind, run_listNext, Option.bind_map, Option.map_bind]
    refine Option.bind_congr fun a _ => ?_
    simp only [Function.comp_apply, run_ite, run_bind, run_listPrev]
    split_ifs
    · rfl
    · cases LibKernel.listPrev h a <;> rfl
  rw [findEndOfRun, LibKernel.findEndOfRun, run_ite]
  split_ifs
  · exact run_loop_reads hturn
  · rfl

@[simp] theorem run_inplaceMerge {b1 : α} : (inplaceMerge fuel a b b1).run (perform less) h =
    (LibKernel.inplaceMerge less fuel h a b b1).map fun h => ((), h) := by
  have hturn (h : Heap α) (s : α × α) :
      ((mergeTurn b1 s).run (perform less) h).map (packTurn Prod.mk) = LibKernel.mergeTurn less b1 (h, s) := by
    obtain ⟨a0, a1b0⟩ := s
    simp only [mergeTurn, LibKernel.mergeTurn, run_ite, run_bind, run_compare, Option.bind_some]
    split_ifs
    · rw [run_listNext]
      cases LibKernel.listNext h a0 <;> rfl
    · rw [run_listNext]
      cases LibKernel.listNext h a1b0 with
      | none => rfl
      | some a1b0 =>
        simp only [Option.map_some, Option.bind_some, run_listPrev]
        cases LibKernel.listPrev h a1b0 with
        | none => rfl
        | some first =>
          simp only [Option.map_some, Option.bind_some, run_listSplice]
          cases LibKernel.listSplice h a0 first a1b0 <;> rfl
    · rfl
  rw [inplaceMerge, LibKernel.inplaceMerge, run_bind, run_isSorted]
  cases LibKernel.isSorted less fuel h a b with
  | none => rfl
  | some first =>
    simp only [Option.map_some, Option.bind_some, run_bind, run_isSorted]
    cases LibKernel.isSorted less fuel h b b1 with
    | none => rfl
    | some second =>
      simp only [Option.map_some, Option.bind_some, run_ite, run_bind]
      split_ifs
      · rw [run_loop hturn]
        cases (loop (mergeTurn b1) fuel (a, b)).run (perform less) h <;> rfl
      · rfl

/-- **Without a break the code is `list_sort`.** -/
theorem run_listSort :
    (listSort fuel list).run (perform less) h = (LibKernel.listSort less fuel list h).map fun h => ((), h) := by
  have hpass (h : Heap α) (s : α × Nat) :
      ((passTurn fuel list s).run (perform less) h).map (packTurn Prod.mk) = LibKernel.passTurn less fuel list (h, s) := by
    obtain ⟨a0, runs⟩ := s
    simp only [passTurn, LibKernel.passTurn, run_ite, run_bind, run_findEndOfRun]
    split_ifs
    · rfl
    · cases LibKernel.findEndOfRun less fuel h a0 (listEnd list) with
      | none => rfl
      | some a1b0 =>
        simp only [Option.map_some, Option.bind_some]
        split_ifs
        · rfl
        · cases LibKernel.findEndOfRun less fuel h a1b0 (listEnd list) with
          | none => rfl
          | some b1 =>
            simp only [Option.map_some, Option.bind_some, run_inplaceMerge]
            cases LibKernel.inplaceMerge less fuel h a0 a1b0 b1 <;> rfl
  have hturn (h : Heap α) (s : Unit) :
      ((sortTurn fuel list s).run (perform less) h).map (packTurn fun h _ => h) = LibKernel.sortTurn less fuel list h := by
    rw [sortTurn, LibKernel.sortTurn, run_bind, run_listBegin]
    cases LibKernel.listBegin h list with
    | none => rfl
    | some a0 =>
      simp only [Option.map_some, Option.bind_some, run_bind, run_loop hpass]
      cases (loop (passTurn fuel list) fuel (a0, 0)).run (perform less) h with
      | none => rfl
      | some r =>
        simp only [Option.map_some, Option.bind_some, run_ret]
        split_ifs <;> rfl
  have hloop : whileLoop (LibKernel.sortTurn less fuel list) fuel h =
      ((loop (sortTurn fuel list) fuel ()).run (perform less) h).map fun r => r.2 := run_loop hturn
  simp only [listSort, LibKernel.listSort, run_bind, hloop]
  cases (loop (sortTurn fuel list) fuel ()).run (perform less) h with
  | none => rfl
  | some r =>
    simp only [Option.map_some, Option.bind_some, run_listBegin]
    cases LibKernel.listBegin r.2 list with
    | none => rfl
    | some a =>
      simp only [Option.map_some, Option.bind_some, run_isSorted]
      cases LibKernel.isSorted less fuel r.2 a (listEnd list) with
      | none => rfl
      | some sorted => cases sorted <;> rfl

/-! ## How long it takes -/

/-- The accesses of `inplace_merge` and of `list_sort`, at most. -/
def mergeCost (fuel : Nat) : Nat := fuel * 3 + (fuel * 3 + fuel * 20)
def sortCost (fuel : Nat) : Nat := fuel * (1 + fuel * (fuel * 3 + (fuel * 3 + mergeCost fuel))) + (1 + fuel * 3)

theorem sortCost_mono {n m : Nat} (h : n ≤ m) : sortCost n ≤ sortCost m := by
  have h₃ : n * 3 ≤ m * 3 := Nat.mul_le_mul_right 3 h
  have hmerge : mergeCost n ≤ mergeCost m :=
    Nat.add_le_add h₃ (Nat.add_le_add h₃ (Nat.mul_le_mul_right 20 h))
  have hpass := Nat.mul_le_mul h (Nat.add_le_add h₃ (Nat.add_le_add h₃ hmerge))
  exact Nat.add_le_add (Nat.mul_le_mul h (Nat.add_le_add_left hpass 1)) (Nat.add_le_add_left h₃ 1)

omit [DecidableEq α] in
theorem atMost_listNext : AtMost 1 (listNext e) := atMost_access.seq (fun _ => atMost_some? (n := 0)) le_rfl

omit [DecidableEq α] in
theorem atMost_listPrev : AtMost 1 (listPrev e) := atMost_access.seq (fun _ => atMost_some? (n := 0)) le_rfl

theorem atMost_isSorted : AtMost (fuel * 3) (isSorted fuel a b) := by
  have hturn (s : α × Bool) : AtMost 3 (sortedTurn b s) := by
    refine atMost_listNext.seq (fun a => AtMost.ite atMost_ret ?_) (Nat.le_refl (1 + 2))
    exact atMost_listPrev.seq (fun p => atMost_access.seq (fun _ => atMost_ret (n := 0)) le_rfl) le_rfl
  exact AtMost.ite ((AtMost.loop hturn fuel _).seq (fun _ => atMost_ret (n := 0)) le_rfl) atMost_ret

theorem atMost_findEndOfRun : AtMost (fuel * 3) (findEndOfRun fuel a b) := by
  have hturn (a : α) : AtMost 3 (runTurn b a) := by
    refine atMost_listNext.seq (fun a => AtMost.ite atMost_ret ?_) (Nat.le_refl (1 + 2))
    exact atMost_listPrev.seq (fun p => atMost_access.seq (fun _ => atMost_ret (n := 0)) le_rfl) le_rfl
  exact AtMost.ite (AtMost.loop hturn fuel _) atMost_fail

omit [DecidableEq α] in
theorem atMost_read {ρ : Type} {n : Nat} {f : Links α → Code α ρ} (h : ∀ l, AtMost n (f l)) :
    AtMost (n + 1) ((readLinks e).bind f) := h

omit [DecidableEq α] in
theorem atMost_writePrev {ρ : Type} {n : Nat} {v : Option α} {f : Unit → Code α ρ} (h : ∀ u, AtMost n (f u)) :
    AtMost (n + 1) ((writePrev e v).bind f) := h

omit [DecidableEq α] in
theorem atMost_writeNext {ρ : Type} {n : Nat} {v : Option α} {f : Unit → Code α ρ} (h : ∀ u, AtMost n (f u)) :
    AtMost (n + 1) ((writeNext e v).bind f) := h

omit [DecidableEq α] in
theorem atMost_there {ρ : Type} {n : Nat} {r : Option α} {f : α → Code α ρ} (h : ∀ a, AtMost n (f a)) :
    AtMost n ((some? r).bind f) := (atMost_some? (n := 0)).seq h (Nat.zero_add n).le

theorem atMost_listSplice {before first last : α} : AtMost 17 (listSplice before first last) := by
  refine atMost_read fun b => AtMost.ite (AtMost.ite atMost_ret ?_) atMost_fail
  refine atMost_listPrev.seq (fun last => ?_) (Nat.le_refl (1 + 15))
  refine atMost_read fun f => atMost_read fun l => AtMost.ite ?_ atMost_fail
  refine atMost_read fun f => atMost_there fun p => atMost_read fun l => atMost_writeNext fun _ => ?_
  refine atMost_read fun l => atMost_there fun n => atMost_read fun f => atMost_writePrev fun _ => ?_
  refine atMost_read fun b => atMost_writePrev fun _ => atMost_writeNext fun _ => ?_
  exact atMost_read fun b => atMost_there fun p => (atMost_writeNext fun _ => atMost_access.mono (by omega))

theorem atMost_inplaceMerge {b1 : α} : AtMost (mergeCost fuel) (inplaceMerge fuel a b b1) := by
  have hturn (s : α × α) : AtMost 20 (mergeTurn b1 s) := by
    refine AtMost.ite ?_ atMost_ret
    refine atMost_access.seq (fun less => AtMost.ite ?_ ?_) (Nat.le_refl (1 + 19))
    · exact atMost_listNext.seq (fun _ => atMost_ret (n := 0)) (by omega)
    · refine atMost_listNext.seq (fun _ => ?_) (Nat.le_refl (1 + 18))
      refine atMost_listPrev.seq (fun _ => ?_) (Nat.le_refl (1 + 17))
      exact atMost_listSplice.seq (fun _ => atMost_ret (n := 0)) le_rfl
  refine atMost_isSorted.seq (fun first => atMost_isSorted.seq (fun second => ?_) le_rfl) le_rfl
  exact AtMost.ite ((AtMost.loop hturn fuel _).seq (fun _ => atMost_ret (n := 0)) le_rfl) atMost_fail

/-- `list_sort` ends, whatever the answers are, or is not followed further. -/
theorem atMost_listSort : AtMost (sortCost fuel) (listSort fuel list) := by
  have hpass (s : α × Nat) : AtMost (fuel * 3 + (fuel * 3 + mergeCost fuel)) (passTurn fuel list s) := by
    refine AtMost.ite atMost_ret ?_
    refine atMost_findEndOfRun.seq (fun a1b0 => AtMost.ite atMost_ret ?_) le_rfl
    refine atMost_findEndOfRun.seq (fun b1 => ?_) le_rfl
    exact atMost_inplaceMerge.seq (fun _ => atMost_ret (n := 0)) le_rfl
  have hbegin : AtMost 1 (listBegin list) := atMost_access.seq (fun _ => atMost_some? (n := 0)) le_rfl
  have hturn (s : Unit) : AtMost (1 + fuel * (fuel * 3 + (fuel * 3 + mergeCost fuel))) (sortTurn fuel list s) :=
    hbegin.seq (fun a0 => (AtMost.loop hpass fuel _).seq (fun _ => atMost_ret (n := 0)) le_rfl) le_rfl
  refine (AtMost.loop hturn fuel ()).seq (fun _ => hbegin.seq (fun a => ?_) le_rfl) le_rfl
  exact atMost_isSorted.seq (fun _ => AtMost.ite (atMost_ret (n := 0)) atMost_fail) le_rfl

end

/-! ## A list of numbered elements -/

/-- The nodes of a list: its sentinels, and the `elem` of thing number `n`. -/
inductive Node where
  | head
  | tail
  | elem (n : Nat)
  deriving DecidableEq

/-- `list_entry`; of a sentinel it is never taken. -/
def Node.entry : Node → Nat
  | .elem n => n
  | .head | .tail => 0

/-- Elements compare as their things do. -/
def nodeLess (less : Nat → Nat → Bool) (a b : Node) : Bool := less a.entry b.entry

def nodeList : KList Node := ⟨.head, .tail⟩

/-- Nodes linked to each other in this order. -/
def rowLinks : List Node → Heap Node
  | a :: b :: zs => link (rowLinks (b :: zs)) a b
  | _ => fun _ => ⟨none, none⟩

/-- The links of the list that holds `xs`. -/
def linksOf (xs : List Nat) : Heap Node := rowLinks (nodes nodeList (xs.map .elem))

/-- What a walk along the links on finds from a node on, in `n` steps. -/
def walkFrom (h : Heap Node) : Nat → Option Node → List Nat
  | n + 1, some (.elem t) => t :: walkFrom h n (h (.elem t)).next
  | _, _ => []

/-- What a walk along the list finds. -/
def elems (h : Heap Node) (n : Nat) : List Nat := walkFrom h n (h .head).next

/-- The links are those of the list that holds `xs`. -/
abbrev Holds (h : Heap Node) (xs : List Nat) : Prop :=
  Represents h (fun _ : Unit => nodeList) fun _ => xs.map .elem

theorem rowLinks_of_not_mem {a : Node} {zs : List Node} (h : a ∉ zs) : rowLinks zs a = ⟨none, none⟩ := by
  induction zs with
  | nil => rfl
  | cons b zs ih =>
    cases zs with
    | nil => rfl
    | cons c zs =>
      have hrest := List.not_mem_of_not_mem_cons h
      rw [rowLinks, link_of_ne (List.ne_of_not_mem_cons h) (List.ne_of_not_mem_cons hrest)]
      exact ih hrest

theorem rowLinks_closed {zs : List Node} (hd : zs.Nodup) : Closed (rowLinks zs) zs := by
  induction zs with
  | nil => exact ⟨List.isChain_nil, hd, nofun, nofun⟩
  | cons a zs ih =>
    cases zs with
    | nil => exact ⟨List.isChain_singleton a, hd, fun _ _ => rfl, fun _ _ => rfl⟩
    | cons b zs =>
      have hrest := ih hd.tail
      have ha : a ∉ b :: zs := (List.nodup_cons.mp hd).1
      have hone : Row (rowLinks (b :: zs)) ([] ++ [a]) := List.isChain_singleton a
      refine closed_join hone hrest.row hd (fun c hc => ?_) hrest.last
      obtain rfl : a = c := Option.some.inj hc
      rw [rowLinks_of_not_mem ha]

theorem holds_linksOf {xs : List Nat} (hd : xs.Nodup) : Holds (linksOf xs) xs where
  closed _ := by
    refine rowLinks_closed ?_
    have hinj : (xs.map Node.elem).Nodup := hd.map fun a b h => Node.elem.inj h
    simp [nodes, nodeList, List.nodup_append, hinj]
  apart _ _ _ _ _ := rfl

theorem Holds.walkFrom {h : Heap Node} (xs ys : List Nat) {n : Nat} (hh : Holds h (xs ++ ys)) (hn : ys.length < n) :
    walkFrom h n (some (firstNode nodeList (ys.map .elem))) = ys := by
  induction ys generalizing xs n with
  | nil =>
    obtain ⟨n, rfl⟩ : ∃ k, n = k + 1 := ⟨n - 1, by omega⟩
    rfl
  | cons y ys ih =>
    obtain ⟨n, rfl⟩ : ∃ k, n = k + 1 := ⟨n - 1, by omega⟩
    have hσ : (xs ++ y :: ys).map Node.elem = xs.map .elem ++ .elem y :: ys.map .elem := by simp
    have hnext := (hh.adjacent (i := ()) hσ).1
    have hrest : Holds h ((xs ++ [y]) ++ ys) := by simpa using hh
    exact congrArg (y :: ·) ((congrArg _ hnext).trans (ih _ hrest (Nat.lt_of_succ_lt_succ hn)))

/-- Along a well-formed list the walk finds what it holds. -/
theorem Holds.elems {h : Heap Node} {xs : List Nat} {n : Nat} (hh : Holds h xs) (hn : xs.length < n) : elems h n = xs :=
  (congrArg _ (hh.begin ())).trans (Holds.walkFrom [] xs hh hn)

/-- Undisturbed, `list_sort` leaves the list sorted. -/
theorem Holds.sort {P : Type*} [LinearOrder P] {key : Nat → P} {h : Heap Node} {xs : List Nat} {fuel : Nat}
    (hh : Holds h xs) (hf : xs.length < fuel) :
    ∃ h', (listSort fuel nodeList).run (perform (nodeLess (Threads.lessBy key))) h = some ((), h') ∧
      Holds h' (OrdList.sortBy key xs) := by
  have hkey : nodeLess (Threads.lessBy key) = Threads.lessBy fun e : Node => key e.entry := rfl
  obtain ⟨h', hrun, hrep⟩ := listSort_represents (i := ()) (fun e : Node => key e.entry) hh (by simpa using hf)
  refine ⟨h', by rw [run_listSort, hkey, hrun]; rfl, ?_⟩
  have hmap : OrdList.sortBy (fun e : Node => key e.entry) (xs.map .elem) = (OrdList.sortBy key xs).map .elem :=
    (List.map_insertionSort (fun a b => key b ≤ key a) (fun a b : Node => key b.entry ≤ key a.entry) Node.elem xs
      fun a _ b _ => Iff.rfl).symm
  have hupd : Function.update (fun _ : Unit => xs.map Node.elem) () ((OrdList.sortBy key xs).map .elem) =
      fun _ => (OrdList.sortBy key xs).map .elem := funext fun _ => Function.update_self ..
  rw [hmap, hupd] at hrep
  exact hrep

/-- A `list_sort` in progress: the links, and what it does next. -/
structure Sorting where
  links : Heap Node
  code : Code Node Unit

/-- Run to its end with these keys, the sort leaves the list sorted. -/
def Sorting.Sorts {P : Type*} [LinearOrder P] (x : Sorting) (key : Nat → P) (xs : List Nat) : Prop :=
  ∃ links, x.code.run (perform (nodeLess (Threads.lessBy key))) x.links = some ((), links) ∧
    Holds links (OrdList.sortBy key xs)

/-- So it does when it begins. -/
theorem sorts_linksOf {P : Type*} [LinearOrder P] {key : Nat → P} {xs : List Nat} {fuel : Nat} (hd : xs.Nodup)
    (hf : xs.length < fuel) : Sorting.Sorts ⟨linksOf xs, listSort fuel nodeList⟩ key xs := (holds_linksOf hd).sort hf

end PintosKaist.LibKernel.Steps
