/-
Counted references: cells that each refer to at most one object, and objects
on a list, each with a count of the cells that refer to it and a back pointer
to one cell. An object that was freed is `none`.

`Table.Ok` is what such a table keeps. There is one lemma for each way a table
moves: a cell comes or goes, an object is attached to a cell, shared by one
more, let go by one, or released with the last cell that refers to it.
-/
import Mathlib.Data.List.Nodup
import Mathlib.Logic.Function.Basic
import PintosKaist.Lib.Count

namespace RefTable

open Count

/-- An object, as its holders see it. -/
structure Obj (ι : Type*) where
  cnt : Int
  back : Option ι

/-- The cells, what each refers to, and the objects. -/
@[ext] structure Table (ι κ : Type*) where
  cells : Finset ι
  ref : ι → Option κ
  listed : List κ
  obj : κ → Option (Obj ι)

namespace Table

variable {ι κ : Type*} [DecidableEq ι] [DecidableEq κ] {t : Table ι κ} {i j : ι} {k : κ} {o : Obj ι}

/-- The number of cells that refer to `k`. -/
def users (t : Table ι κ) (k : κ) : Nat := count t.cells t.ref (some k)

structure Ok (t : Table ι κ) : Prop where
  nodup : t.listed.Nodup
  ref_listed : ∀ i ∈ t.cells, ∀ k, t.ref i = some k → k ∈ t.listed
  live : ∀ k ∈ t.listed, ∃ o, t.obj k = some o
  cnt : ∀ k ∈ t.listed, ∀ o, t.obj k = some o → o.cnt = t.users k
  back : ∀ k ∈ t.listed, ∀ o, t.obj k = some o → ∃ i ∈ t.cells, o.back = some i

/-! ## The moves -/

/-- A new cell, that refers to nothing. -/
def addCell (t : Table ι κ) (i : ι) : Table ι κ :=
  { t with cells := insert i t.cells, ref := Function.update t.ref i none }

def dropCell (t : Table ι κ) (i : ι) : Table ι κ :=
  { t with cells := t.cells.erase i, ref := Function.update t.ref i none }

/-- A new object at the back of the list, that nothing refers to yet. -/
def push (t : Table ι κ) (k : κ) : Table ι κ :=
  { t with listed := t.listed ++ [k], obj := Function.update t.obj k (some ⟨0, none⟩) }

/-- A new object at the back of the list, that `i` refers to. -/
def attach (t : Table ι κ) (i : ι) (k : κ) : Table ι κ :=
  { t with
    ref := Function.update t.ref i (some k)
    listed := t.listed ++ [k]
    obj := Function.update t.obj k (some ⟨1, some i⟩) }

/-- `i` refers to `r`, and the count of `k` moves by `d`. -/
def repoint (t : Table ι κ) (i : ι) (r : Option κ) (k : κ) (o : Obj ι) (d : Int) : Table ι κ :=
  { t with ref := Function.update t.ref i r, obj := Function.update t.obj k (some { o with cnt := o.cnt + d }) }

/-- `i` refers to `k` as well, and is counted. -/
def share (t : Table ι κ) (i : ι) (k : κ) (o : Obj ι) : Table ι κ := t.repoint i (some k) k o 1

/-- `i` no longer refers to `k`, and is no longer counted. -/
def detach (t : Table ι κ) (i : ι) (k : κ) (o : Obj ι) : Table ι κ := t.repoint i none k o (-1)

/-- `k` leaves the list and is freed, and `i` refers to nothing. -/
def release (t : Table ι κ) (i : ι) (k : κ) : Table ι κ :=
  { t with
    ref := Function.update t.ref i none
    listed := t.listed.erase k
    obj := Function.update t.obj k none }

/-! ## What each move keeps -/

/-- Pointing the cell `i` elsewhere moves one from the count of what it
referred to. -/
theorem users_update {r : Option κ} {k : κ} (hi : i ∈ t.cells) :
    count t.cells (Function.update t.ref i r) (some k) + (if t.ref i = some k then 1 else 0) =
      t.users k + if r = some k then 1 else 0 := count_update hi

omit [DecidableEq ι] in
/-- A cell that refers to an object counted once is the only one. -/
theorem Ok.only_user (h : t.Ok) (hi : i ∈ t.cells) (hk : t.ref i = some k) (ho : t.obj k = some o)
    (h1 : o.cnt = 1) (hj : j ∈ t.cells) (hjk : t.ref j = some k) : j = i := by
  have hu : t.users k = 1 := by
    have := h.cnt k (h.ref_listed i hi k hk) o ho
    omega
  obtain ⟨x, hx⟩ := Finset.card_eq_one.mp hu
  have hi' : i ∈ t.cells.filter fun i => t.ref i = some k := by simp [hi, hk]
  have hj' : j ∈ t.cells.filter fun i => t.ref i = some k := by simp [hj, hjk]
  rw [hx, Finset.mem_singleton] at hi' hj'
  rw [hi', hj']

theorem Ok.addCell (h : t.Ok) (hi : i ∉ t.cells) : (t.addCell i).Ok where
  nodup := h.nodup
  ref_listed := by
    intro j hj k hk
    simp only [Table.addCell, Finset.mem_insert, Function.update_apply] at hj hk
    split at hk
    · exact absurd hk (by simp)
    · exact h.ref_listed j (by tauto) k hk
  live := h.live
  cnt := by
    intro k hk o ho
    have hrest : count t.cells (Function.update t.ref i none) (some k) = t.users k :=
      count_congr fun j hj => Function.update_of_ne (show j ≠ i from fun e => hi (e ▸ hj)) ..
    show o.cnt = (count (insert i t.cells) (Function.update t.ref i none) (some k) : Nat)
    rw [count_insert hi, hrest, Function.update_self, if_neg (by simp), h.cnt k hk o ho]
    simp
  back := by
    intro k hk o ho
    obtain ⟨j, hj, hb⟩ := h.back k hk o ho
    exact ⟨j, by simp [Table.addCell, hj], hb⟩

theorem Ok.dropCell (h : t.Ok) (hi : i ∈ t.cells) (hr : t.ref i = none)
    (hb : ∀ k ∈ t.listed, ∀ o, t.obj k = some o → o.back ≠ some i) : (t.dropCell i).Ok where
  nodup := h.nodup
  ref_listed := by
    intro j hj k hk
    simp only [Table.dropCell, Finset.mem_erase, Function.update_apply] at hj hk
    rw [if_neg hj.1] at hk
    exact h.ref_listed j hj.2 k hk
  live := h.live
  cnt := by
    intro k hk o ho
    have hn : i ∉ t.cells.erase i := Finset.notMem_erase i _
    have hrest : count (t.cells.erase i) (Function.update t.ref i none) (some k) =
        count (t.cells.erase i) t.ref (some k) :=
      count_congr fun j hj => Function.update_of_ne (Finset.ne_of_mem_erase hj) ..
    have hall : t.users k = count (t.cells.erase i) t.ref (some k) := by
      rw [users, ← Finset.insert_erase hi, count_insert hn, hr, if_neg (by simp)]
      simp
    show o.cnt = (count (t.cells.erase i) (Function.update t.ref i none) (some k) : Nat)
    rw [hrest, ← hall, h.cnt k hk o ho]
  back := by
    intro k hk o ho
    obtain ⟨j, hj, hjb⟩ := h.back k hk o ho
    have hne : j ≠ i := fun e => hb k hk o ho (e ▸ hjb)
    exact ⟨j, by simp [Table.dropCell, hj, hne], hjb⟩

theorem Ok.attach (h : t.Ok) (hi : i ∈ t.cells) (hr : t.ref i = none) (hk : k ∉ t.listed) : (t.attach i k).Ok where
  nodup := by
    simp only [Table.attach, List.nodup_append, List.nodup_singleton, List.mem_singleton, true_and]
    exact ⟨h.nodup, fun a ha b hb e => hk (by rw [← hb, ← e]; exact ha)⟩
  ref_listed := by
    intro j hj l hl
    simp only [Table.attach, Function.update_apply, List.mem_append, List.mem_singleton] at hj hl ⊢
    split at hl
    · exact .inr (Option.some.inj hl).symm
    · exact .inl (h.ref_listed j hj l hl)
  live := by
    intro l hl
    simp only [Table.attach, Function.update_apply, List.mem_append, List.mem_singleton] at hl ⊢
    split
    · exact ⟨_, rfl⟩
    · exact h.live l (by tauto)
  cnt := by
    intro l hl o ho
    have hu := users_update (t := t) (r := some k) (k := l) hi
    rw [hr, if_neg (by simp)] at hu
    show o.cnt = (count t.cells (Function.update t.ref i (some k)) (some l) : Nat)
    simp only [Table.attach, Function.update_apply, List.mem_append, List.mem_singleton] at hl ho
    by_cases hlk : l = k
    · subst hlk
      have h0 : t.users l = 0 := count_eq_zero.mpr fun j hj e => hk (h.ref_listed j hj l e)
      rw [if_pos rfl] at ho hu
      obtain rfl := Option.some.inj ho
      show (1 : Int) = _
      omega
    · rw [if_neg hlk] at ho
      rw [if_neg (by simpa using Ne.symm hlk)] at hu
      have := h.cnt l (by tauto) o ho
      omega
  back := by
    intro l hl o ho
    simp only [Table.attach, Function.update_apply, List.mem_append, List.mem_singleton] at hl ho
    split at ho
    · obtain rfl := Option.some.inj ho
      exact ⟨i, hi, rfl⟩
    · exact h.back l (by tauto) o ho

theorem Ok.repoint {r : Option κ} {d : Int} (h : t.Ok) (hi : i ∈ t.cells) (hk : k ∈ t.listed)
    (ho : t.obj k = some o) (hr : ∀ l, r = some l → l ∈ t.listed)
    (hd : d + (if t.ref i = some k then 1 else 0) = if r = some k then 1 else 0)
    (hne : ∀ l, l ≠ k → (t.ref i = some l ↔ r = some l)) : (t.repoint i r k o d).Ok where
  nodup := h.nodup
  ref_listed := by
    intro j hj l hl
    simp only [Table.repoint, Function.update_apply] at hj hl ⊢
    split at hl
    · exact hr l hl
    · exact h.ref_listed j hj l hl
  live := by
    intro l hl
    simp only [Table.repoint, Function.update_apply] at hl ⊢
    split
    · exact ⟨_, rfl⟩
    · exact h.live l hl
  cnt := by
    intro l hl o' ho'
    have hu := users_update (t := t) (r := r) (k := l) hi
    show o'.cnt = (count t.cells (Function.update t.ref i r) (some l) : Nat)
    simp only [Table.repoint, Function.update_apply] at hl ho'
    by_cases hlk : l = k
    · subst hlk
      rw [if_pos rfl] at ho'
      obtain rfl := Option.some.inj ho'
      have := h.cnt l hl o ho
      show o.cnt + d = _
      split_ifs at hd hu <;> omega
    · rw [if_neg hlk] at ho'
      rw [if_congr (hne l hlk) rfl rfl] at hu
      have := h.cnt l hl o' ho'
      omega
  back := by
    intro l hl o' ho'
    simp only [Table.repoint, Function.update_apply] at hl ho'
    split at ho'
    · obtain rfl := Option.some.inj ho'
      exact h.back k hk o ho
    · exact h.back l hl o' ho'

theorem Ok.share (h : t.Ok) (hi : i ∈ t.cells) (hr : t.ref i = none) (hk : k ∈ t.listed)
    (ho : t.obj k = some o) : (t.share i k o).Ok := by
  refine h.repoint hi hk ho (fun l e => Option.some.inj e ▸ hk) (by simp [hr]) fun l hl => ?_
  simp [hr, Ne.symm hl]

theorem Ok.detach (h : t.Ok) (hi : i ∈ t.cells) (hr : t.ref i = some k) (ho : t.obj k = some o) :
    (t.detach i k o).Ok := by
  refine h.repoint hi (h.ref_listed i hi k hr) ho (fun l e => absurd e (by simp)) (by simp [hr]) fun l hl => ?_
  simp [hr, Ne.symm hl]

theorem Ok.release (h : t.Ok) (hi : i ∈ t.cells) (hr : t.ref i = some k) (ho : t.obj k = some o)
    (h1 : o.cnt = 1) : (t.release i k).Ok where
  nodup := h.nodup.erase k
  ref_listed := by
    intro j hj l hl
    simp only [Table.release, Function.update_apply] at hj hl ⊢
    split at hl
    · exact absurd hl (by simp)
    · rename_i hne
      refine (h.nodup.mem_erase_iff).mpr ⟨?_, h.ref_listed j hj l hl⟩
      rintro rfl
      exact hne (h.only_user hi hr ho h1 hj hl)
  live := by
    intro l hl
    obtain ⟨hne, hl⟩ := h.nodup.mem_erase_iff.mp hl
    simpa [Table.release, Function.update_apply, hne] using h.live l hl
  cnt := by
    intro l hl o' ho'
    obtain ⟨hne, hl⟩ := h.nodup.mem_erase_iff.mp hl
    have hu := users_update (t := t) (r := none) (k := l) hi
    rw [hr, if_neg (show (none : Option κ) ≠ some l by simp), if_neg (by simpa using Ne.symm hne)] at hu
    show o'.cnt = (count t.cells (Function.update t.ref i none) (some l) : Nat)
    simp only [Table.release, Function.update_apply, if_neg hne] at ho'
    have := h.cnt l hl o' ho'
    omega
  back := by
    intro l hl o' ho'
    obtain ⟨hne, hl⟩ := h.nodup.mem_erase_iff.mp hl
    simp only [Table.release, Function.update_apply, if_neg hne] at ho'
    exact h.back l hl o' ho'

end Table

end RefTable
