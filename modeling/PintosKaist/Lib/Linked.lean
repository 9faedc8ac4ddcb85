/-
Nodes with a link each way over a heap: rows of neighbours, what joining two
nodes does to the rows they are in, and closed rows (rows that begin with no
link back and end with no link on).
-/
import Mathlib.Data.List.Chain
import Mathlib.Data.List.Nodup
import Mathlib.Logic.Function.Basic

namespace PintosKaist.Linked

@[ext] structure Links (α : Type*) where
  prev : Option α
  next : Option α

abbrev Heap (α : Type*) := α → Links α

section
variable {α : Type*} {h h' : Heap α} {a b c : α} {xs ys zs : List α}

/-- Two heaps with the same links are the same heap. -/
theorem heap_ext (hn : ∀ x, (h' x).next = (h x).next) (hp : ∀ x, (h' x).prev = (h x).prev) : h' = h :=
  funext fun x => Links.ext (hp x) (hn x)

/-- `b` follows `a`, and `a` comes before `b`. -/
def Adj (h : Heap α) (a b : α) : Prop := (h a).next = some b ∧ (h b).prev = some a

/-- Each node of the row is linked both ways with the one after it. -/
def Row (h : Heap α) (xs : List α) : Prop := xs.IsChain (Adj h)

theorem row_cons_cons : Row h (a :: b :: xs) ↔ Adj h a b ∧ Row h (b :: xs) := List.isChain_cons_cons

/-- A row is two rows that meet in a node. -/
theorem row_split : Row h (xs ++ c :: ys) ↔ Row h (xs ++ [c]) ∧ Row h (c :: ys) := List.isChain_split

theorem Row.left (hr : Row h (xs ++ ys)) : Row h xs := List.IsChain.left_of_append hr

theorem Row.right (hr : Row h (xs ++ ys)) : Row h ys := List.IsChain.right_of_append hr

theorem Row.tail (hr : Row h (a :: xs)) : Row h xs := List.IsChain.tail hr

theorem Row.adj (hr : Row h (xs ++ a :: b :: ys)) : Adj h a b := (row_cons_cons.mp (row_split.mp hr).2).1

/-- A row only depends on the links on of all but its last node, and on the
links back of all but its first. -/
theorem Row.congr (hr : Row h xs) (hn : ∀ x ∈ xs.dropLast, (h' x).next = (h x).next)
    (hp : ∀ x ∈ xs.tail, (h' x).prev = (h x).prev) : Row h' xs := by
  induction xs with
  | nil => exact List.isChain_nil
  | cons a xs ih =>
    cases xs with
    | nil => exact List.isChain_singleton a
    | cons b xs =>
      obtain ⟨⟨hab, hba⟩, hr⟩ := row_cons_cons.mp hr
      have ha : (h' a).next = some b := (hn a (by simp)).trans hab
      have hb : (h' b).prev = some a := (hp b (by simp)).trans hba
      have hrest : Row h' (b :: xs) :=
        ih hr (fun x hx => hn x (List.mem_cons_of_mem _ hx)) (fun x hx => hp x (List.mem_cons_of_mem _ hx))
      exact row_cons_cons.mpr ⟨⟨ha, hb⟩, hrest⟩

theorem Row.frame (hr : Row h xs) (hx : ∀ x ∈ xs, h' x = h x) : Row h' xs :=
  hr.congr (fun x m => by rw [hx x (List.dropLast_subset _ m)])
    (fun x m => by rw [hx x (List.mem_of_mem_tail m)])

/-- Nodes whose links are swapped make the row the other way round. -/
theorem Row.reverse (hr : Row h xs) (hs : ∀ x ∈ xs, h' x = ⟨(h x).next, (h x).prev⟩) : Row h' xs.reverse := by
  unfold Row
  rw [List.isChain_reverse]
  refine List.IsChain.imp_of_mem_imp (fun a b ha hb hab => ?_) hr
  constructor
  · rw [hs b hb]
    exact hab.2
  · rw [hs a ha]
    exact hab.1

/-- A row of distinct nodes with nothing linked before it and nothing after. -/
structure Closed (h : Heap α) (zs : List α) : Prop where
  row : Row h zs
  nodup : zs.Nodup
  first : ∀ a ∈ zs.head?, (h a).prev = none
  last : ∀ b ∈ zs.getLast?, (h b).next = none

theorem Closed.frame (hc : Closed h zs) (hz : ∀ x ∈ zs, h' x = h x) : Closed h' zs where
  row := hc.row.frame hz
  nodup := hc.nodup
  first a ha := by
    rw [hz a (List.mem_of_mem_head? ha)]
    exact hc.first a ha
  last b hb := by
    rw [hz b (List.mem_of_mem_getLast? hb)]
    exact hc.last b hb

/-- The links of a closed row are known. -/
theorem Closed.links_eq (hc : Closed h zs) (hc' : Closed h' zs) (ha : a ∈ zs) : h a = h' a := by
  obtain ⟨xs, ys, rfl⟩ := List.append_of_mem ha
  ext1
  · rcases List.eq_nil_or_concat xs with rfl | ⟨ws, b, rfl⟩
    · rw [hc.first a rfl, hc'.first a rfl]
    · have hr := hc.row
      have hr' := hc'.row
      rw [List.concat_eq_append, List.append_assoc] at hr hr'
      rw [hr.adj.2, hr'.adj.2]
  · cases ys with
    | nil => rw [hc.last a List.getLast?_concat, hc'.last a List.getLast?_concat]
    | cons b ys => rw [hc.row.adj.1, hc'.row.adj.1]

end

section
variable {α : Type*} [DecidableEq α]

def setPrev (h : Heap α) (a : α) (v : Option α) : Heap α := Function.update h a { h a with prev := v }

def setNext (h : Heap α) (a : α) (v : Option α) : Heap α := Function.update h a { h a with next := v }

/-- Joins `a` to `b`: the link on of `a` and the link back of `b`. -/
def link (h : Heap α) (a b : α) : Heap α := setPrev (setNext h a (some b)) b (some a)

variable {h h' : Heap α} {a b c x : α} {v : Option α} {xs ys zs : List α}

@[simp] theorem setPrev_next : (setPrev h a v x).next = (h x).next := by
  unfold setPrev
  by_cases hx : x = a
  · subst hx
    rw [Function.update_self]
  · rw [Function.update_of_ne hx]

@[simp] theorem setNext_prev : (setNext h a v x).prev = (h x).prev := by
  unfold setNext
  by_cases hx : x = a
  · subst hx
    rw [Function.update_self]
  · rw [Function.update_of_ne hx]

theorem setPrev_prev : (setPrev h a v x).prev = if x = a then v else (h x).prev := by
  unfold setPrev
  split
  · subst_vars
    rw [Function.update_self]
  · rw [Function.update_of_ne ‹_›]

theorem setNext_next : (setNext h a v x).next = if x = a then v else (h x).next := by
  unfold setNext
  split
  · subst_vars
    rw [Function.update_self]
  · rw [Function.update_of_ne ‹_›]

theorem link_next : (link h a b x).next = if x = a then some b else (h x).next := by
  unfold link
  rw [setPrev_next, setNext_next]

theorem link_prev : (link h a b x).prev = if x = b then some a else (h x).prev := by
  unfold link
  rw [setPrev_prev, setNext_prev]

theorem link_of_ne (ha : x ≠ a) (hb : x ≠ b) : link h a b x = h x := by
  unfold link setPrev
  rw [Function.update_of_ne hb]
  exact Function.update_of_ne ha ..

theorem adj_link : Adj (link h a b) a b := by
  constructor
  · rw [link_next, if_pos rfl]
  · rw [link_prev, if_pos rfl]

/-- Joining the end of a row to another node leaves the row. -/
theorem Row.link_end (hr : Row h (xs ++ [a])) (ha : a ∉ xs) (hb : b ∉ xs ++ [a]) : Row (link h a b) (xs ++ [a]) := by
  refine hr.congr (fun x hx => ?_) (fun x hx => ?_)
  · rw [List.dropLast_concat] at hx
    have hne : x ≠ a := fun he => ha (he ▸ hx)
    rw [link_next, if_neg hne]
  · have hne : x ≠ b := fun he => hb (he ▸ List.mem_of_mem_tail hx)
    rw [link_prev, if_neg hne]

/-- Joining a node to the start of a row leaves the row. -/
theorem Row.link_start (hr : Row h (b :: ys)) (hb : b ∉ ys) (ha : a ∉ b :: ys) : Row (link h a b) (b :: ys) := by
  refine hr.congr (fun x hx => ?_) (fun x hx => ?_)
  · have hne : x ≠ a := fun he => ha (he ▸ List.dropLast_subset _ hx)
    rw [link_next, if_neg hne]
  · have hne : x ≠ b := fun he => hb (he ▸ hx)
    rw [link_prev, if_neg hne]

/-- Two rows become one where they are joined. -/
theorem Row.link (hx : Row h (xs ++ [a])) (hy : Row h (b :: ys)) (hd : (xs ++ a :: b :: ys).Nodup) :
    Row (link h a b) (xs ++ a :: b :: ys) := by
  rw [List.nodup_append, List.nodup_cons, List.nodup_cons] at hd
  obtain ⟨-, ⟨ha, hb, -⟩, hne⟩ := hd
  have hxa : a ∉ xs := fun m => hne a m a (by simp) rfl
  have hxb : b ∉ xs ++ [a] := by
    intro m
    rw [List.mem_append, List.mem_singleton] at m
    obtain m | rfl := m
    · exact hne b m b (by simp) rfl
    · exact ha (by simp)
  exact row_split.mpr ⟨hx.link_end hxa hxb, row_cons_cons.mpr ⟨adj_link, hy.link_start hb ha⟩⟩

/-- Joining the two halves of a closed row closes it again. -/
theorem closed_join (hx : Row h (xs ++ [a])) (hy : Row h (b :: ys)) (hd : (xs ++ a :: b :: ys).Nodup)
    (hf : ∀ c ∈ (xs ++ [a]).head?, (h c).prev = none) (hl : ∀ c ∈ (b :: ys).getLast?, (h c).next = none) :
    Closed (link h a b) (xs ++ a :: b :: ys) := by
  have hb : b ∉ xs ++ [a] := by
    rw [List.append_cons] at hd
    exact fun m => (List.nodup_append.mp hd).2.2 b m b (by simp) rfl
  have ha : a ∉ b :: ys := (List.nodup_cons.mp (List.nodup_append.mp hd).2.1).1
  refine ⟨hx.link hy hd, hd, fun c hm => ?_, fun c hm => ?_⟩
  · have hm' : c ∈ (xs ++ [a]).head? := by cases xs <;> simpa using hm
    have hne : c ≠ b := fun he => hb (he ▸ List.mem_of_mem_head? hm')
    rw [link_prev, if_neg hne]
    exact hf c hm'
  · have hm' : c ∈ (b :: ys).getLast? := by simpa using hm
    have hne : c ≠ a := fun he => ha (he ▸ List.mem_of_mem_getLast? hm')
    rw [link_next, if_neg hne]
    exact hl c hm'

/-- The nodes between `a` and `b` drop out when `a` is joined to `b`. -/
theorem Closed.cut (hc : Closed h (xs ++ a :: zs ++ b :: ys)) : Closed (link h a b) (xs ++ a :: b :: ys) := by
  have hnd : (xs ++ a :: b :: ys).Nodup := by
    refine hc.nodup.sublist ?_
    rw [List.append_assoc]
    exact List.Sublist.append_left (List.Sublist.cons_cons a (List.sublist_append_right ..)) xs
  have hrow := row_split.mp hc.row
  have hx : Row h (xs ++ [a]) := by
    have hr := hrow.1
    rw [List.append_assoc, List.cons_append] at hr
    exact (row_split.mp hr).1
  refine closed_join hx hrow.2 hnd (fun c hm => hc.first c ?_) (fun c hm => hc.last c ?_)
  · cases xs <;> simpa using hm
  · rwa [List.getLast?_append_of_ne_nil _ (List.cons_ne_nil b ys)]

/-- A row of new nodes comes between `a` and `b`. -/
theorem Closed.paste {p q : α} (hc : Closed h (xs ++ a :: b :: ys)) (hz : Row h zs) (hp : zs.head? = some p)
    (hq : zs.getLast? = some q) (hd : (xs ++ a :: zs ++ b :: ys).Nodup) :
    Closed (link (link h a p) q b) (xs ++ a :: zs ++ b :: ys) := by
  obtain ⟨zs', rfl⟩ : ∃ zs', zs = p :: zs' := by
    cases zs with
    | nil => cases hp
    | cons z zs' =>
      cases hp
      exact ⟨zs', rfl⟩
  obtain ⟨us, hus⟩ : ∃ us, xs ++ a :: p :: zs' = us ++ [q] := by
    obtain ⟨us, hus⟩ := List.getLast?_eq_some_iff.mp hq
    exact ⟨xs ++ a :: us, by rw [hus]; simp⟩
  have hrow := row_split.mp hc.row
  have hys : Row h (b :: ys) := (row_cons_cons.mp hrow.2).2
  obtain ⟨hd₁, -, hdis⟩ := List.nodup_append.mp hd
  have hnot : ∀ c ∈ b :: ys, c ≠ a ∧ c ≠ p := fun c m =>
    ⟨fun he => hdis a (by simp) c m he.symm, fun he => hdis p (by simp) c m he.symm⟩
  have h₁ : Row (link h a p) (us ++ [q]) := hus ▸ hrow.1.link hz hd₁
  have h₂ : Row (link h a p) (b :: ys) := hys.frame fun x m => link_of_ne (hnot x m).1 (hnot x m).2
  rw [hus, List.append_assoc] at hd ⊢
  refine closed_join h₁ h₂ hd (fun c hm => ?_) (fun c hm => ?_)
  · rw [← hus] at hm
    have hm' : c ∈ (xs ++ a :: b :: ys).head? := by cases xs <;> simpa using hm
    have hne : c ≠ p := by
      rintro rfl
      cases xs with
      | nil =>
        obtain rfl : a = c := by simpa using hm
        simp at hd₁
      | cons x xs =>
        obtain rfl : x = c := by simpa using hm
        simp at hd₁
    rw [link_prev, if_neg hne]
    exact hc.first c hm'
  · have hm' : c ∈ (xs ++ a :: b :: ys).getLast? := by simpa [List.getLast?_append] using hm
    rw [link_next, if_neg (hnot c (List.mem_of_mem_getLast? hm)).1]
    exact hc.last c hm'

end

end PintosKaist.Linked
