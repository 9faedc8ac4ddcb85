/-
Lists kept in descending order of a key, as `list_insert_ordered` and
`list_sort` keep them with a strict "greater" comparison: insertion puts an
element after its equals, sorting is stable.
-/
import Mathlib.Data.List.Sort

namespace OrdList

variable {α P : Type*} [LinearOrder P] {key : α → P} {a b : α} {l : List α}

/-- No element has a greater key than one before it. -/
def Desc (key : α → P) (l : List α) : Prop := l.Pairwise fun a b => key b ≤ key a

/-- Insertion before the first element with a smaller key. -/
def insertBy (key : α → P) (a : α) (l : List α) : List α :=
  l.orderedInsert (fun a b => key b < key a) a

/-- Stable sorting by descending key. -/
def sortBy (key : α → P) (l : List α) : List α :=
  l.insertionSort fun a b => key b ≤ key a

@[simp] theorem mem_insertBy : b ∈ insertBy key a l ↔ b = a ∨ b ∈ l :=
  List.mem_orderedInsert _

theorem perm_insertBy : (insertBy key a l).Perm (a :: l) :=
  List.perm_orderedInsert _ _ _

theorem nodup_insertBy (h : l.Nodup) (ha : a ∉ l) : (insertBy key a l).Nodup :=
  perm_insertBy.nodup_iff.mpr (List.nodup_cons.mpr ⟨ha, h⟩)

@[simp] theorem mem_sortBy : b ∈ sortBy key l ↔ b ∈ l :=
  List.mem_insertionSort _

theorem perm_sortBy : (sortBy key l).Perm l :=
  List.perm_insertionSort _ _

theorem desc_sortBy : Desc key (sortBy key l) := by
  have : Std.Total fun a b => key b ≤ key a := ⟨fun a b => le_total (key b) (key a)⟩
  have : IsTrans α fun a b => key b ≤ key a := ⟨fun _ _ _ hab hbc => le_trans hbc hab⟩
  exact List.pairwise_insertionSort _ _

/-- A list in order is left as it is. -/
theorem sortBy_eq_self (h : Desc key l) : sortBy key l = l :=
  List.Pairwise.insertionSort_eq h

theorem Desc.insertBy (h : Desc key l) (a : α) : Desc key (insertBy key a l) := by
  induction l with
  | nil => simp [OrdList.insertBy, Desc]
  | cons b l ih =>
    obtain ⟨hb, hl⟩ := List.pairwise_cons.mp h
    simp only [OrdList.insertBy, List.orderedInsert_cons]
    split
    · rename_i hlt
      refine List.pairwise_cons.mpr ⟨fun c hc => ?_, h⟩
      rcases List.mem_cons.mp hc with rfl | hc
      · exact le_of_lt hlt
      · exact le_trans (hb c hc) (le_of_lt hlt)
    · rename_i hnlt
      refine List.pairwise_cons.mpr ⟨fun c hc => ?_, ih hl⟩
      rcases mem_insertBy.mp hc with rfl | hc
      · exact not_lt.mp hnlt
      · exact hb c hc

/-- The head of a list in order has the greatest key. -/
theorem Desc.head_max (h : Desc key (a :: l)) : ∀ b ∈ l, key b ≤ key a :=
  (List.pairwise_cons.mp h).1

theorem Desc.tail (h : Desc key (a :: l)) : Desc key l :=
  (List.pairwise_cons.mp h).2

theorem Desc.filter (p : α → Bool) (h : Desc key l) : Desc key (l.filter p) :=
  List.Pairwise.filter p h

/-- The front of a list after an insertion, in order or not, is not below what
was inserted, nor below the front before. -/
theorem insertBy_front (key : α → P) (a : α) (l : List α) : ∃ b l', insertBy key a l = b :: l' ∧
    key a ≤ key b ∧ ∀ c m, l = c :: m → key c ≤ key b := by
  cases l with
  | nil => exact ⟨a, [], rfl, le_rfl, by simp⟩
  | cons c m =>
    simp only [insertBy, List.orderedInsert_cons]
    split
    · rename_i hlt
      refine ⟨a, c :: m, rfl, le_rfl, fun d n he => ?_⟩
      obtain ⟨rfl, -⟩ := List.cons.inj he
      exact hlt.le
    · rename_i hle
      refine ⟨c, _, rfl, not_lt.mp hle, fun d n he => ?_⟩
      obtain ⟨rfl, -⟩ := List.cons.inj he
      exact le_rfl

/-- Keys that agree on the list order it alike. -/
theorem Desc.congr {key' : α → P} (h : Desc key l) (hk : ∀ a ∈ l, key' a = key a) : Desc key' l :=
  List.Pairwise.imp_of_mem (fun ha hb hab => by rwa [hk _ ha, hk _ hb]) h

/-! ## Levels -/

/-- The elements with one key, as they stand in the list. -/
def level (key : α → P) (p : P) (l : List α) : List α := l.filter fun a => key a = p

variable {p : P} {l' : List α}

theorem mem_level : a ∈ level key p l ↔ a ∈ l ∧ key a = p := by simp [level]

@[simp] theorem level_nil : level key p [] = [] := rfl

theorem level_cons : level key p (a :: l) = if key a = p then a :: level key p l else level key p l := by
  simp only [level, List.filter_cons, decide_eq_true_eq]

@[simp] theorem level_append : level key p (l ++ l') = level key p l ++ level key p l' := List.filter_append ..

theorem level_congr {key' : α → P} (h : ∀ a ∈ l, key' a = key a) : level key' p l = level key p l :=
  List.filter_congr fun a ha => by rw [h a ha]

/-- Elements that all have smaller keys. -/
theorem level_eq_nil (h : ∀ a ∈ l, key a < p) : level key p l = [] :=
  List.filter_eq_nil_iff.mpr fun a ha => by simpa using (h a ha).ne

/-- An element inserted into a list in order goes to the end of its level. -/
theorem level_insertBy (h : Desc key l) :
    level key p (insertBy key a l) = level key p l ++ if key a = p then [a] else [] := by
  induction l with
  | nil =>
    simp only [insertBy, List.orderedInsert_nil, level_cons, level_nil, List.nil_append]
  | cons b l ih =>
    obtain ⟨hb, hl⟩ := List.pairwise_cons.mp h
    simp only [insertBy, List.orderedInsert_cons]
    by_cases hlt : key b < key a
    · rw [if_pos hlt, level_cons]
      by_cases ha : key a = p
      · -- from here on every key is smaller
        have hnil : level key p (b :: l) = [] := level_eq_nil fun c hc => by
          obtain rfl | hc := List.mem_cons.mp hc
          · exact ha ▸ hlt
          · exact lt_of_le_of_lt (hb c hc) (ha ▸ hlt)
        rw [if_pos ha, if_pos ha, hnil]
        rfl
      · rw [if_neg ha, if_neg ha, List.append_nil]
    · have hrest : List.orderedInsert (fun a b => key b < key a) a l = insertBy key a l := rfl
      rw [if_neg hlt, hrest, level_cons, level_cons, ih hl]
      split <;> rfl

/-- Sorting leaves every level as it is. -/
theorem level_sortBy : level key p (sortBy key l) = level key p l := by
  induction l with
  | nil => rfl
  | cons a l ih =>
    have hins : ∀ {m : List α}, Desc key m →
        level key p (m.orderedInsert (fun a b => key b ≤ key a) a) = level key p (a :: m) := by
      intro m hm
      induction m with
      | nil => rfl
      | cons b m ihm =>
        rw [List.orderedInsert_cons]
        split
        · rfl
        · rename_i hlt
          rw [level_cons, ihm hm.tail, level_cons, level_cons, level_cons]
          have hne : key a = p → key b ≠ p := fun ha hb => hlt (by rw [ha, hb])
          by_cases ha : key a = p
          · simp only [if_pos ha, if_neg (hne ha)]
          · simp only [if_neg ha]
    have hcons : sortBy key (a :: l) = (sortBy key l).orderedInsert (fun a b => key b ≤ key a) a := rfl
    rw [hcons, hins desc_sortBy, level_cons, level_cons, ih]

/-- A list in order is made up of its levels. -/
theorem Desc.ext (h : Desc key l) (h' : Desc key l') (hl : ∀ p, level key p l = level key p l') : l = l' := by
  induction l generalizing l' with
  | nil =>
    cases l' with
    | nil => rfl
    | cons b l' =>
      have := hl (key b)
      rw [level_cons, if_pos rfl] at this
      cases this
  | cons a l ih =>
    have hmem {b : α} {m m' : List α} (he : ∀ p, level key p m = level key p m') (hb : b ∈ m) : b ∈ m' :=
      (mem_level.mp (he (key b) ▸ mem_level.mpr ⟨hb, rfl⟩)).1
    cases l' with
    | nil => exact absurd (hmem hl List.mem_cons_self) List.not_mem_nil
    | cons b l' =>
      -- both heads have the greatest key
      have hle : key a ≤ key b := by
        obtain rfl | ha := List.mem_cons.mp (hmem hl List.mem_cons_self)
        · exact le_refl _
        · exact h'.head_max a ha
      have hge : key b ≤ key a := by
        obtain rfl | hb := List.mem_cons.mp (hmem (fun p => (hl p).symm) List.mem_cons_self)
        · exact le_refl _
        · exact h.head_max b hb
      have hk : key b = key a := le_antisymm hge hle
      have hhead := hl (key a)
      rw [level_cons, if_pos rfl, level_cons, if_pos hk] at hhead
      obtain ⟨rfl, -⟩ := List.cons.inj hhead
      congr 1
      refine ih h.tail h'.tail fun p => ?_
      have := hl p
      rw [level_cons, level_cons] at this
      split at this
      · exact (List.cons.inj this).2
      · exact this

/-- What is in order and has the levels of a list is that list, sorted. -/
theorem sortBy_eq (h : Desc key l') (hl : ∀ p, level key p l' = level key p l) : sortBy key l = l' :=
  desc_sortBy.ext h fun p => by rw [level_sortBy, hl p]

end OrdList
