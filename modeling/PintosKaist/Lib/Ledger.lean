/-
Things that are opened once and should be closed once. An open item is held
by at most one cell, and is closed through the cell that holds it; an open
item that no cell holds is lost, for nothing can close it any more.

A ledger also keeps a count for each thing the items are open on, which
starts at the number of openers outside the ledger. `Move` is what a step can
do to a ledger, with the owner of the item it loses, if it loses one.
-/
import Mathlib.Data.List.Basic
import Mathlib.Logic.Function.Basic
import Mathlib.Order.Nat

/-- An item: who it was opened for, what it is open on, and how often it has
been closed. -/
structure Item (ω ι : Type*) where
  owner : ω
  on : ι
  closed : Nat
  deriving DecidableEq, Repr

/-- The items in the order they were opened, and the item each cell holds. -/
structure Ledger (κ ω ι : Type*) where
  items : List (Item ω ι)
  hold : κ → Option Nat
  count : ι → Int

namespace Ledger

variable {κ ω ι : Type*} [DecidableEq ι] {l l' : Ledger κ ω ι} {others : ι → Int} {w : ω} {i : ι} {k : κ} {h : Nat}
  {item : Item ω ι} {x : Option ω}

/-- A new item. -/
def opened (l : Ledger κ ω ι) (w : ω) (i : ι) : Ledger κ ω ι :=
  { l with items := l.items ++ [⟨w, i, 0⟩], count := Function.update l.count i (l.count i + 1) }

/-- Item `h` is closed. -/
def closed (l : Ledger κ ω ι) (h : Nat) (item : Item ω ι) : Ledger κ ω ι :=
  { l with
    items := l.items.set h { item with closed := item.closed + 1 }
    count := Function.update l.count item.on (l.count item.on - 1) }

/-- The number of open items on `i` whose owner meets `P`. -/
def openOn (l : Ledger κ ω ι) (i : ι) (P : ω → Bool) : Nat :=
  l.items.countP fun item => item.on == i && item.closed == 0 && P item.owner

/-- What holds of every ledger: a cell holds an open item, no other cell holds
it, nothing has been closed twice, and the counts are right. -/
structure Ok (others : ι → Int) (l : Ledger κ ω ι) : Prop where
  held : ∀ {k h}, l.hold k = some h → ∃ item, l.items[h]? = some item ∧ item.closed = 0
  sole : ∀ {k k' h}, l.hold k = some h → l.hold k' = some h → k = k'
  once : ∀ item ∈ l.items, item.closed ≤ 1
  counts : ∀ i, l.count i = others i + l.openOn i fun _ => true

/-- An item of `w` is open, and no cell holds it. -/
def Lost (l : Ledger κ ω ι) (w : ω) : Prop :=
  ∃ h item, l.items[h]? = some item ∧ item.owner = w ∧ item.closed = 0 ∧ ∀ k, l.hold k ≠ some h

/-! ## Opening and closing -/

theorem openOn_opened (P : ω → Bool) (i' : ι) :
    (l.opened w i).openOn i' P = l.openOn i' P + if i = i' ∧ P w then 1 else 0 := by
  simp [openOn, opened, List.countP_append, List.countP_singleton]

/-- Closing an open item takes one from those open on the same thing. -/
theorem openOn_closed (hitem : l.items[h]? = some item) (h0 : item.closed = 0) (i : ι) :
    ((l.closed h item).openOn i fun _ => true) + (if item.on = i then 1 else 0) = l.openOn i fun _ => true := by
  obtain ⟨hlt, rfl⟩ := List.getElem?_eq_some_iff.mp hitem
  simp only [openOn, closed]
  rw [List.countP_set hlt]
  by_cases he : l.items[h].on = i
  · have hpos : 0 < l.items.countP fun item => item.on == i && item.closed == 0 && true :=
      List.countP_pos_iff.mpr ⟨_, List.getElem_mem hlt, by simp [he, h0]⟩
    rw [if_pos (by simp [he, h0]), if_neg (by simp), if_pos he]
    omega
  · simp [he]

theorem Ok.hold_lt (hl : l.Ok others) (hk : l.hold k = some h) : h < l.items.length := by
  obtain ⟨item, hitem, -⟩ := hl.held hk
  exact (List.getElem?_eq_some_iff.mp hitem).1

/-- The items that were there are where they were. -/
theorem getElem?_opened (hlt : h < l.items.length) : (l.opened w i).items[h]? = l.items[h]? :=
  List.getElem?_append_left hlt

theorem getElem?_opened_length : (l.opened w i).items[l.items.length]? = some ⟨w, i, 0⟩ := by simp [opened]

/-- An item after one more was opened is that one, or was there. -/
theorem getElem?_opened_cases (hitem : (l.opened w i).items[h]? = some item) :
    (h < l.items.length ∧ l.items[h]? = some item) ∨ (h = l.items.length ∧ item = ⟨w, i, 0⟩) := by
  have hlt := (List.getElem?_eq_some_iff.mp hitem).1
  simp only [opened, List.length_append, List.length_singleton] at hlt
  rcases Nat.lt_succ_iff_lt_or_eq.mp hlt with hlt | rfl
  · rw [getElem?_opened hlt] at hitem
    exact .inl ⟨hlt, hitem⟩
  · rw [getElem?_opened_length, Option.some.injEq] at hitem
    exact .inr ⟨rfl, hitem.symm⟩

theorem Ok.opened (hl : l.Ok others) (w : ω) (i : ι) : (l.opened w i).Ok others where
  held hk := by
    obtain ⟨item, hitem, h0⟩ := hl.held hk
    exact ⟨item, (getElem?_opened (hl.hold_lt hk)).trans hitem, h0⟩
  sole := hl.sole
  once item hm := by
    rcases List.mem_append.mp hm with hm | hm
    · exact hl.once item hm
    · rw [List.mem_singleton.mp hm]
      exact Nat.zero_le _
  counts i' := by
    rw [openOn_opened]
    show Function.update l.count i (l.count i + 1) i' = _
    by_cases he : i = i'
    · subst he
      rw [Function.update_self, hl.counts i]
      simp [Int.add_assoc]
    · rw [Function.update_of_ne (Ne.symm he), hl.counts i']
      simp [he]

/-! ## The moves -/

variable [DecidableEq κ]

/-- The cell `k` gets the item that is opened next. -/
def lent (l : Ledger κ ω ι) (k : κ) (w : ω) (i : ι) : Ledger κ ω ι :=
  { l.opened w i with hold := Function.update l.hold k (some l.items.length) }

/-- The cell `k` holds nothing any more. -/
def dropped (l : Ledger κ ω ι) (k : κ) : Ledger κ ω ι := { l with hold := Function.update l.hold k none }

inductive Move (l : Ledger κ ω ι) : Option ω → Ledger κ ω ι → Prop
  | keep : Move l none l
  | lend {k : κ} (w : ω) (i : ι) (hk : l.hold k = none) : Move l none (l.lent k w i)
  | waste (w : ω) (i : ι) : Move l (some w) (l.opened w i)
  | drop {k : κ} {h : Nat} {item : Item ω ι} (hk : l.hold k = some h) (hitem : l.items[h]? = some item) :
    Move l (some item.owner) (l.dropped k)
  | close {k : κ} {h : Nat} {item : Item ω ι} (hk : l.hold k = some h) (hitem : l.items[h]? = some item) :
    Move l none ((l.dropped k).closed h item)

/-- What a cell holds after `k` was lent the new item. -/
theorem hold_lent {k' : κ} : (l.lent k w i).hold k' = if k' = k then some l.items.length else l.hold k' :=
  Function.update_apply ..

omit [DecidableEq ι] in
/-- What a cell holds after `k` let go. -/
theorem hold_dropped {k' : κ} : (l.dropped k).hold k' = some h ↔ k' ≠ k ∧ l.hold k' = some h := by
  simp only [dropped, Function.update_apply]
  split
  next he => simp [he]
  next he => simp [he]

omit [DecidableEq ι] in
theorem dropped_eq_self (hk : l.hold k = none) : l.dropped k = l := by
  rw [dropped, ← hk, Function.update_eq_self]

theorem Ok.lend (hl : l.Ok others) (w : ω) (i : ι) (k : κ) : (l.lent k w i).Ok others where
  held {k' h} hk' := by
    rw [hold_lent] at hk'
    split at hk'
    · obtain rfl := Option.some.inj hk'
      exact ⟨_, getElem?_opened_length, rfl⟩
    · exact (hl.opened w i).held hk'
  sole {k₁ k₂ h} h₁ h₂ := by
    have hfresh : ∀ {k'}, l.hold k' = some h → l.items.length ≠ h := fun hk' => (hl.hold_lt hk').ne'
    rw [hold_lent] at h₁ h₂
    split at h₁ <;> split at h₂
    next e₁ e₂ => rw [e₁, e₂]
    next => exact absurd (Option.some.inj h₁) (hfresh h₂)
    next => exact absurd (Option.some.inj h₂) (hfresh h₁)
    next => exact hl.sole h₁ h₂
  once := (hl.opened w i).once
  counts := (hl.opened w i).counts

theorem Ok.dropped (hl : l.Ok others) (k : κ) : (l.dropped k).Ok others where
  held hk := hl.held (hold_dropped.mp hk).2
  sole h₁ h₂ := hl.sole (hold_dropped.mp h₁).2 (hold_dropped.mp h₂).2
  once := hl.once
  counts := hl.counts

/-- A cell that `k` is not holds another item. -/
theorem Ok.ne_of_dropped {k' : κ} {h' : Nat} (hl : l.Ok others) (hk : l.hold k = some h)
    (hk' : (l.dropped k).hold k' = some h') : h' ≠ h := by
  obtain ⟨hne, hk'⟩ := hold_dropped.mp hk'
  rintro rfl
  exact hne (hl.sole hk' hk)

/-- The item a cell lets go of is closed. -/
theorem Ok.close (hl : l.Ok others) (hk : l.hold k = some h) (hitem : l.items[h]? = some item) :
    ((l.dropped k).closed h item).Ok others := by
  obtain ⟨item₀, hitem₀, h0⟩ := hl.held hk
  obtain rfl := Option.some.inj (hitem.symm.trans hitem₀)
  refine ⟨fun {k' h'} hk' => ?_, (hl.dropped k).sole, fun item' hm => ?_, fun i => ?_⟩
  · obtain ⟨item', hitem', h0'⟩ := (hl.dropped k).held hk'
    exact ⟨item', (List.getElem?_set_ne (hl.ne_of_dropped hk hk').symm).trans hitem', h0'⟩
  · rcases List.mem_or_eq_of_mem_set hm with hm | rfl
    · exact hl.once item' hm
    · show item.closed + 1 ≤ 1
      omega
  · have hopen := openOn_closed (l := l.dropped k) hitem h0 i
    have hcount := (hl.dropped k).counts i
    show Function.update l.count item.on (l.count item.on - 1) i = _
    by_cases he : item.on = i
    · subst he
      rw [if_pos rfl] at hopen
      rw [Function.update_self]
      change l.count item.on = _ at hcount
      omega
    · rw [if_neg he] at hopen
      rw [Function.update_of_ne (Ne.symm he)]
      change l.count i = _ at hcount
      omega

theorem Ok.move (hl : l.Ok others) (hm : Move l x l') : l'.Ok others := by
  cases hm with
  | keep => exact hl
  | lend w i hk => exact hl.lend w i _
  | waste w i => exact hl.opened w i
  | drop => exact hl.dropped _
  | close hk hitem => exact hl.close hk hitem

/-! ## What is lost stays lost -/

/-- **A move loses an item of `w` exactly when it says so**, and an item that
was lost is lost for good. -/
theorem Move.lost_iff (hm : Move l x l') (hl : l.Ok others) : Lost l' w ↔ Lost l w ∨ x = some w := by
  cases hm with
  | keep => simp
  | @lend k w₀ i hk =>
    simp only [reduceCtorEq, or_false]
    constructor
    · intro ⟨h, item, hitem, hw, h0, hfree⟩
      rcases getElem?_opened_cases hitem with ⟨-, hitem⟩ | ⟨rfl, -⟩
      · refine ⟨h, item, hitem, hw, h0, fun k' hk' => ?_⟩
        have hne : k' ≠ k := by
          rintro rfl
          simp [hk] at hk'
        exact hfree k' (by rw [hold_lent, if_neg hne, hk'])
      · exact absurd (by rw [hold_lent, if_pos rfl]) (hfree k)
    · intro ⟨h, item, hitem, hw, h0, hfree⟩
      have hlt := (List.getElem?_eq_some_iff.mp hitem).1
      refine ⟨h, item, (getElem?_opened hlt).trans hitem, hw, h0, fun k' hk' => ?_⟩
      rw [hold_lent] at hk'
      split at hk'
      · exact absurd (Option.some.inj hk') hlt.ne'
      · exact hfree k' hk'
  | waste w₀ i =>
    constructor
    · intro ⟨h, item, hitem, hw, h0, hfree⟩
      rcases getElem?_opened_cases hitem with ⟨-, hitem⟩ | ⟨-, rfl⟩
      · exact .inl ⟨h, item, hitem, hw, h0, hfree⟩
      · exact .inr (congrArg some hw)
    · rintro (⟨h, item, hitem, hw, h0, hfree⟩ | hw)
      · have hlt := (List.getElem?_eq_some_iff.mp hitem).1
        exact ⟨h, item, (getElem?_opened hlt).trans hitem, hw, h0, hfree⟩
      · exact ⟨_, _, getElem?_opened_length, Option.some.inj hw, rfl, fun k hk => (hl.hold_lt hk).ne rfl⟩
  | @drop k h item hk hitem =>
    constructor
    · intro ⟨h', item', hitem', hw, h0, hfree⟩
      by_cases he : h' = h
      · subst he
        obtain rfl := Option.some.inj (hitem.symm.trans hitem')
        exact .inr (congrArg some hw)
      · refine .inl ⟨h', item', hitem', hw, h0, fun k' hk' => hfree k' (hold_dropped.mpr ⟨?_, hk'⟩)⟩
        rintro rfl
        exact he (Option.some.inj (hk'.symm.trans hk))
    · rintro (⟨h', item', hitem', hw, h0, hfree⟩ | hw)
      · exact ⟨h', item', hitem', hw, h0, fun k' hk' => hfree k' (hold_dropped.mp hk').2⟩
      · obtain ⟨item₀, hitem₀, h0⟩ := hl.held hk
        obtain rfl := Option.some.inj (hitem.symm.trans hitem₀)
        exact ⟨h, item, hitem, Option.some.inj hw, h0, fun k' hk' => hl.ne_of_dropped hk hk' rfl⟩
  | @close k h item hk hitem =>
    simp only [reduceCtorEq, or_false]
    have hlt := (List.getElem?_eq_some_iff.mp hitem).1
    constructor
    · intro ⟨h', item', hitem', hw, h0, hfree⟩
      have hne : h' ≠ h := by
        rintro rfl
        have : ((l.dropped k).closed h' item).items[h']? = some { item with closed := item.closed + 1 } :=
          List.getElem?_set_self hlt
        rw [this, Option.some.injEq] at hitem'
        simp [← hitem'] at h0
      refine ⟨h', item', (List.getElem?_set_ne hne.symm).symm.trans hitem', hw, h0, fun k' hk' => ?_⟩
      refine hfree k' (hold_dropped.mpr ⟨?_, hk'⟩)
      rintro rfl
      exact hne (Option.some.inj (hk'.symm.trans hk))
    · intro ⟨h', item', hitem', hw, h0, hfree⟩
      have hne : h' ≠ h := by
        rintro rfl
        exact hfree k hk
      exact ⟨h', item', (List.getElem?_set_ne hne.symm).trans hitem', hw, h0,
        fun k' hk' => hfree k' (hold_dropped.mp hk').2⟩

/-! ## Settling up -/

variable [DecidableEq ω]

/-- Every item of `w` was closed once, and the counts are those of everyone
else. -/
def Settled (others : ι → Int) (l : Ledger κ ω ι) (w : ω) : Prop :=
  (∀ item ∈ l.items, item.owner = w → item.closed = 1) ∧
    ∀ i, l.count i = others i + l.openOn i fun w' => w' ≠ w

omit [DecidableEq κ] in
/-- **When no cell holds an item of `w`**, its items have all been closed unless
one was lost. -/
theorem Ok.settled_iff (hl : l.Ok others)
    (hw : ∀ k h item, l.hold k = some h → l.items[h]? = some item → item.owner ≠ w) :
    Settled others l w ↔ ¬ Lost l w := by
  constructor
  · intro ⟨hs, _⟩ ⟨h, item, hitem, hw, h0, _⟩
    have := hs item (List.mem_of_getElem? hitem) hw
    omega
  · intro hlost
    have hclosed : ∀ item ∈ l.items, item.owner = w → item.closed = 1 := by
      intro item hm hown
      by_contra h1
      have h0 : item.closed = 0 := by
        have := hl.once item hm
        omega
      obtain ⟨h, hitem⟩ := List.mem_iff_getElem?.mp hm
      exact hlost ⟨h, item, hitem, hown, h0, fun k hk => hw k h item hk hitem hown⟩
    refine ⟨hclosed, fun i => ?_⟩
    rw [hl.counts i]
    congr 2
    refine List.countP_congr fun item hm => ?_
    by_cases hown : item.owner = w
    · simp [hown, hclosed item hm hown]
    · simp [hown]

end Ledger
