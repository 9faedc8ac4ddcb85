/-
A journal that several writers append to, each in calls of its own, and where
some entries are nobody's. A call is unmixed in it when its entries lie in one
stretch that has, besides nobody's, only entries of its own writer.
-/
import Mathlib.Data.List.Basic

namespace PintosKaist.Journal

variable {ι α : Type*} {t : ι} {f g : Nat}

/-- An item, and who wrote it in which call. -/
structure Entry (ι α : Type*) where
  writer : Option (ι × Nat)
  item : α

variable {log log' pre mid post : List (Entry ι α)} {e : Entry ι α}

/-- The entry is one of the call's. -/
def Entry.isOf (e : Entry ι α) (f : Nat) : Bool := e.writer.any fun w => w.2 == f

/-- The items of a call, the first one first. -/
def ofCall (log : List (Entry ι α)) (f : Nat) : List α := (log.filter fun e => e.isOf f).map Entry.item

/-- Nobody but the writer has an entry here. -/
def Only (t : ι) (log : List (Entry ι α)) : Prop := ∀ e ∈ log, ∀ w, e.writer = some w → w.1 = t

/-- From the call's first entry on the journal is its writer's. -/
def Current (log : List (Entry ι α)) (t : ι) (f : Nat) : Prop :=
  ∃ pre mid, log = pre ++ mid ∧ ofCall pre f = [] ∧ Only t mid

/-- The call's entries lie in a stretch of its writer's. -/
def Unmixed (log : List (Entry ι α)) (f : Nat) : Prop :=
  ∃ t pre mid post, log = pre ++ mid ++ post ∧ ofCall pre f = [] ∧ ofCall post f = [] ∧ Only t mid

@[simp] theorem ofCall_append : ofCall (log ++ log') f = ofCall log f ++ ofCall log' f := by
  simp [ofCall]

theorem ofCall_own (x : α) : ofCall [(⟨some (t, f), x⟩ : Entry ι α)] f = [x] := by
  simp [ofCall, Entry.isOf]

theorem ofCall_other (x : α) (h : g ≠ f) : ofCall [(⟨some (t, g), x⟩ : Entry ι α)] f = [] := by
  simp [ofCall, Entry.isOf, h]

theorem ofCall_nobody (x : α) : ofCall [(⟨none, x⟩ : Entry ι α)] f = [] := by
  simp [ofCall, Entry.isOf]

/-- A call that has not written yet starts here. -/
theorem current_of_nil (h : ofCall log f = []) : Current log t f :=
  ⟨log, [], (List.append_nil log).symm, h, fun e he => by cases he⟩

theorem Current.snoc (h : Current log t f) (he : ∀ w, e.writer = some w → w.1 = t) : Current (log ++ [e]) t f := by
  obtain ⟨pre, mid, rfl, hpre, honly⟩ := h
  refine ⟨pre, mid ++ [e], List.append_assoc .., hpre, fun e' he' => ?_⟩
  rcases List.mem_append.mp he' with hm | hm
  · exact honly e' hm
  · exact List.mem_singleton.mp hm ▸ he

theorem Current.unmixed (h : Current log t f) : Unmixed log f := by
  obtain ⟨pre, mid, rfl, hpre, honly⟩ := h
  exact ⟨t, pre, mid, [], (List.append_nil _).symm, hpre, rfl, honly⟩

/-- What is written after a call's last entry does not mix with it. -/
theorem Unmixed.snoc (h : Unmixed log f) (he : ofCall [e] f = []) : Unmixed (log ++ [e]) f := by
  obtain ⟨t, pre, mid, post, rfl, hpre, hpost, honly⟩ := h
  exact ⟨t, pre, mid, post ++ [e], by simp, hpre, by simp [hpost, he], honly⟩

end PintosKaist.Journal
