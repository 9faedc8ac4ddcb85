/-
A store of arrays. Names stand for files, a file is an array, and a handle is a
place in a file. A file outlives its name for as long as a handle is on it; one
that neither has a name nor a handle may be any file again.
-/
import Mathlib.Logic.Function.Basic
import Mathlib.Data.List.Basic

namespace ArrayStore

/-! ## Arrays -/

section Arrays

variable {B : Type*}

/-- A run of an array, as much of it as there is. -/
def slice (bytes : List B) (offset n : Nat) : List B := (bytes.drop offset).take n

/-- The array with a run of it replaced, as much as there is room for. -/
def overwrite (bytes : List B) (offset : Nat) (new : List B) : List B :=
  bytes.take offset ++ new.take (bytes.length - offset) ++ bytes.drop (offset + new.length)

end Arrays

/-! ## The store -/

/-- Names, files, handles and what an array is of. -/
structure Store (N F H B : Type*) where
  names : N → Option F
  bytes : F → List B
  handles : H → Option (F × Nat)

namespace Store

variable {N F H B : Type*} {s : Store N F H B} {n : N} {x y : F} {h : H} {p : Nat}

/-- A file that a name or a handle is on. -/
def Alive (s : Store N F H B) (x : F) : Prop := (∃ n, s.names n = some x) ∨ ∃ h p, s.handles h = some (x, p)

/-- No names, and no handles. -/
def empty (N F H B : Type*) : Store N F H B := ⟨fun _ => none, fun _ => [], fun _ => none⟩

/-- A new name, for a file with an array. -/
def create [DecidableEq N] [DecidableEq F] (s : Store N F H B) (n : N) (x : F) (bytes : List B) : Store N F H B :=
  { s with names := Function.update s.names n (some x), bytes := Function.update s.bytes x bytes }

def unlink [DecidableEq N] (s : Store N F H B) (n : N) : Store N F H B :=
  { s with names := Function.update s.names n none }

/-- The handle is at a place, or closed. -/
def setHandle [DecidableEq H] (s : Store N F H B) (h : H) (o : Option (F × Nat)) : Store N F H B :=
  { s with handles := Function.update s.handles h o }

def setBytes [DecidableEq F] (s : Store N F H B) (x : F) (bytes : List B) : Store N F H B :=
  { s with bytes := Function.update s.bytes x bytes }

/-- Every handle is closed. -/
def closeAll (s : Store N F H B) : Store N F H B := { s with handles := fun _ => none }

theorem Alive.name (hn : s.names n = some x) : s.Alive x := .inl ⟨n, hn⟩

theorem Alive.handle (hh : s.handles h = some (x, p)) : s.Alive x := .inr ⟨h, p, hh⟩

theorem not_alive_empty : ¬ (empty N F H B).Alive x := by
  intro h
  obtain ⟨n, hn⟩ | ⟨h, p, hh⟩ := h
  · cases hn
  · cases hh

theorem alive_create [DecidableEq N] [DecidableEq F] {bytes : List B} (ha : (s.create n x bytes).Alive y) :
    y = x ∨ s.Alive y := by
  obtain ⟨m, hm⟩ | ⟨h, p, hh⟩ := ha
  · simp only [create, Function.update_apply] at hm
    split at hm
    · exact .inl (Option.some.inj hm).symm
    · exact .inr (.name hm)
  · exact .inr (.handle hh)

theorem alive_unlink [DecidableEq N] (ha : (s.unlink n).Alive y) : s.Alive y := by
  obtain ⟨m, hm⟩ | ⟨h, p, hh⟩ := ha
  · simp only [unlink, Function.update_apply] at hm
    split at hm
    · cases hm
    · exact .name hm
  · exact .handle hh

theorem alive_setHandle [DecidableEq H] (ha : (s.setHandle h (some (x, p))).Alive y) : y = x ∨ s.Alive y := by
  obtain ⟨m, hm⟩ | ⟨g, q, hg⟩ := ha
  · exact .inr (.name hm)
  · simp only [setHandle, Function.update_apply] at hg
    split at hg
    · exact .inl (Prod.mk.inj (Option.some.inj hg)).1.symm
    · exact .inr (.handle hg)

theorem alive_close [DecidableEq H] (ha : (s.setHandle h none).Alive y) : s.Alive y := by
  obtain ⟨m, hm⟩ | ⟨g, q, hg⟩ := ha
  · exact .name hm
  · simp only [setHandle, Function.update_apply] at hg
    split at hg
    · cases hg
    · exact .handle hg

theorem alive_closeAll (ha : s.closeAll.Alive y) : s.Alive y := by
  obtain ⟨m, hm⟩ | ⟨g, q, hg⟩ := ha
  · exact .name hm
  · cases hg

end Store

end ArrayStore
