/-
`memmove` (`lib/string.c`): the bytes go up one by one when the destination is
below the source, and down when it is not, so that none is overwritten before
it is read.

The pointer that is returned has been moved along by the copy. On the way down
it ends where it began.
-/
import Mathlib.Data.BitVec
import PintosKaist.Lib.Overlap

namespace PintosKaist.Memmove

open Overlap

abbrev Byte := BitVec 8
abbrev U64 := BitVec 64
abbrev Memory := U64 → Byte

/-- The memory, and the two pointers of a loop. -/
structure Copy where
  mem : Memory
  dst : U64
  src : U64

variable {m : Memory} {c : Copy} {dst src size p a : U64} {i j n : Nat}

/-! ## Functions -/

/-- `while (size-- > 0) *dst++ = *src++;` -/
def copyUp : Nat → Copy → Copy
  | 0, c => c
  | n + 1, c => copyUp n ⟨Function.update c.mem c.dst (c.mem c.src), c.dst + 1, c.src + 1⟩

/-- `while (size-- > 0) *--dst = *--src;` -/
def copyDown : Nat → Copy → Copy
  | 0, c => c
  | n + 1, c => copyDown n ⟨Function.update c.mem (c.dst - 1) (c.mem (c.src - 1)), c.dst - 1, c.src - 1⟩

/-- `memmove`: the memory it leaves and what it returns; `none` where an
`ASSERT` fails. -/
def memmove (m : Memory) (dst src size : U64) : Option (Memory × U64) :=
  if (dst ≠ 0 ∨ size = 0) ∧ (src ≠ 0 ∨ size = 0) then
    let c := if dst < src then copyUp size.toNat ⟨m, dst, src⟩ else copyDown size.toNat ⟨m, dst + size, src + size⟩
    some (c.mem, c.dst)
  else none

/-! ## The loops -/

/-- The `i`-th byte from `p` on. -/
def place (p : U64) (i : Nat) : U64 := p + .ofNat 64 i

theorem place_zero : place p 0 = p := BitVec.add_zero p

theorem place_succ : place p (i + 1) = place p i + 1 := by
  unfold place
  rw [BitVec.ofNat_add, ← BitVec.add_assoc]
  rfl

theorem place_pred : place p (i + 1) - 1 = place p i := by
  rw [place_succ, BitVec.add_sub_cancel]

theorem place_size : place p size.toNat = p + size := by
  unfold place
  rw [BitVec.ofNat_toNat, BitVec.setWidth_eq]

theorem place_toNat (h : p.toNat + i < 2 ^ 64) : (place p i).toNat = p.toNat + i := by
  unfold place
  rw [BitVec.toNat_add, BitVec.toNat_ofNat]
  omega

theorem copyUp_eq : copyUp n ⟨m, place dst i, place src i⟩ =
    ⟨copyAlong (place dst) (place src) (List.range' i n) m, place dst (i + n), place src (i + n)⟩ := by
  induction n generalizing m i with
  | zero => rfl
  | succ n ih =>
    rw [copyUp, ← place_succ, ← place_succ, ih, List.range'_succ, copyAlong, Nat.add_right_comm, Nat.add_assoc]

theorem copyDown_eq : copyDown n ⟨m, place dst n, place src n⟩ =
    ⟨copyAlong (place dst) (place src) (List.range n).reverse m, dst, src⟩ := by
  induction n generalizing m with
  | zero => rw [place_zero, place_zero]; rfl
  | succ n ih =>
    simp only [copyDown, place_pred]
    rw [ih, List.range_succ, List.reverse_append]
    rfl

/-! ## The copy -/

/-- The bytes of the source, as they were in `m`, are in the destination, and
every other byte is as it was. -/
structure Moved (m : Memory) (dst src size : U64) (m' : Memory) : Prop where
  copied : ∀ i < size.toNat, m' (place dst i) = m (place src i)
  others : ∀ a, (∀ i < size.toNat, a ≠ place dst i) → m' a = m a

/-- A copy of all places in an order in which none is written before it is read. -/
theorem moved_copyAlong {ks : List Nat} (hks : ∀ k, k ∈ ks ↔ k < size.toNat)
    (hread : ks.Pairwise fun j k => place dst j ≠ place src k)
    (honce : ks.Pairwise fun j k => place dst j ≠ place dst k) :
    Moved m dst src size (copyAlong (place dst) (place src) ks m) :=
  ⟨fun i hi => copyAlong_at hread honce ((hks i).mpr hi), fun _ ha => copyAlong_off fun k hk => ha k ((hks k).mp hk)⟩

/-- **What `memmove` does**, with the pointer it returns. -/
theorem memmove_moves (m : Memory) (hdst : dst.toNat + size.toNat ≤ 2 ^ 64) (hsrc : src.toNat + size.toNat ≤ 2 ^ 64)
    (hassert : (dst ≠ 0 ∨ size = 0) ∧ (src ≠ 0 ∨ size = 0)) :
    ∃ m', memmove m dst src size = some (m', if dst < src then dst + size else dst) ∧ Moved m dst src size m' := by
  have hlt : (List.range size.toNat).Pairwise fun j k => j < k ∧ k < size.toNat :=
    List.pairwise_lt_range.imp_of_mem fun _ hk h => ⟨h, List.mem_range.mp hk⟩
  have hfar {p q : U64} {j k : Nat} (hp : p.toNat + size.toNat ≤ 2 ^ 64) (hq : q.toNat + size.toNat ≤ 2 ^ 64)
      (hj : j < size.toNat) (hk : k < size.toNat) (hne : p.toNat + j ≠ q.toNat + k) : place p j ≠ place q k := by
    intro h
    have hnat := congrArg BitVec.toNat h
    rw [place_toNat (by omega), place_toNat (by omega)] at hnat
    exact hne hnat
  by_cases hup : dst < src
  · have hless : dst.toNat < src.toNat := hup
    refine ⟨copyAlong (place dst) (place src) (List.range size.toNat) m, ?_,
      moved_copyAlong (fun _ => List.mem_range) ?_ ?_⟩
    · have hloop := @copyUp_eq m dst src 0 size.toNat
      rw [place_zero, place_zero, Nat.zero_add, place_size, place_size, ← List.range_eq_range'] at hloop
      rw [memmove, if_pos hassert, if_pos hup, if_pos hup, hloop]
    · exact hlt.imp fun ⟨hjk, hk⟩ => hfar hdst hsrc (by omega) hk (by omega)
    · exact hlt.imp fun ⟨hjk, hk⟩ => hfar hdst hdst (by omega) hk (by omega)
  · have hless : src.toNat ≤ dst.toNat := Nat.le_of_not_lt hup
    refine ⟨copyAlong (place dst) (place src) (List.range size.toNat).reverse m, ?_,
      moved_copyAlong (fun k => by rw [List.mem_reverse, List.mem_range]) ?_ ?_⟩
    · have hloop := @copyDown_eq m dst src size.toNat
      rw [place_size, place_size] at hloop
      rw [memmove, if_pos hassert, if_neg hup, if_neg hup, hloop]
    · rw [List.pairwise_reverse]
      exact hlt.imp fun ⟨hjk, hk⟩ => hfar hdst hsrc hk (by omega) (by omega)
    · rw [List.pairwise_reverse]
      exact hlt.imp fun ⟨hjk, hk⟩ => hfar hdst hdst hk (by omega) (by omega)

/-- What `memmove` is to do: move the bytes and return its first argument. -/
def Correct (m : Memory) (dst src size : U64) : Prop :=
  ∃ m', memmove m dst src size = some (m', dst) ∧ Moved m dst src size m'

/-- **When `memmove` is right**: the bytes always are, and the pointer when the
copy goes down. -/
theorem memmove_correct_iff (m : Memory) (hdst : dst.toNat + size.toNat ≤ 2 ^ 64)
    (hsrc : src.toNat + size.toNat ≤ 2 ^ 64) :
    Correct m dst src size ↔ size = 0 ∨ dst ≠ 0 ∧ src ≠ 0 ∧ src ≤ dst := by
  constructor
  · rintro ⟨m', h, -⟩
    by_cases hassert : (dst ≠ 0 ∨ size = 0) ∧ (src ≠ 0 ∨ size = 0)
    · obtain ⟨m'', hmoves, -⟩ := memmove_moves m hdst hsrc hassert
      have hret : (if dst < src then dst + size else dst) = dst :=
        congrArg Prod.snd (Option.some.inj (hmoves.symm.trans h))
      refine Classical.or_iff_not_imp_left.mpr fun hsize => ?_
      refine ⟨hassert.1.resolve_right hsize, hassert.2.resolve_right hsize, BitVec.not_lt.mp fun hup => hsize ?_⟩
      rw [if_pos hup] at hret
      exact BitVec.add_right_eq_self.mp hret
    · rw [memmove, if_neg hassert] at h
      cases h
  · intro hcond
    have hassert : (dst ≠ 0 ∨ size = 0) ∧ (src ≠ 0 ∨ size = 0) :=
      hcond.elim (fun h => ⟨.inr h, .inr h⟩) fun ⟨h, h', _⟩ => ⟨.inl h, .inl h'⟩
    obtain ⟨m', hmoves, hmoved⟩ := memmove_moves m hdst hsrc hassert
    have hret : (if dst < src then dst + size else dst) = dst := by
      split_ifs with hup
      · rcases hcond with rfl | ⟨-, -, hle⟩
        · exact BitVec.add_zero dst
        · exact absurd hup (BitVec.not_lt.mpr hle)
      · rfl
    rw [hret] at hmoves
    exact ⟨m', hmoves, hmoved⟩

/-- One byte to the place below it: the pointer that comes back is the source's. -/
theorem not_memmove_correct : ¬ Correct (fun a => a.setWidth 8) 0x1000 0x1001 1 := by
  rintro ⟨m', h, -⟩
  have hret : (memmove (fun a => a.setWidth 8) 0x1000 0x1001 1).map (fun r => r.2) = some 0x1001 := by decide
  rw [h, Option.map_some] at hret
  have hsame : (0x1000 : U64) = 0x1001 := Option.some.inj hret
  exact absurd hsame (by decide)

/-- Three bytes to overlapping places above them. -/
theorem memmove_correct_three : Correct (fun a => a.setWidth 8) 0x1002 0x1001 3 ↔
    (3 : U64) = 0 ∨ (0x1002 : U64) ≠ 0 ∧ (0x1001 : U64) ≠ 0 ∧ (0x1001 : U64) ≤ 0x1002 :=
  memmove_correct_iff (fun a => a.setWidth 8) (by decide) (by decide)

end PintosKaist.Memmove
