/-
The bitmaps of `lib/kernel/bitmap.c`: bits packed into words, and the loops
over them. `none` is a failed assertion.

A bitmap stands for its sequence of bits (`toBitmap`). The lemmas say what each
loop does to them: `bitmap_set_multiple` sets a run, `bitmap_contains` looks
for a bit in one, and `bitmap_scan` finds the lowest run there is.
-/
import PintosKaist.Lib.Bitmap
import PintosKaist.Lib.Run
import Mathlib.Data.BitVec
import Mathlib.Order.Bounds.Defs

namespace PintosKaist.LibKernel

/-- `ELEM_BITS`. -/
def elemBits : Nat := 64

/-- `elem_idx`. -/
def elemIdx (bitIdx : Nat) : Nat := bitIdx / elemBits

/-- `bit_mask`. -/
def bitMask (bitIdx : Nat) : BitVec 64 := 1#64 <<< (bitIdx % elemBits)

/-- `elem_cnt`. -/
def elemCnt (bitCnt : Nat) : Nat := (bitCnt + elemBits - 1) / elemBits

/-- `byte_cnt`. -/
def byteCnt (bitCnt : Nat) : Nat := 8 * elemCnt bitCnt

/-- `bitmap_buf_size`. -/
def bitmapBufSize (bitCnt : Nat) : Nat := 16 + byteCnt bitCnt

/-- `BITMAP_ERROR`: `SIZE_MAX`, which is `UINT32_MAX`. -/
def bitmapError : Nat := 2 ^ 32 - 1

/-- `struct bitmap`. -/
structure PackedBitmap where
  bitCnt : Nat
  bits : Vector (BitVec 64) (elemCnt bitCnt)

/-- `b->bits[idx]`. -/
def PackedBitmap.elem (b : PackedBitmap) (idx : Nat) : BitVec 64 := b.bits[idx]?.getD 0

/-- The bits that the words stand for. -/
def PackedBitmap.toBitmap (b : PackedBitmap) : Bitmap :=
  ⟨b.bitCnt, fun i => (b.elem (elemIdx i)).getLsbD (i % elemBits)⟩

/-- `bitmap_size`. -/
def bitmapSize (b : PackedBitmap) : Nat := b.bitCnt

/-- `bitmap_mark`. -/
def bitmapMark (b : PackedBitmap) (bitIdx : Nat) : PackedBitmap :=
  { b with bits := b.bits.setIfInBounds (elemIdx bitIdx) (b.elem (elemIdx bitIdx) ||| bitMask bitIdx) }

/-- `bitmap_reset`. -/
def bitmapReset (b : PackedBitmap) (bitIdx : Nat) : PackedBitmap :=
  { b with bits := b.bits.setIfInBounds (elemIdx bitIdx) (b.elem (elemIdx bitIdx) &&& ~~~bitMask bitIdx) }

/-- `bitmap_set`. -/
def bitmapSet (b : PackedBitmap) (idx : Nat) (value : Bool) : Option PackedBitmap :=
  if idx < b.bitCnt then some (if value then bitmapMark b idx else bitmapReset b idx) else none

/-- `bitmap_test`. -/
def bitmapTest (b : PackedBitmap) (idx : Nat) : Option Bool :=
  if idx < b.bitCnt then some (b.elem (elemIdx idx) &&& bitMask idx ≠ 0) else none

/-- The two assertions of the functions on a run of bits. The sum is a
`size_t`. -/
def inRange (b : PackedBitmap) (start cnt : Nat) : Bool := start ≤ b.bitCnt && (start + cnt) % 2 ^ 64 ≤ b.bitCnt

/-- `bitmap_set_multiple`. -/
def bitmapSetMultiple (b : PackedBitmap) (start cnt : Nat) (value : Bool) : Option PackedBitmap :=
  if inRange b start cnt then Run.run (fun b i => bitmapSet b (start + i) value) b (List.range cnt) else none

/-- `bitmap_set_all`. -/
def bitmapSetAll (b : PackedBitmap) (value : Bool) : Option PackedBitmap := bitmapSetMultiple b 0 (bitmapSize b) value

/-- `bitmap_create_in_buf`. `words` is what the block has in it. -/
def bitmapCreateInBuf (bitCnt : Nat) (words : Nat → BitVec 64) (blockSize : Nat) : Option PackedBitmap :=
  if bitmapBufSize bitCnt ≤ blockSize then bitmapSetAll ⟨bitCnt, Vector.ofFn fun i => words i⟩ false else none

/-- The loop of `bitmap_contains` from turn `i` on, of which `left` are left. -/
def containsFrom (b : PackedBitmap) (start : Nat) (value : Bool) (i : Nat) : Nat → Option Bool
  | 0 => some false
  | left + 1 =>
    (bitmapTest b (start + i)).bind fun bit => if bit = value then some true else containsFrom b start value (i + 1) left

/-- `bitmap_contains`. -/
def bitmapContains (b : PackedBitmap) (start cnt : Nat) (value : Bool) : Option Bool :=
  if inRange b start cnt then containsFrom b start value 0 cnt else none

/-- `bitmap_all`. -/
def bitmapAll (b : PackedBitmap) (start cnt : Nat) : Option Bool := (bitmapContains b start cnt false).map not

/-- The loop of `bitmap_scan` from `i` on, with `left` turns left. -/
def scanFrom (b : PackedBitmap) (cnt : Nat) (value : Bool) (i : Nat) : Nat → Option Nat
  | 0 => some bitmapError
  | left + 1 =>
    (bitmapContains b i cnt (!value)).bind fun c => if c then scanFrom b cnt value (i + 1) left else some i

/-- `bitmap_scan`. -/
def bitmapScan (b : PackedBitmap) (start cnt : Nat) (value : Bool) : Option Nat :=
  if start ≤ b.bitCnt then
    if cnt ≤ b.bitCnt then scanFrom b cnt value start (b.bitCnt - cnt + 1 - start) else some bitmapError
  else none

/-- `bitmap_scan_and_flip`. -/
def bitmapScanAndFlip (b : PackedBitmap) (start cnt : Nat) (value : Bool) : Option (Nat × PackedBitmap) :=
  (bitmapScan b start cnt value).bind fun idx =>
    if idx ≠ bitmapError then (bitmapSetMultiple b idx cnt (!value)).map (idx, ·) else some (idx, b)

variable {b b' : PackedBitmap} {i j start cnt left : Nat} {v : Bool}

/-! ## One bit -/

@[simp] theorem toBitmap_size (b : PackedBitmap) : b.toBitmap.size = b.bitCnt := rfl

theorem toBitmap_bit (b : PackedBitmap) (i : Nat) :
    b.toBitmap.bit i = (b.elem (elemIdx i)).getLsbD (i % elemBits) := rfl

theorem elemIdx_lt (hi : i < b.bitCnt) : elemIdx i < elemCnt b.bitCnt := by
  unfold elemIdx elemCnt elemBits
  omega

theorem bitMask_getLsbD (i j : Nat) : (bitMask i).getLsbD j = decide (j = i % elemBits) := by
  have hi : i % elemBits < 64 := Nat.mod_lt _ (by decide)
  unfold bitMask
  rw [← BitVec.twoPow_eq, BitVec.getLsbD_twoPow]
  simp [hi, eq_comm]

/-- Two bits are the same one when they are in the same place of the same
word. -/
theorem place_inj (hidx : elemIdx i = elemIdx j) (hmod : i % elemBits = j % elemBits) : i = j := by
  unfold elemIdx at hidx
  rw [← Nat.div_add_mod i elemBits, hidx, hmod, Nat.div_add_mod]

/-- A word that is changed in the place of one bit changes that bit. -/
theorem toBitmap_update {w : BitVec 64} (hi : i < b.bitCnt)
    (hw : ∀ k < elemBits, w.getLsbD k = if k = i % elemBits then v else (b.elem (elemIdx i)).getLsbD k) :
    PackedBitmap.toBitmap { b with bits := b.bits.setIfInBounds (elemIdx i) w } = b.toBitmap.set i v := by
  refine congrArg (Bitmap.mk b.bitCnt) (funext fun j => ?_)
  rw [Function.update_apply, toBitmap_bit]
  have hmod : j % elemBits < elemBits := Nat.mod_lt _ (by decide)
  by_cases hidx : elemIdx j = elemIdx i
  · have helem : PackedBitmap.elem { b with bits := b.bits.setIfInBounds (elemIdx i) w } (elemIdx j) = w := by
      unfold PackedBitmap.elem
      rw [hidx, Vector.getElem?_setIfInBounds_self_of_lt (elemIdx_lt hi)]
      rfl
    rw [helem, hw _ hmod, hidx]
    by_cases hji : j = i
    · rw [if_pos hji, if_pos (by rw [hji])]
    · rw [if_neg hji, if_neg fun he => hji (place_inj hidx he)]
  · have helem : PackedBitmap.elem { b with bits := b.bits.setIfInBounds (elemIdx i) w } (elemIdx j) =
        b.elem (elemIdx j) := by
      unfold PackedBitmap.elem
      rw [Vector.getElem?_setIfInBounds_ne (Ne.symm hidx)]
    rw [helem, if_neg fun he => hidx (by rw [he])]

theorem bitmapSet_eq (hi : i < b.bitCnt) (v : Bool) :
    ∃ b', bitmapSet b i v = some b' ∧ b'.toBitmap = b.toBitmap.set i v := by
  unfold bitmapSet
  rw [if_pos hi]
  refine ⟨_, rfl, ?_⟩
  cases v with
  | true =>
    refine toBitmap_update hi fun k hk => ?_
    rw [BitVec.getLsbD_or, bitMask_getLsbD]
    split <;> simp [*]
  | false =>
    refine toBitmap_update hi fun k hk => ?_
    have hk' : k < 64 := hk
    rw [BitVec.getLsbD_and, BitVec.getLsbD_not, bitMask_getLsbD]
    split <;> simp [*]

theorem bitmapTest_eq (hi : i < b.bitCnt) : bitmapTest b i = some (b.toBitmap.bit i) := by
  unfold bitmapTest
  rw [if_pos hi]
  have hmod : i % elemBits < elemBits := Nat.mod_lt _ (by decide)
  have hne : b.elem (elemIdx i) &&& bitMask i ≠ 0 ↔ (b.elem (elemIdx i)).getLsbD (i % elemBits) = true := by
    rw [← not_iff_not, not_not, Bool.not_eq_true]
    constructor
    · intro h0
      have hbit := congrArg (fun w => BitVec.getLsbD w (i % elemBits)) h0
      simpa [bitMask_getLsbD] using hbit
    · intro hbit
      apply BitVec.eq_of_getLsbD_eq
      intro k hk
      rw [BitVec.getLsbD_and, bitMask_getLsbD]
      by_cases hki : k = i % elemBits
      · rw [hki, hbit]
        simp
      · simp [hki]
  rw [toBitmap_bit, Option.some.injEq, Bool.eq_iff_iff, decide_eq_true_iff]
  exact hne

/-! ## Runs of bits -/

theorem inRange_of (h : start + cnt ≤ b.bitCnt) : inRange b start cnt = true := by
  have hmod := Nat.mod_le (start + cnt) (2 ^ 64)
  simp only [inRange, Bool.and_eq_true, decide_eq_true_eq]
  omega

theorem bitmapSetMultiple_eq (h : start + cnt ≤ b.bitCnt) (v : Bool) :
    ∃ b', bitmapSetMultiple b start cnt v = some b' ∧ b'.toBitmap = b.toBitmap.setMultiple start cnt v := by
  unfold bitmapSetMultiple
  rw [if_pos (inRange_of h)]
  induction cnt with
  | zero =>
    refine ⟨b, rfl, congrArg (Bitmap.mk b.bitCnt) (funext fun j => ?_)⟩
    rw [if_neg (by omega)]
    rfl
  | succ cnt ih =>
    obtain ⟨b₁, hrun, hb₁⟩ := ih (by omega)
    have hsize : b₁.bitCnt = b.bitCnt := congrArg Bitmap.size hb₁
    obtain ⟨b₂, hset, hb₂⟩ := bitmapSet_eq (b := b₁) (i := start + cnt) (by omega) v
    refine ⟨b₂, ?_, ?_⟩
    · rw [List.range_succ, Run.run_append, hrun, Option.bind_some, Run.run_cons]
      exact ⟨b₂, hset, rfl⟩
    · rw [hb₂, hb₁]
      refine congrArg (Bitmap.mk b.bitCnt) (funext fun j => ?_)
      rw [Function.update_apply]
      by_cases hj : j = start + cnt
      · rw [if_pos hj, if_pos (by omega)]
      · rw [if_neg hj, Bitmap.setMultiple_bit]
        exact if_congr (by omega) rfl rfl

theorem bitmapSetMultiple_bitCnt (h : bitmapSetMultiple b start cnt v = some b') : b'.bitCnt = b.bitCnt := by
  unfold bitmapSetMultiple at h
  split at h
  case isTrue =>
    have hkeep : ∀ (c : PackedBitmap) i c', c.bitCnt = b.bitCnt → True → bitmapSet c (start + i) v = some c' →
        c'.bitCnt = b.bitCnt := by
      intro c i c' hc _ hset
      obtain ⟨-, hres⟩ := Option.ite_none_right_eq_some.mp hset
      obtain rfl := Option.some.inj hres
      cases v <;> exact hc
    exact Run.run_invariant hkeep rfl h (Run.always_of_mem b fun _ _ _ => trivial)
  case isFalse => cases h

theorem bitmapSetAll_eq (b : PackedBitmap) (v : Bool) :
    ∃ b', bitmapSetAll b v = some b' ∧ b'.toBitmap = b.toBitmap.setMultiple 0 b.bitCnt v :=
  bitmapSetMultiple_eq (Nat.le_of_eq (Nat.zero_add _)) v

/-- A bitmap is made in a block that is large enough, and is clear. -/
theorem bitmapCreateInBuf_eq {bitCnt blockSize : Nat} (words : Nat → BitVec 64) (h : bitmapBufSize bitCnt ≤ blockSize) :
    ∃ b, bitmapCreateInBuf bitCnt words blockSize = some b ∧ b.bitCnt = bitCnt ∧
      ∀ i < bitCnt, b.toBitmap.bit i = false := by
  unfold bitmapCreateInBuf
  rw [if_pos h]
  obtain ⟨b, hset, hb⟩ := bitmapSetAll_eq ⟨bitCnt, Vector.ofFn fun i => words i⟩ false
  refine ⟨b, hset, congrArg Bitmap.size hb, fun i hi => ?_⟩
  have hlt : i < 0 + bitCnt := by omega
  rw [hb, Bitmap.setMultiple_bit, if_pos ⟨Nat.zero_le i, hlt⟩]

theorem containsFrom_eq (h : start + i + left ≤ b.bitCnt) (v : Bool) :
    ∃ r, containsFrom b start v i left = some r ∧
      (r = true ↔ ∃ x, start + i ≤ x ∧ x < start + i + left ∧ b.toBitmap.bit x = v) := by
  induction left generalizing i with
  | zero => exact ⟨false, rfl, by simp only [Bool.false_eq_true, false_iff]; omega⟩
  | succ left ih =>
    obtain ⟨r, hr, hiff⟩ := ih (i := i + 1) (by omega)
    unfold containsFrom
    rw [bitmapTest_eq (by omega), Option.bind_some]
    by_cases hv : b.toBitmap.bit (start + i) = v
    · rw [if_pos hv]
      exact ⟨true, rfl, fun _ => ⟨start + i, by omega, by omega, hv⟩, fun _ => rfl⟩
    · rw [if_neg hv]
      refine ⟨r, hr, hiff.trans ⟨fun ⟨x, hx, hx', hbit⟩ => ⟨x, by omega, by omega, hbit⟩, ?_⟩⟩
      rintro ⟨x, hx, hx', hbit⟩
      have hne : x ≠ start + i := fun he => hv (he ▸ hbit)
      exact ⟨x, by omega, by omega, hbit⟩

theorem bitmapContains_eq (h : start + cnt ≤ b.bitCnt) (v : Bool) :
    ∃ r, bitmapContains b start cnt v = some r ∧
      (r = true ↔ ∃ x, start ≤ x ∧ x < start + cnt ∧ b.toBitmap.bit x = v) := by
  unfold bitmapContains
  rw [if_pos (inRange_of h)]
  exact containsFrom_eq h v

/-- `bitmap_contains` finds no bit that is not `v` in a run of bits `v`. -/
theorem bitmapContains_not (h : start + cnt ≤ b.bitCnt) (v : Bool) :
    ∃ r, bitmapContains b start cnt (!v) = some r ∧ (r = false ↔ b.toBitmap.Holds start cnt v) := by
  obtain ⟨r, hr, hiff⟩ := bitmapContains_eq h (!v)
  refine ⟨r, hr, ?_⟩
  rw [← Bool.not_eq_true, hiff]
  constructor
  · intro hno
    refine ⟨h, fun x hx hx' => ?_⟩
    by_contra hbit
    exact hno ⟨x, hx, hx', Bool.eq_not_of_ne hbit⟩
  · rintro ⟨-, hall⟩ ⟨x, hx, hx', hbit⟩
    rw [hall x hx hx'] at hbit
    cases v <;> cases hbit

theorem bitmapAll_eq (h : start + cnt ≤ b.bitCnt) :
    ∃ r, bitmapAll b start cnt = some r ∧ (r = true ↔ b.toBitmap.Holds start cnt true) := by
  obtain ⟨r, hr, hiff⟩ := bitmapContains_not h true
  refine ⟨!r, ?_, by rw [← hiff, Bool.not_eq_true']⟩
  unfold bitmapAll
  rw [show bitmapContains b start cnt false = some r from hr]
  rfl

/-! ## The scan -/

/-- The lowest place from `start` on of `cnt` bits that are `v`. -/
def Lowest (b : PackedBitmap) (start cnt : Nat) (v : Bool) (i : Nat) : Prop :=
  IsLeast {i | start ≤ i ∧ b.toBitmap.Holds i cnt v} i

theorem Lowest.unique (hi : Lowest b start cnt v i) (hj : Lowest b start cnt v j) : i = j :=
  Nat.le_antisymm (hi.2 hj.1) (hj.2 hi.1)

theorem scanFrom_eq (v : Bool) (hc : cnt ≤ b.bitCnt) (h : left = b.bitCnt - cnt + 1 - i) :
    (∃ j, Lowest b i cnt v j ∧ scanFrom b cnt v i left = some j) ∨
      (∀ j, i ≤ j → ¬ b.toBitmap.Holds j cnt v) ∧ scanFrom b cnt v i left = some bitmapError := by
  induction left generalizing i with
  | zero =>
    refine .inr ⟨fun j hij hj => ?_, rfl⟩
    have hsize : j + cnt ≤ b.bitCnt := hj.1
    omega
  | succ left ih =>
    unfold scanFrom
    obtain ⟨r, hr, hiff⟩ := @bitmapContains_not b i cnt (by omega) v
    rw [hr, Option.bind_some]
    cases r with
    | false => exact .inl ⟨i, ⟨⟨Nat.le_refl i, hiff.mp rfl⟩, fun j hj => hj.1⟩, rfl⟩
    | true =>
      have hnot : ¬ b.toBitmap.Holds i cnt v := fun hh => by cases hiff.mpr hh
      have hnext : ∀ j, i ≤ j → b.toBitmap.Holds j cnt v → i + 1 ≤ j := fun j hij hj => by
        have hne : i ≠ j := fun he => hnot (he ▸ hj)
        omega
      rw [if_pos rfl]
      rcases @ih (i + 1) (by omega) with ⟨j, hj, hscan⟩ | ⟨hno, hscan⟩
      · exact .inl ⟨j, ⟨⟨by have := hj.1.1; omega, hj.1.2⟩, fun k hk => hj.2 ⟨hnext k hk.1 hk.2, hk.2⟩⟩, hscan⟩
      · exact .inr ⟨fun j hij hj => hno j (hnext j hij hj) hj, hscan⟩

/-- **`bitmap_scan` finds the lowest run**, and nothing when there is none. -/
theorem bitmapScan_eq (cnt : Nat) (hstart : start ≤ b.bitCnt) (v : Bool) :
    (∃ j, Lowest b start cnt v j ∧ bitmapScan b start cnt v = some j) ∨
      (∀ j, start ≤ j → ¬ b.toBitmap.Holds j cnt v) ∧ bitmapScan b start cnt v = some bitmapError := by
  unfold bitmapScan
  rw [if_pos hstart]
  split
  case isTrue hc => exact scanFrom_eq v hc rfl
  case isFalse hc =>
    refine .inr ⟨fun j hij hj => ?_, rfl⟩
    have hsize : j + cnt ≤ b.bitCnt := hj.1
    omega

/-- What `bitmap_scan_and_flip` does with what `bitmap_scan` finds: it flips the
run, unless the run starts at the number that stands for none. -/
inductive Flips (b : PackedBitmap) (start cnt : Nat) (v : Bool) : Nat → PackedBitmap → Prop
  | found {j : Nat} {b' : PackedBitmap} (hj : Lowest b start cnt v j) (hne : j ≠ bitmapError)
      (hb : b'.toBitmap = b.toBitmap.setMultiple j cnt (!v)) : Flips b start cnt v j b'
  | mistaken (hj : Lowest b start cnt v bitmapError) : Flips b start cnt v bitmapError b
  | nothing (hno : ∀ j, start ≤ j → ¬ b.toBitmap.Holds j cnt v) : Flips b start cnt v bitmapError b

theorem bitmapScanAndFlip_eq (cnt : Nat) (hstart : start ≤ b.bitCnt) (v : Bool) :
    ∃ j b', bitmapScanAndFlip b start cnt v = some (j, b') ∧ Flips b start cnt v j b' := by
  unfold bitmapScanAndFlip
  rcases bitmapScan_eq cnt hstart v with ⟨j, hj, hscan⟩ | ⟨hno, hscan⟩ <;> rw [hscan, Option.bind_some]
  · by_cases he : j = bitmapError
    · subst he
      exact ⟨bitmapError, b, if_neg (not_not_intro rfl), .mistaken hj⟩
    · obtain ⟨b', hset, hb'⟩ := @bitmapSetMultiple_eq b j cnt hj.1.2.1 (!v)
      refine ⟨j, b', ?_, .found hj he hb'⟩
      rw [if_pos he, hset]
      rfl
  · exact ⟨bitmapError, b, if_neg (not_not_intro rfl), .nothing hno⟩

end PintosKaist.LibKernel
