/-
Byte memory with 64-bit addresses: little-endian loads and stores of any size,
and the image that a list of stores at distinct offsets from one address
leaves (`fill`), as a saved register frame is.
-/
import Mathlib.Data.BitVec
import Mathlib.Data.Nat.ModEq
import Mathlib.Tactic.Ring

namespace ByteMem

abbrev Addr := BitVec 64

abbrev Mem := Addr → BitVec 8

/-- The number in the `n` bytes from `a` on, the low byte first. -/
def load (m : Mem) (a : Addr) : Nat → Nat
  | 0 => 0
  | n + 1 => (m a).toNat + 256 * load m (a + 1) n

/-- The memory after the `n` low bytes of `v` are put from `a` on. -/
def store (m : Mem) (a : Addr) (n v : Nat) : Mem := fun x =>
  if (x - a).toNat < n then BitVec.ofNat 8 (v / 256 ^ (x - a).toNat) else m x

/-- A store at an offset from some address. -/
structure Slot where
  off : Nat
  size : Nat
  val : Nat

/-- The byte is one of the slot's, the slots counted from `b` on. -/
def Slot.Covers (s : Slot) (b x : Addr) : Prop := s.off ≤ (x - b).toNat ∧ (x - b).toNat < s.off + s.size

/-- The memory after the stores, in their order. -/
def fill (m : Mem) (b : Addr) : List Slot → Mem
  | [] => m
  | s :: l => fill (store m (b + BitVec.ofNat 64 s.off) s.size s.val) b l

/-- The `n` bytes from `b` on are none of the `k` bytes from `a` on. -/
def Apart (a : Addr) (k : Nat) (b : Addr) (n : Nat) : Prop := k ≤ (b - a).toNat ∧ (b - a).toNat + n ≤ 2 ^ 64

variable {m m' : Mem} {a b x : Addr} {k n v i : Nat} {s s' : Slot} {l : List Slot}

/-! ## Loads and stores -/

/-- A load is made of the bytes, wherever they are. -/
theorem load_congr (h : ∀ i < n, m' (b + BitVec.ofNat 64 i) = m (a + BitVec.ofNat 64 i)) : load m' b n = load m a n := by
  induction n generalizing a b with
  | zero => rfl
  | succ n ih =>
    have h0 := h 0 (Nat.succ_pos n)
    simp only [BitVec.add_zero] at h0
    have hnext : ∀ (c : Addr) i, c + 1 + BitVec.ofNat 64 i = c + BitVec.ofNat 64 (i + 1) := fun c i => by
      rw [BitVec.ofNat_add, BitVec.add_assoc, BitVec.add_comm (1 : BitVec 64)]
      rfl
    have hs : ∀ i < n, m' (b + 1 + BitVec.ofNat 64 i) = m (a + 1 + BitVec.ofNat 64 i) := fun i hi => by
      rw [hnext, hnext]
      exact h (i + 1) (Nat.succ_lt_succ hi)
    simp only [load, h0, ih hs]

theorem add_ofNat_sub (h : (b - a).toNat + n < 2 ^ 64) : (b + BitVec.ofNat 64 n - a).toNat = (b - a).toNat + n := by
  have he : b + BitVec.ofNat 64 n - a = (b - a) + BitVec.ofNat 64 n := by ring
  rw [he, BitVec.toNat_add, BitVec.toNat_ofNat, Nat.add_mod_mod, Nat.mod_eq_of_lt h]

/-- A store elsewhere is nothing to a load. -/
theorem load_store_apart (h : Apart a k b n) : load (store m a k v) b n = load m b n := by
  refine load_congr fun i hi => ?_
  have hs := add_ofNat_sub (a := a) (b := b) (n := i) (Nat.lt_of_lt_of_le (Nat.add_lt_add_left hi _) h.2)
  simp only [store]
  rw [if_neg (by rw [hs]; have := h.1; omega)]

/-- A part of what was stored, counted from one of its bytes. -/
theorem load_store_from (hk : i + n ≤ k) (hmax : k ≤ 2 ^ 64) :
    load (store m a k v) (a + BitVec.ofNat 64 i) n = v / 256 ^ i % 256 ^ n := by
  induction n generalizing i with
  | zero => simp [load, Nat.mod_one]
  | succ n ih =>
    have hi : (a + BitVec.ofNat 64 i - a).toNat = i := by
      have he : a + BitVec.ofNat 64 i - a = BitVec.ofNat 64 i := by ring
      rw [he, BitVec.toNat_ofNat, Nat.mod_eq_of_lt (by omega)]
    have hnext : a + BitVec.ofNat 64 i + 1 = a + BitVec.ofNat 64 (i + 1) := by
      rw [BitVec.ofNat_add, BitVec.add_assoc]
      rfl
    have hrest := ih (i := i + 1) (by omega)
    simp only [load, hnext, hrest]
    have hbyte : (store m a k v (a + BitVec.ofNat 64 i)).toNat = v / 256 ^ i % 256 := by
      simp only [store, hi]
      rw [if_pos (by omega), BitVec.toNat_ofNat]
    rw [hbyte, Nat.pow_succ 256 i, ← Nat.div_div_eq_div_mul, Nat.pow_succ, Nat.mul_comm (256 ^ n), Nat.mod_mul]

/-- What was stored is loaded again, or its low bytes. -/
theorem load_store (hk : n ≤ k) (hmax : k ≤ 2 ^ 64) : load (store m a k v) a n = v % 256 ^ n := by
  have h := load_store_from (m := m) (a := a) (v := v) (i := 0) (by omega : 0 + n ≤ k) hmax
  simpa using h

theorem store_off (h : ¬ (x - a).toNat < n) : store m a n v x = m x := if_neg h

/-! ## Images -/

theorem fill_append {l' : List Slot} : fill m b (l ++ l') = fill (fill m b l) b l' := by
  induction l generalizing m with
  | nil => rfl
  | cons s l ih => exact ih

theorem sub_add_ofNat_toNat (h : (x - b).toNat < k) (hk : k ≤ 2 ^ 64) :
    (x - (b + BitVec.ofNat 64 k)).toNat = 2 ^ 64 - (k - (x - b).toNat) := by
  have he : x - (b + BitVec.ofNat 64 k) = (x - b) - BitVec.ofNat 64 k := by ring
  have hlt := (x - b).isLt
  rw [he, BitVec.toNat_sub, BitVec.toNat_ofNat]
  by_cases hmax : k = 2 ^ 64
  · subst hmax
    omega
  · rw [Nat.mod_eq_of_lt (by omega : k < 2 ^ 64)]
    omega

/-- A byte that no slot covers keeps its value. -/
theorem fill_off (h : ∀ s ∈ l, ¬ s.Covers b x) (hfit : ∀ s ∈ l, s.off + s.size ≤ 2 ^ 64) : fill m b l x = m x := by
  induction l generalizing m with
  | nil => rfl
  | cons s l ih =>
    rw [fill, ih (fun s hs => h s (List.mem_cons_of_mem _ hs)) fun s hs => hfit s (List.mem_cons_of_mem _ hs)]
    refine store_off fun hlt => h s List.mem_cons_self ?_
    have hf := hfit s List.mem_cons_self
    have hx := (x - b).isLt
    by_cases hc : (x - b).toNat < s.off
    · rw [sub_add_ofNat_toNat hc (by omega)] at hlt
      omega
    · have he : (x - (b + BitVec.ofNat 64 s.off)).toNat = (x - b).toNat - s.off := by
        have hes : x - (b + BitVec.ofNat 64 s.off) = (x - b) - BitVec.ofNat 64 s.off := by ring
        rw [hes, BitVec.toNat_sub, BitVec.toNat_ofNat]
        by_cases hoff : s.off = 2 ^ 64
        · omega
        · rw [Nat.mod_eq_of_lt (by omega : s.off < 2 ^ 64)]
          omega
      exact ⟨by omega, by omega⟩

def Slot.extent (s : Slot) : Nat × Nat := (s.off, s.size)

/-- Extents that have no byte in common, and do not wrap around. -/
structure Separate (l : List (Nat × Nat)) : Prop where
  pairwise : l.Pairwise fun e e' => e.1 + e.2 ≤ e'.1 ∨ e'.1 + e'.2 ≤ e.1
  fit : ∀ e ∈ l, e.1 + e.2 ≤ 2 ^ 64

instance (l : List (Nat × Nat)) : Decidable (Separate l) :=
  decidable_of_iff (l.Pairwise (fun e e' => e.1 + e.2 ≤ e'.1 ∨ e'.1 + e'.2 ≤ e.1) ∧ ∀ e ∈ l, e.1 + e.2 ≤ 2 ^ 64)
    ⟨fun h => ⟨h.1, h.2⟩, fun h => ⟨h.pairwise, h.fit⟩⟩

/-- A load of bytes that no slot covers. -/
theorem load_fill_off (h : ∀ i < n, ∀ s ∈ l, ¬ s.Covers b (a + BitVec.ofNat 64 i))
    (hfit : ∀ s ∈ l, s.off + s.size ≤ 2 ^ 64) : load (fill m b l) a n = load m a n :=
  load_congr fun i hi => fill_off (h i hi) hfit

theorem toNat_off_sub (h : k + i < 2 ^ 64) : (b + BitVec.ofNat 64 k + BitVec.ofNat 64 i - b).toNat = k + i := by
  have he : b + BitVec.ofNat 64 k + BitVec.ofNat 64 i - b = BitVec.ofNat 64 k + BitVec.ofNat 64 i := by ring
  rw [he, ← BitVec.ofNat_add, BitVec.toNat_ofNat, Nat.mod_eq_of_lt h]

/-- A slot of an image holds what was stored in it. -/
theorem load_fill (hl : Separate (l.map Slot.extent)) (hs : s ∈ l) (hn : n ≤ s.size) :
    load (fill m b l) (b + BitVec.ofNat 64 s.off) n = s.val % 256 ^ n := by
  induction l generalizing m with
  | nil => cases hs
  | cons s' l ih =>
    obtain ⟨hpw, hfit⟩ := hl
    obtain ⟨hhead, hpw⟩ := List.pairwise_cons.mp hpw
    have hfit' : ∀ s ∈ l, s.off + s.size ≤ 2 ^ 64 := fun s hs =>
      hfit s.extent (List.mem_cons_of_mem _ (List.mem_map_of_mem hs))
    obtain rfl | hs := List.mem_cons.mp hs
    · -- the later slots cover none of its bytes
      have hf : s.off + s.size ≤ 2 ^ 64 := hfit s.extent List.mem_cons_self
      rw [fill, load_fill_off (fun i hi x hx hc => ?_) hfit', load_store hn (by omega)]
      obtain ⟨hlo, hhi⟩ := hc
      rw [toNat_off_sub (by omega)] at hlo hhi
      have hx := hhead x.extent (List.mem_map_of_mem hx)
      simp only [Slot.extent] at hx
      omega
    · exact ih ⟨hpw, fun e he => hfit e (List.mem_cons_of_mem _ he)⟩ hs

/-- The slot counted from an address `k` bytes lower. -/
def Slot.shift (k : Nat) (s : Slot) : Slot := { s with off := k + s.off }

theorem fill_shift : fill m (b + BitVec.ofNat 64 k) l = fill m b (l.map (Slot.shift k)) := by
  induction l generalizing m with
  | nil => rfl
  | cons s l ih =>
    simp only [fill, List.map_cons, ih, Slot.shift, BitVec.ofNat_add, BitVec.add_assoc]

/-! ## Ranges apart -/

theorem Apart.symm (h : Apart a k b n) (hk : 0 < k) : Apart b n a k := by
  have hsub : (a - b).toNat = 2 ^ 64 - (b - a).toNat := by
    have hring : a - b = 0 - (b - a) := by ring
    have h0 : (0 : Addr).toNat = 0 := rfl
    rw [hring, BitVec.toNat_sub, h0]
    have := h.1
    omega
  obtain ⟨h₁, h₂⟩ := h
  exact ⟨by omega, by omega⟩

/-- Parts of ranges apart are apart. -/
theorem Apart.part (h : Apart a k b n) (i j n' k' : Nat) (hk : j + k' ≤ k) (hn : i + n' ≤ n) (hpos : 0 < n') :
    Apart (a + BitVec.ofNat 64 j) k' (b + BitVec.ofNat 64 i) n' := by
  obtain ⟨h₁, h₂⟩ := h
  have hlt := (b - a).isLt
  have hsub : (b + BitVec.ofNat 64 i - (a + BitVec.ofNat 64 j)).toNat = (b - a).toNat + i - j := by
    have hring : b + BitVec.ofNat 64 i - (a + BitVec.ofNat 64 j) = (b - a) + BitVec.ofNat 64 i - BitVec.ofNat 64 j := by
      ring
    rw [hring, BitVec.toNat_sub, BitVec.toNat_add, BitVec.toNat_ofNat, BitVec.toNat_ofNat,
      Nat.mod_eq_of_lt (by omega : i < 2 ^ 64), Nat.mod_eq_of_lt (by omega : j < 2 ^ 64),
      Nat.mod_eq_of_lt (by omega : (b - a).toNat + i < 2 ^ 64)]
    omega
  exact ⟨by omega, by omega⟩

/-- Ranges at different offsets from one address. -/
theorem apart_offsets {j k' : Nat} (h : i + n ≤ j ∨ j + k' ≤ i) (hi : i + n < 2 ^ 64) (hj : j + k' < 2 ^ 64) (hn : 0 < n) :
    Apart (a + BitVec.ofNat 64 j) k' (a + BitVec.ofNat 64 i) n := by
  have hsub : (a + BitVec.ofNat 64 i - (a + BitVec.ofNat 64 j)).toNat = (2 ^ 64 - j + i) % 2 ^ 64 := by
    have hring : a + BitVec.ofNat 64 i - (a + BitVec.ofNat 64 j) = BitVec.ofNat 64 i - BitVec.ofNat 64 j := by ring
    rw [hring, BitVec.toNat_sub, BitVec.toNat_ofNat, BitVec.toNat_ofNat, Nat.mod_eq_of_lt (by omega : i < 2 ^ 64),
      Nat.mod_eq_of_lt (by omega : j < 2 ^ 64)]
  refine ⟨?_, ?_⟩ <;> rw [hsub] <;> omega

/-- A byte of one range is none of the other's. -/
theorem Apart.le_sub (h : Apart a k b n) (hi : i < n) : k ≤ (b + BitVec.ofNat 64 i - a).toNat := by
  obtain ⟨h₁, h₂⟩ := h
  rw [add_ofNat_sub (by omega)]
  omega

/-- A byte of one range is covered by no slot in the other. -/
theorem Apart.not_covers (h : Apart a k b n) (hi : i < n) (hs : s.off + s.size ≤ k) :
    ¬ s.Covers a (b + BitVec.ofNat 64 i) := by
  intro hc
  have hle := h.le_sub hi
  have hc₂ := hc.2
  omega

end ByteMem
