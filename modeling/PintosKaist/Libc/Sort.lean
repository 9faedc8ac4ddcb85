/-
`sort` of `lib/stdlib.c`: heap sort of an array of `cnt` elements of `size`
bytes.

The array is a block of bytes (`Stores` says which elements are in it), and an
access outside it has no result. `do_swap` exchanges two elements byte by byte
(`doSwap_eq`); what the rest does is done to the elements.
-/
import PintosKaist.Lib.BinHeap
import PintosKaist.Lib.CStr

namespace PintosKaist.Stdlib

open BinHeap CStr While

abbrev Byte := BitVec 8

/-- The bytes of an element. -/
abbrev Elem (size : Nat) := { l : List Byte // l.length = size }

/-- The `size_t` an exact result is stored as. -/
def sizeT (x : Int) : Nat := (x % 2 ^ 64).toNat

variable {size : Nat} (compare : Elem size → Elem size → Int)

/-- The offset of the element with the 1-based index `idx`. -/
def offset (size idx : Nat) : Nat := sizeT ((idx - 1) * size)

/-- The element at an offset. -/
def elemAt (size : Nat) (array : List Byte) (ofs : Nat) : Option (Elem size) :=
  if h : ofs + size ≤ array.length then
    some ⟨(array.drop ofs).take size, by rw [List.length_take, List.length_drop]; omega⟩
  else none

/-- The loop of `do_swap`, for the bytes from `a` and from `b` on. -/
def swapLoop : Nat → List Byte → Nat → Nat → Option (List Byte)
  | 0, array, _, _ => some array
  | n + 1, array, a, b =>
    (array[a]?).bind fun t =>
    (array[b]?).bind fun x =>
    (store array a x).bind fun array =>
    (store array b t).bind fun array => swapLoop n array (a + 1) (b + 1)

/-- `do_swap`. -/
def doSwap (size : Nat) (array : List Byte) (aIdx bIdx : Nat) : Option (List Byte) :=
  swapLoop size array (offset size aIdx) (offset size bIdx)

/-- `do_compare`. -/
def doCompare (array : List Byte) (aIdx bIdx : Nat) : Option Int :=
  (elemAt size array (offset size aIdx)).bind fun a =>
  (elemAt size array (offset size bIdx)).map fun b => compare a b

/-- `max`, or the child if it is there and greater. -/
def larger (array : List Byte) (cnt child max : Nat) : Option Nat :=
  if child ≤ cnt then (doCompare compare array child max).map fun c => if c > 0 then child else max
  else some max

/-- A turn of the loop of `heapify`. -/
def heapifyTurn (cnt : Nat) (s : List Byte × Nat) : Option (ForInStep (List Byte × Nat)) :=
  (larger compare s.1 cnt (sizeT (2 * s.2)) s.2).bind fun max =>
  (larger compare s.1 cnt (sizeT (2 * s.2 + 1)) max).bind fun max =>
    if max = s.2 then some (.done s)
    else (doSwap size s.1 s.2 max).map fun array => .yield (array, max)

/-- `heapify`. -/
def heapify (array : List Byte) (i cnt : Nat) : Option (List Byte) :=
  (whileLoop (heapifyTurn compare cnt) (cnt + 1) (array, i)).map Prod.fst

/-- The loop that builds the heap. -/
def buildHeap (cnt : Nat) : Nat → List Byte → Option (List Byte)
  | 0, array => some array
  | i + 1, array => (heapify compare array (i + 1) cnt).bind fun array => buildHeap cnt i array

/-- The loop that sorts the heap. -/
def sortHeap : Nat → List Byte → Option (List Byte)
  | 0, array => some array
  | 1, array => some array
  | i + 2, array =>
    (doSwap size array 1 (i + 2)).bind fun array =>
    (heapify compare array 1 (i + 1)).bind fun array => sortHeap (i + 1) array

/-- `sort`; `ptr` is the address of the array. -/
def sort (ptr : BitVec 64) (array : List Byte) (cnt : Nat) : Option (List Byte) :=
  if (ptr ≠ 0 ∨ cnt = 0) ∧ size > 0 then
    (buildHeap compare cnt (cnt / 2) array).bind fun array => sortHeap compare cnt array
  else none

/-! ## The elements of the array -/

variable {compare} {array array' : List Byte} {a a' : Nat → Elem size} {cnt n i j k m : Nat}

/-- The array has the elements `a 1`, ..., `a cnt`. -/
structure Stores (array : List Byte) (cnt : Nat) (a : Nat → Elem size) : Prop where
  length : array.length = cnt * size
  get : ∀ i < cnt, ∀ k < size, array[i * size + k]? = (a (i + 1)).val[k]?

theorem sizeT_of {x : Nat} (h : x < 2 ^ 64) : sizeT x = x := by
  rw [sizeT]
  omega

theorem offset_eq (hi : i < cnt) (hfit : cnt * size < 2 ^ 63) : offset size (i + 1) = i * size := by
  have hle : i * size ≤ cnt * size := Nat.mul_le_mul_right size (Nat.le_of_lt hi)
  rw [offset, show ((i + 1 : Nat) : Int) - 1 = i by omega, ← Int.natCast_mul]
  exact sizeT_of (by omega)

/-- An element ends where the next begins. -/
theorem elem_end (hi : i < cnt) : i * size + size ≤ cnt * size := by
  rw [← Nat.succ_mul]
  exact Nat.mul_le_mul_right size hi

theorem Stores.elemAt (h : Stores array cnt a) (hi : i < cnt) : elemAt size array (i * size) = some (a (i + 1)) := by
  have hend : i * size + size ≤ array.length := h.length ▸ elem_end hi
  rw [Stdlib.elemAt, dif_pos hend, Option.some_inj, Subtype.ext_iff]
  refine List.ext_getElem? fun k => ?_
  by_cases hk : k < size
  · rw [List.getElem?_take_of_lt hk, List.getElem?_drop, h.get i hi k hk]
  · rw [List.getElem?_eq_none (by rw [List.length_take]; omega), List.getElem?_eq_none (by rw [(a (i + 1)).2]; omega)]

theorem Stores.doCompare (h : Stores array cnt a) (hfit : cnt * size < 2 ^ 63) (hi : 0 < i) (hic : i ≤ cnt) (hj : 0 < j)
    (hjc : j ≤ cnt) : doCompare compare array i j = some (compare (a i) (a j)) := by
  obtain ⟨i, rfl⟩ : ∃ x, i = x + 1 := ⟨i - 1, by omega⟩
  obtain ⟨j, rfl⟩ : ∃ x, j = x + 1 := ⟨j - 1, by omega⟩
  rw [Stdlib.doCompare, offset_eq hic hfit, offset_eq hjc hfit, h.elemAt hic, h.elemAt hjc, Option.bind_some,
    Option.map_some]

/-- The bytes of two runs that do not overlap are exchanged. -/
theorem swapLoop_eq {x y : Nat} (hx : x + n ≤ array.length) (hy : y + n ≤ array.length) (hdis : x + n ≤ y ∨ y + n ≤ x) :
    ∃ array', swapLoop n array x y = some array' ∧ array'.length = array.length ∧
      (∀ k < n, array'[x + k]? = array[y + k]?) ∧ (∀ k < n, array'[y + k]? = array[x + k]?) ∧
      ∀ p, (p < x ∨ x + n ≤ p) → (p < y ∨ y + n ≤ p) → array'[p]? = array[p]? := by
  induction n generalizing array x y with
  | zero => exact ⟨array, rfl, rfl, by simp, by simp, fun _ _ _ => rfl⟩
  | succ n ih =>
    have hxlt : x < array.length := by omega
    have hylt : y < array.length := by omega
    have hne : x ≠ y := by omega
    have hlen : ((array.set x array[y]).set y array[x]).length = array.length := by simp
    have hset {p : Nat} (hpx : p ≠ x) (hpy : p ≠ y) : ((array.set x array[y]).set y array[x])[p]? = array[p]? := by
      rw [List.getElem?_set_ne hpy.symm, List.getElem?_set_ne hpx.symm]
    have hsetx : ((array.set x array[y]).set y array[x])[x]? = array[y]? := by
      rw [List.getElem?_set_ne hne.symm, List.getElem?_set_self hxlt, List.getElem?_eq_getElem hylt]
    have hsety : ((array.set x array[y]).set y array[x])[y]? = array[x]? := by
      rw [List.getElem?_set_self (by simpa using hylt), List.getElem?_eq_getElem hxlt]
    have hx' : x + 1 + n ≤ ((array.set x array[y]).set y array[x]).length := by omega
    have hy' : y + 1 + n ≤ ((array.set x array[y]).set y array[x]).length := by omega
    obtain ⟨array', hrun, hlen', hxs, hys, hrest⟩ := ih hx' hy' (by omega)
    refine ⟨array', ?_, hlen'.trans hlen, fun k hk => ?_, fun k hk => ?_, fun p hpx hpy => ?_⟩
    · rw [swapLoop, List.getElem?_eq_getElem hxlt, Option.bind_some, List.getElem?_eq_getElem hylt, Option.bind_some,
        store_eq hxlt, Option.bind_some, store_eq (by simpa using hylt), Option.bind_some, hrun]
    · cases k with
      | zero => exact (hrest x (by omega) (by omega)).trans hsetx
      | succ k =>
        rw [← Nat.add_assoc, Nat.add_right_comm, hxs k (by omega), hset (by omega) (by omega)]
        congr 1
        omega
    · cases k with
      | zero => exact (hrest y (by omega) (by omega)).trans hsety
      | succ k =>
        rw [← Nat.add_assoc, Nat.add_right_comm, hys k (by omega), hset (by omega) (by omega)]
        congr 1
        omega
    · rw [hrest p (by omega) (by omega), hset (by omega) (by omega)]

/-- A byte of one element is none of another. -/
theorem elem_disjoint (size : Nat) (hij : i ≠ j) : i * size + size ≤ j * size ∨ j * size + size ≤ i * size := by
  rw [← Nat.succ_mul, ← Nat.succ_mul]
  rcases Nat.lt_or_gt_of_ne hij with hlt | hlt
  · exact .inl (Nat.mul_le_mul_right size hlt)
  · exact .inr (Nat.mul_le_mul_right size hlt)

/-- **`do_swap` exchanges two elements.** -/
theorem Stores.doSwap (h : Stores array cnt a) (hfit : cnt * size < 2 ^ 63) (hi : 0 < i) (hic : i ≤ cnt) (hj : 0 < j)
    (hjc : j ≤ cnt) (hne : i ≠ j) :
    ∃ array', doSwap size array i j = some array' ∧ Stores array' cnt (BinHeap.swap a i j) := by
  obtain ⟨i, rfl⟩ : ∃ x, i = x + 1 := ⟨i - 1, by omega⟩
  obtain ⟨j, rfl⟩ : ∃ x, j = x + 1 := ⟨j - 1, by omega⟩
  have hend (x : Nat) (hx : x < cnt) : x * size + size ≤ array.length := h.length ▸ elem_end hx
  obtain ⟨array', hrun, hlen, hxs, hys, hrest⟩ := swapLoop_eq (hend i hic) (hend j hjc)
    (elem_disjoint size (fun heq => hne (congrArg (· + 1) heq)))
  refine ⟨array', by rw [Stdlib.doSwap, offset_eq hic hfit, offset_eq hjc hfit, hrun], hlen.trans h.length, ?_⟩
  intro x hx k hk
  by_cases hxi : x = i
  · subst hxi
    rw [hxs k hk, h.get j hjc k hk, swap_left]
  · by_cases hxj : x = j
    · subst hxj
      rw [hys k hk, h.get i hic k hk, swap_right]
    · have hdi := elem_disjoint size hxi
      have hdj := elem_disjoint size hxj
      rw [hrest _ (by omega) (by omega), h.get x hx k hk, swap_other a (by omega) (by omega)]

/-! ## The heap -/

/-- The order of a comparison function. -/
def Le (compare : Elem size → Elem size → Int) (x y : Elem size) : Prop := compare x y ≤ 0

/-- A comparison function that is a total preorder. -/
structure TotalPreorder (compare : Elem size → Elem size → Int) : Prop where
  total : ∀ x y, Le compare x y ∨ Le compare y x
  trans : ∀ x y z, Le compare x y → Le compare y z → Le compare x z

theorem TotalPreorder.refl (h : TotalPreorder compare) (x : Elem size) : Le compare x x := (h.total x x).elim id id

/-- The choice between an element and its child. -/
theorem Stores.larger (h : Stores array cnt a) (hpre : TotalPreorder compare) (hfit : cnt * size < 2 ^ 63) (hn : n ≤ cnt)
    (hi : 0 < i) (hic : i ≤ cnt) (hj : 0 < j) :
    ∃ m, larger compare array n j i = some m ∧ (m = i ∨ m = j ∧ j ≤ n) ∧ Le compare (a i) (a m) ∧
      (j ≤ n → Le compare (a j) (a m)) := by
  rw [Stdlib.larger]
  split_ifs with hjn
  · rw [h.doCompare hfit hj (Nat.le_trans hjn hn) hi hic, Option.map_some]
    split_ifs with hgt
    · refine ⟨j, rfl, .inr ⟨rfl, hjn⟩, (hpre.total (a i) (a j)).resolve_right ?_, fun _ => hpre.refl _⟩
      exact Int.not_le.mpr hgt
    · exact ⟨i, rfl, .inl rfl, hpre.refl _, fun _ => Int.not_lt.mp hgt⟩
  · exact ⟨i, rfl, .inl rfl, hpre.refl _, fun hle => absurd hle hjn⟩

/-- What `heapify` has done when it comes to element `i`. -/
structure Floating (compare : Elem size → Elem size → Int) (a : Nat → Elem size) (cnt n k : Nat)
    (s : List Byte × Nat) (a' : Nat → Elem size) : Prop where
  stores : Stores s.1 cnt a'
  but : But (Le compare) a' n k s.2
  rearranged : Rearranged n a a'
  le : k ≤ s.2
  le_n : s.2 ≤ n

/-- A turn floats the element down, or finds it in its place. -/
theorem Floating.turn {s : List Byte × Nat} (h : Floating compare a cnt n k s a') (hpre : TotalPreorder compare)
    (hsize : 0 < size) (hfit : cnt * size < 2 ^ 63) (hn : n ≤ cnt) (hk : 0 < k) :
    (heapifyTurn compare n s = some (.done s) ∧ From (Le compare) a' n k) ∨
      ∃ s' a'', heapifyTurn compare n s = some (.yield s') ∧ Floating compare a cnt n k s' a'' ∧ s.2 < s'.2 := by
  obtain ⟨array, i⟩ := s
  obtain ⟨hst, hbut, hre, hle, hin⟩ := h
  have hcnt : cnt ≤ cnt * size := Nat.le_mul_of_pos_right cnt hsize
  have hleft : sizeT (2 * i) = 2 * i := sizeT_of (x := 2 * i) (by omega)
  have hright : sizeT (2 * i + 1) = 2 * i + 1 := sizeT_of (x := 2 * i + 1) (by omega)
  obtain ⟨m₁, hm₁, hone, hle₁, hgt₁⟩ := hst.larger (j := 2 * i) hpre hfit hn (by omega) (Nat.le_trans hin hn) (by omega)
  have hm₁c : 0 < m₁ ∧ m₁ ≤ cnt := by omega
  obtain ⟨m, hm, htwo, hle₂, hgt₂⟩ := hst.larger (j := 2 * i + 1) hpre hfit hn hm₁c.1 hm₁c.2 (by omega)
  have hmax : ∀ c ≤ n, Child i c → Le compare (a' c) (a' m) := by
    rintro c hcn (rfl | rfl)
    · exact hpre.trans _ _ _ (hgt₁ hcn) hle₂
    · exact hgt₂ hcn
  have hturn : heapifyTurn compare n (array, i) = if m = i then some (.done (array, i))
      else (Stdlib.doSwap size array i m).map fun array => .yield (array, m) := by
    simp only [heapifyTurn, hleft, hright, hm₁, hm, Option.bind_some]
  by_cases hmi : m = i
  · subst hmi
    exact .inl ⟨by rw [hturn, if_pos rfl], hbut.done hmax⟩
  · right
    have hchild : Child i m ∧ m ≤ n := by
      rw [Child]
      omega
    obtain ⟨array', hswap, hst'⟩ := hst.doSwap hfit (i := i) (j := m) (by omega) (Nat.le_trans hin hn) (by omega)
      (by omega) (Ne.symm hmi)
    refine ⟨(array', m), _, by rw [hturn, if_neg hmi, hswap, Option.map_some], ⟨hst', ?_, ?_, ?_, hchild.2⟩, ?_⟩
    · exact hbut.sift hle (by omega) hchild.1 hchild.2 (hpre.trans _ _ _ hle₁ hle₂) hmax
    · exact hre.trans (rearranged_swap a' (by omega) hin (by omega) hchild.2)
    · show k ≤ m
      omega
    · show i < m
      omega

/-- **`heapify` makes a heap of one whose order is broken at `i` only.** -/
theorem Stores.heapify (h : Stores array cnt a) (hpre : TotalPreorder compare) (hsize : 0 < size)
    (hfit : cnt * size < 2 ^ 63) (hn : n ≤ cnt) (hk : 0 < k) (hki : k ≤ i) (hin : i ≤ n)
    (hbut : But (Le compare) a n k i) :
    ∃ array' a', heapify compare array i n = some array' ∧ Stores array' cnt a' ∧ From (Le compare) a' n k ∧
      Rearranged n a a' := by
  have hturns (s : List Byte × Nat) (hs : ∃ a', Floating compare a cnt n k s a') :
      Turns (heapifyTurn compare n) (fun s => ∃ a', Floating compare a cnt n k s a')
        (fun s => ∃ a', Stores s.1 cnt a' ∧ From (Le compare) a' n k ∧ Rearranged n a a') (fun s => n - s.2) s := by
    obtain ⟨a', hfl⟩ := hs
    rcases hfl.turn hpre hsize hfit hn hk with ⟨hdone, hfrom⟩ | ⟨s', a'', hyield, hfl', hlt⟩
    · exact .inl ⟨s, hdone, a', hfl.stores, hfrom, hfl.rearranged⟩
    · have hle := hfl'.le_n
      exact .inr ⟨s', hyield, ⟨a'', hfl'⟩, by show n - s'.2 < n - s.2; omega⟩
  have hstart : Floating compare a cnt n k (array, i) a := ⟨h, hbut, Rearranged.refl n a, hki, hin⟩
  obtain ⟨s', hrun, a', hst, hfrom, hre⟩ := whileLoop_ends hturns ⟨a, hstart⟩ (Nat.lt_succ_of_le (Nat.sub_le n i))
  exact ⟨s'.1, a', by rw [Stdlib.heapify, hrun, Option.map_some], hst, hfrom, hre⟩

/-- The loop that builds the heap, from element `i` down. -/
theorem Stores.buildHeap (h : Stores array cnt a) (hpre : TotalPreorder compare) (hsize : 0 < size)
    (hfit : cnt * size < 2 ^ 63) (hi : i ≤ cnt) (hfrom : From (Le compare) a cnt (i + 1)) :
    ∃ array' a', buildHeap compare cnt i array = some array' ∧ Stores array' cnt a' ∧ From (Le compare) a' cnt 1 ∧
      Rearranged cnt a a' := by
  induction i generalizing array a with
  | zero => exact ⟨array, a, rfl, h, hfrom, Rearranged.refl cnt a⟩
  | succ i ih =>
    obtain ⟨array₁, a₁, hrun₁, hst₁, hfrom₁, hre₁⟩ := h.heapify hpre hsize hfit (Nat.le_refl cnt) (Nat.succ_pos i)
      (Nat.le_refl _) hi (hfrom.but (Nat.succ_pos i))
    obtain ⟨array₂, a₂, hrun₂, hst₂, hfrom₂, hre₂⟩ := ih hst₁ (Nat.le_of_succ_le hi) hfrom₁
    exact ⟨array₂, a₂, by rw [Stdlib.buildHeap, hrun₁, Option.bind_some, hrun₂], hst₂, hfrom₂, hre₁.trans hre₂⟩

/-- The loop that sorts the heap, from element `i` down. -/
theorem Stores.sortHeap (h : Stores array cnt a) (hpre : TotalPreorder compare) (hsize : 0 < size)
    (hfit : cnt * size < 2 ^ 63) (hi : i ≤ cnt) (hfrom : From (Le compare) a i 1) (hsorted : Sorted (Le compare) a cnt i) :
    ∃ array' a', sortHeap compare i array = some array' ∧ Stores array' cnt a' ∧ Rearranged cnt a a' ∧
      (elems cnt a').Pairwise (Le compare) := by
  have : Std.Refl (Le compare) := ⟨hpre.refl⟩
  have : IsTrans _ (Le compare) := ⟨hpre.trans⟩
  induction i using Nat.twoStepInduction generalizing array a with
  | zero => exact ⟨array, a, rfl, h, Rearranged.refl cnt a, hsorted.pairwise (Nat.zero_le 1)⟩
  | one => exact ⟨array, a, rfl, h, Rearranged.refl cnt a, hsorted.pairwise (Nat.le_refl 1)⟩
  | more i _ ih =>
    obtain ⟨array₁, hrun₁, hst₁⟩ := h.doSwap hfit (i := 1) (j := i + 2) (by omega) (by omega) (by omega) hi (by omega)
    have hre₁ : Rearranged cnt a (BinHeap.swap a 1 (i + 2)) :=
      rearranged_swap a (by omega) (by omega) (by omega) hi
    obtain ⟨array₂, a₂, hrun₂, hst₂, hfrom₂, hre₂⟩ := hst₁.heapify (n := i + 1) hpre hsize hfit (by omega) Nat.one_pos
      (Nat.le_refl 1) (by omega) (From.remove hfrom)
    have hsorted₂ := (hsorted.extract hfrom (Nat.succ_pos i)).rearranged hre₂
    obtain ⟨array₃, a₃, hrun₃, hst₃, hre₃, hpair⟩ := ih hst₂ (Nat.le_of_succ_le hi) hfrom₂ hsorted₂
    refine ⟨array₃, a₃, ?_, hst₃, (hre₁.trans (hre₂.mono (Nat.le_of_succ_le hi))).trans hre₃, hpair⟩
    rw [Stdlib.sortHeap, hrun₁, Option.bind_some, hrun₂, Option.bind_some, hrun₃]

/-! ## `sort` -/

/-- The bytes of an array of elements. -/
def bytes (es : List (Elem size)) : List Byte := es.flatMap Subtype.val

theorem length_bytes (es : List (Elem size)) : (bytes es).length = es.length * size := by
  induction es with
  | nil => simp [bytes]
  | cons e es ih =>
    rw [bytes, List.flatMap_cons, List.length_append, e.2, ← bytes, ih, List.length_cons, Nat.succ_mul, Nat.add_comm]

theorem bytes_get (es : List (Elem size)) {i k : Nat} (hk : k < size) :
    (bytes es)[i * size + k]? = (es[i]?).bind fun e => e.val[k]? := by
  induction es generalizing i with
  | nil => simp [bytes]
  | cons e es ih =>
    rw [bytes, List.flatMap_cons, ← bytes]
    cases i with
    | zero =>
      rw [Nat.zero_mul, Nat.zero_add, List.getElem?_append_left (by rw [e.2]; exact hk), List.getElem?_cons_zero,
        Option.bind_some]
    | succ i =>
      rw [List.getElem?_append_right (by rw [e.2, Nat.succ_mul]; omega), e.2, List.getElem?_cons_succ, ← ih]
      congr 1
      rw [Nat.succ_mul]
      omega

/-- The elements of a list, numbered from 1. -/
def nth (es : List (Elem size)) (i : Nat) : Elem size := es.getD (i - 1) ⟨List.replicate size 0, List.length_replicate⟩

theorem stores_bytes (es : List (Elem size)) : Stores (bytes es) es.length (nth es) := by
  refine ⟨length_bytes es, fun i hi k hk => ?_⟩
  rw [bytes_get es hk, List.getElem?_eq_getElem hi, Option.bind_some]
  simp [nth, hi]

theorem elems_nth (es : List (Elem size)) : elems es.length (nth es) = es := by
  refine List.ext_getElem (by simp [elems]) fun i h₁ h₂ => ?_
  simp [elems, nth, h₂]

/-- The array is the bytes of its elements. -/
theorem Stores.eq_bytes (h : Stores array cnt a) (hsize : 0 < size) : array = bytes (elems cnt a) := by
  have hlen : (elems cnt a).length = cnt := by simp [elems]
  refine List.ext_getElem? fun p => ?_
  by_cases hp : p < cnt * size
  · have hi : p / size < cnt := (Nat.div_lt_iff_lt_mul hsize).mpr hp
    have hk : p % size < size := Nat.mod_lt _ hsize
    rw [show p = p / size * size + p % size by rw [Nat.mul_comm, Nat.div_add_mod], h.get _ hi _ hk, bytes_get _ hk]
    simp [elems, hi, Nat.add_comm]
  · rw [List.getElem?_eq_none (by rw [h.length]; omega), List.getElem?_eq_none (by rw [length_bytes, hlen]; omega)]

/-- **`sort` sorts every array**, with every comparison function that is a total
preorder: it ends, none of its accesses is outside the array, and it leaves the
elements in order. -/
theorem sort_sorts (hpre : TotalPreorder compare) (hsize : 0 < size) (es : List (Elem size))
    (hfit : es.length * size < 2 ^ 63) (ptr : BitVec 64) (hptr : ptr ≠ 0 ∨ es.length = 0) :
    ∃ es', sort compare ptr (bytes es) es.length = some (bytes es') ∧ es'.Perm es ∧ es'.Pairwise (Le compare) := by
  obtain ⟨array₁, a₁, hrun₁, hst₁, hfrom₁, hre₁⟩ := (stores_bytes es).buildHeap (i := es.length / 2) hpre hsize hfit
    (Nat.div_le_self _ _) (from_of_lt (by omega))
  obtain ⟨array₂, a₂, hrun₂, hst₂, hre₂, hpair⟩ := hst₁.sortHeap hpre hsize hfit (Nat.le_refl _) hfrom₁
    (sorted_self _ _ _)
  refine ⟨elems es.length a₂, ?_, ?_, hpair⟩
  · rw [sort, if_pos ⟨hptr, hsize⟩, hrun₁, Option.bind_some, hrun₂, ← hst₂.eq_bytes hsize]
  · have hperm := (hre₁.trans hre₂).perm
    rwa [elems_nth] at hperm

/-- The comparison of the first bytes of two elements. -/
def compareFirst (x y : Elem 2) : Int := (x.val.headD 0).toNat - (y.val.headD 0).toNat

theorem compareFirst_total : TotalPreorder compareFirst := by
  constructor <;> intros <;> simp only [Le, compareFirst] at * <;> omega

/-- Three elements of two bytes. -/
def threeElems : List (Elem 2) := [⟨[3, 0], rfl⟩, ⟨[1, 7], rfl⟩, ⟨[2, 9], rfl⟩]

theorem sort_sorts_three : ∃ es', sort compareFirst 4096 (bytes threeElems) 3 = some (bytes es') ∧
    es'.Perm threeElems ∧ es'.Pairwise (Le compareFirst) :=
  sort_sorts compareFirst_total (by decide) threeElems (by decide) 4096 (.inl (by decide))

end PintosKaist.Stdlib
