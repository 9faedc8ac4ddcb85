/-
The hash table of `lib/kernel/hash.c`. A bucket is the sequence that its list
holds; an element is in at most one list, so that `list_remove` takes it out of
the one it is in. The result of each `malloc` in `rehash` is an argument, and
`aux` is part of `hash` and `less`.
-/
import Mathlib.Data.Nat.Bitwise
import Mathlib.Logic.Function.Basic

namespace PintosKaist.LibKernel

/-- `struct hash`, without its two functions. -/
structure Hash (α : Type*) where
  elemCnt : Nat
  bucketCnt : Nat
  buckets : Nat → List α

section
variable {α : Type*}

/-- `hash_init`, `ok` telling whether `malloc` has memory. -/
def hashInit (ok : Bool) : Option (Hash α) := if ok then some ⟨0, 4, fun _ => []⟩ else none

/-- `hash_clear`: the elements that `destructor` is called with, and the
table. -/
def hashClear (h : Hash α) (destructor : Bool) : List α × Hash α :=
  (if destructor then (List.range h.bucketCnt).flatMap h.buckets else [],
    { h with elemCnt := 0, buckets := fun i => if i < h.bucketCnt then [] else h.buckets i })

/-- `hash_size`. -/
def hashSize (h : Hash α) : Nat := h.elemCnt

/-- `hash_empty`. -/
def hashEmpty (h : Hash α) : Bool := h.elemCnt == 0

/-- `turn_off_least_1bit`. -/
def turnOffLeast1bit (x : Nat) : Nat := x &&& (x - 1)

/-- `is_power_of_2`. -/
def isPowerOf2 (x : Nat) : Bool := x ≠ 0 && turnOffLeast1bit x == 0

/-- `BEST_ELEMS_PER_BUCKET`. -/
def bestElemsPerBucket : Nat := 2

/-- The `while` loop of `rehash`. The first argument bounds the turns: one that
is above the number is enough. -/
def turnOffBits : Nat → Nat → Nat
  | 0, x => x
  | fuel + 1, x => if isPowerOf2 x then x else turnOffBits fuel (turnOffLeast1bit x)

/-- The bucket count that `rehash` is after. -/
def newBucketCnt (elemCnt : Nat) : Nat :=
  let n := elemCnt / bestElemsPerBucket
  let n := if n < 4 then 4 else n
  turnOffBits n n

variable (hash : α → UInt64) (less : α → α → Bool)

/-- `find_bucket`. -/
def findBucket (bucketCnt : Nat) (e : α) : Nat := (hash e).toNat &&& (bucketCnt - 1)

/-- `find_elem`. -/
def findElem (bucket : List α) (e : α) : Option α := bucket.find? fun hi => !less hi e && !less e hi

/-- `insert_elem`. -/
def insertElem (h : Hash α) (bucket : Nat) (e : α) : Hash α :=
  { h with elemCnt := h.elemCnt + 1, buckets := Function.update h.buckets bucket (e :: h.buckets bucket) }

/-- `remove_elem`. -/
def removeElem [DecidableEq α] (h : Hash α) (e : α) : Hash α :=
  { h with elemCnt := h.elemCnt - 1, buckets := fun i => (h.buckets i).erase e }

/-- The loop of `rehash` over one old bucket: each element goes to the front of
its new bucket. -/
def moveBucket (bucketCnt : Nat) (new : Nat → List α) (old : List α) : Nat → List α :=
  old.foldl (fun new elem =>
    let bucket := findBucket hash bucketCnt elem
    Function.update new bucket (elem :: new bucket)) new

/-- `rehash`. -/
def rehash (h : Hash α) (ok : Bool) : Hash α :=
  let new := newBucketCnt h.elemCnt
  if new = h.bucketCnt then h
  else if ok then
    { h with
      bucketCnt := new
      buckets := (List.range h.bucketCnt).foldl (fun b i => moveBucket hash new b (h.buckets i)) fun _ => [] }
  else h

/-- `hash_insert`: the equal element that was there, and the table. -/
def hashInsert (h : Hash α) (new : α) (ok : Bool) : Option α × Hash α :=
  let bucket := findBucket hash h.bucketCnt new
  let old := findElem less (h.buckets bucket) new
  (old, rehash hash (if old.isNone then insertElem h bucket new else h) ok)

/-- `hash_replace`. -/
def hashReplace [DecidableEq α] (h : Hash α) (new : α) (ok : Bool) : Option α × Hash α :=
  let bucket := findBucket hash h.bucketCnt new
  let old := findElem less (h.buckets bucket) new
  let h := match old with
    | some old => removeElem h old
    | none => h
  (old, rehash hash (insertElem h bucket new) ok)

/-- `hash_find`. -/
def hashFind (h : Hash α) (e : α) : Option α :=
  if hashEmpty h then none else findElem less (h.buckets (findBucket hash h.bucketCnt e)) e

/-- `hash_delete`. -/
def hashDelete [DecidableEq α] (h : Hash α) (e : α) (ok : Bool) : Option α × Hash α :=
  match findElem less (h.buckets (findBucket hash h.bucketCnt e)) e with
  | some found => (some found, rehash hash (removeElem h found) ok)
  | none => (none, h)

end

/-! ## The iterator -/

/-- What an iterator can point at: the two sentinels of a bucket pass for
elements too. -/
inductive Place (α : Type*) where
  | head (bucket : Nat)
  | elem (e : α)
  | tail (bucket : Nat)
deriving DecidableEq

/-- `struct hash_iterator`: the index of its bucket, and its element or
NULL. -/
structure HashIterator (α : Type*) where
  bucket : Nat
  elem : Option (Place α)

section
variable {α : Type*} [DecidableEq α] (h : Hash α)

/-- `list_begin` of what is left of a bucket. -/
def beginOf (bucket : Nat) : List α → Place α
  | [] => .tail bucket
  | e :: _ => .elem e

/-- `list_next`, in the bucket that the iterator is at. It fails for a tail, and
here for an element of no such bucket. -/
def nextIn (bucket : Nat) : Place α → Option (Place α)
  | .head b => some (beginOf b (h.buckets b))
  | .elem e => match (h.buckets bucket).dropWhile (· ≠ e) with
    | [] => none
    | _ :: rest => some (beginOf bucket rest)
  | .tail _ => none

/-- `hash_first`. -/
def hashFirst : HashIterator α := ⟨0, some (.head 0)⟩

/-- The `while` loop of `hash_next`; `none` when the turns run out. -/
def skipEmpty : Nat → HashIterator α → Option (HashIterator α)
  | 0, _ => none
  | fuel + 1, i =>
    if i.elem = some (.tail i.bucket) then
      if h.bucketCnt ≤ i.bucket + 1 then some ⟨i.bucket + 1, none⟩
      else skipEmpty fuel ⟨i.bucket + 1, some (beginOf (i.bucket + 1) (h.buckets (i.bucket + 1)))⟩
    else some i

/-- `hash_next`, which returns the element of the iterator it leaves. -/
def hashNext (i : HashIterator α) : Option (HashIterator α) := do
  let elem ← i.elem
  let elem ← nextIn h i.bucket elem
  skipEmpty h (h.bucketCnt + 1) ⟨i.bucket, some elem⟩

/-- `while (hash_next (&i))`: the elements that `hash_cur` gives. It fails when
`hash_next` does, or when one of them is a sentinel. -/
def hashScan : Nat → HashIterator α → Option (List α)
  | 0, _ => none
  | fuel + 1, i => do
    let i ← hashNext h i
    match i.elem with
    | none => some []
    | some (.elem e) => (hashScan fuel i).map (e :: ·)
    | some _ => none

end

end PintosKaist.LibKernel
