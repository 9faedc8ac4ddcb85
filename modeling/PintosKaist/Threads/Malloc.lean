/-
The kernel's heap: `threads/malloc.c`. Addresses are numbers; an arena header
is what stands at the start of a page, and a free list is the sequence of the
blocks on it. Of `palloc` the model keeps the runs of pages that it has given
out. What `palloc_get_multiple` answers is an argument. `none` is a failed
assertion. What the blocks hold is left out, and so are the locks: a call is
over before the next begins.
-/
import PintosKaist.Lib.Run
import Mathlib.Algebra.Group.Nat.Defs
import Mathlib.Data.Fin.Basic
import Mathlib.Logic.Function.Basic
import Mathlib.Order.CompletePartialOrder
import Mathlib.Order.Interval.Set.Disjoint

namespace PintosKaist.Threads.Malloc

/-- The numbers of a `size_t`. -/
def sizeMod : Nat := 2 ^ 64

/-- `PGSIZE`. -/
def pgSize : Nat := 4096

/-- `pg_ofs`. -/
def pgOfs (p : Nat) : Nat := p % pgSize

/-- `pg_round_down`. -/
def pgRoundDown (p : Nat) : Nat := p - pgOfs p

/-- `sizeof (struct arena)`. -/
def arenaSize : Nat := 24

/-- `struct desc`, without its list and its lock. -/
structure Desc where
  blockSize : Nat
  blocksPerArena : Nat
deriving DecidableEq

/-- The loop of `malloc_init`, which fills at most the ten places of
`descs`. -/
def mallocInit : Nat → Nat → List Desc
  | 0, _ => []
  | room + 1, blockSize =>
    if blockSize < pgSize / 2 then
      ⟨blockSize, (pgSize - arenaSize) / blockSize⟩ :: mallocInit room (blockSize * 2)
    else []

/-- `descs`, as `malloc_init` leaves it. -/
def descs : List Desc := mallocInit 10 16

abbrev DescId := Fin descs.length

/-- `block_size` of a descriptor. -/
def blockSizeOf (d : DescId) : Nat := (descs.get d).blockSize

/-- `blocks_per_arena` of a descriptor. -/
def blocksPerArena (d : DescId) : Nat := (descs.get d).blocksPerArena

/-- `struct arena`; `desc` is NULL for a big block. -/
structure Arena where
  desc : Option DescId
  freeCnt : Nat

structure Heap where
  /-- The header at the start of a page, when its magic number is there. -/
  arena : Nat → Option Arena
  freeList : DescId → List Nat
  /-- What `palloc` has given out: the first page and the number of pages. -/
  pages : List (Nat × Nat)

def Heap.setArena (h : Heap) (a : Nat) (ar : Option Arena) : Heap := { h with arena := Function.update h.arena a ar }

def Heap.setFree (h : Heap) (d : DescId) (l : List Nat) : Heap :=
  { h with freeList := Function.update h.freeList d l }

/-- `palloc_get_multiple`, which has found the pages at `a`. -/
def pallocGet (h : Heap) (a pageCnt : Nat) : Heap := { h with pages := (a, pageCnt) :: h.pages }

/-- `palloc_free_multiple`. It overwrites the pages. -/
def pallocFree (h : Heap) (a pageCnt : Nat) : Option Heap :=
  if pageCnt = 0 then some h
  else if (a, pageCnt) ∈ h.pages then some { h.setArena a none with pages := h.pages.erase (a, pageCnt) }
  else none

/-- The arena that is at `a`: not NULL, and with its magic number. -/
def arenaAt (h : Heap) (a : Nat) : Option Arena := if a = 0 then none else h.arena a

/-- The two checks of `block_to_arena` on where the block is in the page. -/
def offsetOk (ar : Arena) (b : Nat) : Bool :=
  match ar.desc with
  | some d => (pgOfs b + sizeMod - arenaSize) % sizeMod % blockSizeOf d == 0
  | none => pgOfs b == arenaSize

/-- `block_to_arena`, with the arena's header. -/
def blockToArena (h : Heap) (b : Nat) : Option (Nat × Arena) :=
  (arenaAt h (pgRoundDown b)).bind fun ar => if offsetOk ar b then some (pgRoundDown b, ar) else none

/-- `arena_to_block`. -/
def arenaToBlock (h : Heap) (a idx : Nat) : Option Nat := do
  let ar ← arenaAt h a
  let d ← ar.desc
  if idx < blocksPerArena d then some (a + arenaSize + idx * blockSizeOf d) else none

/-- `DIV_ROUND_UP (size + sizeof *a, PGSIZE)`, in `size_t`. -/
def pageCnt (size : Nat) : Nat := ((size + arenaSize) % sizeMod + (pgSize - 1)) % sizeMod / pgSize

/-- The smallest descriptor for the size. -/
def findDesc (size : Nat) : Option DescId := descs.findFinIdx? fun d => size ≤ d.blockSize

/-- One turn of the loop of `malloc` that puts the blocks of a new arena on the
free list. -/
def pushBlock (d : DescId) (a : Nat) (h : Heap) (i : Nat) : Option Heap := do
  let b ← arenaToBlock h a i
  some (h.setFree d (h.freeList d ++ [b]))

/-- The new arena of `malloc`, at page `a`. -/
def newArena (h : Heap) (d : DescId) (a : Nat) : Option Heap :=
  let h := (pallocGet h a 1).setArena a (some ⟨some d, blocksPerArena d⟩)
  Run.run (pushBlock d a) h (List.range (blocksPerArena d))

/-- The end of `malloc`: a block from the free list. -/
def takeBlock (h : Heap) (d : DescId) : Option (Option Nat × Heap) :=
  match h.freeList d with
  | [] => none
  | b :: rest => do
    let h := h.setFree d rest
    let (a, ar) ← blockToArena h b
    some (some b, h.setArena a (some { ar with freeCnt := ar.freeCnt - 1 }))

/-- `malloc`: the block, or NULL, and the heap. `page` is what
`palloc_get_multiple` answers if it is called. -/
def malloc (h : Heap) (size : Nat) (page : Option Nat) : Option (Option Nat × Heap) :=
  if size = 0 then some (none, h)
  else match findDesc size with
    | none =>
      match page with
      | none => some (none, h)
      | some a => some (some (a + arenaSize),
          (pallocGet h a (pageCnt size)).setArena a (some ⟨none, pageCnt size⟩))
    | some d =>
      if (h.freeList d).isEmpty then
        match page with
        | none => some (none, h)
        | some a => (newArena h d a).bind fun h => takeBlock h d
      else takeBlock h d

/-- One turn of the loop of `free` that takes the blocks of an unused arena
off the free list. -/
def removeBlock (d : DescId) (a : Nat) (h : Heap) (i : Nat) : Option Heap := do
  let b ← arenaToBlock h a i
  if b ∈ h.freeList d then some (h.setFree d ((h.freeList d).erase b)) else none

/-- `free`. -/
def free (h : Heap) : Option Nat → Option Heap
  | none => some h
  | some b => do
    let (a, ar) ← blockToArena h b
    match ar.desc with
    | some d =>
      let h := h.setFree d (b :: h.freeList d)
      let h := h.setArena a (some { ar with freeCnt := ar.freeCnt + 1 })
      if blocksPerArena d ≤ ar.freeCnt + 1 then
        if ar.freeCnt + 1 = blocksPerArena d then do
          let h ← Run.run (removeBlock d a) h (List.range (blocksPerArena d))
          pallocFree h a 1
        else none
      else some h
    | none => pallocFree h a ar.freeCnt

/-- `block_size`. -/
def blockSize (h : Heap) (block : Nat) : Option Nat := do
  let (_, ar) ← blockToArena h block
  match ar.desc with
  | some d => some (blockSizeOf d)
  | none => some (pgSize * ar.freeCnt - pgOfs block)

/-- `realloc`. How much of the old block it copies is not kept. -/
def realloc (h : Heap) (oldBlock : Option Nat) (newSize : Nat) (page : Option Nat) : Option (Option Nat × Heap) :=
  if newSize = 0 then do
    let h ← free h oldBlock
    some (none, h)
  else do
    let (newBlock, h) ← malloc h newSize page
    match oldBlock, newBlock with
    | some old, some new => do
      let _ ← blockSize h old
      let h ← free h (some old)
      some (some new, h)
    | _, _ => some (newBlock, h)

/-! ## The heap and its callers -/

/-- A block that a caller has got and not given back, with the size that it
asked for. -/
structure Block where
  addr : Nat
  size : Nat
deriving DecidableEq

structure Sys where
  heap : Heap
  live : List Block

inductive Event where
  | malloc (size : Nat) (page : Option Nat)
  | realloc (oldBlock : Option Nat) (newSize : Nat) (page : Option Nat)
  | free (p : Option Nat)

/-- The live blocks without the one at `p`. -/
def without (live : List Block) (p : Option Nat) : List Block := live.filter fun b => some b.addr ≠ p

def gotten (b : Option Nat) (size : Nat) : List Block := b.toList.map fun a => ⟨a, size⟩

def step (s : Sys) : Event → Option Sys
  | .malloc size page => (malloc s.heap size page).map fun (b, h) => ⟨h, gotten b size ++ s.live⟩
  | .free p => (free s.heap p).map fun h => ⟨h, without s.live p⟩
  | .realloc oldBlock newSize page => (realloc s.heap oldBlock newSize page).map fun (b, h) =>
      -- the old block is freed, unless there was no memory for the new one
      ⟨h, gotten b newSize ++ if newSize = 0 ∨ b.isSome then without s.live oldBlock else s.live⟩

/-- After `malloc_init`. -/
def boot : Sys := ⟨⟨fun _ => none, fun _ => [], []⟩, []⟩

/-- How many pages `malloc` asks `palloc` for, if it does. -/
def asked (size : Nat) : Nat := if (findDesc size).isSome then 1 else pageCnt size

/-- `palloc` gives out whole pages of memory that it has not given out. -/
def Fresh (h : Heap) (a cnt : Nat) : Prop :=
  a % pgSize = 0 ∧ a ≠ 0 ∧ ∀ r ∈ h.pages, a + cnt * pgSize ≤ r.1 ∨ r.1 + r.2 * pgSize ≤ a

def FreshFor (h : Heap) (size : Nat) (page : Option Nat) : Prop := ∀ a ∈ page, Fresh h a (asked size)

/-- NULL, or a block that is live. -/
def Live (s : Sys) (p : Option Nat) : Prop := ∀ a ∈ p, ∃ b ∈ s.live, b.addr = a

/-- What the callers and `palloc` keep to: a size is a `size_t`, and only live
blocks are given back. -/
def Allowed (s : Sys) : Event → Prop
  | .malloc size page => size < sizeMod ∧ FreshFor s.heap size page
  | .realloc oldBlock newSize page => newSize < sizeMod ∧ FreshFor s.heap newSize page ∧ Live s oldBlock
  | .free p => Live s p

/-- The size and the header, rounded up to pages, are a `size_t`. -/
def Fits (size : Nat) : Prop := size + arenaSize + (pgSize - 1) < sizeMod

/-- The size that is asked for fits, or `palloc` has no pages. -/
def Event.Sized : Event → Prop
  | .malloc size page => Fits size ∨ page = none
  | .realloc _ newSize page => Fits newSize ∨ page = none
  | .free _ => True

instance (h : Heap) (a cnt : Nat) : Decidable (Fresh h a cnt) := inferInstanceAs (Decidable (_ ∧ _ ∧ _))

instance (h : Heap) (size : Nat) (page : Option Nat) : Decidable (FreshFor h size page) :=
  inferInstanceAs (Decidable (∀ a ∈ page, _))

instance (s : Sys) (p : Option Nat) : Decidable (Live s p) := inferInstanceAs (Decidable (∀ a ∈ p, _))

instance (s : Sys) : (e : Event) → Decidable (Allowed s e)
  | .malloc .. => inferInstanceAs (Decidable (_ ∧ _))
  | .realloc .. => inferInstanceAs (Decidable (_ ∧ _ ∧ _))
  | .free p => inferInstanceAs (Decidable (Live s p))

instance (size : Nat) : Decidable (Fits size) := inferInstanceAs (Decidable (_ < _))

instance : (e : Event) → Decidable e.Sized
  | .malloc .. => inferInstanceAs (Decidable (_ ∨ _))
  | .realloc .. => inferInstanceAs (Decidable (_ ∨ _))
  | .free _ => inferInstanceAs (Decidable True)

/-- The bytes of a block. -/
def Block.bytes (b : Block) : Set Nat := Set.Ico b.addr (b.addr + b.size)

/-- No two live blocks share a byte, nor does one with an arena header; a small
arena counts its blocks on the free list; and pages are out of `palloc` exactly
as long as there is a live block in them. -/
structure Safe (s : Sys) : Prop where
  apart : s.live.Pairwise fun b c => Disjoint b.bytes c.bytes
  headers : ∀ b ∈ s.live, ∀ a ar, s.heap.arena a = some ar → Disjoint b.bytes (Set.Ico a (a + arenaSize))
  freeCnt : ∀ a d n, s.heap.arena a = some ⟨some d, n⟩ →
    n = ((s.heap.freeList d).filter fun b => pgRoundDown b = a).length
  pages : ∀ a, (∃ cnt, (a, cnt) ∈ s.heap.pages) ↔ ∃ b ∈ s.live, pgRoundDown b.addr = a

end PintosKaist.Threads.Malloc
