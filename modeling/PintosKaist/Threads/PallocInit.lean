/-
How the page allocator is set up: `palloc_init` in `threads/palloc.c`, from the
memory map of the BIOS and the end of the kernel. `none` is a failed assertion
or `NOT_REACHED`. What is printed is left out.
-/
import PintosKaist.Lib.While
import PintosKaist.Threads.Palloc

namespace PintosKaist.Threads.Palloc

open PintosKaist.LibKernel PintosKaist.While

/-- `struct e820_entry`, without the size of the entry. -/
structure E820Entry where
  memLo : BitVec 32
  memHi : BitVec 32
  lenLo : BitVec 32
  lenHi : BitVec 32
  type : BitVec 32
deriving DecidableEq

/-- `APPEND_HILO`. -/
def appendHilo (hi lo : BitVec 32) : Nat := hi.toNat * 2 ^ 32 + lo.toNat

def E820Entry.start (e : E820Entry) : Nat := appendHilo e.memHi e.memLo

def E820Entry.size (e : E820Entry) : Nat := appendHilo e.lenHi e.lenLo

/-- `ACPI_RECLAIMABLE` or `USABLE`. -/
def E820Entry.usable (e : E820Entry) : Bool := e.type = 3 || e.type = 1

/-- `BASE_MEM_THRESHOLD`. -/
def baseMemThreshold : Nat := 0x100000

/-- `struct area`. -/
structure Area where
  start : Nat
  stop : Nat
  size : Nat
deriving DecidableEq

/-- What `resolve_area_info` does with the area that an entry is in. -/
def Area.extend (area : Area) (start size : Nat) : Area :=
  let stop := (start + size) % u64
  if area.size = 0 then ⟨start, stop, size⟩
  else ⟨min area.start start, max area.stop stop, (area.size + size) % u64⟩

/-- One turn of the loop of `resolve_area_info`. -/
def resolveTurn (mem : Area × Area) (e : E820Entry) : Area × Area :=
  if e.usable then
    if e.start < baseMemThreshold then (mem.1.extend e.start e.size, mem.2) else (mem.1, mem.2.extend e.start e.size)
  else mem

/-- `resolve_area_info`: `base_mem` and `ext_mem`. -/
def resolveAreaInfo (entries : List E820Entry) (mem : Area × Area) : Area × Area := entries.foldl resolveTurn mem

/-- `pg_round_up`. -/
def pgRoundUp (va : Nat) : Nat := (va + pgSize - 1) % u64 / pgSize * pgSize

/-- `ptov`. -/
def ptov (paddr : Nat) : Nat := (paddr + kernBase) % u64

/-- `a - b`, of a `uint64_t`. -/
def sub64 (a b : Nat) : Nat := (a + u64 - b) % u64

/-- `DIV_ROUND_UP`. -/
def divRoundUp (x step : Nat) : Nat := (x + step - 1) / step

/-- The memory that a bitmap takes, in pages. -/
def bitmapPages (bitCnt : Nat) : Nat := divRoundUp (bitmapBufSize bitCnt) pgSize

/-- `init_pool`: the pool, and what is left at `*bm_base`. `words` is what the
memory has in it. -/
def initPool (words : Nat → BitVec 64) (bmBase start stop : Nat) : Option (Pool × Nat) := do
  let pgcnt := sub64 stop start / pgSize
  let bmPages := bitmapPages pgcnt * pgSize
  let map ← bitmapCreateInBuf pgcnt (fun i => words (bmBase + 16 + 8 * i)) bmPages
  let map ← bitmapSetAll map true
  some (⟨map, start⟩, (bmBase + bmPages) % u64)

inductive ClaimState where
  | kernStart | kern | userStart | user
deriving DecidableEq

/-- The variables of the first loop of `populate_pools`. -/
structure Claim where
  state : ClaimState
  rem : Nat
  regionStart : Nat
  stop : Nat
  freeStart : Nat
  kernelPool : Pool

/-- One turn of the loop, with a usable region. -/
def claimRegion (words : Nat → BitVec 64) (userPages : Nat) (c : Claim) (start size : Nat) : Option Claim :=
  let sizeInPg := size / pgSize
  let c := { c with stop := (start + size) % u64 }
  let c := if c.state = .kernStart then { c with regionStart := start, state := .kern } else c
  match c.state with
  | .kern =>
    if c.rem > sizeInPg then some { c with rem := c.rem - sizeInPg }
    else do
      let cut := (start + c.rem * pgSize) % u64
      let (pool, freeStart) ← initPool words c.freeStart c.regionStart cut
      if c.rem = sizeInPg then some { c with rem := userPages, state := .userStart, kernelPool := pool, freeStart }
      else
        let rem := (sub64 userPages sizeInPg + c.rem) % u64
        some { c with regionStart := cut, rem, state := .user, kernelPool := pool, freeStart }
  | .userStart => some { c with regionStart := start, state := .user }
  | .user =>
    if c.rem > sizeInPg then some { c with rem := c.rem - sizeInPg }
    else if c.rem = size then some c
    else none
  | .kernStart => none

def claimTurn (words : Nat → BitVec 64) (userPages : Nat) (c : Claim) (e : E820Entry) : Option Claim :=
  if e.usable then claimRegion words userPages c (ptov e.start) e.size else some c

/-- One turn of the loop at `split`, for the region that ends at `stop`. -/
def splitTurn (stop : Nat) : Pools × Nat → Option (ForInStep (Pools × Nat))
  | (ps, start) => do
    let user ← poolOf ps start
    let pool := ps.pool user
    let poolEnd := (pool.base + bitmapSize pool.usedMap * pgSize) % u64
    let pageIdx := pgNo start - pgNo pool.base
    if poolEnd < stop then
      let map ← bitmapSetMultiple pool.usedMap pageIdx (sub64 poolEnd start / pgSize) false
      some (.yield (ps.setMap user map, poolEnd))
    else
      let map ← bitmapSetMultiple pool.usedMap pageIdx (sub64 stop start / pgSize) false
      some (.done (ps.setMap user map, start))

/-- One turn of the second loop of `populate_pools`, with a usable region. -/
def freeRegion (usableBound : Nat) (ps : Pools) (start size : Nat) : Option Pools :=
  let stop := (start + size) % u64
  if stop < usableBound then some ps
  else
    let start := pgRoundUp (if start ≥ usableBound then start else usableBound)
    (whileLoop (splitTurn stop) (stop + 1) (ps, start)).map Prod.fst

def freeTurn (usableBound : Nat) (ps : Pools) (e : E820Entry) : Option Pools :=
  if e.usable then freeRegion usableBound ps (ptov e.start) e.size else some ps

/-- A pool before it is set up. -/
def noPool : Pool := ⟨⟨0, Vector.replicate _ 0⟩, 0⟩

/-- `populate_pools`: the pools, and the end of their bitmaps. `kernelEnd` is
the address of `_end`. -/
def populatePools (entries : List E820Entry) (userPageLimit kernelEnd : Nat) (words : Nat → BitVec 64) (mem : Memory)
    (areas : Area × Area) : Option (Pools × Nat) := do
  let totalPages := (areas.1.size + areas.2.size) % u64 / pgSize
  let userPages := if totalPages / 2 > userPageLimit then userPageLimit else totalPages / 2
  let kernPages := totalPages - userPages
  let c ← Run.run (claimTurn words userPages) ⟨.kernStart, kernPages, 0, 0, pgRoundUp kernelEnd, noPool⟩ entries
  let (userPool, usableBound) ← initPool words c.freeStart c.regionStart c.stop
  let ps ← Run.run (freeTurn usableBound) ⟨c.kernelPool, userPool, mem⟩ entries
  some (ps, usableBound)

/-- `palloc_init`, up to what it returns. -/
def pallocInit (entries : List E820Entry) (userPageLimit kernelEnd : Nat) (words : Nat → BitVec 64) (mem : Memory) :
    Option (Pools × Nat) :=
  populatePools entries userPageLimit kernelEnd words mem (resolveAreaInfo entries (⟨0, 0, 0⟩, ⟨0, 0, 0⟩))

end PintosKaist.Threads.Palloc
