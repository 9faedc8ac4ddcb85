/-
Four-level page tables (`threads/mmu.c`, `paging_init` of `threads/init.c`)
and the kernel pages they are made of (`threads/palloc.c`).

A table is a kernel page of 512 entries, named by its kernel address; an entry
is named by its table and its index. A table pointer is never NULL here: the
walks start at a pml4 and follow present entries.
-/
import Mathlib.Data.List.Sort
import Mathlib.Logic.Function.Basic
import PintosKaist.Lib.Run
import PintosKaist.Threads.Pte

namespace PintosKaist.Mmu

open Pte

/-- An entry of a page table, by address. -/
structure Slot where
  table : U64
  idx : Fin 512
  deriving DecidableEq, Repr

/-- Kernel pages, as tables, and the free ones among them. -/
structure Mem where
  entries : U64 → Fin 512 → U64
  /-- The free pages of the kernel pool, lowest first. -/
  pool : List U64

def Mem.get (m : Mem) (s : Slot) : U64 := m.entries s.table s.idx

def Mem.set (m : Mem) (s : Slot) (e : U64) : Mem :=
  { m with entries := Function.update m.entries s.table (Function.update (m.entries s.table) s.idx e) }

/-- A page filled with one word. -/
def Mem.fill (m : Mem) (t : U64) (e : U64) : Mem :=
  { m with entries := Function.update m.entries t fun _ => e }

/-! ## `palloc.c` -/

/-- `palloc_get_page(PAL_ZERO)`: the lowest free page, zeroed. -/
def pallocGetPage (m : Mem) : Option (U64 × Mem) :=
  match m.pool with
  | [] => none
  | p :: ps => some (p, { m with pool := ps }.fill p 0)

/-- `palloc_free_page`, which fills the page with 0xcc bytes. -/
def pallocFreePage (m : Mem) (p : U64) : Mem :=
  { m with pool := m.pool.orderedInsert (fun a b => a.toNat ≤ b.toNat) p }.fill p 0xcccccccccccccccc#64

/-! ## Walking -/

/-- `pgdir_walk`. -/
def pgdirWalk (m : Mem) (pdp va : U64) (create : Bool) : Option Slot × Mem :=
  let s : Slot := ⟨pdp, pdx va⟩
  if present (m.get s) then (some ⟨child (m.get s), ptx va⟩, m)
  else if create then
    match pallocGetPage m with
    | none => (none, m)
    | some (new, m₁) =>
      let m₂ := m₁.set s (tableEntry new)
      (some ⟨child (m₂.get s), ptx va⟩, m₂)
  else (none, m)

/-- `pdpe_walk` and `pml4e_walk`: the table behind the entry `s`, made if need
be, is walked by `next`; a table made for a walk that fails is freed again. -/
def walkVia (next : Mem → U64 → Option Slot × Mem) (m : Mem) (s : Slot) (create : Bool) : Option Slot × Mem :=
  if present (m.get s) then next m (child (m.get s))
  else if create then
    match pallocGetPage m with
    | none => (none, m)
    | some (new, m₁) =>
      let m₂ := m₁.set s (tableEntry new)
      match next m₂ (child (m₂.get s)) with
      | (some pte, m₃) => (some pte, m₃)
      | (none, m₃) => (none, (pallocFreePage m₃ (child (m₃.get s))).set s 0)
  else (none, m)

/-- `pdpe_walk`. -/
def pdpeWalk (m : Mem) (t va : U64) (create : Bool) : Option Slot × Mem :=
  walkVia (fun m t => pgdirWalk m t va create) m ⟨t, pdpe va⟩ create

/-- `pml4e_walk`. -/
def pml4eWalk (m : Mem) (t va : U64) (create : Bool) : Option Slot × Mem :=
  walkVia (fun m t => pdpeWalk m t va create) m ⟨t, pml4 va⟩ create

/-! ## The operations -/

/-- `pml4_create`: a copy of `base_pml4`. -/
def pml4Create (m : Mem) (base : U64) : Option (U64 × Mem) :=
  match m.pool with
  | [] => none
  | p :: ps => some (p, { m with pool := ps, entries := Function.update m.entries p (m.entries base) })

/-- `pml4_get_page`, of a user address. -/
def pml4GetPage (m : Mem) (t va : U64) : Option U64 :=
  match (pml4eWalk m t va false).1 with
  | none => none
  | some s => if present (m.get s) then some (child (m.get s) + pgOfs va) else none

/-- The entry `pml4_set_page` writes. -/
def pageEntry (kpage : U64) (rw : Bool) : U64 := vtop kpage ||| pteP ||| (if rw then pteW else 0#64) ||| pteU

/-- `pml4_set_page`; `none` where an `ASSERT` fails. -/
def pml4SetPage (m : Mem) (base t upage kpage : U64) (rw : Bool) : Option (Bool × Mem) :=
  if pgOfs upage = 0 ∧ pgOfs kpage = 0 ∧ isUserVaddr upage ∧ t ≠ base then
    match pml4eWalk m t upage true with
    | (none, m₁) => some (false, m₁)
    | (some s, m₁) => if isUserVaddr kpage then none else some (true, m₁.set s (pageEntry kpage rw))
  else none

/-- `pml4_clear_page`; `none` where an `ASSERT` fails. -/
def pml4ClearPage (m : Mem) (t upage : U64) : Option Mem :=
  if pgOfs upage = 0 ∧ isUserVaddr upage then
    match (pml4eWalk m t upage false).1 with
    | none => some m
    | some s => if present (m.get s) then some (m.set s (m.get s &&& ~~~pteP)) else some m
  else none

/-- One turn of the loop of `paging_init`: physical page number `i`. -/
def mapKernelPage (start endKernelText base : U64) (m : Mem) (i : Nat) : Mem :=
  let pa : U64 := BitVec.ofNat 64 (4096 * i)
  let va := ptov pa
  let perm := if start.toNat ≤ va.toNat ∧ va.toNat < endKernelText.toNat then pteP else pteP ||| pteW
  match pml4eWalk m base va true with
  | (none, m₁) => m₁
  | (some s, m₁) => m₁.set s (pa ||| perm)

/-- `paging_init`: `base_pml4`, with the physical pages below `memEnd` mapped
from `KERN_BASE` on, the kernel text read-only. -/
def pagingInit (memEnd : Nat) (start endKernelText : U64) (m : Mem) : Option (U64 × Mem) :=
  (pallocGetPage m).map fun (base, m₁) =>
    (base, (List.range ((memEnd + 4095) / 4096)).foldl (mapKernelPage start endKernelText base) m₁)

/-! ## The system -/

structure State where
  mem : Mem
  base : U64
  /-- What `pml4_create` has returned. -/
  pml4s : List U64

inductive Event where
  | create
  | setPage (t upage kpage : U64) (rw : Bool)
  | clearPage (t upage : U64)
  deriving DecidableEq, Repr

def step (s : State) : Event → Option State
  | .create => (pml4Create s.mem s.base).map fun (p, m) => { s with mem := m, pml4s := p :: s.pml4s }
  | .setPage t upage kpage rw =>
    if t ∈ s.pml4s then
      (pml4SetPage s.mem s.base t upage kpage rw).map fun (_, m) => { s with mem := m }
    else none
  | .clearPage t upage =>
    if t ∈ s.pml4s then (pml4ClearPage s.mem t upage).map fun m => { s with mem := m } else none

end PintosKaist.Mmu
