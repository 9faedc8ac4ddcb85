/-
Virtual memory (`vm/vm.c`, `vm/anon.c`, `vm/file.c`, `vm/uninit.c`, and
`lazy_load_segment` and `setup_stack` of `userprog/process.c`). `p` is the
current process throughout: what a function does to a page table it does to
that of `p`.

A result `some (b, s)` is a return value and the state after it; `none` is a
NULL dereference, a failed ASSERT or a use of freed memory. Allocations of
kernel memory succeed, and so does `pml4_set_page`.
-/
import Mathlib.Algebra.Group.Nat.Defs
import PintosKaist.Vm.State

namespace PintosKaist.Vm

/-! ## `palloc.c` and `mmu.c` -/

/-- `palloc_free_page`, which fills the page with 0xcc bytes. -/
def pallocFreePage (s : State) (kva : Nat) : Option State :=
  if s.userPool.bit kva then
    some { s.setMem kva fun _ => 0xcc with userPool := s.userPool.set kva false }
  else none

/-- `pml4_set_page`. -/
def pml4SetPage (s : State) (p va kva : Nat) (rw : Bool) : State :=
  let pr := s.procs p
  { s with
    procs := Function.update s.procs p
      ⟨pr.spt, Function.update pr.pml4 va ⟨kva, true, rw, false⟩, pr.mapped.insert va⟩ }

/-- `pml4_clear_page`, which clears `PTE_P` only. -/
def pml4ClearPage (s : State) (p va : Nat) : State :=
  s.setPte p va { s.pte p va with present := false }

/-- `pml4_destroy`, turn by turn over the entries that were written: the page
behind an entry still present is freed. -/
def pml4DestroyLoop (p : Nat) : State → List Nat → Option State
  | s, [] => some s
  | s, va :: vas =>
    if (s.pte p va).present then do
      let s ← pallocFreePage s (s.pte p va).kva
      pml4DestroyLoop p s vas
    else pml4DestroyLoop p s vas

def pml4Destroy (s : State) (p : Nat) : Option State := do
  let s' ← pml4DestroyLoop p s (s.procs p).mapped
  some { s' with procs := Function.update s'.procs p Proc.empty }

/-! ## The supplemental page table -/

/-- `hash_find` by page number. -/
def hashFind (s : State) (p va : Nat) : Option Nat :=
  (s.spt p).find? fun q => (s.pages q).any fun page => page.va == va

/-- `spt_find_page`, which finds nothing at address 0. -/
def sptFindPage (s : State) (p addr : Nat) : Option Nat :=
  if addr = 0 then none else hashFind s p (addr / pgsize)

/-- `spt_insert_page` of a page just allocated. -/
def sptInsertPage (s : State) (p : Nat) (page : Page) : Bool × State :=
  match hashFind s p page.va with
  | some _ => (false, s)
  | none => (true, { s.setPage s.nextPage page with nextPage := s.nextPage + 1 }.setSpt p (s.nextPage :: s.spt p))

/-- `vm_alloc_page_with_initializer`. -/
def vmAllocPageWithInitializer (s : State) (p : Nat) (type : VmType) (va : Nat) (writable init : Bool)
    (aux : Option FileInfo) : Bool × State :=
  match sptFindPage s p (va * pgsize) with
  | some _ => (false, s)
  | none =>
    match type with
    | .anon | .file => sptInsertPage s p ⟨va, none, writable, .uninit type init aux⟩
    | .uninit | .pageCache => (false, s)

/-- `vm_alloc_page`. -/
def vmAllocPage (s : State) (p : Nat) (type : VmType) (va : Nat) (writable : Bool) : Bool × State :=
  vmAllocPageWithInitializer s p type va writable false none

/-! ## Bringing a page in -/

/-- The bytes `lazy_load_segment` leaves in the page: those of the file, and
zeros after them. Past the end of the file `file_remaining` wraps around, and
nothing is read. -/
def segmentBytes (ino : Inode) (fi : FileInfo) : Bytes :=
  let fileRemaining :=
    if fi.ofs ≤ ino.data.length then ino.data.length - fi.ofs else 2 ^ 64 - (fi.ofs - ino.data.length)
  let pageReadBytes := min (min fi.readBytes pgsize) fileRemaining
  overlay (ino.readAt pageReadBytes fi.ofs) zeroPage

/-- `lazy_load_segment`. -/
def lazyLoadSegment (s : State) (q : Nat) (aux : Option FileInfo) : Option (Bool × State) := do
  let fi ← aux
  let page ← s.pages q
  let frame ← page.frame.bind s.frames
  some (true, s.setMem frame.kva (segmentBytes (s.inodes fi.file) fi))

/-- `anon_initializer` and `file_backed_initializer`, which `page_initializer`
is one of. -/
def pageInitializer (type : VmType) (aux : Option FileInfo) : Kind :=
  match type with
  | .file => .file aux
  | _ => .anon none aux

/-- `uninit_initialize`. -/
def uninitInitialize (s : State) (q : Nat) (page : Page) (type : VmType) (init : Bool)
    (aux : Option FileInfo) : Option (Bool × State) :=
  let s := s.setPage q { page with kind := pageInitializer type aux }
  if init then lazyLoadSegment s q aux else some (true, s)

/-- `anon_swap_in`. -/
def anonSwapIn (s : State) (q : Nat) (page : Page) (swapIdx : Option Nat) (aux : Option FileInfo)
    (kva : Nat) : Option (Bool × State) :=
  match swapIdx with
  | some i =>
    let s := s.setMem kva (readSlot s.swapDisk i (s.mem kva))
    let s := { s with swapTable := s.swapTable.set i false }
    some (true, s.setPage q { page with kind := .anon none aux })
  | none => some (false, s)

/-- `file_backed_swap_in`. A short read fails with what was read in the page;
past a page the count of zero bytes wraps around. -/
def fileBackedSwapIn (s : State) (aux : Option FileInfo) (kva : Nat) : Option (Bool × State) := do
  let fi ← aux
  let bytes := (s.inodes fi.file).readAt fi.readBytes fi.ofs
  if bytes.length ≠ fi.readBytes then some (false, s.setMem kva (overlay bytes (s.mem kva)))
  else if pgsize < fi.readBytes then none
  else some (true, s.setMem kva (overlay bytes zeroPage))

/-- `swap_in(page, kva)`. -/
def swapIn (s : State) (q kva : Nat) : Option (Bool × State) := do
  let page ← s.pages q
  match page.kind with
  | .uninit type init aux => uninitInitialize s q page type init aux
  | .anon swapIdx aux => anonSwapIn s q page swapIdx aux kva
  | .file aux => fileBackedSwapIn s aux kva

/-! ## Eviction -/

/-- `anon_swap_out`. A full swap table fails the ASSERT of `bitmap_test`. -/
def anonSwapOut (s : State) (q : Nat) (page : Page) (aux : Option FileInfo) : Option State := do
  let (idx, swapTable) ← s.swapTable.scanAndFlip
  let f ← page.frame
  let frame ← s.frames f
  let s := { s with swapTable := swapTable, swapDisk := writeSlot s.swapDisk idx (s.mem frame.kva) }
  let s := s.setFrame f { frame with rCnt := frame.rCnt - 1, page := none }
  some (s.setPage q { page with frame := none, kind := .anon (some idx) aux })

/-- The write-back of `file_backed_swap_out`, `file_backed_destroy` and
`munmap_cleaner`: it looks for the dirty bit in the current page table. -/
def writeBack (s : State) (p : Nat) (page : Page) (aux : Option FileInfo) : Option State := do
  let fi ← aux
  if (s.pte p page.va).dirty then
    let frame ← page.frame.bind s.frames
    let ino := (s.inodes fi.file).writeAt (s.mem frame.kva) fi.readBytes fi.ofs
    let s := { s with inodes := Function.update s.inodes fi.file ino }
    some (s.setPte p page.va { s.pte p page.va with dirty := false })
  else some s

/-- `swap_out(page)`; an uninit page has no such function. -/
def swapOut (s : State) (p q : Nat) : Option State := do
  let page ← s.pages q
  match page.kind with
  | .uninit .. => none
  | .anon _ aux => anonSwapOut s q page aux
  | .file aux => writeBack s p page aux

/-- `vm_evict_frame`: the frame at the front goes. A frame with no page makes
it return NULL, which `vm_get_frame` asserts against. -/
def vmEvictFrame (s : State) (p : Nat) : Option (Nat × State) :=
  match s.frameList with
  | [] => none
  | v :: rest => do
    let victim ← s.frames v
    let q ← victim.page
    let s ← swapOut { s with frameList := rest } p q
    let page ← s.pages q
    let s := pml4ClearPage s p page.va
    some (v, s.setPage q { page with frame := none })

/-- A new `struct frame` for `kva`, at the back of the list. -/
def pushFrame (s : State) (kva : Nat) : Nat × State :=
  (s.nextFrame, { s.setFrame s.nextFrame ⟨kva, none, 0⟩ with
    nextFrame := s.nextFrame + 1
    frameList := s.frameList ++ [s.nextFrame] })

/-- `vm_get_frame`: a zeroed page of the pool, or that of an evicted frame as
it is. -/
def vmGetFrame (s : State) (p : Nat) : Option (Nat × State) :=
  match s.userPool.scanAndFlip with
  | some (kva, pool) => some (pushFrame { s.setMem kva zeroPage with userPool := pool } kva)
  | none => do
    let (v, s) ← vmEvictFrame s p
    let victim ← s.frames v
    some (pushFrame (s.freeFrame v) victim.kva)

/-! ## Faults -/

/-- The links `vm_do_claim_page` and `vm_handle_wp` set between a page and
its new frame. -/
def linkFrame (s : State) (q : Nat) (page : Page) (f : Nat) (frame : Frame) : State :=
  (s.setFrame f { frame with page := some q, rCnt := frame.rCnt + 1 }).setPage q { page with frame := some f }

/-- `vm_do_claim_page`. -/
def vmDoClaimPage (s : State) (p q : Nat) : Option (Bool × State) := do
  let (f, s) ← vmGetFrame s p
  let frame ← s.frames f
  let page ← s.pages q
  let s := linkFrame s q page f frame
  let s := pml4SetPage s p page.va frame.kva page.writable
  swapIn s q frame.kva

/-- `vm_claim_page`. -/
def vmClaimPage (s : State) (p addr : Nat) : Option (Bool × State) :=
  match sptFindPage s p addr with
  | none => some (false, s)
  | some q => vmDoClaimPage s p q

/-- `vm_handle_wp`. -/
def vmHandleWp (s : State) (p q : Nat) : Option (Bool × State) := do
  let page ← s.pages q
  let f₀ ← page.frame
  let old ← s.frames f₀
  let s := s.setFrame f₀ { old with rCnt := old.rCnt - 1 }
  let (f, s) ← vmGetFrame s p
  let frame ← s.frames f
  let page ← s.pages q
  let s := linkFrame s q page f frame
  let s := pml4SetPage s p page.va frame.kva true
  some (true, s.setMem frame.kva (s.mem old.kva))

/-- The stack may grow to `addr`; `rsp - PGSIZE` is computed on 64 bits. -/
def inStackWindow (addr rsp : Nat) : Bool :=
  (2 ^ 64 + rsp - pgsize) % 2 ^ 64 < addr && userStack - 2 ^ 20 ≤ addr && addr < userStack

/-- `vm_try_handle_fault`. -/
def vmTryHandleFault (s : State) (p addr rsp : Nat) (write notPresent : Bool) : Option (Bool × State) :=
  if kernBase ≤ addr then some (false, s)
  else
    match sptFindPage s p addr with
    | some q => do
      let page ← s.pages q
      if write && !notPresent then
        if page.writable then vmHandleWp s p q else some (false, s)
      else if !write && !notPresent then some (false, s)
      else vmDoClaimPage s p q
    | none =>
      if inStackWindow addr rsp then some (true, (vmAllocPage s p .anon (addr / pgsize) true).2)
      else some (false, s)

/-- `setup_stack`. -/
def setupStack (s : State) (p : Nat) : Option (Bool × State) :=
  let stackBottom := userStack / pgsize - 1
  match vmAllocPage s p .anon stackBottom true with
  | (false, s) => some (false, s)
  | (true, s) => vmClaimPage s p (stackBottom * pgsize)

/-! ## `fork` -/

/-- `duplicate_aux`: the copy reopens the file. -/
def duplicateAux (aux : Option FileInfo) : Option FileInfo := do
  let src ← aux
  some ⟨src.file, src.ofs, src.upage, src.readBytes, src.zeroBytes, src.writable, src.mmapLength⟩

/-- `page_table_copy`: the page of the child at `va` gets the frame of the
parent's page `q`, read-only in the child. The parent's entry stays. -/
def pageTableCopy (s : State) (c q va : Nat) : Option (Bool × State) :=
  match sptFindPage s c (va * pgsize) with
  | none => some (false, s)
  | some d => do
    let src ← s.pages q
    let page ← s.pages d
    let f ← src.frame
    let frame ← s.frames f
    let s :=
      if page.frame = none then
        (s.setFrame f { frame with rCnt := frame.rCnt + 1 }).setPage d
          { page with frame := some f, writable := src.writable }
      else s
    let s := pml4SetPage s c page.va frame.kva false
    swapIn s d frame.kva

/-- One turn of the loop of `supplemental_page_table_copy`, run by the child
`c`, at the parent's page `q`. -/
def copyPage (s : State) (c q : Nat) : Option (Bool × State) := do
  let src ← s.pages q
  match src.kind with
  | .uninit type init aux => do
    let aux ← duplicateAux aux
    some (vmAllocPageWithInitializer s c type src.va src.writable init (some aux))
  | .file aux => do
    let aux ← duplicateAux aux
    match vmAllocPageWithInitializer s c .file src.va src.writable true (some aux) with
    | (false, s) => some (false, s)
    | (true, s) => vmClaimPage s c (src.va * pgsize)
  | .anon .. =>
    match vmAllocPage s c .anon src.va src.writable with
    | (false, s) => some (false, s)
    | (true, s) => do
      let (ok, s) ← pageTableCopy s c q src.va
      if ok then
        let d ← sptFindPage s c (src.va * pgsize)
        let dst ← s.pages d
        let dstFrame ← dst.frame.bind s.frames
        match src.frame.bind s.frames with
        | some srcFrame => some (true, s.setMem dstFrame.kva (s.mem srcFrame.kva))
        | none => some (true, s)
      else some (false, s)

/-- The loop of `supplemental_page_table_copy`. -/
def copyLoop (c : Nat) : State → List Nat → Option (Bool × State)
  | s, [] => some (true, s)
  | s, q :: qs => do
    let (ok, s) ← copyPage s c q
    if ok then copyLoop c s qs else some (false, s)

/-- `supplemental_page_table_copy`, from `p` into the current process `c`. -/
def supplementalPageTableCopy (s : State) (c p : Nat) : Option (Bool × State) := copyLoop c s (s.spt p)

/-! ## Giving pages back -/

/-- `anon_destroy`. -/
def anonDestroy (s : State) (p : Nat) (page : Page) (swapIdx : Option Nat) : Option State :=
  let s := pml4ClearPage s p page.va
  let s := match swapIdx with
    | some i => { s with swapTable := s.swapTable.set i false }
    | none => s
  match page.frame with
  | none => some s
  | some f => do
    let frame ← s.frames f
    if frame.rCnt - 1 = 0 then
      let s ← pallocFreePage { s with frameList := s.frameList.erase f } frame.kva
      some (s.freeFrame f)
    else some (s.setFrame f { frame with rCnt := frame.rCnt - 1 })

/-- `file_backed_destroy`: the frame is freed, and stays on the frame list. -/
def fileBackedDestroy (s : State) (p q : Nat) (page : Page) (aux : Option FileInfo) : Option State := do
  let s ← writeBack s p page aux
  match page.frame with
  | none => some (pml4ClearPage s p page.va)
  | some f => do
    let frame ← s.frames f
    let s ← pallocFreePage s frame.kva
    some (pml4ClearPage ((s.freeFrame f).setPage q { page with frame := none }) p page.va)

/-- `destroy(page)`; `uninit_destroy` closes the file and frees the `aux`. -/
def destroy (s : State) (p q : Nat) (page : Page) : Option State :=
  match page.kind with
  | .uninit .. => some s
  | .anon swapIdx _ => anonDestroy s p page swapIdx
  | .file aux => fileBackedDestroy s p q page aux

/-- `vm_dealloc_page`, which `hash_clear` calls on each page of the table
after taking it out. -/
def vmDeallocPage (s : State) (p q : Nat) : Option State := do
  let page ← s.pages q
  let s ← destroy s p q page
  some (s.freePage q)

/-- `do_munmap`: the page leaves the table; neither it nor its frame is freed.
`munmap_cleaner` takes the `aux` of the uninit page unless the page is
file-backed. -/
def doMunmap (s : State) (p va : Nat) : Option State := do
  let q ← sptFindPage s p (va * pgsize)
  let page ← s.pages q
  let s := s.setSpt p ((s.spt p).erase q)
  let aux := match page.kind with
    | .file aux => aux
    | .uninit _ _ aux => aux
    | .anon _ aux => aux
  let s ← writeBack s p page aux
  some (pml4ClearPage s p va)

end PintosKaist.Vm
