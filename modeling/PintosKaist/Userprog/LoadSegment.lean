/-
`load_segment` and `lazy_load_segment` (`userprog/process.c`): a segment of a
program is allocated page by page, each page with what is left of the segment
from it on, and each is clipped to a page and to the file when it is brought in.

Whatever the order of the faults, the segment is what an eager loader makes of
it: the bytes of the file, and zeros (`load_segment_eager`).
-/
import Mathlib.Data.List.GetD
import PintosKaist.Lib.Run
import PintosKaist.Userprog.LazyPages
import PintosKaist.Vm.Ops

namespace PintosKaist.LoadSegment

open Filesys FileBytes LazyPages While
open Vm (VmType pgsize)

/-! ## `load_segment` -/

/-- The variables of the loop. `loaded` is what the function returns if it
returns now. -/
structure LoadLoop where
  readBytes : Nat
  zeroBytes : Nat
  ofs : Int
  upage : Nat
  spt : Spt
  loaded : Bool

/-- `page_read_bytes` and `page_zero_bytes` of a turn. -/
def LoadLoop.pageReadBytes (s : LoadLoop) : Nat := if s.readBytes < pgsize then s.readBytes else pgsize
def LoadLoop.pageZeroBytes (s : LoadLoop) : Nat := pgsize - s.pageReadBytes

/-- There is more to load. -/
def LoadLoop.More (s : LoadLoop) : Prop := s.readBytes > 0 ∨ s.zeroBytes > 0

instance (s : LoadLoop) : Decidable s.More := inferInstanceAs (Decidable (_ ∨ _))

/-- The record a turn makes: the bytes that are left, not those of the page. -/
def LoadLoop.aux (file mmapLength : Nat) (writable : Bool) (s : LoadLoop) : LazyPages.FileInfo where
  file := file
  ofs := s.ofs
  upage := s.upage
  readBytes := s.readBytes
  zeroBytes := s.zeroBytes
  writable := writable
  mmapLength := mmapLength

/-- The end of a turn, with the new page in the table. -/
def LoadLoop.advance (s : LoadLoop) (spt : Spt) : LoadLoop where
  readBytes := uint32 (s.readBytes - s.pageReadBytes)
  zeroBytes := uint32 (s.zeroBytes - s.pageZeroBytes)
  ofs := offT (s.ofs + s.pageReadBytes)
  upage := sizeT (s.upage + pgsize)
  spt := spt
  loaded := true

/-- A turn of `load_segment`. -/
def loadTurn (file mmapLength : Nat) (writable : Bool) (s : LoadLoop) : Option (ForInStep LoadLoop) :=
  if s.More then
    match vmAllocPageWithInitializer s.spt .anon s.upage writable (some (s.aux file mmapLength writable)) with
    | (false, spt) => some (.done { s with spt := spt, loaded := false })
    | (true, spt) => some (.yield (s.advance spt))
  else some (.done s)

/-- `load_segment`, with its assertions: what it returns, and the table. -/
def loadSegment (spt : Spt) (file mmapLength : Nat) (ofs : Int) (upage readBytes zeroBytes : Nat) (writable : Bool) :
    Option (Bool × Spt) :=
  if uint32 (readBytes + zeroBytes) % pgsize ≠ 0 ∨ upage % pgsize ≠ 0 ∨ ofs.tmod pgsize ≠ 0 then none
  else
    (whileLoop (loadTurn file mmapLength writable) (readBytes + zeroBytes + 1)
      ⟨readBytes, zeroBytes, ofs, upage, spt, true⟩).map fun s => (s.loaded, s.spt)

/-! ## `lazy_load_segment` -/

/-- `memset (b + a, 0, size)`. -/
def memset (b : Buffer) (a size : Nat) : Buffer := patch b a size fun _ => 0

/-- The `page_read_bytes` of `lazy_load_segment`. Past the end of the file
`file_remaining` is a huge `size_t`. -/
def clipped (i : Inode) (fi : LazyPages.FileInfo) : Nat :=
  let fileRemaining := sizeT (offT (i.length - fi.ofs))
  let pageReadBytes := if fi.readBytes < pgsize then fi.readBytes else pgsize
  if pageReadBytes < fileRemaining then pageReadBytes else fileRemaining

/-- `lazy_load_segment` into the page at `kva`. `bytes_read` is never negative. -/
def lazyLoadSegment (n : Nat) (d : Disk) (inode : StructInode) (malloc : Option Buffer) (fi : LazyPages.FileInfo)
    (kva : Buffer) :
    Option (Bool × Buffer) :=
  let pageReadBytes := clipped inode.data fi
  let pageZeroBytes := pgsize - pageReadBytes
  (inodeReadAt n d inode malloc kva (offT pageReadBytes) fi.ofs).map fun (bytesRead, kva) =>
    if bytesRead = pageReadBytes then (true, memset kva pageReadBytes pageZeroBytes)
    else (true, memset kva bytesRead (pageZeroBytes + (pageReadBytes - bytesRead)))

/-- The files of a disk of `n` sectors, and what `malloc` has for a bounce
buffer. -/
structure Files (n : Nat) where
  disk : Disk
  inodes : Nat → Extent n
  denyWriteCnt : Nat → Int
  malloc : Buffer

variable {n : Nat}

def Files.inode (x : Files n) (f : Nat) : StructInode := ⟨(x.inodes f).toInode, x.denyWriteCnt f⟩

/-- The first fault of a page of a segment, with the frame `kva`. -/
def fault (x : Files n) (spt : Spt) (e : Nat × Buffer) : Option Spt :=
  match spt e.1 with
  | some ⟨writable, .uninit type (some fi)⟩ =>
    (lazyLoadSegment n x.disk (x.inode fi.file) (some x.malloc) fi e.2).bind fun (loaded, kva) =>
      if loaded then some (Function.update spt e.1 (some ⟨writable, .resident type kva⟩)) else none
  | _ => none

/-- The byte at `addr`, when its page is in. -/
def byteAt (spt : Spt) (addr : Nat) : Option Byte :=
  match spt (pgRoundDown addr) with
  | some ⟨_, .resident _ bytes⟩ => some (bytes (addr % pgsize))
  | _ => none

/-! ## What is brought in -/

/-- Byte `o` of a region whose first `readBytes` bytes are those of a file from
`ofs` on: the eager specification. -/
def eagerByte (d : Disk) (i : Inode) (ofs : Int) (readBytes o : Nat) : Byte :=
  if o < readBytes ∧ ofs + o < i.length then (bytesOf d i).getD (ofs.toNat + o) 0 else 0

variable {d : Disk} {i : Inode} {fi : LazyPages.FileInfo} {spt : Spt}

theorem getD_bytesOf {k : Nat} (hk : (k : Int) < i.length) : (bytesOf d i).getD k 0 = d (i.addr k) := by
  have hlt : k < (bytesOf d i).length := by
    rw [length_bytesOf]
    omega
  rw [List.getD_eq_getElem _ _ hlt, getElem_bytesOf]

theorem clipped_eq (i : Inode) (fi : LazyPages.FileInfo) :
    clipped i fi = min (min fi.readBytes pgsize) (sizeT (offT (i.length - fi.ofs))) := by
  simp only [clipped]
  split_ifs <;> omega

theorem clipped_le (i : Inode) (fi : LazyPages.FileInfo) : clipped i fi ≤ pgsize := by
  rw [clipped_eq]
  omega

theorem offT_clipped (i : Inode) (fi : LazyPages.FileInfo) : offT (clipped i fi) = clipped i fi := by
  have hle := clipped_le i fi
  refine offT_of_range (by omega) ?_
  simp only [pgsize] at hle
  omega

/-- The bytes of the page that are in the file: `lazy_load_segment` reads them
whether it clips to the file or `inode_read_at` does. -/
theorem inFile_clipped (i : Inode) (fi : LazyPages.FileInfo) (h₀ : 0 ≤ fi.ofs) (h₁ : fi.ofs < 2 ^ 31) {o : Nat}
    (ho : o < pgsize) :
    o < (inFile i (offT (clipped i fi)) fi.ofs).toNat ↔ o < fi.readBytes ∧ fi.ofs + o < i.length := by
  have hl₀ := i.length_nonneg
  have hl₁ := i.length_lt
  have hw : offT (i.length - fi.ofs) = i.length - fi.ofs := offT_of_range (by omega) (by omega)
  have hr : 0 ≤ i.length - fi.ofs ∧ (sizeT (i.length - fi.ofs) : Int) = i.length - fi.ofs ∨
      i.length < fi.ofs ∧ pgsize ≤ sizeT (i.length - fi.ofs) := by
    simp only [sizeT, pgsize]
    omega
  rw [offT_clipped, clipped_eq, hw]
  simp only [inFile]
  omega

/-- What is read does not run past what was asked for. -/
theorem inFile_le_clipped (i : Inode) (fi : LazyPages.FileInfo) :
    (inFile i (offT (clipped i fi)) fi.ofs).toNat ≤ clipped i fi := by
  rw [offT_clipped]
  simp only [inFile]
  omega

/-- **What `lazy_load_segment` leaves in a page**, whatever was in the frame. -/
theorem lazyLoadSegment_eq {i : Extent n} (deny : Int) (fresh kva : Buffer) (h₀ : 0 ≤ fi.ofs) (h₁ : fi.ofs < 2 ^ 31) :
    ∃ b, lazyLoadSegment n d ⟨i.toInode, deny⟩ (some fresh) fi kva = some (true, b) ∧
      ∀ o < pgsize, b o = eagerByte d i.toInode fi.ofs fi.readBytes o := by
  have hread := inodeReadAt_patch d kva (offT (clipped i.toInode fi)) i.on fresh deny h₀ h₁
  have hm := inFile_le_clipped i.toInode fi
  refine ⟨memset (patch kva 0 (inFile i.toInode (offT (clipped i.toInode fi)) fi.ofs).toNat
    (fileAt d i.toInode fi.ofs.toNat)) (inFile i.toInode (offT (clipped i.toInode fi)) fi.ofs).toNat
    (pgsize - (inFile i.toInode (offT (clipped i.toInode fi)) fi.ofs).toNat), ?_, fun o ho => ?_⟩
  · have hle := clipped_le i.toInode fi
    simp only [lazyLoadSegment, hread, Option.map_some]
    by_cases hall : (inFile i.toInode (offT (clipped i.toInode fi)) fi.ofs).toNat = clipped i.toInode fi
    · rw [if_pos hall, hall]
    · have hrest : pgsize - clipped i.toInode fi +
          (clipped i.toInode fi - (inFile i.toInode (offT (clipped i.toInode fi)) fi.ofs).toNat) =
          pgsize - (inFile i.toInode (offT (clipped i.toInode fi)) fi.ofs).toNat := by omega
      rw [if_neg hall, hrest]
  · have hiff := inFile_clipped i.toInode fi h₀ h₁ ho
    by_cases hin : o < (inFile i.toInode (offT (clipped i.toInode fi)) fi.ofs).toNat
    · have hlt := (hiff.mp hin).2
      simp only [memset, patch, eagerByte, if_pos (hiff.mp hin)]
      rw [if_neg (by omega), if_pos (by omega), Nat.sub_zero, getD_bytesOf (by omega)]
      simp only [fileAt, Inode.addr, Nat.add_assoc]
    · simp only [memset, patch, eagerByte, if_neg (fun h => hin (hiff.mpr h))]
      rw [if_pos (by omega)]

/-- `segmentBytes`, which pages are brought in with where memory is looked at as a
whole, says the same. -/
theorem segmentBytes_eq (d : Disk) (i : Inode) (deny : Bool) (fi : Vm.FileInfo) (o : Fin pgsize)
    (h : fi.ofs < 2 ^ 31) :
    Vm.segmentBytes ⟨bytesOf d i, deny⟩ fi o = eagerByte d i fi.ofs fi.readBytes o.val := by
  have ho := o.isLt
  have hl₁ := i.length_lt
  simp only [Vm.segmentBytes, Vm.overlay, Vm.Inode.readAt, Vm.zeroPage, eagerByte, List.getD_eq_getElem?_getD,
    List.getElem?_take, List.getElem?_drop, length_bytesOf, Int.toNat_natCast]
  have hout : i.length ≤ fi.ofs + o.val → (bytesOf d i)[fi.ofs + o.val]? = none := by
    intro hle
    rw [List.getElem?_eq_none_iff, length_bytesOf]
    omega
  simp only [pgsize] at ho ⊢
  split_ifs with hstart hread hin hin hread hin
  · rfl
  · rw [hout (by omega)]
    rfl
  · omega
  · rfl
  · omega
  · rw [hout (by omega)]
    rfl
  · omega
  · rfl

/-! ## The loop -/

/-- The arguments of a call of `load_segment`: page-aligned, with a whole number
of pages, and the bytes of the file within 2 GiB. -/
structure Segment where
  file : Nat
  /-- What `malloc` has where `mmap_length` is. -/
  mmapLength : Nat
  ofs : Int
  upage : Nat
  readBytes : Nat
  zeroBytes : Nat
  writable : Bool
  ofs_nonneg : 0 ≤ ofs
  ofs_aligned : ofs % pgsize = 0
  upage_aligned : upage % pgsize = 0
  upage_lt : upage < 2 ^ 64
  total_aligned : (readBytes + zeroBytes) % pgsize = 0
  total_lt : readBytes + zeroBytes < 2 ^ 32
  end_lt : ofs + readBytes < 2 ^ 31

namespace Segment

/-- The number of pages, and the address of one. -/
def pages (g : Segment) : Nat := (g.readBytes + g.zeroBytes) / pgsize
def page (g : Segment) (k : Nat) : Nat := sizeT (g.upage + k * pgsize)

/-- The bytes of the file in the pages before page `k`. -/
def taken (g : Segment) (k : Nat) : Nat := min (k * pgsize) g.readBytes

/-- The record of page `k`. -/
def aux (g : Segment) (k : Nat) : LazyPages.FileInfo where
  file := g.file
  ofs := g.ofs + g.taken k
  upage := g.page k
  readBytes := g.readBytes - g.taken k
  zeroBytes := g.zeroBytes - (k * pgsize - g.taken k)
  writable := g.writable
  mmapLength := g.mmapLength

def turn (g : Segment) : LoadLoop → Option (ForInStep LoadLoop) := loadTurn g.file g.mmapLength g.writable

def start (g : Segment) (spt : Spt) : LoadLoop := ⟨g.readBytes, g.zeroBytes, g.ofs, g.upage, spt, true⟩

/-- `load_segment` of the segment. -/
def load (g : Segment) (spt : Spt) : Option (Bool × Spt) :=
  loadSegment spt g.file g.mmapLength g.ofs g.upage g.readBytes g.zeroBytes g.writable

variable {g : Segment} {j k : Nat} {s : LoadLoop}

theorem pages_mul (g : Segment) : g.pages * pgsize = g.readBytes + g.zeroBytes := by
  have h := g.total_aligned
  simp only [pages, pgsize] at h ⊢
  omega

theorem page_aligned (g : Segment) (k : Nat) : g.page k % pgsize = 0 := by
  have h := g.upage_aligned
  simp only [page, sizeT, pgsize] at h ⊢
  omega

/-- The pages of a segment are at different addresses. -/
theorem page_inj (hj : j < g.pages) (hk : k < g.pages) (h : g.page j = g.page k) : j = k := by
  have hp := g.pages_mul
  have hlt := g.total_lt
  simp only [page, sizeT, pgsize] at h hp
  omega

/-- The loop has allocated `k` pages. -/
structure Loading (g : Segment) (spt : Spt) (k : Nat) (s : LoadLoop) : Prop where
  le : k ≤ g.pages
  readBytes : s.readBytes = g.readBytes - g.taken k
  zeroBytes : s.zeroBytes = g.zeroBytes - (k * pgsize - g.taken k)
  ofs : s.ofs = g.ofs + g.taken k
  upage : s.upage = g.page k
  allocated : ∀ j < k, s.spt (g.page j) = some ⟨g.writable, .uninit .anon (some (g.aux j))⟩
  other : ∀ a, (∀ j < k, a ≠ g.page j) → s.spt a = spt a
  loaded : s.loaded = true

theorem Loading.start (g : Segment) (spt : Spt) : Loading g spt 0 (g.start spt) := by
  have hz : g.taken 0 = 0 := by simp [taken]
  have hp : g.page 0 = g.upage := by
    have h := g.upage_lt
    simp only [page, sizeT]
    omega
  exact ⟨Nat.zero_le _, by simp [Segment.start, hz], by simp [Segment.start, hz], by simp [Segment.start, hz],
    hp.symm, fun j hj => absurd hj (Nat.not_lt_zero j), fun _ _ => rfl, rfl⟩

theorem pageReadBytes_eq (s : LoadLoop) : s.pageReadBytes = min s.readBytes pgsize := by
  simp only [LoadLoop.pageReadBytes]
  split_ifs <;> omega

/-- A turn takes no more than is left. -/
theorem Loading.no_underflow (h : Loading g spt k s) (hmore : s.More) :
    k < g.pages ∧ s.pageReadBytes ≤ s.readBytes ∧ s.pageZeroBytes ≤ s.zeroBytes ∧
      g.taken (k + 1) = g.taken k + s.pageReadBytes ∧
      (k + 1) * pgsize - g.taken (k + 1) = k * pgsize - g.taken k + s.pageZeroBytes := by
  have hp := g.pages_mul
  have hr := h.readBytes
  have hz := h.zeroBytes
  have hle := h.le
  simp only [LoadLoop.More, LoadLoop.pageZeroBytes, pageReadBytes_eq, taken, pgsize] at hp hr hz hmore ⊢
  omega

/-- The loop is over when every page is there. -/
theorem Loading.pages_of_stop (h : Loading g spt k s) (hstop : ¬ s.More) : k = g.pages := by
  have hp := g.pages_mul
  have hr := h.readBytes
  have hz := h.zeroBytes
  have hle := h.le
  simp only [LoadLoop.More, taken, pgsize] at hp hr hz hstop
  omega

/-- The next turn allocates the next page. -/
theorem Loading.turn (hfree : ∀ k < g.pages, spt (g.page k) = none) (h : Loading g spt k s) (hmore : s.More) :
    ∃ s', g.turn s = some (.yield s') ∧ Loading g spt (k + 1) s' ∧
      s'.readBytes + s'.zeroBytes < s.readBytes + s.zeroBytes := by
  obtain ⟨hk, hrle, hzle, htaken, hzeros⟩ := h.no_underflow hmore
  have hpage : s.spt s.upage = none := by
    rw [h.upage, h.other _ fun j hj heq => absurd (page_inj hk (by omega) heq) (by omega)]
    exact hfree k hk
  have halign : s.upage % pgsize = 0 := h.upage ▸ g.page_aligned k
  have haux : s.aux g.file g.mmapLength g.writable = g.aux k := by
    simp only [LoadLoop.aux, aux, h.readBytes, h.zeroBytes, h.ofs, h.upage]
  have hlt := g.total_lt
  have hend := g.end_lt
  have h₀ := g.ofs_nonneg
  have hr := h.readBytes
  have hz := h.zeroBytes
  have hsub : uint32 (s.readBytes - s.pageReadBytes) = s.readBytes - s.pageReadBytes ∧
      uint32 (s.zeroBytes - s.pageZeroBytes) = s.zeroBytes - s.pageZeroBytes := by
    unfold uint32
    omega
  have hofs : offT (s.ofs + s.pageReadBytes) = g.ofs + g.taken (k + 1) := by
    have hle : g.taken (k + 1) ≤ g.readBytes := Nat.min_le_right ..
    rw [h.ofs, htaken]
    have heq : g.ofs + (g.taken k : Int) + s.pageReadBytes = g.ofs + ((g.taken k + s.pageReadBytes : Nat) : Int) := by
      omega
    rw [heq]
    exact offT_of_range (by omega) (by omega)
  have hnext : sizeT (s.upage + pgsize) = g.page (k + 1) := by
    rw [h.upage]
    simp only [page, sizeT, pgsize]
    omega
  have hpos : 0 < s.pageReadBytes + s.pageZeroBytes := by
    have hle : s.pageReadBytes ≤ pgsize := (pageReadBytes_eq s).symm ▸ Nat.min_le_right ..
    simp only [LoadLoop.pageZeroBytes, pgsize] at hle ⊢
    omega
  refine ⟨s.advance (Function.update s.spt s.upage (some ⟨g.writable, .uninit .anon (some (g.aux k))⟩)), ?_,
    ⟨hk, ?_, ?_, hofs, hnext, fun j hj => ?_, fun a ha => ?_, rfl⟩, ?_⟩
  · simp only [Segment.turn, loadTurn, if_pos hmore, vmAlloc_free _ _ (.inl rfl) halign hpage, haux]
  · simp only [LoadLoop.advance]
    omega
  · simp only [LoadLoop.advance]
    omega
  · simp only [LoadLoop.advance, h.upage]
    rcases Nat.lt_succ_iff_lt_or_eq.mp hj with hj | rfl
    · rw [Function.update_of_ne fun heq => absurd (page_inj (by omega) hk heq) (by omega)]
      exact h.allocated j hj
    · rw [Function.update_self]
  · simp only [LoadLoop.advance, h.upage]
    rw [Function.update_of_ne (ha k (Nat.lt_succ_self k))]
    exact h.other a fun j hj => ha j (Nat.lt_succ_of_lt hj)
  · simp only [LoadLoop.advance]
    omega

theorem Loading.turns (hfree : ∀ k < g.pages, spt (g.page k) = none) (s : LoadLoop) (h : ∃ k, Loading g spt k s) :
    Turns g.turn (fun s => ∃ k, Loading g spt k s) (Loading g spt g.pages) (fun s => s.readBytes + s.zeroBytes) s := by
  obtain ⟨k, h⟩ := h
  by_cases hmore : s.More
  · obtain ⟨s', hs', hl, hm⟩ := h.turn hfree hmore
    exact .inr ⟨s', hs', ⟨k + 1, hl⟩, hm⟩
  · obtain rfl := h.pages_of_stop hmore
    exact .inl ⟨s, by simp only [Segment.turn, loadTurn, if_neg hmore], h⟩

/-- **`load_segment` allocates the pages of the segment**, and no others. -/
theorem load_eq (hfree : ∀ k < g.pages, spt (g.page k) = none) :
    ∃ spt', g.load spt = some (true, spt') ∧
      ∀ k < g.pages, spt' (g.page k) = some ⟨g.writable, .uninit .anon (some (g.aux k))⟩ := by
  obtain ⟨s, hs, h⟩ := whileLoop_ends (Loading.turns hfree) ⟨0, Loading.start g spt⟩ (Nat.lt_succ_self _)
  have hpass : ¬ (uint32 (g.readBytes + g.zeroBytes) % pgsize ≠ 0 ∨ g.upage % pgsize ≠ 0 ∨ g.ofs.tmod pgsize ≠ 0) := by
    have hlt := g.total_lt
    have hw : uint32 (g.readBytes + g.zeroBytes) = g.readBytes + g.zeroBytes := by
      unfold uint32
      omega
    have hmod : g.ofs.tmod pgsize = g.ofs % pgsize := Int.tmod_eq_emod_of_nonneg g.ofs_nonneg
    rw [hw, hmod]
    simp [g.total_aligned, g.upage_aligned, g.ofs_aligned]
  refine ⟨s.spt, ?_, h.allocated⟩
  rw [Segment.load, loadSegment, if_neg hpass]
  have hloop : whileLoop (loadTurn g.file g.mmapLength g.writable) (g.readBytes + g.zeroBytes + 1)
      ⟨g.readBytes, g.zeroBytes, g.ofs, g.upage, spt, true⟩ = some s := hs
  rw [hloop, Option.map_some, h.loaded]

end Segment

/-! ## The faults -/

/-- A page that was brought in: its bytes are those of the file and zeros. -/
def BroughtIn (x : Files n) (page page' : Option Page) : Prop :=
  ∀ writable type fi, page = some ⟨writable, .uninit type (some fi)⟩ →
    ∃ b, page' = some ⟨writable, .resident type b⟩ ∧
      ∀ o < pgsize, b o = eagerByte x.disk (x.inodes fi.file).toInode fi.ofs fi.readBytes o

/-- A page that waits for its first fault, with an offset in range. -/
def Waits (spt : Spt) (a : Nat) : Prop :=
  ∃ writable type fi, spt a = some ⟨writable, .uninit type (some fi)⟩ ∧ 0 ≤ fi.ofs ∧ fi.ofs < 2 ^ 31

theorem fault_brings (x : Files n) {a : Nat} (kva : Buffer) (h : Waits spt a) :
    ∃ spt', fault x spt (a, kva) = some spt' ∧ BroughtIn x (spt a) (spt' a) ∧ ∀ c, c ≠ a → spt' c = spt c := by
  obtain ⟨writable, type, fi, hpage, h₀, h₁⟩ := h
  obtain ⟨b, hb, hbytes⟩ := lazyLoadSegment_eq (n := n) (d := x.disk) (i := x.inodes fi.file) (x.denyWriteCnt fi.file)
    x.malloc kva h₀ h₁
  refine ⟨Function.update spt a (some ⟨writable, .resident type b⟩), ?_, ?_, fun c hc => Function.update_of_ne hc ..⟩
  · simp only [fault, hpage, Files.inode, hb, Option.bind_some, if_true]
  · intro w t fi' heq
    rw [hpage] at heq
    cases heq
    exact ⟨b, Function.update_self .., hbytes⟩

/-- Faults of different pages bring each of them in. -/
theorem faults_bring (x : Files n) (es : List (Nat × Buffer)) (hnodup : (es.map Prod.fst).Nodup)
    (hwait : ∀ a ∈ es.map Prod.fst, Waits spt a) :
    ∃ spt', Run.run (fault x) spt es = some spt' ∧ (∀ a ∈ es.map Prod.fst, BroughtIn x (spt a) (spt' a)) ∧
      ∀ a, a ∉ es.map Prod.fst → spt' a = spt a := by
  induction es generalizing spt with
  | nil => exact ⟨spt, rfl, by simp, fun _ _ => rfl⟩
  | cons e es ih =>
    obtain ⟨a, kva⟩ := e
    obtain ⟨hnew, hnodup⟩ := List.nodup_cons.mp hnodup
    obtain ⟨spt₁, hf, hin, hother⟩ := fault_brings x kva (hwait a (List.mem_cons_self ..))
    have hne : ∀ c ∈ es.map Prod.fst, c ≠ a := fun c hc heq => hnew (heq ▸ hc)
    have hwait₁ : ∀ c ∈ es.map Prod.fst, Waits spt₁ c := by
      intro c hc
      simpa only [Waits, hother c (hne c hc)] using hwait c (List.mem_cons_of_mem _ hc)
    obtain ⟨spt', hr, hin', hother'⟩ := ih hnodup hwait₁
    refine ⟨spt', Run.run_cons.mpr ⟨spt₁, hf, hr⟩, fun c hc => ?_, fun c hc => ?_⟩
    · rcases List.mem_cons.mp hc with rfl | hc
      · rw [hother' _ hnew]
        exact hin
      · rw [← hother c (hne c hc)]
        exact hin' c hc
    · rw [List.map_cons, List.mem_cons, not_or] at hc
      rw [hother' c hc.2, hother c hc.1]

/-! ## The segment -/

namespace Segment

variable {g : Segment} {j k : Nat}

/-- The addresses of the pages. -/
def addrs (g : Segment) : List Nat := (List.range g.pages).map g.page

theorem nodup_addrs (g : Segment) : g.addrs.Nodup := by
  refine List.Nodup.map_on (fun j hj k hk h => ?_) List.nodup_range
  exact page_inj (List.mem_range.mp hj) (List.mem_range.mp hk) h

theorem mem_addrs (hk : k < g.pages) : g.page k ∈ g.addrs := List.mem_map_of_mem (List.mem_range.mpr hk)

/-- Byte `j` of the segment is in page `j / PGSIZE`. -/
theorem addr_in_page (g : Segment) (j : Nat) :
    pgRoundDown (sizeT (g.upage + j)) = g.page (j / pgsize) ∧ sizeT (g.upage + j) % pgsize = j % pgsize := by
  have h := g.upage_aligned
  simp only [pgRoundDown, page, sizeT, pgsize] at h ⊢
  omega

theorem page_lt (hj : j < g.readBytes + g.zeroBytes) : j / pgsize < g.pages := by
  have h := g.pages_mul
  simp only [pgsize] at h ⊢
  omega

/-- The bytes of a page, taken from its own record, are those of the segment. -/
theorem eagerByte_page (d : Disk) (i : Inode) (g : Segment) (j : Nat) :
    eagerByte d i (g.ofs + g.taken (j / pgsize)) (g.readBytes - g.taken (j / pgsize)) (j % pgsize) =
      eagerByte d i g.ofs g.readBytes j := by
  have h₀ := g.ofs_nonneg
  have hiff : j % pgsize < g.readBytes - g.taken (j / pgsize) ↔ j < g.readBytes := by
    simp only [taken, pgsize]
    omega
  by_cases hj : j < g.readBytes
  · have hsum : g.taken (j / pgsize) + j % pgsize = j := by
      simp only [taken, pgsize]
      omega
    have hofs : g.ofs + (g.taken (j / pgsize) : Int) + ((j % pgsize : Nat) : Int) = g.ofs + j := by omega
    have hidx : (g.ofs + (g.taken (j / pgsize) : Int)).toNat + j % pgsize = g.ofs.toNat + j := by omega
    simp only [eagerByte, hiff, hofs, hidx]
  · simp only [eagerByte, hiff]
    rw [if_neg fun h => hj h.1, if_neg fun h => hj h.1]

end Segment

/-- **Lazy loading is eager loading.** `load_segment` ends without taking more
than is left of either count, and whatever the order in which its pages are then
brought in, and whatever was in their frames, the segment is that of the eager
specification. -/
theorem load_segment_eager (x : Files n) (g : Segment) (spt : Spt) (hfree : ∀ k < g.pages, spt (g.page k) = none) :
    (∀ s, Visits g.turn (g.start spt) s → s.More →
      s.pageReadBytes ≤ s.readBytes ∧ s.pageZeroBytes ≤ s.zeroBytes) ∧
      ∃ spt₁, g.load spt = some (true, spt₁) ∧
        ∀ order : List (Nat × Buffer), (order.map Prod.fst).Perm g.addrs →
          ∃ spt₂, Run.run (fault x) spt₁ order = some spt₂ ∧ ∀ j < g.readBytes + g.zeroBytes,
            byteAt spt₂ (sizeT (g.upage + j)) =
              some (eagerByte x.disk (x.inodes g.file).toInode g.ofs g.readBytes j) := by
  refine ⟨fun s hs hmore => ?_, ?_⟩
  · obtain ⟨k, h⟩ := hs.inv (Segment.Loading.turns hfree) ⟨0, Segment.Loading.start g spt⟩
    obtain ⟨-, hr, hz, -⟩ := h.no_underflow hmore
    exact ⟨hr, hz⟩
  · obtain ⟨spt₁, hload, hpages⟩ := Segment.load_eq hfree
    refine ⟨spt₁, hload, fun order hperm => ?_⟩
    have hwait : ∀ a ∈ order.map Prod.fst, Waits spt₁ a := by
      intro a ha
      obtain ⟨k, hk, rfl⟩ := List.mem_map.mp (hperm.mem_iff.mp ha)
      have hle : g.taken k ≤ g.readBytes := Nat.min_le_right ..
      have h₀ := g.ofs_nonneg
      have hend := g.end_lt
      have hlt : g.ofs + (g.taken k : Int) < 2 ^ 31 := by omega
      exact ⟨g.writable, .anon, g.aux k, hpages k (List.mem_range.mp hk), Int.add_nonneg h₀ (Int.natCast_nonneg _), hlt⟩
    obtain ⟨spt₂, hr, hin, -⟩ := faults_bring x order (hperm.nodup_iff.mpr g.nodup_addrs) hwait
    refine ⟨spt₂, hr, fun j hj => ?_⟩
    have hk : j / pgsize < g.pages := Segment.page_lt hj
    obtain ⟨b, hb, hbytes⟩ := hin _ (hperm.mem_iff.mpr (Segment.mem_addrs hk)) _ _ _ (hpages _ hk)
    have hbyte := hbytes (j % pgsize) (Nat.mod_lt _ (by decide))
    obtain ⟨hpage, hofs⟩ := g.addr_in_page j
    simp only [byteAt, hpage, hb, hofs, hbyte]
    exact congrArg some (g.eagerByte_page x.disk (x.inodes g.file).toInode j)

/-- A disk of nines whose every inode is the file of 600 bytes. -/
def nines : Files 8 := ⟨fun _ => 9, fun _ => longFile, fun _ => 0, fun _ => 0⟩

/-- Two pages, of which 5000 bytes are asked of the file. -/
def twoPages : Segment where
  file := 0
  mmapLength := 0
  ofs := 0
  upage := 0x400000
  readBytes := 5000
  zeroBytes := 3192
  writable := true
  ofs_nonneg := by decide
  ofs_aligned := by decide
  upage_aligned := by decide
  upage_lt := by decide
  total_aligned := by decide
  total_lt := by decide
  end_lt := by decide

/-- The second page comes in first: the file ends in the first one. -/
theorem load_segment_eager_short : ∃ spt₁ spt₂, twoPages.load (fun _ => none) = some (true, spt₁) ∧
    Run.run (fault nines) spt₁ [(0x401000, fun _ => 5), (0x400000, fun _ => 6)] = some spt₂ ∧
      byteAt spt₂ (sizeT (0x400000 + 599)) = some 9 ∧ byteAt spt₂ (sizeT (0x400000 + 600)) = some 0 ∧
      byteAt spt₂ (sizeT (0x400000 + 4999)) = some 0 := by
  obtain ⟨-, spt₁, hload, horder⟩ := load_segment_eager nines twoPages (fun _ => none) fun _ _ => rfl
  have haddrs : twoPages.addrs = [0x400000, 0x401000] := by decide +kernel
  obtain ⟨spt₂, hr, hbytes⟩ := horder [(0x401000, fun _ => 5), (0x400000, fun _ => 6)] (haddrs ▸ .swap ..)
  refine ⟨spt₁, spt₂, hload, hr, ?_, ?_, ?_⟩
  · exact (hbytes 599 (by decide)).trans (by decide +kernel)
  · exact (hbytes 600 (by decide)).trans (by decide +kernel)
  · exact (hbytes 4999 (by decide)).trans (by decide +kernel)

end PintosKaist.LoadSegment
