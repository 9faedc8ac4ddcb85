/-
`sys_mmap` (`userprog/syscall.c`) and `do_mmap` (`vm/file.c`): the checks of a
call, the loop over the range that looks for pages in the way, and the loop that
maps it.

Only the start of the range is compared with `KERN_BASE`, and the offset is only
checked for its alignment.
-/
import PintosKaist.Lib.While
import PintosKaist.Userprog.FdTable
import PintosKaist.Userprog.LazyPages

namespace PintosKaist.Mmap

open Filesys (offT)
open Vm (pgsize kernBase)
open FdTable (Slot maxFd)
open LazyPages While

/-- `struct file`, as far as `sys_mmap` looks at it. -/
structure File where
  inode : Option Nat

/-- The process that calls. -/
structure Proc where
  fdTable : Nat → Slot
  files : Nat → Option File
  /-- `inode_length`. -/
  length : Nat → Int
  spt : Spt

/-- The arguments: two of 64 bits, and three `int`s. -/
structure Args where
  addr : Nat
  length : Nat
  writable : Int
  fd : Int
  offset : Int
  addr_lt : addr < 2 ^ 64
  length_lt : length < 2 ^ 64
  offset_range : -2 ^ 31 ≤ offset ∧ offset < 2 ^ 31

/-- The record of `do_mmap`. -/
def mmapAux (addr length : Nat) (writable : Int) (file : Nat) (offset : Int) (mmapLength : Nat) : FileInfo where
  file := file
  ofs := offset
  upage := addr
  readBytes := uint32 length
  zeroBytes := uint32 (pgsize - length)
  writable := writable ≠ 0
  mmapLength := mmapLength

/-- `do_mmap`; false is NULL. -/
def doMmap (spt : Spt) (addr length : Nat) (writable : Int) (file : Nat) (offset : Int) (mmapLength : Nat) :
    Bool × Spt :=
  vmAllocPageWithInitializer spt .file addr (writable ≠ 0)
    (some (mmapAux addr length writable file offset mmapLength))

/-- The loop that looks for pages in the way: the next page, and whether there
was one. -/
structure Scan where
  page : Nat
  clash : Bool

def scanTurn (spt : Spt) (endPage : Nat) (s : Scan) : Option (ForInStep Scan) :=
  if s.page < endPage then
    if (sptFindPage spt s.page).isSome then some (.done { s with clash := true })
    else some (.yield { s with page := sizeT (s.page + pgsize) })
  else some (.done s)

/-- The loop that maps the pages. -/
structure MapLoop where
  remainLength : Nat
  curAddr : Nat
  curOffset : Int
  spt : Spt
  failed : Bool

def MapLoop.allocateLength (s : MapLoop) : Nat := if s.remainLength > pgsize then pgsize else s.remainLength

def MapLoop.advance (s : MapLoop) (spt : Spt) : MapLoop where
  remainLength := s.remainLength - s.allocateLength
  curAddr := sizeT (s.curAddr + s.allocateLength)
  curOffset := offT (s.curOffset + s.allocateLength)
  spt := spt
  failed := false

def mapTurn (length : Nat) (writable : Int) (file : Nat) (s : MapLoop) : Option (ForInStep MapLoop) :=
  if s.remainLength > 0 then
    match doMmap s.spt s.curAddr s.allocateLength writable file s.curOffset length with
    | (false, spt) => some (.done { s with spt := spt, failed := true })
    | (true, spt) =>
      if s.remainLength < s.allocateLength then some (.done { s with spt := spt })
      else some (.yield (s.advance spt))
  else some (.done s)

/-- What `sys_mmap` checks before it looks at the descriptor. -/
def addrOk (a : Args) : Bool := a.addr ≠ 0 && a.addr < kernBase && a.addr % pgsize = 0 && 2 ≤ a.fd && a.fd < maxFd

/-- What it checks of the file and the range. -/
def rangeOk (a : Args) (filesize : Int) : Bool :=
  a.offset.tmod pgsize = 0 && filesize ≠ 0 && a.length ≠ 0 && a.length ≤ a.addr

/-- `sys_mmap` of an open file: the two loops. -/
def mmapFile (spt : Spt) (a : Args) (file : Nat) : Option (Nat × Spt) := do
  let scan ← whileLoop (scanTurn spt (sizeT (a.addr + a.length))) (a.length + 1) ⟨a.addr, false⟩
  if scan.clash then some (0, spt)
  else
    let m ← whileLoop (mapTurn a.length a.writable file) (a.length + 1) ⟨a.length, a.addr, a.offset, spt, false⟩
    some (if m.failed then 0 else a.addr, m.spt)

/-- `sys_mmap`: what it returns, and the table. `MAP_FAILED` is NULL. A pointer
that is no `struct file` takes the kernel down. -/
def sysMmap (p : Proc) (a : Args) : Option (Nat × Spt) :=
  if !addrOk a then some (0, p.spt)
  else
    match p.fdTable a.fd.toNat with
    | .null => some (0, p.spt)
    | .stdin | .stdout => none
    | .file f =>
      (p.files f).bind fun file =>
        match file.inode with
        | none => some (0, p.spt)
        | some inode => if rangeOk a (p.length inode) then mmapFile p.spt a inode else some (0, p.spt)

/-! ## What a mapping is -/

/-- `DIV_ROUND_UP (length, PGSIZE)`. -/
def Args.pages (a : Args) : Nat := (a.length + pgsize - 1) / pgsize

/-- Page `k` of the range. -/
def Args.page (a : Args) (k : Nat) : Nat := a.addr + k * pgsize

/-- The bytes of page `k` that are mapped. -/
def Args.bytes (a : Args) (k : Nat) : Nat := min pgsize (a.length - k * pgsize)

/-- The record of page `k`. -/
def Args.aux (a : Args) (file k : Nat) (ofs : Int) : FileInfo where
  file := file
  ofs := ofs
  upage := a.page k
  readBytes := a.bytes k
  zeroBytes := pgsize - a.bytes k
  writable := a.writable ≠ 0
  mmapLength := a.length

/-- The file page that maps page `k` from `ofs` on. -/
def Args.filePage (a : Args) (file k : Nat) (ofs : Int) : Page :=
  ⟨a.writable ≠ 0, .uninit .file (some (a.aux file k ofs))⟩

/-- The whole range is mapped, and it is a range of user memory. -/
structure Mapped (spt spt' : Spt) (a : Args) (file : Nat) : Prop where
  offset : 0 ≤ a.offset
  user : a.addr + a.length ≤ kernBase
  gained : ∀ k < a.pages, spt (a.page k) = none ∧
    spt' (a.page k) = some (a.filePage file k (a.offset + (k * pgsize : Nat)))
  other : ∀ va, (∀ k < a.pages, va ≠ a.page k) → spt' va = spt va

/-- The open file behind the descriptor of a call. -/
def Proc.inode (p : Proc) (a : Args) : Option Nat :=
  match p.fdTable a.fd.toNat with
  | .file f => (p.files f).bind File.inode
  | _ => none

/-- `sys_mmap` maps the range or leaves the table as it is, and returns. -/
def AllOrNothing (p : Proc) (a : Args) : Prop :=
  ∃ r spt', sysMmap p a = some (r, spt') ∧ (r = 0 → spt' = p.spt) ∧
    (r ≠ 0 → r = a.addr ∧ ∃ file, p.inode a = some file ∧ Mapped p.spt spt' a file)

/-- The slot of the descriptor holds an open file, or nothing. -/
def OnFile (p : Proc) (a : Args) : Prop :=
  match p.fdTable a.fd.toNat with
  | .null => True
  | .stdin | .stdout => False
  | .file f => p.files f ≠ none

/-- No check of `sys_mmap` refuses the call. -/
def Passes (p : Proc) (a : Args) : Prop :=
  ∃ file, p.inode a = some file ∧ rangeOk a (p.length file) ∧ ∀ k < a.pages, p.spt (a.page k) = none

/-- The range is below `KERN_BASE`, and the offset of each of its pages is not
negative and not past 2 GiB. -/
def Args.InRange (a : Args) : Prop :=
  0 ≤ a.offset ∧ a.addr + a.length ≤ kernBase ∧ a.offset + ((a.pages - 1) * pgsize : Nat) < 2 ^ 31

/-- When `sys_mmap` is all-or-nothing. -/
def Sound (p : Proc) (a : Args) : Prop := addrOk a → OnFile p a ∧ (Passes p a → a.InRange)

/-! ## The loops -/

variable {p : Proc} {a : Args} {spt : Spt} {file k j : Nat}

/-- What the first checks of a call promise its loops. -/
structure Args.Ok (a : Args) : Prop where
  addr_pos : 0 < a.addr
  addr_lt : a.addr < kernBase
  aligned : a.addr % pgsize = 0
  length_pos : 0 < a.length
  length_le : a.length ≤ a.addr

theorem Args.ok_of_checks {filesize : Int} (h : addrOk a) (hr : rangeOk a filesize) : a.Ok := by
  simp only [addrOk, rangeOk, ne_eq, Bool.and_eq_true, decide_eq_true_eq] at h hr
  exact ⟨by omega, h.1.1.1.2, h.1.1.2, by omega, hr.2⟩

theorem Args.lt_pages (a : Args) (k : Nat) : k < a.pages ↔ k * pgsize < a.length := by
  simp only [Args.pages, pgsize]
  omega

theorem Args.page_inj (h : a.page j = a.page k) : j = k := by
  simp only [Args.page, pgsize] at h
  omega

theorem Args.Ok.page (h : a.Ok) (k : Nat) : 0 < a.page k ∧ a.page k % pgsize = 0 := by
  have h₁ := h.addr_pos
  have h₂ := h.aligned
  simp only [Args.page, pgsize] at h₂ ⊢
  omega

theorem Args.Ok.find (h : a.Ok) (spt : Spt) (k : Nat) : sptFindPage spt (a.page k) = spt (a.page k) := by
  obtain ⟨hpos, halign⟩ := h.page k
  rw [sptFindPage, if_neg (by omega), pgRoundDown_aligned halign]

/-- The search has passed `k` pages. -/
structure Scanning (spt : Spt) (a : Args) (k : Nat) (s : Scan) : Prop where
  page : s.page = a.page k
  le : k ≤ a.pages
  clash : s.clash = false
  free : ∀ j < k, spt (a.page j) = none

/-- Where the search ends. -/
structure Scanned (spt : Spt) (a : Args) (s : Scan) : Prop where
  clash : s.clash = true ↔ ¬ ∀ k < a.pages, spt (a.page k) = none

theorem scan_turns (h : a.Ok) (s : Scan) (hs : ∃ k, Scanning spt a k s) :
    Turns (scanTurn spt (sizeT (a.addr + a.length))) (fun s => ∃ k, Scanning spt a k s) (Scanned spt a)
      (fun s => a.addr + a.length - s.page) s := by
  obtain ⟨k, hs⟩ := hs
  have hle := h.length_le
  have hlt := h.addr_lt
  have hend : sizeT (a.addr + a.length) = a.addr + a.length := by
    simp only [kernBase] at hlt
    unfold sizeT
    omega
  have hin := a.lt_pages k
  have hpage := hs.page
  by_cases hk : k < a.pages
  · have hbefore : s.page < sizeT (a.addr + a.length) := by
      rw [hend, hpage, Args.page]
      omega
    cases hfind : spt (a.page k) with
    | some page =>
      refine .inl ⟨{ s with clash := true }, ?_, ⟨⟨fun _ hall => ?_, fun _ => rfl⟩⟩⟩
      · rw [scanTurn, if_pos hbefore, hpage, h.find, hfind]
        rfl
      · rw [hall k hk] at hfind
        cases hfind
    | none =>
      have hnext : sizeT (s.page + pgsize) = a.page (k + 1) := by
        simp only [hpage, Args.page, sizeT, pgsize, kernBase] at hlt hin ⊢
        omega
      refine .inr ⟨{ s with page := sizeT (s.page + pgsize) }, ?_, ⟨k + 1, hnext, hk, hs.clash, fun j hj => ?_⟩, ?_⟩
      · rw [scanTurn, if_pos hbefore, hpage, h.find, hfind]
        rfl
      · rcases Nat.lt_succ_iff_lt_or_eq.mp hj with hj | rfl
        · exact hs.free j hj
        · exact hfind
      · show a.addr + a.length - sizeT (s.page + pgsize) < a.addr + a.length - s.page
        rw [hnext, hpage]
        simp only [Args.page, pgsize] at hin ⊢
        omega
  · obtain rfl : k = a.pages := Nat.le_antisymm hs.le (Nat.le_of_not_lt hk)
    have hafter : ¬ s.page < sizeT (a.addr + a.length) := by
      rw [hend, hpage, Args.page]
      omega
    refine .inl ⟨s, by rw [scanTurn, if_neg hafter], ⟨?_⟩⟩
    rw [hs.clash]
    exact ⟨by simp, fun hn => absurd hs.free hn⟩

/-- The second loop has mapped `k` pages. Their offsets are those of 32 bits. -/
structure Mapping (spt : Spt) (a : Args) (file k : Nat) (s : MapLoop) : Prop where
  le : k ≤ a.pages
  remain : s.remainLength = a.length - k * pgsize
  cur : k < a.pages → s.curAddr = a.page k ∧ s.curOffset = offT (a.offset + (k * pgsize : Nat))
  mapped : ∀ j < k, s.spt (a.page j) = some (a.filePage file j (offT (a.offset + (j * pgsize : Nat))))
  other : ∀ va, (∀ j < k, va ≠ a.page j) → s.spt va = spt va
  failed : s.failed = false

theorem Mapping.start (spt : Spt) (a : Args) (file : Nat) :
    Mapping spt a file 0 ⟨a.length, a.addr, a.offset, spt, false⟩ := by
  have h := a.offset_range
  have hofs : offT (a.offset + (0 * pgsize : Nat)) = a.offset := by
    rw [Nat.zero_mul, Int.natCast_zero, Int.add_zero]
    exact Filesys.offT_of_range h.1 h.2
  exact ⟨Nat.zero_le _, by simp, fun _ => ⟨by simp [Args.page], hofs.symm⟩, fun j hj => absurd hj (Nat.not_lt_zero j),
    fun _ _ => rfl, rfl⟩

theorem offT_add (x y : Int) : offT (offT x + y) = offT (x + y) := by
  unfold offT
  omega

theorem allocateLength_eq (s : MapLoop) : s.allocateLength = min pgsize s.remainLength := by
  simp only [MapLoop.allocateLength]
  split_ifs <;> omega

theorem Mapping.turn {s : MapLoop} (h : a.Ok) (hfree : ∀ k < a.pages, spt (a.page k) = none)
    (hs : Mapping spt a file k s) (hk : k < a.pages) :
    ∃ s', mapTurn a.length a.writable file s = some (.yield s') ∧ Mapping spt a file (k + 1) s' ∧
      s'.remainLength < s.remainLength := by
  obtain ⟨hcur, hofs⟩ := hs.cur hk
  have hr := hs.remain
  have hin := (a.lt_pages k).mp hk
  have hnew : s.spt (a.page k) = none := by
    rw [hs.other _ fun j hj heq => absurd (Args.page_inj heq) (by omega)]
    exact hfree k hk
  have hbytes : s.allocateLength = a.bytes k := by rw [allocateLength_eq, hr, Args.bytes]
  have haux : mmapAux (a.page k) s.allocateLength a.writable file s.curOffset a.length =
      a.aux file k (offT (a.offset + (k * pgsize : Nat))) := by
    have h₁ : uint32 (a.bytes k) = a.bytes k := by
      simp only [Args.bytes, uint32, pgsize]
      omega
    have h₂ : uint32 (pgsize - a.bytes k) = pgsize - a.bytes k := by
      simp only [Args.bytes, uint32, pgsize]
      omega
    simp only [mmapAux, Args.aux, hbytes, hofs, h₁, h₂]
  refine ⟨s.advance (Function.update s.spt (a.page k)
    (some (a.filePage file k (offT (a.offset + (k * pgsize : Nat)))))), ?_,
    ⟨hk, ?_, fun hk' => ?_, fun j hj => ?_, fun va hva => ?_, rfl⟩, ?_⟩
  · have hpos : s.remainLength > 0 := by omega
    have hlast : ¬ s.remainLength < s.allocateLength := by
      rw [allocateLength_eq]
      omega
    have halloc := vmAlloc_free (a.writable ≠ 0) (some (a.aux file k (offT (a.offset + (k * pgsize : Nat)))))
      (.inr rfl) (h.page k).2 hnew
    rw [mapTurn, if_pos hpos]
    simp only [doMmap, haux, hcur, halloc, if_neg hlast]
    rfl
  · simp only [MapLoop.advance, hbytes, Args.bytes, hr]
    rw [Nat.add_mul, Nat.one_mul]
    omega
  · have hfull : s.allocateLength = pgsize := by
      have hin' := (a.lt_pages (k + 1)).mp hk'
      rw [allocateLength_eq, hr]
      rw [Nat.add_mul, Nat.one_mul] at hin'
      omega
    have h₁ := h.addr_lt
    have h₂ := h.length_le
    constructor
    · simp only [MapLoop.advance, hfull, hcur]
      simp only [Args.page, sizeT, pgsize, kernBase] at h₁ hin ⊢
      omega
    · simp only [MapLoop.advance, hfull, hofs, offT_add]
      congr 1
      rw [Nat.add_mul, Nat.one_mul]
      omega
  · simp only [MapLoop.advance]
    rcases Nat.lt_succ_iff_lt_or_eq.mp hj with hj | rfl
    · rw [Function.update_of_ne fun heq => absurd (Args.page_inj heq) (by omega)]
      exact hs.mapped j hj
    · rw [Function.update_self]
  · simp only [MapLoop.advance]
    rw [Function.update_of_ne (hva k (Nat.lt_succ_self k))]
    exact hs.other va fun j hj => hva j (Nat.lt_succ_of_lt hj)
  · simp only [MapLoop.advance, hbytes, Args.bytes, hr, pgsize] at hin ⊢
    omega

theorem map_turns (h : a.Ok) (hfree : ∀ k < a.pages, spt (a.page k) = none) (s : MapLoop)
    (hs : ∃ k, Mapping spt a file k s) :
    Turns (mapTurn a.length a.writable file) (fun s => ∃ k, Mapping spt a file k s) (Mapping spt a file a.pages)
      (fun s => s.remainLength) s := by
  obtain ⟨k, hs⟩ := hs
  by_cases hk : k < a.pages
  · obtain ⟨s', hs', hm, hlt⟩ := hs.turn h hfree hk
    exact .inr ⟨s', hs', ⟨k + 1, hm⟩, hlt⟩
  · obtain rfl : k = a.pages := Nat.le_antisymm hs.le (Nat.le_of_not_lt hk)
    have hdone : ¬ s.remainLength > 0 := by
      have hin := a.lt_pages a.pages
      rw [hs.remain]
      omega
    exact .inl ⟨s, by rw [mapTurn, if_neg hdone], hs⟩

/-! ## The call -/

theorem scan_ends (h : a.Ok) (spt : Spt) :
    ∃ s, whileLoop (scanTurn spt (sizeT (a.addr + a.length))) (a.length + 1) ⟨a.addr, false⟩ = some s ∧
      Scanned spt a s := by
  have hstart : Scanning spt a 0 ⟨a.addr, false⟩ :=
    ⟨by simp [Args.page], Nat.zero_le _, rfl, fun j hj => absurd hj (Nat.not_lt_zero j)⟩
  exact whileLoop_ends (scan_turns h) ⟨0, hstart⟩ (show a.addr + a.length - a.addr < a.length + 1 by omega)

/-- **A range with a page in it is refused.** -/
theorem mmapFile_clash (h : a.Ok) (hclash : ¬ ∀ k < a.pages, spt (a.page k) = none) :
    mmapFile spt a file = some (0, spt) := by
  obtain ⟨s, hs, hend⟩ := scan_ends h spt
  have hclash' : s.clash = true := hend.clash.mpr hclash
  simp only [mmapFile, hs, Option.bind_eq_bind, Option.bind_some, hclash', if_true]

/-- **A free range is mapped**, page by page. -/
theorem mmapFile_free (h : a.Ok) (hfree : ∀ k < a.pages, spt (a.page k) = none) (file : Nat) :
    ∃ spt', mmapFile spt a file = some (a.addr, spt') ∧
      (∀ k < a.pages, spt' (a.page k) = some (a.filePage file k (offT (a.offset + (k * pgsize : Nat))))) ∧
      ∀ va, (∀ k < a.pages, va ≠ a.page k) → spt' va = spt va := by
  obtain ⟨s, hs, hend⟩ := scan_ends h spt
  obtain ⟨m, hm, hmap⟩ := whileLoop_ends (map_turns h hfree) ⟨0, Mapping.start spt a file⟩ (Nat.lt_succ_self a.length)
  have hclash : s.clash = false := by
    cases hc : s.clash with
    | false => rfl
    | true => exact absurd hfree (hend.clash.mp hc)
  refine ⟨m.spt, ?_, hmap.mapped, hmap.other⟩
  simp only [mmapFile, hs, Option.bind_eq_bind, Option.bind_some, hclash, hm, hmap.failed, Bool.false_eq_true, if_false]

theorem AllOrNothing.of_refused (h : sysMmap p a = some (0, p.spt)) : AllOrNothing p a :=
  ⟨0, p.spt, h, fun _ => rfl, fun hr => absurd rfl hr⟩

theorem Passes.inode_ne_none (h : Passes p a) : p.inode a ≠ none := by
  obtain ⟨file, hf, -⟩ := h
  exact hf ▸ Option.some_ne_none file

/-- `sys_mmap` of a descriptor of an open file. -/
theorem sysMmap_inode (hc : addrOk a) (hf : p.inode a = some file) :
    sysMmap p a = if rangeOk a (p.length file) then mmapFile p.spt a file else some (0, p.spt) := by
  simp only [Proc.inode] at hf
  simp only [sysMmap, hc, Bool.not_true, Bool.false_eq_true, if_false]
  cases hslot : p.fdTable a.fd.toNat with
  | null | stdin | stdout => simp only [hslot, reduceCtorEq] at hf
  | file f =>
    simp only [hslot, Option.bind_eq_some_iff] at hf
    obtain ⟨fl, hfl, hnode⟩ := hf
    simp only [hfl, Option.bind_some, hnode]

/-- `sys_mmap` of a descriptor of no file: it is refused, or the kernel panics. -/
theorem sysMmap_no_inode (hc : addrOk a) (hf : p.inode a = none) :
    sysMmap p a = some (0, p.spt) ∧ OnFile p a ∨ sysMmap p a = none ∧ ¬ OnFile p a := by
  simp only [Proc.inode] at hf
  simp only [sysMmap, hc, Bool.not_true, Bool.false_eq_true, if_false, OnFile]
  cases hslot : p.fdTable a.fd.toNat with
  | null => exact .inl ⟨rfl, trivial⟩
  | stdin | stdout => exact .inr ⟨rfl, id⟩
  | file f =>
    simp only [hslot] at hf
    cases hfl : p.files f with
    | none => exact .inr ⟨by simp only [hfl, Option.bind_none], fun h => h hfl⟩
    | some fl =>
      rw [hfl, Option.bind_some] at hf
      have hon : p.files f ≠ none := hfl ▸ Option.some_ne_none fl
      exact .inl ⟨by simp only [hfl, Option.bind_some, hf], hon⟩

theorem onFile_of_inode (hf : p.inode a = some file) : OnFile p a := by
  simp only [Proc.inode] at hf
  simp only [OnFile]
  cases hslot : p.fdTable a.fd.toNat with
  | null | stdin | stdout => simp only [hslot, reduceCtorEq] at hf
  | file f =>
    simp only [hslot, Option.bind_eq_some_iff] at hf
    obtain ⟨fl, hfl, -⟩ := hf
    show p.files f ≠ none
    exact hfl ▸ Option.some_ne_none fl

/-- A page of the range has the offset the call asks for when that is an
`off_t`. -/
theorem offT_page (h₀ : 0 ≤ a.offset) (hlast : a.offset + ((a.pages - 1) * pgsize : Nat) < 2 ^ 31) (hk : k < a.pages) :
    offT (a.offset + (k * pgsize : Nat)) = a.offset + (k * pgsize : Nat) := by
  have hle : k * pgsize ≤ (a.pages - 1) * pgsize := Nat.mul_le_mul_right _ (by omega)
  exact Filesys.offT_of_range (by omega) (by omega)

/-- What a call that no check refuses does: it maps the range, whatever that
is. -/
theorem allOrNothing_iff_of_passes (h : addrOk a) (hf : p.inode a = some file) (hr : rangeOk a (p.length file))
    (hfree : ∀ k < a.pages, p.spt (a.page k) = none)
    (hcall : sysMmap p a = mmapFile p.spt a file) : AllOrNothing p a ↔ a.InRange := by
  have hok := Args.ok_of_checks h hr
  have hpos := hok.addr_pos
  obtain ⟨spt', hmap, hgained, hother⟩ := mmapFile_free hok hfree file
  have hresult : sysMmap p a = some (a.addr, spt') := hcall.trans hmap
  constructor
  · rintro ⟨r, spt₁, hres, -, hmapped⟩
    obtain ⟨rfl, rfl⟩ := Prod.mk.inj (Option.some.inj (hresult.symm.trans hres))
    obtain ⟨-, file', hf', hm⟩ := hmapped (by omega)
    obtain rfl : file = file' := Option.some.inj (hf.symm.trans hf')
    have hlast : a.pages - 1 < a.pages := by
      have hlen := hok.length_pos
      have h0 := a.lt_pages 0
      omega
    have hpage := (hm.gained _ hlast).2
    rw [hgained _ hlast] at hpage
    have hofs : offT (a.offset + ((a.pages - 1) * pgsize : Nat)) = a.offset + ((a.pages - 1) * pgsize : Nat) := by
      simpa [Args.filePage, Args.aux] using hpage
    refine ⟨hm.offset, hm.user, ?_⟩
    rw [← hofs]
    unfold offT
    omega
  · rintro ⟨h₀, huser, hlast⟩
    refine ⟨a.addr, spt', hresult, fun h0 => absurd h0 (by omega), fun _ => ⟨rfl, file, hf, h₀, huser, fun k hk => ?_,
      hother⟩⟩
    rw [← offT_page h₀ hlast hk]
    exact ⟨hfree k hk, hgained k hk⟩

/-- **`sys_mmap` is all-or-nothing** exactly when the slot of its descriptor
holds nothing but an open file, and a range that no check refuses ends below
`KERN_BASE`, with offsets that are not negative and not past 2 GiB. -/
theorem mmap_all_or_nothing_iff (p : Proc) (a : Args) : AllOrNothing p a ↔ Sound p a := by
  by_cases hc : addrOk a
  swap
  · have hres : sysMmap p a = some (0, p.spt) := by simp only [sysMmap, hc, Bool.not_false, if_true]
    exact iff_of_true (.of_refused hres) fun h => absurd h hc
  have hsound : Sound p a ↔ OnFile p a ∧ (Passes p a → a.InRange) := ⟨fun h => h hc, fun h _ => h⟩
  rw [hsound]
  cases hf : p.inode a with
  | none =>
    rcases sysMmap_no_inode hc hf with ⟨hres, hon⟩ | ⟨hres, hoff⟩
    · exact iff_of_true (.of_refused hres) ⟨hon, fun hp => absurd hf hp.inode_ne_none⟩
    · refine iff_of_false (fun ⟨r, spt', hret, _⟩ => ?_) fun h => hoff h.1
      rw [hres] at hret
      cases hret
  | some file =>
    have hcall := sysMmap_inode hc hf
    rw [and_iff_right (onFile_of_inode hf)]
    by_cases hr : rangeOk a (p.length file)
    · rw [if_pos hr] at hcall
      by_cases hfree : ∀ k < a.pages, p.spt (a.page k) = none
      · rw [allOrNothing_iff_of_passes hc hf hr hfree hcall]
        exact ⟨fun h _ => h, fun h => h ⟨file, hf, hr, hfree⟩⟩
      · rw [mmapFile_clash (Args.ok_of_checks hc hr) hfree] at hcall
        exact iff_of_true (.of_refused hcall) fun ⟨_, _, _, h⟩ => absurd h hfree
    · rw [if_neg hr] at hcall
      refine iff_of_true (.of_refused hcall) fun ⟨file', hf', hr', _⟩ => ?_
      obtain rfl : file = file' := Option.some.inj (hf.symm.trans hf')
      exact absurd hr' hr

theorem offset_zero : -2 ^ 31 ≤ (0 : Int) ∧ (0 : Int) < 2 ^ 31 := by decide

/-- A process with a file of ten pages open as descriptor 2. -/
def opened : Proc where
  fdTable fd := if fd = 2 then .file 0 else .null
  files _ := some ⟨some 5⟩
  length _ := 40960
  spt _ := none

/-- Two pages, the first of which is the last one of user memory. -/
def acrossKernBase : Args where
  addr := kernBase - pgsize
  length := 2 * pgsize
  writable := 0
  fd := 2
  offset := 0
  addr_lt := by decide
  length_lt := by decide
  offset_range := offset_zero

/-- The second page of the mapping is a page of the kernel. -/
theorem not_allOrNothing_kernBase : ¬ AllOrNothing opened acrossKernBase := by
  have hok : acrossKernBase.Ok := ⟨by decide, by decide, by decide, by decide, by decide⟩
  have hfree : ∀ k < acrossKernBase.pages, opened.spt (acrossKernBase.page k) = none := fun _ _ => rfl
  obtain ⟨spt', hmap, -⟩ := mmapFile_free hok hfree 5
  have hcall : sysMmap opened acrossKernBase = mmapFile opened.spt acrossKernBase 5 :=
    (sysMmap_inode (by decide) rfl).trans (if_pos (by decide))
  rintro ⟨r, spt₁, hres, -, hmapped⟩
  obtain ⟨rfl, -⟩ := Prod.mk.inj (Option.some.inj (hmap.symm.trans (hcall.symm.trans hres)))
  obtain ⟨-, file, -, hm⟩ := hmapped (by decide)
  exact absurd hm.user (by decide)

end PintosKaist.Mmap
