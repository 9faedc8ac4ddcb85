/-
Which sectors the system calls read and write: `sys_read`, `sys_write`,
`sys_seek`, `sys_mmap`, and the loads and write-backs of mapped pages.

The offset of a mapping comes from the user and is only checked for its
alignment; everything else keeps its offsets within the file.
-/
import PintosKaist.Filesys.Inode
import PintosKaist.Lib.Run

namespace PintosKaist.Filesys

/-- `PGSIZE`, `KERN_BASE`. -/
def pgSize : Nat := 4096
def kernBase : Nat := 0x8004000000

/-- `struct file`. -/
structure File where
  inode : Nat
  pos : Int

/-- `struct file_info` of a page of a mapping. -/
structure FileInfo where
  inode : Nat
  ofs : Int
  readBytes : Nat
  deriving DecidableEq, Repr

/-- A `disk_read` or `disk_write` for an inode. -/
structure Access where
  inode : Nat
  sector : Nat
  deriving DecidableEq, Repr

structure Io where
  inodes : Nat → Inode
  files : Nat → Option File
  /-- The file-backed pages, by process and address. -/
  pages : Nat → Nat → Option FileInfo
  /-- What has been asked of the disk. -/
  log : List Access

inductive IoEvent where
  /-- `filesys_open` of an inode, as file `f`. -/
  | openFile (f inode : Nat)
  /-- `sys_read` with its `unsigned` size. -/
  | read (f : Nat) (size : Nat)
  /-- `sys_write`; `denied` is `deny_write_cnt`. -/
  | write (f : Nat) (size : Nat) (denied : Bool)
  | seek (f : Nat) (position : Nat)
  | mmap (p addr length f : Nat) (offset : Int)
  /-- `lazy_load_segment` of a page. -/
  | load (p va : Nat)
  /-- `file_backed_swap_in`. -/
  | swapIn (p va : Nat)
  /-- The `file_write_at` of `file_backed_swap_out`, `file_backed_destroy` and
  `munmap_cleaner`. -/
  | writeBack (p va : Nat) (denied : Bool)
  /-- `do_munmap`, or the destruction of the page. -/
  | drop (p va : Nat)

/-- `inode_read_at`: a `disk_read` for each chunk. -/
def readAccesses (n : Nat) (cs : List Chunk) : List Access := cs.map fun c => ⟨n, c.sector⟩

/-- `inode_write_at`: a sector that is written in part is read before. -/
def writeAccesses (n : Nat) (cs : List Chunk) : List Access :=
  cs.flatMap fun c => if c.ofs = 0 ∧ c.size = sectorSize then [⟨n, c.sector⟩] else [⟨n, c.sector⟩, ⟨n, c.sector⟩]

/-- `inode_read_at (inode, buffer, size, offset)`. -/
def Io.readAt (s : Io) (n : Nat) (size offset : Int) : Io :=
  { s with log := s.log ++ readAccesses n (chunks (s.inodes n) size offset) }

/-- `inode_write_at`. -/
def Io.writeAt (s : Io) (n : Nat) (size offset : Int) (denied : Bool) : Io :=
  if denied then s else { s with log := s.log ++ writeAccesses n (chunks (s.inodes n) size offset) }

/-- What `file_read` or `file_write` adds to `file->pos`. -/
def moved (i : Inode) (size pos : Int) (denied : Bool) : Int :=
  if denied then pos else offT (pos + bytesDone (chunks i size pos))

/-- `file_read`. -/
def Io.fileRead (s : Io) (f : Nat) (file : File) (size : Int) : Io :=
  { s.readAt file.inode size file.pos with
    files := Function.update s.files f (some { file with pos := moved (s.inodes file.inode) size file.pos false }) }

/-- `file_write`. -/
def Io.fileWrite (s : Io) (f : Nat) (file : File) (size : Int) (denied : Bool) : Io :=
  { s.writeAt file.inode size file.pos denied with
    files := Function.update s.files f (some { file with pos := moved (s.inodes file.inode) size file.pos denied }) }

/-- `sys_seek`, with the `ASSERT` of `file_seek`. -/
def Io.seek (s : Io) (f : Nat) (file : File) (position : Nat) : Option Io :=
  let length := (s.inodes file.inode).length
  let pos := offT (if (position : Int) > length then length else position)
  if 0 ≤ pos then some { s with files := Function.update s.files f (some { file with pos := pos }) } else none

/-- The checks of `sys_mmap`. -/
def mmapOk (s : Io) (p addr length : Nat) (i : Inode) (offset : Int) : Bool :=
  addr ≠ 0 && addr < kernBase && addr % pgSize = 0 && offset.tmod pgSize = 0 && i.length ≠ 0 && length ≠ 0 &&
    length ≤ addr && (List.range ((length + pgSize - 1) / pgSize)).all fun k => (s.pages p (addr + k * pgSize)).isNone

/-- The `while` of `sys_mmap`: a page at a time, `do_mmap` each. -/
def mmapLoop (p n : Nat) : Nat → Io → Nat → Nat → Int → Io
  | 0, s, _, _, _ => s
  | fuel + 1, s, addr, remain, offset =>
    if 0 < remain then
      let length := if remain > pgSize then pgSize else remain
      let s₁ := { s with
        pages := Function.update s.pages p (Function.update (s.pages p) addr (some ⟨n, offset, length⟩)) }
      mmapLoop p n fuel s₁ (addr + length) (remain - length) (offT (offset + length))
    else s

/-- `sys_mmap`: `MAP_FAILED` leaves everything as it is. -/
def Io.mmap (s : Io) (p addr length : Nat) (file : File) (offset : Int) : Io :=
  if mmapOk s p addr length (s.inodes file.inode) offset then mmapLoop p file.inode length s addr length offset else s

/-- What `lazy_load_segment` reads of a page; a negative rest of the file is a
huge `size_t`. -/
def loadBytes (i : Inode) (fi : FileInfo) : Int :=
  let remaining := offT (i.length - fi.ofs) % 2 ^ 64
  let bytes : Int := if fi.readBytes < pgSize then fi.readBytes else pgSize
  if bytes < remaining then bytes else remaining

def Io.step (s : Io) : IoEvent → Option Io
  | .openFile f n => some { s with files := Function.update s.files f (some ⟨n, 0⟩) }
  | .read f size => (s.files f).map fun file => s.fileRead f file (offT size)
  | .write f size denied => (s.files f).map fun file => s.fileWrite f file (offT size) denied
  | .seek f position => (s.files f).bind fun file => s.seek f file position
  | .mmap p addr length f offset =>
    if offset = offT offset then (s.files f).map fun file => s.mmap p addr length file offset else none
  | .load p va => (s.pages p va).map fun fi => s.readAt fi.inode (offT (loadBytes (s.inodes fi.inode) fi)) fi.ofs
  | .swapIn p va => (s.pages p va).map fun fi => s.readAt fi.inode (offT fi.readBytes) fi.ofs
  | .writeBack p va denied => (s.pages p va).map fun fi => s.writeAt fi.inode (offT fi.readBytes) fi.ofs denied
  | .drop p va =>
    some { s with pages := Function.update s.pages p (Function.update (s.pages p) va none) }

/-- Before any call. -/
def Io.boot (inodes : Nat → Inode) : Io := ⟨inodes, fun _ => none, fun _ _ => none, []⟩

/-! ## Inside the file -/

variable {s s' : Io} {e : IoEvent} {f n : Nat} {size offset : Int}

/-- Every access so far was to the data sectors of its inode. -/
def Io.Inside (s : Io) : Prop := ∀ a ∈ s.log, (s.inodes a.inode).Has a.sector

/-- A mapping that is made starts within the first 2 GiB of its file and does
not leave them. -/
def Io.MapsForward (s : Io) : IoEvent → Prop
  | .mmap p addr length f offset =>
    ∀ file ∈ s.files f, mmapOk s p addr length (s.inodes file.inode) offset → 0 ≤ offset ∧ offset + length ≤ 2 ^ 31
  | _ => True

instance : Decidable (s.MapsForward e) := by
  unfold Io.MapsForward
  split <;> infer_instance

/-- No offset is negative. -/
structure Io.Ok (s : Io) : Prop where
  inside : s.Inside
  pos : ∀ f file, s.files f = some file → 0 ≤ file.pos ∧ file.pos < 2 ^ 31
  ofs : ∀ p va fi, s.pages p va = some fi → 0 ≤ fi.ofs ∧ fi.ofs < 2 ^ 31

theorem readAccesses_inside {i : Inode} (h₀ : 0 ≤ offset) (h₁ : offset < 2 ^ 31) :
    ∀ a ∈ readAccesses n (chunks i size offset), a.inode = n ∧ i.Has a.sector := by
  intro a ha
  obtain ⟨c, hc, rfl⟩ := List.mem_map.mp ha
  exact ⟨rfl, (chunkLoop_inside h₀ h₁).1 c hc⟩

theorem writeAccesses_inside {i : Inode} (h₀ : 0 ≤ offset) (h₁ : offset < 2 ^ 31) :
    ∀ a ∈ writeAccesses n (chunks i size offset), a.inode = n ∧ i.Has a.sector := by
  intro a ha
  obtain ⟨c, hc, ha⟩ := List.mem_flatMap.mp ha
  obtain rfl : a = ⟨n, c.sector⟩ := by
    split at ha <;> simpa using ha
  exact ⟨rfl, (chunkLoop_inside h₀ h₁).1 c hc⟩

theorem Io.Ok.log {l : List Access} (h : s.Ok) (hl : ∀ a ∈ l, a.inode = n ∧ (s.inodes n).Has a.sector) :
    Io.Ok { s with log := s.log ++ l } := by
  refine ⟨fun a ha => ?_, h.pos, h.ofs⟩
  rcases List.mem_append.mp ha with ha | ha
  · exact h.inside a ha
  · obtain ⟨rfl, hs⟩ := hl a ha
    exact hs

theorem Io.Ok.readAt (h : s.Ok) (h₀ : 0 ≤ offset) (h₁ : offset < 2 ^ 31) : (s.readAt n size offset).Ok :=
  h.log (readAccesses_inside h₀ h₁)

theorem Io.Ok.writeAt {denied : Bool} (h : s.Ok) (h₀ : 0 ≤ offset) (h₁ : offset < 2 ^ 31) :
    (s.writeAt n size offset denied).Ok := by
  simp only [Io.writeAt]
  split
  · exact h
  · exact h.log (writeAccesses_inside h₀ h₁)

theorem Io.Ok.setFile {file : File} (h : s.Ok) (h₀ : 0 ≤ file.pos) (h₁ : file.pos < 2 ^ 31) :
    Io.Ok { s with files := Function.update s.files f (some file) } := by
  refine ⟨h.inside, fun g file' hg => ?_, h.ofs⟩
  simp only [Function.update_apply] at hg
  split at hg
  · obtain rfl := Option.some.inj hg
    exact ⟨h₀, h₁⟩
  · exact h.pos g file' hg

/-- The position of a file moves forward, within the file. -/
theorem moved_range {i : Inode} {pos : Int} {denied : Bool} (h₀ : 0 ≤ pos) (h₁ : pos < 2 ^ 31) :
    0 ≤ moved i size pos denied ∧ moved i size pos denied < 2 ^ 31 := by
  obtain ⟨-, hd₀, hd⟩ := @chunkLoop_inside i size pos size.toNat h₀ h₁
  have hl := i.length_lt
  simp only [moved]
  split
  · exact ⟨h₀, h₁⟩
  · rw [offT_of_range] <;> simp only [chunks] <;> omega

theorem Io.Ok.setPage {p va : Nat} {page : Option FileInfo} (h : s.Ok)
    (hp : ∀ fi, page = some fi → 0 ≤ fi.ofs ∧ fi.ofs < 2 ^ 31) :
    Io.Ok { s with pages := Function.update s.pages p (Function.update (s.pages p) va page) } := by
  refine ⟨h.inside, h.pos, fun q vb fi hq => ?_⟩
  simp only [Function.update_apply] at hq
  split at hq
  · rw [Function.update_apply] at hq
    split at hq
    · exact hp fi hq
    · exact h.ofs p vb fi hq
  · exact h.ofs q vb fi hq

/-- The loop of `sys_mmap`: as long as there is something to map, the offset
has not reached 2 GiB. -/
theorem Io.Ok.mmapLoop {p fuel addr remain : Nat} (h : s.Ok)
    (hr : remain = 0 ∨ 0 ≤ offset ∧ offset + remain ≤ 2 ^ 31) : (mmapLoop p n fuel s addr remain offset).Ok := by
  induction fuel generalizing s addr remain offset with
  | zero => exact h
  | succ fuel ih =>
    simp only [Filesys.mmapLoop]
    split
    · rename_i hpos
      have hlen : (if remain > pgSize then pgSize else remain) ≤ remain := by split <;> omega
      obtain ⟨h₀, hle⟩ : 0 ≤ offset ∧ offset + remain ≤ 2 ^ 31 := hr.resolve_left (by omega)
      refine ih (h.setPage fun fi hfi => ?_) ?_
      · obtain rfl := Option.some.inj hfi
        exact ⟨h₀, by show offset < 2 ^ 31; omega⟩
      by_cases hend : remain - (if remain > pgSize then pgSize else remain) = 0
      · exact .inl hend
      · right
        rw [offT_of_range] <;> omega
    · exact h

theorem Io.Ok.mmap {p addr length : Nat} {file : File} (h : s.Ok)
    (hm : mmapOk s p addr length (s.inodes file.inode) offset → 0 ≤ offset ∧ offset + length ≤ 2 ^ 31) :
    (s.mmap p addr length file offset).Ok := by
  simp only [Io.mmap]
  split
  · rename_i hok
    exact h.mmapLoop (.inr (hm hok))
  · exact h

theorem Io.Ok.seek {file : File} {position : Nat} (h : s.Ok) (hs : s.seek f file position = some s') : s'.Ok := by
  simp only [Io.seek, Option.ite_none_right_eq_some, Option.some.injEq] at hs
  obtain ⟨h₀, rfl⟩ := hs
  refine h.setFile h₀ ?_
  show offT _ < 2 ^ 31
  unfold offT
  omega

theorem step_ok (h : s.Ok) (hm : s.MapsForward e) (hs : s.step e = some s') : s'.Ok := by
  cases e with
  | openFile f n => exact Option.some.inj hs ▸ h.setFile (by simp) (by simp)
  | read f size =>
    simp only [Io.step, Option.map_eq_some_iff] at hs
    obtain ⟨file, hf, rfl⟩ := hs
    obtain ⟨h₀, h₁⟩ := h.pos f file hf
    obtain ⟨hm₀, hm₁⟩ := @moved_range (offT size) (s.inodes file.inode) file.pos false h₀ h₁
    exact (h.readAt h₀ h₁).setFile hm₀ hm₁
  | write f size denied =>
    simp only [Io.step, Option.map_eq_some_iff] at hs
    obtain ⟨file, hf, rfl⟩ := hs
    obtain ⟨h₀, h₁⟩ := h.pos f file hf
    obtain ⟨hm₀, hm₁⟩ := @moved_range (offT size) (s.inodes file.inode) file.pos denied h₀ h₁
    have hw : (s.writeAt file.inode (offT size) file.pos denied).Ok := h.writeAt h₀ h₁
    have hfiles : (s.writeAt file.inode (offT size) file.pos denied).files = s.files := by
      simp only [Io.writeAt]
      split <;> rfl
    rw [Io.fileWrite, ← hfiles]
    exact hw.setFile hm₀ hm₁
  | seek f position =>
    simp only [Io.step, Option.bind_eq_some_iff] at hs
    obtain ⟨file, -, hs⟩ := hs
    exact h.seek hs
  | mmap p addr length f offset =>
    simp only [Io.step, Option.ite_none_right_eq_some, Option.map_eq_some_iff] at hs
    obtain ⟨-, file, hf, rfl⟩ := hs
    exact h.mmap (hm file hf)
  | load p va =>
    simp only [Io.step, Option.map_eq_some_iff] at hs
    obtain ⟨fi, hf, rfl⟩ := hs
    exact h.readAt (h.ofs p va fi hf).1 (h.ofs p va fi hf).2
  | swapIn p va =>
    simp only [Io.step, Option.map_eq_some_iff] at hs
    obtain ⟨fi, hf, rfl⟩ := hs
    exact h.readAt (h.ofs p va fi hf).1 (h.ofs p va fi hf).2
  | writeBack p va denied =>
    simp only [Io.step, Option.map_eq_some_iff] at hs
    obtain ⟨fi, hf, rfl⟩ := hs
    exact h.writeAt (h.ofs p va fi hf).1 (h.ofs p va fi hf).2
  | drop p va => exact Option.some.inj hs ▸ h.setPage (by simp)

/-- As long as no mapping that is made has a negative offset or runs past 2 GiB,
every sector that is read or written for an inode is one of its own. -/
theorem inside_of_run (inodes : Nat → Inode) (es : List IoEvent) (hr : Run.run Io.step (Io.boot inodes) es = some s)
    (hm : Run.Always Io.step Io.MapsForward (Io.boot inodes) es) : s.Inside := by
  have h₀ : (Io.boot inodes).Ok := ⟨by simp [Io.Inside, Io.boot], by simp [Io.boot], by simp [Io.boot]⟩
  exact (Run.run_invariant (fun _ _ _ h hm hs => step_ok h hm hs) h₀ hr hm).inside

/-- Every inode is a file of 600 bytes in sectors 100 and 101. -/
def smallFile : Inode := ⟨100, 600, by decide, by decide, by decide⟩

/-- Reads and writes past the end, a seek past the end, and a mapping that is
loaded and written back. -/
def forward : List IoEvent :=
  [.openFile 0 0, .read 0 1000, .seek 0 4294967295, .write 0 9 false, .seek 0 0, .write 0 4294967295 false,
    .mmap 1 0x10000 5000 0 0, .load 1 0x10000, .load 1 0x11000, .writeBack 1 0x10000 false]

theorem inside_forward : ∃ s, Run.run Io.step (Io.boot fun _ => smallFile) forward = some s ∧
    ⟨0, 101⟩ ∈ s.log ∧ s.Inside := by
  obtain ⟨s, hs, hd⟩ := (Option.any_eq_true ..).mp
    (show (Run.run Io.step (Io.boot fun _ => smallFile) forward).any (fun s => ⟨0, 101⟩ ∈ s.log) = true
      by decide +kernel)
  exact ⟨s, hs, of_decide_eq_true hd, inside_of_run _ forward hs (by decide +kernel)⟩

/-- A mapping at offset -4096: its load reads sector 92. -/
theorem not_inside_of_negative : ∃ s, Run.run Io.step (Io.boot fun _ => smallFile)
    [.openFile 0 0, .mmap 1 0x10000 4096 0 (-4096), .load 1 0x10000] = some s ∧ ⟨0, 92⟩ ∈ s.log ∧ ¬ s.Inside := by
  obtain ⟨s, hs, hd⟩ := (Option.any_eq_true ..).mp
    (show (Run.run Io.step (Io.boot fun _ => smallFile)
      [.openFile 0 0, .mmap 1 0x10000 4096 0 (-4096), .load 1 0x10000]).any
        (fun s => ⟨0, 92⟩ ∈ s.log ∧ ¬ (s.inodes 0).Has 92) = true by decide +kernel)
  obtain ⟨hm, hn⟩ := of_decide_eq_true hd
  exact ⟨s, hs, hm, fun h => hn (h _ hm)⟩

end PintosKaist.Filesys
