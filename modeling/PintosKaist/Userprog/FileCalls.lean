/-
The system calls on an open file (`userprog/syscall.c`, `filesys/file.c`):
`sys_read`, `sys_write`, `sys_seek`, `sys_tell`, `sys_filesize`, `sys_close`
and `sys_mmap`, by what they do with the slot of their descriptor.

Each handler makes its own checks before it follows the pointer in the slot.
Where it follows one that is no `struct file`, or one that has been freed, the
handler ends in a `Fault`. User buffers have passed `check_buffer`, which does
not look at descriptors, and positions are not negative.
-/
import PintosKaist.Filesys.Inode
import PintosKaist.Userprog.FdAlias

namespace PintosKaist.FdTable

open Filesys (offT)

abbrev Byte := BitVec 8

/-- `PGSIZE`, `KERN_BASE`. -/
def pgSize : Nat := 4096
def kernBase : Nat := 0x8004000000

/-- The descriptors, and what the calls read and write through them. -/
structure Files where
  fds : State
  /-- The bytes of each inode. -/
  data : Nat → List Byte
  /-- What `putbuf` has written. -/
  out : List Byte
  /-- The keys `input_getc` is going to return. -/
  input : Nat → Byte
  /-- `spt_find_page`, by process and page number. -/
  mapped : Nat → Nat → Bool

/-- A pointer is followed that is no `struct file`, or no longer one. -/
inductive Fault where
  | notFile (v : Slot)
  | freed (f : Nat)
  deriving DecidableEq, Repr

/-- The return value of a call, and what it has put into the user's buffer. -/
structure Result where
  value : Int
  bytes : List Byte
  deriving DecidableEq, Repr

/-- The `struct file` that a slot points to. -/
def deref (s : State) : Slot → Except Fault (Nat × File)
  | .file f =>
    match s.files f with
    | some fl => .ok (f, fl)
    | none => .error (.freed f)
  | v => .error (.notFile v)

/-! ## `filesys/file.c` -/

def Files.setPos (s : Files) (f : Nat) (fl : File) (pos : Int) : Files :=
  { s with fds := s.fds.setFile f (some { fl with pos := pos }) }

/-- `file_read`; `inode_read_at` reads nothing for a size that is negative as
an `off_t`. -/
def fileRead (s : Files) (f : Nat) (fl : File) (size : Int) : Result × Files :=
  let bytes := ((s.data fl.inode).drop fl.pos.toNat).take size.toNat
  (⟨bytes.length, bytes⟩, s.setPos f fl (fl.pos + bytes.length))

/-- `file_write`; `inode_write_at` writes nothing past the end of the file, and
nothing at all while writes are denied. -/
def fileWrite (s : Files) (f : Nat) (fl : File) (buffer : List Byte) : Result × Files :=
  let old := s.data fl.inode
  let pos := fl.pos.toNat
  let n := if 0 < (s.fds.inodes fl.inode).denyWriteCnt then 0
    else min (offT buffer.length).toNat (old.length - pos)
  let new := old.take pos ++ buffer.take n ++ old.drop (pos + n)
  (⟨n, []⟩, { s with data := Function.update s.data fl.inode new }.setPos f fl (fl.pos + n))

/-- `file_length`. -/
def fileLength (s : Files) (fl : File) : Nat := (s.data fl.inode).length

/-! ## `userprog/syscall.c` -/

/-- `process_get_file`. -/
def processGetFile (s : State) (p : Nat) (fd : Int) : Slot :=
  if fd < 2 ∨ maxFd < fd then .null else s.slot p fd.toNat

/-- `sys_write`. -/
def sysWrite (s : Files) (p : Nat) (fd : Int) (buffer : List Byte) : Except Fault (Result × Files) :=
  if fd < 0 ∨ maxFd ≤ fd then .ok (⟨-1, []⟩, s)
  else if s.fds.slot p fd.toNat = .stdout ∧ (s.fds.procs p).stdoutCount ≠ 0 then
    .ok (⟨offT buffer.length, []⟩, { s with out := s.out ++ buffer })
  else if processGetFile s.fds p fd = .null then .ok (⟨-1, []⟩, s)
  else (deref s.fds (processGetFile s.fds p fd)).map fun (f, fl) => fileWrite s f fl buffer

/-- `sys_read`. -/
def sysRead (s : Files) (p : Nat) (fd : Int) (size : Nat) : Except Fault (Result × Files) :=
  if size = 0 then .ok (⟨0, []⟩, s)
  else if fd < 0 ∨ maxFd ≤ fd then .ok (⟨-1, []⟩, s)
  else
    match s.fds.slot p fd.toNat with
    | .stdin =>
      if (s.fds.procs p).stdinCount ≠ 0 then
        .ok (⟨offT size, (List.range size).map s.input⟩, { s with input := fun i => s.input (i + size) })
      else .ok (⟨-1, []⟩, s)
    | .null | .stdout => .ok (⟨-1, []⟩, s)
    | v => (deref s.fds v).map fun (f, fl) => fileRead s f fl (offT size)

/-- `sys_seek`, of an `unsigned` position. -/
def sysSeek (s : Files) (p : Nat) (fd : Int) (position : Nat) : Except Fault (Result × Files) :=
  if fd < 0 ∨ maxFd ≤ fd then .ok (⟨0, []⟩, s)
  else
    match s.fds.slot p fd.toNat with
    | .null | .stdin | .stdout => .ok (⟨0, []⟩, s)
    | v => (deref s.fds v).map fun (f, fl) => (⟨0, []⟩, s.setPos f fl (min position (fileLength s fl)))

/-- `sys_tell`. -/
def sysTell (s : Files) (p : Nat) (fd : Int) : Except Fault (Result × Files) :=
  if fd < 0 ∨ maxFd ≤ fd then .ok (⟨-1, []⟩, s)
  else
    match s.fds.slot p fd.toNat with
    | .null => .ok (⟨-1, []⟩, s)
    | v => (deref s.fds v).map fun (_, fl) => (⟨fl.pos, []⟩, s)

/-- `sys_filesize`. -/
def sysFilesize (s : Files) (p : Nat) (fd : Int) : Except Fault (Result × Files) :=
  if fd < 0 ∨ maxFd ≤ fd then .ok (⟨-1, []⟩, s)
  else
    match s.fds.slot p fd.toNat with
    | .null => .ok (⟨-1, []⟩, s)
    | v => (deref s.fds v).map fun (_, fl) => (⟨fileLength s fl, []⟩, s)

/-- The calls that read and write an open file. -/
inductive Op where
  | read (size : Nat)
  | write (buffer : List Byte)
  | seek (position : Nat)
  | tell
  | filesize
  deriving DecidableEq, Repr

def Op.exec (op : Op) (s : Files) (p : Nat) (fd : Int) : Except Fault (Result × Files) :=
  match op with
  | .read size => sysRead s p fd size
  | .write buffer => sysWrite s p fd buffer
  | .seek position => sysSeek s p fd position
  | .tell => sysTell s p fd
  | .filesize => sysFilesize s p fd

/-- `sys_close`. What it follows is the pointer in the slot. -/
def closeCall (s : Files) (p : Nat) (fd : Int) : Except Fault (Result × Files) :=
  match sysClose s.fds p fd with
  | some t => .ok (⟨0, []⟩, { s with fds := t })
  | none =>
    match s.fds.slot p fd.toNat with
    | .file f => .error (.freed f)
    | v => .error (.notFile v)

/-- The pages from `addr` on that `length` bytes take. -/
def pagesOf (addr length : Nat) : List Nat :=
  (List.range ((length + pgSize - 1) / pgSize)).map fun k => addr / pgSize + k

/-- `do_mmap` of one page: the file is reopened for it. -/
def doMmap (p : Nat) (fl : File) (s : Files) (page : Nat) : Files :=
  { s with
    fds := (fileOpen (inodeReopen s.fds fl.inode) fl.inode).2
    mapped := Function.update s.mapped p (Function.update (s.mapped p) page true) }

/-- `sys_mmap`; `MAP_FAILED` is NULL. -/
def sysMmap (s : Files) (p addr length : Nat) (fd offset : Int) : Except Fault (Result × Files) :=
  if addr = 0 ∨ kernBase ≤ addr ∨ addr % pgSize ≠ 0 then .ok (⟨0, []⟩, s)
  else if fd < 2 ∨ maxFd ≤ fd then .ok (⟨0, []⟩, s)
  else
    match s.fds.slot p fd.toNat with
    | .null => .ok (⟨0, []⟩, s)
    | v => (deref s.fds v).map fun (_, fl) =>
      if offset.tmod pgSize ≠ 0 ∨ fileLength s fl = 0 ∨ length = 0 ∨ addr < length ∨
          (pagesOf addr length).any (s.mapped p) then (⟨0, []⟩, s)
      else (⟨addr, []⟩, (pagesOf addr length).foldl (doMmap p fl) s)

/-- The handlers that take a descriptor. -/
inductive Call where
  | file (op : Op) (fd : Int)
  | close (fd : Int)
  | mmap (addr length : Nat) (fd offset : Int)

def Call.exec (s : Files) (p : Nat) : Call → Except Fault (Result × Files)
  | .file op fd => op.exec s p fd
  | .close fd => closeCall s p fd
  | .mmap addr length fd offset => sysMmap s p addr length fd offset

variable {s s' : State} {io io' : Files} {p q f : Nat} {fd oldfd newfd : Int} {op : Op} {r : Result} {v : Slot}

/-! ## Sentinels -/

/-- What the handlers need of a call: `sys_tell` and `sys_filesize` are not
given a descriptor of the console, `sys_write` none of its input and `sys_mmap`
neither, slots 0 and 1 apart. -/
def Guarded (s : State) (p : Nat) : Call → Prop
  | .file .tell fd | .file .filesize fd => 0 ≤ fd → fd < maxFd → (s.slot p fd.toNat).isStd = false
  | .file (.write _) fd => 2 ≤ fd → fd < maxFd → s.slot p fd.toNat ≠ .stdin
  | .mmap addr _ fd _ => addr ≠ 0 → addr < kernBase → addr % pgSize = 0 → 2 ≤ fd → fd < maxFd →
    (s.slot p fd.toNat).isStd = false
  | _ => True

instance (s : State) (p : Nat) : (c : Call) → Decidable (Guarded s p c)
  | .file .tell _ | .file .filesize _ => inferInstanceAs (Decidable (_ → _))
  | .file (.write _) _ => inferInstanceAs (Decidable (_ → _))
  | .mmap .. => inferInstanceAs (Decidable (_ → _))
  | .file (.read _) _ | .file (.seek _) _ | .close _ => .isTrue trivial

/-- The handler follows a pointer that is no `struct file`. -/
def Wild (io : Files) (p : Nat) (c : Call) : Prop := ∃ v, c.exec io p = .error (.notFile v)

theorem wild_map {α : Type} {g : Nat × File → α} :
    (∃ w, (deref s v).map g = .error (.notFile w)) ↔ v.isFile = false := by
  cases v with
  | file f =>
    simp only [deref]
    split <;> simp [Except.map, Slot.isFile]
  | _ => simp [deref, Except.map, Slot.isFile]

theorem wild_ok {x : Result × Files} :
    (∃ w, (Except.ok x : Except Fault (Result × Files)) = .error (.notFile w)) ↔ False := by
  simp

/-- `sys_tell` and `sys_filesize` follow whatever is in the slot. -/
theorem wild_direct_iff {g : Nat × File → Result × Files} {c : Call} (hg : Guarded s p c ↔
      (0 ≤ fd → fd < maxFd → (s.slot p fd.toNat).isStd = false))
    (hc : c.exec io p = if fd < 0 ∨ maxFd ≤ fd then .ok (⟨-1, []⟩, io) else
      match s.slot p fd.toNat with
      | .null => .ok (⟨-1, []⟩, io)
      | v => (deref s v).map g) : Wild io p c ↔ ¬ Guarded s p c := by
  rw [hg, Wild, hc]
  by_cases hin : fd < 0 ∨ maxFd ≤ fd
  · rw [if_pos hin, wild_ok]
    simp only [false_iff, not_not]
    intro h₀ h₁
    omega
  rw [if_neg hin]
  have hr : 0 ≤ fd ∧ fd < maxFd := by omega
  cases hv : s.slot p fd.toNat with
  | null => simp [Slot.isStd]
  | file f =>
    rw [wild_map]
    simp [Slot.isFile, Slot.isStd]
  | stdin | stdout =>
    rw [wild_map]
    simp [Slot.isFile, Slot.isStd, hr]

theorem wild_write_iff {buffer : List Byte} (ht : Tabled io.fds) (hp : p ∈ io.fds.pids) :
    Wild io p (.file (.write buffer) fd) ↔ ¬ Guarded io.fds p (.file (.write buffer) fd) := by
  simp only [Wild, Call.exec, Op.exec, sysWrite, Guarded]
  by_cases hin : fd < 0 ∨ maxFd ≤ fd
  · rw [if_pos hin, wild_ok]
    simp only [false_iff, not_not]
    intro h₀ h₁
    omega
  rw [if_neg hin]
  obtain ⟨n, rfl⟩ := Int.eq_ofNat_of_zero_le (by omega : 0 ≤ fd)
  have hn : n < maxFd := by omega
  -- the console count of a process that has the console in a slot is not 0
  have hout : io.fds.slot p n = .stdout → (io.fds.procs p).stdoutCount ≠ 0 := fun h => ht.uses_pos hp hn h rfl
  simp only [Int.toNat_natCast]
  by_cases hs : io.fds.slot p n = .stdout
  · rw [if_pos ⟨hs, hout hs⟩, wild_ok, hs]
    simp
  rw [if_neg fun h => hs h.1]
  by_cases h2 : n < 2
  · have hnull : processGetFile io.fds p n = .null := by
      rw [processGetFile, if_pos (by omega)]
    rw [if_pos hnull, wild_ok]
    simp only [false_iff, not_not]
    intro h₀
    omega
  have hget : processGetFile io.fds p n = io.fds.slot p n := by
    rw [processGetFile, if_neg (by omega), Int.toNat_natCast]
  rw [hget]
  have hr : (2 : Int) ≤ n ∧ (n : Int) < maxFd := by omega
  cases hv : io.fds.slot p n with
  | null => simp
  | stdout => exact absurd hv hs
  | stdin =>
    rw [if_neg (by simp), wild_map]
    simp [Slot.isFile, hr]
  | file f =>
    rw [if_neg (by simp), wild_map]
    simp [Slot.isFile]

theorem wild_mmap_iff {addr length : Nat} {offset : Int} :
    Wild io p (.mmap addr length fd offset) ↔ ¬ Guarded io.fds p (.mmap addr length fd offset) := by
  simp only [Wild, Call.exec, sysMmap, Guarded]
  by_cases ha : addr = 0 ∨ kernBase ≤ addr ∨ addr % pgSize ≠ 0
  · rw [if_pos ha, wild_ok]
    simp only [false_iff, not_not]
    intro h₀ h₁ h₂
    omega
  rw [if_neg ha]
  by_cases hin : fd < 2 ∨ maxFd ≤ fd
  · rw [if_pos hin, wild_ok]
    simp only [false_iff, not_not]
    intro _ _ _ h₀ h₁
    omega
  rw [if_neg hin]
  have hr : addr ≠ 0 ∧ addr < kernBase ∧ addr % pgSize = 0 ∧ 2 ≤ fd ∧ fd < maxFd := by omega
  cases hv : io.fds.slot p fd.toNat with
  | null => simp [Slot.isStd]
  | file f =>
    rw [wild_map]
    simp [Slot.isFile, Slot.isStd]
  | stdin | stdout =>
    rw [wild_map]
    simp [Slot.isFile, Slot.isStd, hr]

/-- `sys_read` leaves sentinels alone, wherever they are. -/
theorem not_wild_read {size : Nat} : ¬ Wild io p (.file (.read size) fd) := by
  simp only [Wild, Call.exec, Op.exec, sysRead]
  split
  · simp
  split
  · simp
  cases io.fds.slot p fd.toNat with
  | file f =>
    rw [wild_map]
    simp [Slot.isFile]
  | stdin =>
    show ¬ ∃ w, (if (io.fds.procs p).stdinCount ≠ 0 then _ else _) = _
    split <;> simp
  | null | stdout => simp

/-- So does `sys_seek`. -/
theorem not_wild_seek {position : Nat} : ¬ Wild io p (.file (.seek position) fd) := by
  simp only [Wild, Call.exec, Op.exec, sysSeek]
  split
  · simp
  cases io.fds.slot p fd.toNat with
  | file f =>
    rw [wild_map]
    simp [Slot.isFile]
  | null | stdin | stdout => simp

theorem sysClose_isSome {n : Nat} (h : (s.slot p n).isFile = false) : (sysClose s p n).isSome := by
  simp only [sysClose, Int.toNat_natCast]
  split
  · rfl
  · split
    · simp_all [Slot.isFile]
    · rfl

theorem not_wild_close : ¬ Wild io p (.close fd) := by
  intro ⟨v, hv⟩
  simp only [Call.exec, closeCall] at hv
  cases hs : sysClose io.fds p fd with
  | some t => simp [hs] at hv
  | none =>
    simp only [hs] at hv
    by_cases hin : fd < 0 ∨ maxFd ≤ fd
    · simp [sysClose, hin] at hs
    obtain ⟨n, rfl⟩ := Int.eq_ofNat_of_zero_le (by omega : 0 ≤ fd)
    have : (io.fds.slot p n).isFile = true := by
      by_contra hf
      have := sysClose_isSome (p := p) (Bool.not_eq_true _ ▸ hf)
      simp [hs] at this
    rw [Int.toNat_natCast] at hv
    cases h : io.fds.slot p n with
    | file f => simp [h] at hv
    | _ => simp [h, Slot.isFile] at this

/-- In every state the processes reach, a handler follows a sentinel exactly
when the call is not `Guarded`. -/
theorem not_wild_iff {p₀ : Nat} {es : List Event} (hr : Run.run step (boot p₀) es = some io.fds)
    (hp : p ∈ io.fds.pids) (c : Call) : ¬ Wild io p c ↔ Guarded io.fds p c := by
  have ht := Tabled.run hr
  cases c with
  | file op fd =>
    cases op with
    | read size => exact iff_of_true not_wild_read trivial
    | write buffer => rw [wild_write_iff ht hp, not_not]
    | seek position => exact iff_of_true not_wild_seek trivial
    | tell => rw [wild_direct_iff Iff.rfl rfl, not_not]
    | filesize => rw [wild_direct_iff Iff.rfl rfl, not_not]
  | close fd => exact iff_of_true not_wild_close trivial
  | mmap addr length fd offset => rw [wild_mmap_iff, not_not]

/-- Files with nothing in them, and no keys pressed. -/
def Files.empty (s : State) : Files := ⟨s, fun _ => [], [], fun _ => 0, fun _ _ => false⟩

/-- The console is written to under the number 5. -/
theorem not_wild_console : ∃ s, Run.run step (boot 0) [.sysDup2 0 1 5] = some s ∧
    (¬ Wild (Files.empty s) 0 (.file (.write []) 5) ↔ Guarded s 0 (.file (.write []) 5)) := by
  obtain ⟨s, hr, hp⟩ := (Option.any_eq_true _ _).mp
    (by decide +kernel : (Run.run step (boot 0) [.sysDup2 0 1 5]).any (fun s => decide (0 ∈ s.pids)) = true)
  have hp : 0 ∈ s.pids := of_decide_eq_true hp
  exact ⟨s, hr, not_wild_iff hr hp _⟩

/-- The position of the console: `sys_tell (1)`. -/
theorem wild_tell_console : ¬ ∀ (p₀ : Nat) (es : List Event) (io : Files) (p : Nat) (c : Call),
    Run.run step (boot p₀) es = some io.fds → p ∈ io.fds.pids → ¬ Wild io p c := by
  intro hall
  refine hall 0 [] (Files.empty (boot 0)) 0 (.file .tell 1) rfl (by decide) ⟨.stdout, ?_⟩
  rfl

/-! ## Aliases made by `dup2` -/

/-- A call of a process on a descriptor. -/
structure Use where
  pid : Nat
  op : Op
  fd : Int
  deriving DecidableEq, Repr

/-- The calls one after the other, and what they return. -/
def useAll : Files → List Use → Except Fault (List Result × Files)
  | s, [] => .ok ([], s)
  | s, u :: us =>
    match u.op.exec s u.pid u.fd with
    | .error e => .error e
    | .ok (r, s₁) => (useAll s₁ us).map fun (rs, s₂) => (r :: rs, s₂)

/-- The same use, or one of `newfd` by `p` turned into one of `oldfd`. -/
def Renamed (p : Nat) (oldfd newfd : Int) (u u' : Use) : Prop :=
  u'.pid = u.pid ∧ u'.op = u.op ∧ (u'.fd = u.fd ∨ u.pid = p ∧ u.fd = newfd ∧ u'.fd = oldfd)

/-- Both descriptors are looked up by `process_get_file`, or neither is; but
for the console, which `sys_write` looks for first. -/
def Alike (s : State) (p : Nat) (oldfd newfd : Int) : Prop :=
  (oldfd < 2 ↔ newfd < 2) ∨ s.slot p oldfd.toNat = .stdout

/-- If it returns, no fd table has changed. -/
def KeepsTables (io : Files) (x : Except Fault (Result × Files)) : Prop :=
  ∀ r io', x = .ok (r, io') → SameTables io.fds io'.fds

theorem keepsTables_ok (h : io'.fds = io.fds) : KeepsTables io (.ok (r, io')) := by
  intro r₁ io₁ he
  cases he
  rw [h]
  exact ⟨rfl, rfl, le_rfl⟩

theorem keepsTables_map {g : Nat × File → Result × Files}
    (hg : ∀ x, SameTables io.fds (g x).2.fds) :
    KeepsTables io ((deref io.fds v).map g) := by
  intro r₁ io₁ he
  cases hd : deref io.fds v with
  | error e => simp [hd, Except.map] at he
  | ok x =>
    simp only [hd, Except.map, Except.ok.injEq] at he
    have := hg x
    rwa [he] at this

/-- The calls change no fd table. -/
theorem exec_keepsTables (op : Op) (io : Files) (p : Nat) (fd : Int) : KeepsTables io (op.exec io p fd) := by
  cases op with
  | read size =>
    simp only [Op.exec, sysRead]
    split
    · exact keepsTables_ok rfl
    split
    · exact keepsTables_ok rfl
    split
    · split <;> exact keepsTables_ok rfl
    · exact keepsTables_ok rfl
    · exact keepsTables_ok rfl
    · exact keepsTables_map fun _ => ⟨rfl, rfl, le_rfl⟩
  | write buffer =>
    simp only [Op.exec, sysWrite]
    split
    · exact keepsTables_ok rfl
    split
    · exact keepsTables_ok rfl
    split
    · exact keepsTables_ok rfl
    · exact keepsTables_map fun _ => ⟨rfl, rfl, le_rfl⟩
  | seek position =>
    simp only [Op.exec, sysSeek]
    split
    · exact keepsTables_ok rfl
    split
    · exact keepsTables_ok rfl
    · exact keepsTables_ok rfl
    · exact keepsTables_ok rfl
    · exact keepsTables_map fun _ => ⟨rfl, rfl, le_rfl⟩
  | tell | filesize =>
    simp only [Op.exec, sysTell, sysFilesize]
    split
    · exact keepsTables_ok rfl
    split
    · exact keepsTables_ok rfl
    · exact keepsTables_map fun _ => ⟨rfl, rfl, le_rfl⟩

/-- A call cannot tell two descriptors apart that hold the same, if
`process_get_file` cannot. -/
theorem exec_alike {o n : Nat} (ht : Tabled io.fds) (hp : p ∈ io.fds.pids) (ho : o < maxFd) (hn : n < maxFd)
    (hsame : io.fds.slot p n = io.fds.slot p o) (ha : Alike io.fds p o n) (op : Op) :
    op.exec io p o = op.exec io p n := by
  have hin {k : Nat} (hk : k < maxFd) : ¬ ((k : Int) < 0 ∨ (maxFd : Int) ≤ k) := by omega
  cases op with
  | read size => simp only [Op.exec, sysRead, if_neg (hin ho), if_neg (hin hn), Int.toNat_natCast, hsame]
  | seek position => simp only [Op.exec, sysSeek, if_neg (hin ho), if_neg (hin hn), Int.toNat_natCast, hsame]
  | tell => simp only [Op.exec, sysTell, if_neg (hin ho), if_neg (hin hn), Int.toNat_natCast, hsame]
  | filesize => simp only [Op.exec, sysFilesize, if_neg (hin ho), if_neg (hin hn), Int.toNat_natCast, hsame]
  | write buffer =>
    simp only [Op.exec, sysWrite, if_neg (hin ho), if_neg (hin hn), Int.toNat_natCast, hsame]
    by_cases hs : io.fds.slot p o = .stdout
    · have hout : (io.fds.procs p).stdoutCount ≠ 0 := ht.uses_pos hp ho hs rfl
      rw [if_pos ⟨hs, hout⟩, if_pos ⟨hs, hout⟩]
    · have hlow := ha.resolve_right (by rwa [Int.toNat_natCast])
      have hget : processGetFile io.fds p n = processGetFile io.fds p o := by
        simp only [processGetFile, Int.toNat_natCast, hsame]
        by_cases h2 : (o : Int) < 2
        · rw [if_pos (.inl (hlow.mp h2)), if_pos (.inl h2)]
        · rw [if_neg (by omega), if_neg (by omega)]
      rw [hget]

theorem useAll_renamed {o n : Nat} {us us' : List Use} (ho : o < maxFd) (hn : n < maxFd)
    (hus : List.Forall₂ (Renamed p o n) us us') :
    ∀ {io : Files}, Tabled io.fds → p ∈ io.fds.pids → io.fds.slot p n = io.fds.slot p o → Alike io.fds p o n →
      useAll io us' = useAll io us := by
  induction hus with
  | nil => exact fun _ _ _ _ => rfl
  | @cons u u' us us' hu _ ih =>
    intro io ht hp hsame ha
    obtain ⟨hpid, hop, hfd⟩ := hu
    have hexec : u'.op.exec io u'.pid u'.fd = u.op.exec io u.pid u.fd := by
      rw [hpid, hop]
      rcases hfd with hfd | ⟨rfl, hn', ho'⟩
      · rw [hfd]
      · rw [hn', ho']
        exact exec_alike ht hp ho hn hsame ha u.op
    simp only [useAll, hexec]
    cases he : u.op.exec io u.pid u.fd with
    | error e => rfl
    | ok x =>
      obtain ⟨r, io₁⟩ := x
      have hk := exec_keepsTables u.op io u.pid u.fd r io₁ he
      have hrest : useAll io₁ us' = useAll io₁ us := by
        refine ih (hk.tabled ht) (hk.pids ▸ hp) (by rw [hk.slot, hk.slot, hsame]) ?_
        simpa only [Alike, hk.slot] using ha
      simp only [hrest]

/-- `sys_write` of no bytes tells `process_get_file`'s descriptors from 0 and 1. -/
theorem write_differs {o n : Nat} (ho : o < maxFd) (hn : n < maxFd) (hlow : o < 2) (hhigh : 2 ≤ n)
    (hsame : io.fds.slot p n = io.fds.slot p o) (hnull : io.fds.slot p o ≠ .null)
    (hout : io.fds.slot p o ≠ .stdout) : sysWrite io p o [] ≠ sysWrite io p n [] := by
  have hleft : sysWrite io p o [] = .ok (⟨-1, []⟩, io) := by
    rw [sysWrite, if_neg (by omega), if_neg (by rw [Int.toNat_natCast]; exact fun h => hout h.1),
      if_pos (by rw [processGetFile, if_pos (by omega)])]
  have hget : processGetFile io.fds p n = io.fds.slot p o := by
    rw [processGetFile, if_neg (by omega), Int.toNat_natCast, hsame]
  have hright : sysWrite io p n [] = (deref io.fds (io.fds.slot p o)).map fun (f, fl) => fileWrite io f fl [] := by
    rw [sysWrite, if_neg (by omega), if_neg (by rw [Int.toNat_natCast, hsame]; exact fun h => hout h.1), hget,
      if_neg hnull]
  rw [hleft, hright]
  cases deref io.fds (io.fds.slot p o) with
  | error e => nofun
  | ok x =>
    intro h
    simp only [Except.map, Except.ok.injEq, Prod.mk.injEq, fileWrite, Result.mk.injEq] at h
    have := h.1.1
    omega

/-- Where `dup2 (oldfd, newfd)` succeeds, one descriptor can be used for the
other in every sequence of calls exactly when they are `Alike`. -/
theorem dup2_alias_iff {p₀ : Nat} {es : List Event} (hr : Run.run step (boot p₀) es = some s) (hp : p ∈ s.pids)
    (ho : 0 ≤ oldfd ∧ oldfd < maxFd) (hn : 0 ≤ newfd ∧ newfd < maxFd)
    (hd : sysDup2 s p oldfd newfd = some (newfd, s')) :
    (∀ (io : Files) (us us' : List Use), io.fds = s' → List.Forall₂ (Renamed p oldfd newfd) us us' →
      useAll io us' = useAll io us) ↔ Alike s' p oldfd newfd := by
  obtain ⟨o, rfl⟩ := Int.eq_ofNat_of_zero_le ho.1
  obtain ⟨n, rfl⟩ := Int.eq_ofNat_of_zero_le hn.1
  have ho' : o < maxFd := by omega
  have hn' : n < maxFd := by omega
  have ht : Tabled s' := (Tabled.run hr).sysDup2 hd
  -- the two slots hold the same, which is something
  obtain ⟨hpids, hsame, hnull⟩ : s'.pids = s.pids ∧ s'.slot p n = s'.slot p o ∧ s'.slot p o ≠ .null := by
    by_cases hs : s.slot p o = .null
    · simp only [sysDup2] at hd
      rw [if_neg (by omega), if_pos (by rwa [Int.toNat_natCast])] at hd
      simp only [Option.some.injEq, Prod.mk.injEq] at hd
      omega
    by_cases hon : o = n
    · subst hon
      simp only [sysDup2] at hd
      rw [if_neg (by omega), if_neg (by rwa [Int.toNat_natCast]), if_pos trivial] at hd
      simp only [Option.some.injEq, Prod.mk.injEq] at hd
      obtain ⟨-, rfl⟩ := hd
      exact ⟨rfl, rfl, hs⟩
    · obtain ⟨-, hw⟩ := sysDup2_wrote ho' hn' hon hs hd
      have hold : s'.slot p o = s.slot p o := by rw [hw.slot, if_neg fun h => hon h.2]
      exact ⟨hw.pids, by rw [hw.slot, if_pos ⟨rfl, rfl⟩, hold], by rwa [hold]⟩
  constructor
  · intro hall
    by_contra hna
    simp only [Alike, Int.toNat_natCast, not_or] at hna
    -- a write of no bytes through one, and through the other
    have hone (op : Op) : op.exec (Files.empty s') p o = op.exec (Files.empty s') p n := by
      have := hall (Files.empty s') [⟨p, op, n⟩] [⟨p, op, o⟩] rfl
        (.cons ⟨rfl, rfl, .inr ⟨rfl, rfl, rfl⟩⟩ .nil)
      simp only [useAll] at this
      cases h₁ : op.exec (Files.empty s') p o <;> cases h₂ : op.exec (Files.empty s') p n <;>
        simp_all [Except.map, Prod.ext_iff]
    have hwrite := hone (.write [])
    by_cases hlow : o < 2
    · have hne : sysWrite (Files.empty s') p o [] ≠ sysWrite (Files.empty s') p n [] :=
        write_differs ho' hn' hlow (by omega) hsame hnull hna.2
      exact hne hwrite
    · have hne : sysWrite (Files.empty s') p n [] ≠ sysWrite (Files.empty s') p o [] :=
        write_differs hn' ho' (by omega) (by omega) hsame.symm (hsame ▸ hnull) (hsame ▸ hna.2)
      exact hne hwrite.symm
  · intro ha io us us' hio hus
    subst hio
    exact useAll_renamed ho' hn' hus ht (hpids ▸ hp) hsame ha

/-- A file under the numbers 2 and 7. -/
theorem dup2_alias_file : ∃ s s', Run.run step (boot 0) [.sysOpen 0 (some 7)] = some s ∧
    sysDup2 s 0 2 7 = some (7, s') ∧ Alike s' 0 2 7 ∧
      ((∀ (io : Files) (us us' : List Use), io.fds = s' → List.Forall₂ (Renamed 0 2 7) us us' →
        useAll io us' = useAll io us) ↔ Alike s' 0 2 7) := by
  have h : (Run.run step (boot 0) [.sysOpen 0 (some 7)]).any (fun s => decide (0 ∈ s.pids) &&
      (sysDup2 s 0 2 7).any fun r => decide (r.1 = 7)) = true := by decide +kernel
  obtain ⟨s, hr, he⟩ := (Option.any_eq_true _ _).mp h
  simp only [Bool.and_eq_true, decide_eq_true_eq, Option.any_eq_true] at he
  obtain ⟨hp, ⟨r, s'⟩, hd, rfl⟩ := he
  exact ⟨s, s', hr, hd, .inl (by decide), dup2_alias_iff hr hp (by decide) (by decide) hd⟩

/-- A file put under the number 1 as well: `sys_write (1)` is refused. -/
theorem not_dup2_alias : ¬ ∀ (p₀ : Nat) (es : List Event) (s s' : State) (p : Nat) (oldfd newfd : Int),
    Run.run step (boot p₀) es = some s → p ∈ s.pids → 0 ≤ oldfd ∧ oldfd < maxFd → 0 ≤ newfd ∧ newfd < maxFd →
    sysDup2 s p oldfd newfd = some (newfd, s') → ∀ (io : Files) (us us' : List Use), io.fds = s' →
      List.Forall₂ (Renamed p oldfd newfd) us us' → useAll io us' = useAll io us := by
  intro hall
  have h : (Run.run step (boot 0) [.sysOpen 0 (some 7)]).any (fun s => decide (0 ∈ s.pids) &&
      (sysDup2 s 0 2 1).any fun r => decide (r.1 = 1) && decide ((r.2.slot 0 2).isFile = true)) = true := by
    decide +kernel
  obtain ⟨s, hr, he⟩ := (Option.any_eq_true _ _).mp h
  simp only [Bool.and_eq_true, decide_eq_true_eq, Option.any_eq_true] at he
  obtain ⟨hp, ⟨r, s'⟩, hd, rfl, hf⟩ := he
  have ha := (dup2_alias_iff hr hp (by decide) (by decide) hd).mp (hall 0 _ s s' 0 2 1 hr hp (by decide) (by decide) hd)
  rcases ha with ha | ha
  · exact absurd ha (by decide)
  · have hf : (s'.slot 0 2).isFile = true := hf
    rw [show s'.slot 0 2 = .stdout from ha] at hf
    cases hf

end PintosKaist.FdTable
