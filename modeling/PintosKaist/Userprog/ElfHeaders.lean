/-
The loop of `load` (`userprog/process.c`) over the program headers, as the
default build and as the build with `WSL` have it.

With `WSL` the loop reads the header of its turn, and then the tail that the two
builds share reads the next one over it: the headers are those of the default
build from the second on (`headersWsl_eq`), and the builds agree on tables that
repeat their first header only (`same_program_iff`).
-/
import Mathlib.Data.Nat.Digits.Defs
import PintosKaist.Userprog.Elf

namespace PintosKaist.Elf

open Filesys hiding inodeReadAt inodeWriteAt
open FileBytes LazyPages LoadSegment While
open Vm (pgsize)

/-! ## The headers -/

/-- The little-endian number in the `size` bytes from byte `a` on. -/
def word (b : Buffer) (a size : Nat) : Nat := Nat.ofDigits 256 ((List.range size).map fun k => (b (a + k)).toNat)

/-- `struct ELF64_hdr`, as far as `load` looks at it. -/
structure Ehdr where
  eIdent : List Byte
  eType : UInt16
  eMachine : UInt16
  eVersion : UInt32
  eEntry : UInt64
  ePhoff : UInt64
  ePhentsize : UInt16
  ePhnum : UInt16
  deriving DecidableEq, Repr

/-- `sizeof (struct ELF64_hdr)` and `sizeof (struct ELF64_PHDR)`. -/
def ehdrSize : Nat := 64
def phdrSize : Nat := 56

def decodeEhdr (b : Buffer) : Ehdr where
  eIdent := firstBytes b 16
  eType := .ofNat (word b 16 2)
  eMachine := .ofNat (word b 18 2)
  eVersion := .ofNat (word b 20 4)
  eEntry := .ofNat (word b 24 8)
  ePhoff := .ofNat (word b 32 8)
  ePhentsize := .ofNat (word b 54 2)
  ePhnum := .ofNat (word b 56 2)

def decodePhdr (b : Buffer) : Phdr where
  pType := .ofNat (word b 0 4)
  pFlags := .ofNat (word b 4 4)
  pOffset := .ofNat (word b 8 8)
  pVaddr := .ofNat (word b 16 8)
  pPaddr := .ofNat (word b 24 8)
  pFilesz := .ofNat (word b 32 8)
  pMemsz := .ofNat (word b 40 8)
  pAlign := .ofNat (word b 48 8)

/-- What `load` wants of the header of a program. -/
def Ehdr.accepted (e : Ehdr) : Bool :=
  e.eIdent.take 7 = [0x7f, 0x45, 0x4c, 0x46, 2, 1, 1] && e.eType = 2 && e.eMachine = 0x3e && e.eVersion = 1 &&
    e.ePhentsize.toNat = phdrSize && e.ePhnum ≤ 1024

/-! ## `struct file` -/

variable {n : Nat}

/-- `file_read`: the bytes read, the buffer, and `file->pos`. -/
def fileRead (x : Files n) (f : Nat) (buffer : Buffer) (size : Nat) (pos : Int) : Option (Nat × Buffer × Int) :=
  (inodeReadAt n x.disk (x.inode f) (some x.malloc) buffer (offT size) pos).map fun (bytesRead, buffer) =>
    (bytesRead, buffer, offT (pos + bytesRead))

/-- `file_seek`, with its assertion. -/
def fileSeek (newPos : Int) : Option Int := if 0 ≤ newPos then some newPos else none

/-- `file_length`. -/
def fileLength (x : Files n) (f : Nat) : Int := (x.inodes f).length

/-! ## The loop -/

/-- The variables of the loop, with the headers that got to its `switch`. The
header is one buffer, which every turn reads over. -/
structure HeaderLoop where
  i : Nat
  fileOfs : Int
  pos : Int
  phdr : Buffer
  spt : Spt
  processed : List Phdr
  failed : Bool

/-- `goto done`. -/
def HeaderLoop.fail (s : HeaderLoop) : HeaderLoop := { s with failed := true }

/-- The program, with what `malloc` has where `mmap_length` is. -/
def exe (x : Files n) (f mmapLength : Nat) : Exe := ⟨f, fileLength x f, mmapLength⟩

/-- The `switch` of `load`: false is `goto done`. -/
def handlePhdr (x : Exe) (phdr : Phdr) (spt : Spt) : Option (Bool × Spt) :=
  if phdr.pType = 2 ∨ phdr.pType = 3 ∨ phdr.pType = 5 then some (false, spt)
  else if phdr.pType = 1 then loadPtLoad x phdr spt
  else some (true, spt)

/-- The tail of the body, which both builds share. -/
def headerTail (x : Files n) (f mmapLength : Nat) (s : HeaderLoop) : Option (ForInStep HeaderLoop) :=
  (fileRead x f s.phdr phdrSize s.pos).bind fun (bytesRead, phdr, pos) =>
    let s := { s with phdr := phdr, pos := pos }
    if bytesRead ≠ phdrSize then some (.done s.fail)
    else
      let s := { s with fileOfs := offT (s.fileOfs + phdrSize), processed := s.processed ++ [decodePhdr phdr] }
      (handlePhdr (exe x f mmapLength) (decodePhdr phdr) s.spt).map fun (ok, spt) =>
        if ok then .yield { s with spt := spt, i := s.i + 1 } else .done { s with spt := spt }.fail

/-- A turn of the default build. -/
def headerTurn (x : Files n) (f mmapLength : Nat) (e : Ehdr) (s : HeaderLoop) : Option (ForInStep HeaderLoop) :=
  if s.i < e.ePhnum.toNat then
    if s.fileOfs < 0 ∨ s.fileOfs > fileLength x f then some (.done s.fail)
    else (fileSeek s.fileOfs).bind fun pos => headerTail x f mmapLength { s with pos := pos }
  else some (.done s)

/-- A turn with `WSL` defined. -/
def headerTurnWsl (x : Files n) (f mmapLength : Nat) (e : Ehdr) (s : HeaderLoop) : Option (ForInStep HeaderLoop) :=
  if s.i < e.ePhnum.toNat then
    let phdrOfs := offT (e.ePhoff.toNat + s.i * phdrSize : Nat)
    (fileSeek phdrOfs).bind fun pos =>
      (fileRead x f s.phdr phdrSize pos).bind fun (bytesRead, phdr, pos) =>
        let s := { s with phdr := phdr, pos := pos }
        if bytesRead ≠ phdrSize then some (.done s.fail) else headerTail x f mmapLength s
  else some (.done s)

/-- The first `file_read` of `load`, and its checks: the header, and where the
file is then; nothing if they fail. -/
def readEhdr (x : Files n) (f : Nat) (stack : Buffer) : Option (Option (Ehdr × Int)) :=
  (fileRead x f stack ehdrSize 0).map fun (bytesRead, ehdr, pos) =>
    if bytesRead ≠ ehdrSize ∨ !(decodeEhdr ehdr).accepted then none else some (decodeEhdr ehdr, pos)

/-- What a loop over the headers leaves: whether `load` goes on, the headers it
processed, and the table. -/
abbrev Headers := Bool × List Phdr × Spt

/-- The loop, from the header of the program on. `stack` is what is where `ehdr`
and `phdr` are. -/
def loadHeadersBy (turn : Ehdr → HeaderLoop → Option (ForInStep HeaderLoop)) (x : Files n) (f : Nat) (stack : Buffer)
    (spt : Spt) : Option Headers :=
  (readEhdr x f stack).bind fun
    | none => some (false, [], spt)
    | some (e, pos) =>
      (whileLoop (turn e) (e.ePhnum.toNat + 1) ⟨0, offT e.ePhoff.toNat, pos, stack, spt, [], false⟩).map fun s =>
        (!s.failed, s.processed, s.spt)

/-- `load` up to `setup_stack`, in the default build and with `WSL` defined. -/
def loadHeaders (x : Files n) (f mmapLength : Nat) (stack : Buffer) (spt : Spt) : Option Headers :=
  loadHeadersBy (headerTurn x f mmapLength) x f stack spt
def loadHeadersWsl (x : Files n) (f mmapLength : Nat) (stack : Buffer) (spt : Spt) : Option Headers :=
  loadHeadersBy (headerTurnWsl x f mmapLength) x f stack spt

/-! ## The table -/

/-- The header at `ofs`, if it lies in the file. -/
def headerAt (x : Files n) (f ofs : Nat) : Option Phdr :=
  if ((ofs + phdrSize : Nat) : Int) ≤ fileLength x f then
    some (decodePhdr (fileAt x.disk (x.inodes f).toInode ofs))
  else none

/-- Header `j` of the table. -/
def tableHeader (x : Files n) (f : Nat) (e : Ehdr) (j : Nat) : Option Phdr :=
  headerAt x f (e.ePhoff.toNat + j * phdrSize)

/-- What the loop is for: `count` headers of a table are processed, from header
`i` on, until one is missing or is refused. -/
def sweep (x : Exe) (table : Nat → Option Phdr) : Nat → Nat → Spt → Option Headers
  | 0, _, spt => some (true, [], spt)
  | count + 1, i, spt =>
    match table i with
    | none => some (false, [], spt)
    | some phdr =>
      (handlePhdr x phdr spt).bind fun
        | (false, spt) => some (false, [phdr], spt)
        | (true, spt) => (sweep x table count (i + 1) spt).map fun (ok, rest, spt) => (ok, phdr :: rest, spt)

/-! ## A turn -/

variable {x : Files n} {f mmapLength : Nat} {e : Ehdr} {s : HeaderLoop}

theorem word_congr {b c : Buffer} {a size : Nat} (h : ∀ k < size, b (a + k) = c (a + k)) :
    word b a size = word c a size := by
  rw [word, word, List.map_congr_left fun k hk => congrArg BitVec.toNat (h k (List.mem_range.mp hk))]

/-- A header is in the bytes that were read. -/
theorem decodePhdr_patch (b c : Buffer) : decodePhdr (patch b 0 phdrSize c) = decodePhdr c := by
  have hword : ∀ a size, a + size ≤ phdrSize → word (patch b 0 phdrSize c) a size = word c a size := by
    intro a size hle
    refine word_congr fun k hk => ?_
    simp only [patch]
    rw [if_pos (by omega), Nat.sub_zero]
  simp only [phdrSize] at hword
  simp only [decodePhdr, phdrSize]
  rw [hword 0 4 (by omega), hword 4 4 (by omega), hword 8 8 (by omega), hword 16 8 (by omega), hword 24 8 (by omega),
    hword 32 8 (by omega), hword 40 8 (by omega), hword 48 8 (by omega)]

theorem fileRead_eq (buffer : Buffer) {size ofs : Nat} (hsize : (size : Int) < 2 ^ 31) (hofs : (ofs : Int) < 2 ^ 31) :
    fileRead x f buffer size ofs = some ((inFile (x.inodes f).toInode size ofs).toNat,
      patch buffer 0 (inFile (x.inodes f).toInode size ofs).toNat (fileAt x.disk (x.inodes f).toInode ofs),
      offT (ofs + (inFile (x.inodes f).toInode size ofs).toNat)) := by
  have hw : offT (size : Int) = size := offT_of_range (by omega) hsize
  simp only [fileRead, Files.inode, hw]
  rw [inodeReadAt_patch _ _ _ (x.inodes f).on _ _ (by omega) hofs, Int.toNat_natCast, Option.map_some]

/-- A read of what lies in the file. -/
theorem fileRead_in (buffer : Buffer) {size ofs : Nat} (hin : ((ofs + size : Nat) : Int) ≤ fileLength x f) :
    fileRead x f buffer size ofs =
      some (size, patch buffer 0 size (fileAt x.disk (x.inodes f).toInode ofs), ((ofs + size : Nat) : Int)) := by
  have hl₁ := (x.inodes f).length_lt
  have hlen : (x.inodes f).length = fileLength x f := rfl
  have hall : (inFile (x.inodes f).toInode size ofs).toNat = size := by
    simp only [inFile]
    omega
  have hpos : offT ((ofs : Int) + (size : Nat)) = ((ofs + size : Nat) : Int) := by
    rw [offT_of_range (by omega) (by omega)]
    rfl
  rw [fileRead_eq buffer (by omega) (by omega), hall, hpos]

/-- A read of what does not is short. -/
theorem fileRead_past (buffer : Buffer) {size ofs : Nat} (hpos : 0 < size) (hsize : (size : Int) < 2 ^ 31)
    (hofs : (ofs : Int) < 2 ^ 31) (hout : ¬ ((ofs + size : Nat) : Int) ≤ fileLength x f) :
    ∃ m b pos, fileRead x f buffer size ofs = some (m, b, pos) ∧ m ≠ size := by
  have hlen : (x.inodes f).length = fileLength x f := rfl
  have hl₀ := (x.inodes f).length_nonneg
  refine ⟨_, _, _, fileRead_eq buffer hsize hofs, ?_⟩
  simp only [inFile]
  omega

/-- What a turn does with the header it has in hand, and `At` of the state before
the next turn. -/
inductive Handles (x : Exe) (At : HeaderLoop → Prop) (s : HeaderLoop) :
    Option Phdr → Option (ForInStep HeaderLoop) → Prop
  | missing {s' : HeaderLoop} (hfailed : s'.failed = true) (hprocessed : s'.processed = s.processed)
      (hspt : s'.spt = s.spt) : Handles x At s none (some (.done s'))
  | panics {phdr : Phdr} (h : handlePhdr x phdr s.spt = none) : Handles x At s (some phdr) none
  | refused {phdr : Phdr} {s' : HeaderLoop} (h : handlePhdr x phdr s.spt = some (false, s'.spt))
      (hfailed : s'.failed = true) (hprocessed : s'.processed = s.processed ++ [phdr]) :
      Handles x At s (some phdr) (some (.done s'))
  | goesOn {phdr : Phdr} {s' : HeaderLoop} (h : handlePhdr x phdr s.spt = some (true, s'.spt)) (hat : At s')
      (hi : s'.i = s.i + 1) (hprocessed : s'.processed = s.processed ++ [phdr]) :
      Handles x At s (some phdr) (some (.yield s'))

/-- The tail of the body handles the header that the file is at. -/
theorem headerTail_handles {At : HeaderLoop → Prop} {ofs : Nat} (hpos : s.pos = ofs) (hofs : (ofs : Int) < 2 ^ 31)
    (hat : ∀ s', s'.i = s.i + 1 → s'.fileOfs = offT (s.fileOfs + phdrSize) → s'.failed = s.failed → At s') :
    Handles (exe x f mmapLength) At s (headerAt x f ofs) (headerTail x f mmapLength s) := by
  by_cases hin : ((ofs + phdrSize : Nat) : Int) ≤ fileLength x f
  · simp only [headerTail, headerAt, hpos, fileRead_in s.phdr hin, if_pos hin, Option.bind_some, ne_eq,
      not_true_eq_false, if_false, decodePhdr_patch]
    cases hh : handlePhdr (exe x f mmapLength) (decodePhdr (fileAt x.disk (x.inodes f).toInode ofs)) s.spt with
    | none => exact .panics hh
    | some r =>
      obtain ⟨ok, spt⟩ := r
      cases ok with
      | false => exact .refused hh rfl rfl
      | true => exact .goesOn hh (hat _ rfl rfl rfl) rfl rfl
  · obtain ⟨m, b, pos, hread, hm⟩ := fileRead_past s.phdr (by decide) (by decide) hofs hin
    simp only [headerTail, headerAt, hpos, hread, if_neg hin, Option.bind_some, ne_eq, hm, not_false_eq_true, if_true]
    exact .missing rfl rfl rfl

theorem Handles.of_same {x : Exe} {At : HeaderLoop → Prop} {t : HeaderLoop} {phdr : Option Phdr}
    {r : Option (ForInStep HeaderLoop)} (h : Handles x At t phdr r) (hi : t.i = s.i)
    (hprocessed : t.processed = s.processed) (hspt : t.spt = s.spt) : Handles x At s phdr r := by
  cases h with
  | missing hf hp hs => exact .missing hf (hp.trans hprocessed) (hs.trans hspt)
  | panics hh => exact .panics (hspt ▸ hh)
  | refused hh hf hp => exact .refused (hspt ▸ hh) hf (hprocessed ▸ hp)
  | goesOn hh hat hi' hp => exact .goesOn (hspt ▸ hh) hat (hi ▸ hi') (hprocessed ▸ hp)

/-- A loop whose turn `i` handles header `i` of a table. -/
structure Sweeps (x : Exe) (At : HeaderLoop → Prop) (table : Nat → Option Phdr) (count : Nat)
    (turn : HeaderLoop → Option (ForInStep HeaderLoop)) : Prop where
  running : ∀ s, At s → s.failed = false ∧ s.i ≤ count
  stop : ∀ s, At s → s.i = count → turn s = some (.done s)
  turn : ∀ s, At s → s.i < count → Handles x At s (table s.i) (turn s)

/-- **Such a loop sweeps the table.** -/
theorem Sweeps.loop {x : Exe} {At : HeaderLoop → Prop} {table : Nat → Option Phdr} {count fuel : Nat}
    {turn : HeaderLoop → Option (ForInStep HeaderLoop)} (h : Sweeps x At table count turn) (hat : At s)
    (hfuel : count - s.i < fuel) :
    (whileLoop turn fuel s).map (fun t => (!t.failed, t.processed, t.spt)) =
      (sweep x table (count - s.i) s.i s.spt).map fun (ok, rest, spt) => (ok, s.processed ++ rest, spt) := by
  induction fuel generalizing s with
  | zero => exact absurd hfuel (Nat.not_lt_zero _)
  | succ fuel ih =>
    obtain ⟨hfailed, hle⟩ := h.running s hat
    rcases Nat.lt_or_eq_of_le hle with hlt | heq
    · obtain ⟨k, hk⟩ : ∃ k, count - s.i = k + 1 := ⟨count - s.i - 1, by omega⟩
      have hturn := h.turn s hat hlt
      rw [hk, sweep]
      generalize hstep : turn s = r at hturn
      generalize htable : table s.i = phdr at hturn
      simp only [whileLoop, hstep]
      cases hturn with
      | missing hf hp hs => simp [hf, hp, hs]
      | panics hh => simp [hh]
      | refused hh hf hp => simp [hh, hf, hp]
      | @goesOn phdr s' hh hat' hi hp =>
        have hrest : count - s'.i = k := by omega
        have hih := ih hat' (by omega)
        rw [hrest, hi, hp] at hih
        simp only [hh, Option.bind_some, hih, Option.map_map]
        refine congrArg (Option.map · _) (funext fun t => ?_)
        simp
    · rw [whileLoop_done (h.stop s hat heq), heq, Nat.sub_self]
      simp [sweep, hfailed]

/-! ## The two builds -/

/-- The table of a program lies inside its file. -/
def TableInFile (x : Files n) (f : Nat) (e : Ehdr) : Prop :=
  ((e.ePhoff.toNat + e.ePhnum.toNat * phdrSize : Nat) : Int) ≤ fileLength x f

/-- The states of the default build before a turn. -/
structure AtHeader (e : Ehdr) (s : HeaderLoop) : Prop where
  failed : s.failed = false
  le : s.i ≤ e.ePhnum.toNat
  fileOfs : s.fileOfs = offT (e.ePhoff.toNat + s.i * phdrSize : Nat)

/-- Header `i` of a table that lies in the file starts in it. -/
theorem TableInFile.header (h : TableInFile x f e) {i : Nat} (hi : i ≤ e.ePhnum.toNat) :
    ((e.ePhoff.toNat + i * phdrSize : Nat) : Int) ≤ fileLength x f ∧
      ((e.ePhoff.toNat + i * phdrSize : Nat) : Int) < 2 ^ 31 ∧
      offT (e.ePhoff.toNat + i * phdrSize : Nat) = (e.ePhoff.toNat + i * phdrSize : Nat) := by
  have hlt := (x.inodes f).length_lt
  have hle := Nat.mul_le_mul_right phdrSize hi
  have hlen : (x.inodes f).length = fileLength x f := rfl
  unfold TableInFile at h
  exact ⟨by omega, by omega, offT_of_range (by omega) (by omega)⟩

theorem headerTurn_sweeps (h : TableInFile x f e) :
    Sweeps (exe x f mmapLength) (AtHeader e) (tableHeader x f e) e.ePhnum.toNat (headerTurn x f mmapLength e) := by
  refine ⟨fun s hat => ⟨hat.failed, hat.le⟩, fun s hat hi => ?_, fun s hat hi => ?_⟩
  · rw [headerTurn, if_neg (by omega)]
  · obtain ⟨hle, hlt, hw⟩ := h.header hat.le
    have hofs : s.fileOfs = (e.ePhoff.toNat + s.i * phdrSize : Nat) := hat.fileOfs.trans hw
    have hok : ¬ (s.fileOfs < 0 ∨ s.fileOfs > fileLength x f) := by omega
    have hseek : fileSeek s.fileOfs = some ((e.ePhoff.toNat + s.i * phdrSize : Nat) : Int) := by
      rw [fileSeek, if_pos (by omega), hofs]
    rw [headerTurn, if_pos hi, if_neg hok, hseek, Option.bind_some]
    refine Handles.of_same (headerTail_handles rfl hlt fun s' hi' hofs' hf => ?_) rfl rfl rfl
    have hnext : s'.i = s.i + 1 := hi'
    have hsum : ((e.ePhoff.toNat + s.i * phdrSize : Nat) : Int) + (phdrSize : Nat) =
        (e.ePhoff.toNat + (s.i + 1) * phdrSize : Nat) := by
      rw [Nat.add_mul, Nat.one_mul]
      omega
    refine ⟨hf.trans hat.failed, hnext ▸ hi, ?_⟩
    rw [hofs', hnext, ← hsum, ← hofs]

/-- **With `WSL` the turn of header `i` handles header `i + 1`.** -/
theorem headerTurnWsl_sweeps (h : TableInFile x f e) :
    Sweeps (exe x f mmapLength) (fun s => s.failed = false ∧ s.i ≤ e.ePhnum.toNat)
      (fun j => tableHeader x f e (j + 1)) e.ePhnum.toNat (headerTurnWsl x f mmapLength e) := by
  refine ⟨fun s hat => hat, fun s hat hi => ?_, fun s hat hi => ?_⟩
  · rw [headerTurnWsl, if_neg (by omega)]
  · obtain ⟨-, -, hw⟩ := h.header hat.2
    obtain ⟨hle, hlt, -⟩ := h.header (i := s.i + 1) hi
    have hnext : e.ePhoff.toNat + s.i * phdrSize + phdrSize = e.ePhoff.toNat + (s.i + 1) * phdrSize := by
      rw [Nat.add_mul, Nat.one_mul, Nat.add_assoc]
    have hseek : fileSeek (offT (e.ePhoff.toNat + s.i * phdrSize : Nat)) =
        some ((e.ePhoff.toNat + s.i * phdrSize : Nat) : Int) := by
      rw [hw, fileSeek, if_pos (by omega)]
    have hread := fileRead_in (x := x) (f := f) s.phdr (hnext ▸ hle)
    simp only [headerTurnWsl, if_pos hi, hseek, Option.bind_some, hread, ne_eq, not_true_eq_false, if_false]
    refine Handles.of_same (headerTail_handles (congrArg Nat.cast hnext) hlt fun s' hi' _ hf => ?_) rfl rfl rfl
    have hnext : s'.i = s.i + 1 := hi'
    exact ⟨hf.trans hat.1, hnext ▸ hi⟩

variable {stack : Buffer} {spt : Spt} {pos : Int}

theorem loadHeadersBy_eq {turn : Ehdr → HeaderLoop → Option (ForInStep HeaderLoop)} {At : HeaderLoop → Prop}
    {table : Nat → Option Phdr} (hread : readEhdr x f stack = some (some (e, pos)))
    (h : Sweeps (exe x f mmapLength) At table e.ePhnum.toNat (turn e))
    (hat : At ⟨0, offT e.ePhoff.toNat, pos, stack, spt, [], false⟩) :
    loadHeadersBy turn x f stack spt = sweep (exe x f mmapLength) table e.ePhnum.toNat 0 spt := by
  have hloop := h.loop hat (Nat.lt_succ_self _)
  simpa [loadHeadersBy, hread] using hloop

/-- The default build processes the table. -/
theorem loadHeaders_eq (hread : readEhdr x f stack = some (some (e, pos))) (h : TableInFile x f e) :
    loadHeaders x f mmapLength stack spt = sweep (exe x f mmapLength) (tableHeader x f e) e.ePhnum.toNat 0 spt := by
  refine loadHeadersBy_eq hread (headerTurn_sweeps h) ⟨rfl, Nat.zero_le _, ?_⟩
  simp

/-- With `WSL` it is the table without its first header, and with what follows
its last one. -/
theorem loadHeadersWsl_eq (hread : readEhdr x f stack = some (some (e, pos))) (h : TableInFile x f e) :
    loadHeadersWsl x f mmapLength stack spt =
      sweep (exe x f mmapLength) (fun j => tableHeader x f e (j + 1)) e.ePhnum.toNat 0 spt :=
  loadHeadersBy_eq hread (headerTurnWsl_sweeps h) ⟨rfl, Nat.zero_le _⟩

/-! ## Where they agree -/

/-- A header that `load` stops at. -/
def Refused (x : Exe) (phdr : Phdr) (spt : Spt) : Prop :=
  (phdr.pType = 2 ∨ phdr.pType = 3 ∨ phdr.pType = 5) ∨
    phdr.pType = 1 ∧ (validateSegment phdr x.length = false ∨ phdr.Taken spt)

/-- A header that registers pages. -/
def Phdr.HasPages (phdr : Phdr) : Prop := phdr.pType = 1 ∧ 0 < phdr.kept

/-- Copies of a header get to turn `i` of the loop: the second one is refused if
the first has registered its pages. -/
def Reaches (x : Exe) (phdr : Phdr) (spt : Spt) (i : Nat) : Prop :=
  i = 0 ∨ ¬ Refused x phdr spt ∧ (i = 1 ∨ ¬ phdr.HasPages)

section Agree

variable {x : Exe} {phdr : Phdr} {table : Nat → Option Phdr} {count i : Nat}

theorem handlePhdr_refused (h : Refused x phdr spt) : ∃ spt', handlePhdr x phdr spt = some (false, spt') := by
  unfold handlePhdr
  rcases h with htype | ⟨htype, h⟩
  · exact ⟨spt, if_pos htype⟩
  · rw [if_neg (by rw [htype]; decide), if_pos htype, loadPtLoad]
    by_cases hvalid : validateSegment phdr x.length = true
    · rw [if_pos hvalid]
      have htaken : phdr.Taken spt := h.resolve_left (by rw [hvalid]; simp)
      rcases (Phdr.valid_of_validate hvalid).call x spt with ⟨spt', -, hfree, -⟩ | ⟨hcall, -⟩
      · exact absurd htaken hfree
      · exact hcall
    · exact ⟨spt, if_neg hvalid⟩

/-- A header that is not refused is refused the next time if it has pages. -/
theorem handlePhdr_accepted (h : ¬ Refused x phdr spt) :
    ∃ spt', handlePhdr x phdr spt = some (true, spt') ∧ (Refused x phdr spt' ↔ phdr.HasPages) := by
  obtain ⟨htype, hload⟩ := not_or.mp h
  unfold handlePhdr
  rw [if_neg htype]
  by_cases h1 : phdr.pType = 1
  · obtain ⟨hvalid, hfree⟩ := not_or.mp fun hc => hload ⟨h1, hc⟩
    have hvalid : validateSegment phdr x.length = true := by simpa using hvalid
    rcases (Phdr.valid_of_validate hvalid).call x spt with ⟨spt', hcall, -, hpages⟩ | ⟨-, htaken⟩
    · refine ⟨spt', by rw [if_pos h1, loadPtLoad, if_pos hvalid, hcall], ?_⟩
      have hfirst : phdr.pVaddr.toNat / pgsize * pgsize % pgsize = 0 := Nat.mul_mod_left ..
      constructor
      · rintro (hc | ⟨-, hc | ⟨a, ha, hle, hlt, -⟩⟩)
        · exact absurd hc htype
        · rw [hvalid] at hc
          cases hc
        · exact ⟨h1, by omega⟩
      · rintro ⟨-, hpos⟩
        have hin := (hpages _).mpr ⟨hfirst, Nat.le_refl _, Nat.lt_add_of_pos_right hpos⟩
        exact .inr ⟨h1, .inr ⟨_, hfirst, Nat.le_refl _, Nat.lt_add_of_pos_right hpos, hin.2⟩⟩
    · exact absurd htaken hfree
  · exact ⟨spt, if_neg h1, iff_of_false h fun hp => h1 hp.1⟩

theorem sweep_missing (htable : table i = none) : sweep x table (count + 1) i spt = some (false, [], spt) := by
  simp only [sweep, htable]

theorem sweep_refused {spt' : Spt} (htable : table i = some phdr) (h : handlePhdr x phdr spt = some (false, spt')) :
    sweep x table (count + 1) i spt = some (false, [phdr], spt') := by
  simp only [sweep, htable, h, Option.bind_some]

theorem sweep_accepted {spt' : Spt} (htable : table i = some phdr) (h : handlePhdr x phdr spt = some (true, spt')) :
    sweep x table (count + 1) i spt =
      (sweep x table count (i + 1) spt').map fun r => (r.1, phdr :: r.2.1, r.2.2) := by
  simp only [sweep, htable, h, Option.bind_some]

theorem sweep_total (x : Exe) (table : Nat → Option Phdr) (count i : Nat) (spt : Spt) :
    ∃ r, sweep x table count i spt = some r := by
  induction count generalizing i spt with
  | zero => exact ⟨_, rfl⟩
  | succ count ih =>
    cases htable : table i with
    | none => exact ⟨_, sweep_missing htable⟩
    | some phdr =>
      by_cases h : Refused x phdr spt
      · obtain ⟨spt', hh⟩ := handlePhdr_refused h
        exact ⟨_, sweep_refused htable hh⟩
      · obtain ⟨spt', hh, -⟩ := handlePhdr_accepted h
        obtain ⟨r, hr⟩ := ih (i + 1) spt'
        exact ⟨_, by rw [sweep_accepted htable hh, hr, Option.map_some]⟩

/-- The first header that is processed is the first of the table. -/
theorem head_sweep (x : Exe) (table : Nat → Option Phdr) (count i : Nat) (spt : Spt) :
    (sweep x table (count + 1) i spt).map (fun r => r.2.1.head?) = some (table i) := by
  cases htable : table i with
  | none => rw [sweep_missing htable, Option.map_some, List.head?_nil]
  | some phdr =>
    by_cases h : Refused x phdr spt
    · obtain ⟨spt', hh⟩ := handlePhdr_refused h
      rw [sweep_refused htable hh, Option.map_some, List.head?_cons]
    · obtain ⟨spt', hh, -⟩ := handlePhdr_accepted h
      obtain ⟨r, hr⟩ := sweep_total x table count (i + 1) spt'
      rw [sweep_accepted htable hh, hr, Option.map_some, Option.map_some, List.head?_cons]

/-- After a header that is not refused, its copies reach the turns that they
reach without it. -/
theorem reaches_succ {spt' : Spt} {j : Nat} (h : ¬ Refused x phdr spt)
    (hnext : Refused x phdr spt' ↔ phdr.HasPages) : Reaches x phdr spt (j + 1) ↔ Reaches x phdr spt' j := by
  have hone : j + 1 = 1 ↔ j = 0 := by omega
  simp only [Reaches, Nat.succ_ne_zero, false_or, h, not_false_eq_true, true_and, hnext, hone]
  by_cases hp : phdr.HasPages <;> simp [hp]

/-- **A sweep and the one that is a header ahead** agree when every turn that
copies of the first header reach finds one. -/
theorem sweep_shift_iff (hfirst : table i = some phdr) :
    sweep x (fun j => table (j + 1)) count i spt = sweep x table count i spt ↔
      ∀ j < count, Reaches x phdr spt j → table (i + j + 1) = table (i + j) := by
  induction count generalizing i spt with
  | zero => exact iff_of_true rfl fun j hj => absurd hj (Nat.not_lt_zero j)
  | succ count ih =>
    by_cases hrep : table (i + 1) = table i
    swap
    · -- the first header that is processed is another one
      refine iff_of_false (fun heq => hrep ?_) fun hall => hrep (hall 0 (Nat.succ_pos _) (.inl rfl))
      have hhead := head_sweep x (fun j => table (j + 1)) count i spt
      rw [heq, head_sweep] at hhead
      exact (Option.some.inj hhead).symm
    have hnext : table (i + 1) = some phdr := hrep.trans hfirst
    by_cases h : Refused x phdr spt
    · obtain ⟨spt', hh⟩ := handlePhdr_refused h
      refine iff_of_true ?_ fun j _ hj => ?_
      · have hahead : sweep x (fun j => table (j + 1)) (count + 1) i spt = some (false, [phdr], spt') :=
          sweep_refused hnext hh
        rw [hahead, sweep_refused hfirst hh]
      · obtain rfl : j = 0 := hj.resolve_right fun hc => hc.1 h
        exact hrep
    · obtain ⟨spt', hh, hrefused⟩ := handlePhdr_accepted h
      have hinj : Function.Injective fun r : Headers => (r.1, phdr :: r.2.1, r.2.2) := by
        rintro ⟨_, _, _⟩ ⟨_, _, _⟩ heq
        simpa using heq
      have hahead : sweep x (fun j => table (j + 1)) (count + 1) i spt =
          (sweep x (fun j => table (j + 1)) count (i + 1) spt').map fun r => (r.1, phdr :: r.2.1, r.2.2) :=
        sweep_accepted hnext hh
      rw [hahead, sweep_accepted hfirst hh, (Option.map_injective hinj).eq_iff, ih hnext]
      constructor
      · intro hall j hj hreach
        cases j with
        | zero => exact hrep
        | succ j =>
          have hrest := hall j (Nat.lt_of_succ_lt_succ hj) ((reaches_succ h hrefused).mp hreach)
          rwa [Nat.add_right_comm i 1 j] at hrest
      · intro hall j hj hreach
        have hrest := hall (j + 1) (Nat.succ_lt_succ hj) ((reaches_succ h hrefused).mpr hreach)
        rwa [Nat.add_right_comm i 1 j]

end Agree

/-- **The two builds load the same program** exactly when every turn that copies
of the first header reach is followed by a header that is the same again. -/
theorem same_program_iff (hread : readEhdr x f stack = some (some (e, pos))) (h : TableInFile x f e) (spt : Spt) :
    loadHeadersWsl x f mmapLength stack spt = loadHeaders x f mmapLength stack spt ↔
      ∀ phdr, tableHeader x f e 0 = some phdr → ∀ i < e.ePhnum.toNat, Reaches (exe x f mmapLength) phdr spt i →
        tableHeader x f e (i + 1) = tableHeader x f e i := by
  rw [loadHeaders_eq hread h, loadHeadersWsl_eq hread h]
  cases hfirst : tableHeader x f e 0 with
  | none =>
    have hempty : e.ePhnum.toNat = 0 := by
      by_contra hne
      have hin := (h.header (i := 1) (by omega)).1
      simp only [tableHeader, headerAt, Nat.zero_mul, Nat.add_zero, ite_eq_right_iff, reduceCtorEq, imp_false] at hfirst
      exact hfirst (by simpa using hin)
    rw [hempty]
    exact iff_of_true rfl (by simp)
  | some phdr =>
    rw [sweep_shift_iff hfirst]
    simp only [Nat.zero_add, Option.some.injEq, forall_eq']

/-! ## Two programs -/

/-- The header of a program of `phnum` headers. -/
def elfHeader (phnum : Byte) : List Byte :=
  [0x7f, 0x45, 0x4c, 0x46, 2, 1, 1, 0, 0, 0, 0, 0, 0, 0, 0, 0, 2, 0, 0x3e, 0, 1, 0, 0, 0, 0, 0, 0x40, 0, 0, 0, 0, 0,
    64, 0, 0, 0, 0, 0, 0, 0, 0, 0, 0, 0, 0, 0, 0, 0, 0, 0, 0, 0, 64, 0, 56, 0, phnum, 0]

theorem oneSector_lt {length : Int} (h₁ : length < 512) : length < 2 ^ 31 := by omega

theorem oneSector_fits {length : Int} (h₁ : length < 512) : 2 + bytesToSectors length ≤ 2 ^ 32 := by
  simp only [bytesToSectors, sectorSize]
  omega

theorem oneSector_on {length : Int} {h₀ : 0 ≤ length} (h₁ : length < 512) :
    Inode.On ⟨2, length, h₀, oneSector_lt h₁, oneSector_fits h₁⟩ 8 := by
  simp only [Inode.On, bytesToSectors, sectorSize]
  omega

/-- A disk whose inode 0 is the file of such a program, of `length` bytes. The
program headers are zeros: each is a `PT_NULL`. -/
def nullProgram (phnum : Byte) (length : Int) (h₀ : 0 ≤ length) (h₁ : length < 512) : Files 8 where
  disk k := (elfHeader phnum).getD (k - 1024) 0
  inodes _ := ⟨⟨2, length, h₀, oneSector_lt h₁, oneSector_fits h₁⟩, oneSector_on h₁⟩
  denyWriteCnt _ := 0
  malloc _ := 0

theorem decodeEhdr_patch (b c : Buffer) : decodeEhdr (patch b 0 ehdrSize c) = decodeEhdr c := by
  have hbyte : ∀ k < ehdrSize, patch b 0 ehdrSize c k = c k := by
    intro k hk
    simp only [patch]
    rw [if_pos (by omega), Nat.sub_zero]
  have hword : ∀ a size, a + size ≤ ehdrSize → word (patch b 0 ehdrSize c) a size = word c a size :=
    fun a size hle => word_congr fun k hk => hbyte _ (by omega)
  have hident : firstBytes (patch b 0 ehdrSize c) 16 = firstBytes c 16 :=
    List.map_congr_left fun k hk => hbyte k (Nat.lt_trans (List.mem_range.mp hk) (by decide))
  simp only [ehdrSize] at hword hident
  simp only [decodeEhdr, ehdrSize, hident]
  rw [hword 16 2 (by omega), hword 18 2 (by omega), hword 20 4 (by omega), hword 24 8 (by omega), hword 32 8 (by omega),
    hword 54 2 (by omega), hword 56 2 (by omega)]

/-- What the first read finds. -/
theorem readEhdr_in (stack : Buffer) (hin : ((0 + ehdrSize : Nat) : Int) ≤ fileLength x f)
    (hok : (decodeEhdr (fileAt x.disk (x.inodes f).toInode 0)).accepted = true) :
    readEhdr x f stack =
      some (some (decodeEhdr (fileAt x.disk (x.inodes f).toInode 0), ((0 + ehdrSize : Nat) : Int))) := by
  have hread := fileRead_in (x := x) (f := f) stack hin
  rw [Int.natCast_zero] at hread
  simp only [readEhdr, hread, Option.map_some, decodeEhdr_patch, ne_eq, not_true_eq_false, false_or, hok, Bool.not_true,
    Bool.false_eq_true, if_false]

/-- The header of such a program. -/
def nullEhdr (phnum : Byte) (length : Int) (h₀ : 0 ≤ length) (h₁ : length < 512) : Ehdr :=
  decodeEhdr (fileAt (nullProgram phnum length h₀ h₁).disk ((nullProgram phnum length h₀ h₁).inodes 0).toInode 0)

/-- A header that is all zeros. -/
def nullPhdr : Phdr := decodePhdr fun _ => 0

theorem headerAt_null {phnum : Byte} {length : Int} {h₀ : 0 ≤ length} {h₁ : length < 512} {ofs : Nat}
    (hofs : ehdrSize ≤ ofs) :
    headerAt (nullProgram phnum length h₀ h₁) 0 ofs =
      if ((ofs + phdrSize : Nat) : Int) ≤ length then some nullPhdr else none := by
  have hzero : fileAt (nullProgram phnum length h₀ h₁).disk ((nullProgram phnum length h₀ h₁).inodes 0).toInode ofs =
      fun _ => 0 := by
    funext k
    simp only [nullProgram, fileAt, Inode.addr, secBytes, List.getD_eq_getElem?_getD, ehdrSize] at hofs ⊢
    rw [List.getElem?_eq_none (by simp only [elfHeader, List.length_cons, List.length_nil]; omega), Option.getD_none]
  rw [headerAt, hzero]
  rfl

/-- Two headers that are the same, and a third one behind. -/
theorem same_program_null :
    loadHeadersWsl (nullProgram 2 232 (by decide) (by decide)) 0 0 (fun _ => 0) (fun _ => none) =
      loadHeaders (nullProgram 2 232 (by decide) (by decide)) 0 0 (fun _ => 0) fun _ => none := by
  have hread : readEhdr (nullProgram 2 232 (by decide) (by decide)) 0 (fun _ => 0) =
      some (some (nullEhdr 2 232 (by decide) (by decide), ((0 + ehdrSize : Nat) : Int))) :=
    readEhdr_in _ (by decide) (by decide +kernel)
  have hphoff : (nullEhdr 2 232 (by decide) (by decide)).ePhoff.toNat = 64 := by decide +kernel
  have hphnum : (nullEhdr 2 232 (by decide) (by decide)).ePhnum.toNat = 2 := by decide +kernel
  have hin : TableInFile (nullProgram 2 232 (by decide) (by decide)) 0 (nullEhdr 2 232 (by decide) (by decide)) := by
    rw [TableInFile, hphoff, hphnum]
    decide
  refine (same_program_iff hread hin _).mpr fun _ _ i hi _ => ?_
  rw [hphnum] at hi
  have hle : ehdrSize ≤ 64 + i * phdrSize := Nat.le_add_right ..
  rw [tableHeader, tableHeader, hphoff, headerAt_null (by simp only [ehdrSize]; omega), headerAt_null hle,
    if_pos (by simp only [phdrSize]; omega), if_pos (by simp only [phdrSize]; omega)]

/-- A program of one header, with nothing behind it: with `WSL` it is not
loaded. -/
theorem not_same_program_null :
    (∃ e pos, readEhdr (nullProgram 1 120 (by decide) (by decide)) 0 (fun _ => 0) = some (some (e, pos)) ∧
      TableInFile (nullProgram 1 120 (by decide) (by decide)) 0 e) ∧
    loadHeadersWsl (nullProgram 1 120 (by decide) (by decide)) 0 0 (fun _ => 0) (fun _ => none) ≠
      loadHeaders (nullProgram 1 120 (by decide) (by decide)) 0 0 (fun _ => 0) fun _ => none := by
  have hread : readEhdr (nullProgram 1 120 (by decide) (by decide)) 0 (fun _ => 0) =
      some (some (nullEhdr 1 120 (by decide) (by decide), ((0 + ehdrSize : Nat) : Int))) :=
    readEhdr_in _ (by decide) (by decide +kernel)
  have hphoff : (nullEhdr 1 120 (by decide) (by decide)).ePhoff.toNat = 64 := by decide +kernel
  have hphnum : (nullEhdr 1 120 (by decide) (by decide)).ePhnum.toNat = 0 + 1 := by decide +kernel
  have hin : TableInFile (nullProgram 1 120 (by decide) (by decide)) 0 (nullEhdr 1 120 (by decide) (by decide)) := by
    rw [TableInFile, hphoff, hphnum]
    decide
  refine ⟨⟨_, _, hread, hin⟩, fun heq => ?_⟩
  rw [loadHeaders_eq hread hin, loadHeadersWsl_eq hread hin, hphnum] at heq
  have hwsl := head_sweep (exe (nullProgram 1 120 (by decide) (by decide)) 0 0) (fun j =>
    tableHeader (nullProgram 1 120 (by decide) (by decide)) 0 (nullEhdr 1 120 (by decide) (by decide)) (j + 1)) 0 0
    fun _ => none
  rw [heq, head_sweep, tableHeader, tableHeader, hphoff, headerAt_null (by decide), headerAt_null (by decide)] at hwsl
  exact absurd hwsl (by decide)

end PintosKaist.Elf
