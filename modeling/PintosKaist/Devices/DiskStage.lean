/-
One channel, between two steps of threads, drives and interrupts (`Inv`): the
requests on it are done one at a time, and each reads or writes its sector of
the disk that the file system is modelled over.

`Stage` says, of each place in a request, what the drive it is for is at and
how many of its interrupts the driver has still to wait for. What a drive does
by itself (`stage_move`), an interrupt (`stage_handle`) and a step of the thread
(`Holds.runTask`) keep it.
-/
import PintosKaist.Devices.Disk
import PintosKaist.Filesys.Disk

namespace PintosKaist.Ata

open Filesys (Byte secBytes diskWrite)

/-! ## What the requests are for -/

/-- Byte `k` of a buffer: the low byte of a word comes first. -/
def byteAt (ws : List Word) (k : Nat) : Byte :=
  if k % 2 = 0 then (ws.getD (k / 2) 0).setWidth 8 else ((ws.getD (k / 2) 0) >>> 8).setWidth 8

/-- The sectors of a drive, as the bytes of a disk. -/
def disk (m : Nat → Sector) : Filesys.Disk := fun a => byteAt (m (a / secBytes)).val (a % secBytes)

/-- What a request does to the two disks of a channel. It fails when a read did
not get the bytes of its sector. -/
def Done.step (d : Fin 2 → Filesys.Disk) (x : Done) : Option (Fin 2 → Filesys.Disk) :=
  match x.op.cmd with
  | .read =>
    if ∀ k < secBytes, d x.op.dev (x.op.sec.toNat * secBytes + k) = byteAt x.got k then some d else none
  | .write data =>
    some (Function.update d x.op.dev (diskWrite (d x.op.dev) x.op.sec.toNat (byteAt data.val)))

def Done.reads (dev : Fin 2) (x : Done) : Bool := x.op.dev == dev && x.op.cmd == .read

def Done.writes (dev : Fin 2) (x : Done) : Bool := x.op.dev == dev && x.op.cmd != .read

abbrev Store := Fin 2 → Nat → Sector

/-- The sectors after a request. -/
def Op.after (m : Store) (op : Op) : Store :=
  match op.cmd with
  | .read => m
  | .write data => Function.update m op.dev (Function.update (m op.dev) op.sec.toNat data)

/-- The requests done so far make these sectors of the first ones. -/
def Replays (m₀ : Store) (log : List Done) (m : Store) : Prop :=
  Run.run Done.step (fun dev => disk (m₀ dev)) log = some fun dev => disk (m dev)

variable {m₀ m : Store} {c₀ c c' : Channel} {op : Op} {p : Phase} {n t : Nat} {k : Task} {pc : Pc} {dev : Fin 2}
  {log : List Done} {got : List Word}

theorem disk_sector (m : Nat → Sector) (sec : Nat) (hk : n < secBytes) :
    disk m (sec * secBytes + n) = byteAt (m sec).val n := by
  have hd : (sec * secBytes + n) / secBytes = sec := by simp only [secBytes] at *; omega
  have hm : (sec * secBytes + n) % secBytes = n := by simp only [secBytes] at *; omega
  simp only [disk, hd, hm]

theorem disk_update (m : Nat → Sector) (sec : Nat) (data : Sector) :
    disk (Function.update m sec data) = diskWrite (disk m) sec (byteAt data.val) := by
  funext a
  simp only [disk, diskWrite, Function.update_apply]
  split <;> rfl

/-- A request that is done as it should be is one more. -/
theorem Replays.append (h : Replays m₀ log m) (hg : op.cmd = .read → got = (m op.dev op.sec.toNat).val) :
    Replays m₀ (log ++ [⟨op, got⟩]) (op.after m) := by
  simp only [Replays, Run.run_append] at h ⊢
  rw [h]
  simp only [Option.bind_some, Run.run, Done.step, Op.after]
  cases hc : op.cmd with
  | read =>
    have hall : ∀ k < secBytes, disk (m op.dev) (op.sec.toNat * secBytes + k) = byteAt got k := fun k hk => by
      rw [disk_sector _ _ hk, hg hc]
    simp only [if_pos hall, Option.bind_some]
  | write data =>
    simp only [Option.bind_some, Option.some.injEq]
    funext d
    by_cases hd : d = op.dev
    · subst hd
      simp only [Function.update_self, disk_update]
    · simp only [Function.update_of_ne hd]

/-! ## Where a request stands -/

/-- The drives are at rest, and no interrupt is asked for or left over. -/
structure Quiet (c : Channel) : Prop where
  rest : ∀ dev, c.phase dev = .idle
  intrq : c.intrq = false
  wait : c.completionWait = 0

/-- The drive of the request is selected and at `p`, the other one at rest, and
the driver has `n` interrupts to wait for. -/
structure Working (c : Channel) (op : Op) (p : Phase) (n : Nat) : Prop where
  dev : c.phase op.dev = p
  other : ∀ dev, dev ≠ op.dev → c.phase dev = .idle
  selected : c.selected = op.dev
  expecting : c.expectingInterrupt = true
  signals : c.intrq.toNat + c.completionWait = n

/-- The order in which `select_sector` writes the registers. -/
def Reg.index : Reg → Nat
  | .nsect => 0
  | .lbal => 1
  | .lbam => 2
  | .lbah => 3
  | .device => 4

/-- The first `n` registers hold what they are given for the request. -/
def Loaded (c : Channel) (op : Op) (n : Nat) : Prop := ∀ r : Reg, r.index < n → c.regs r = op.value r

/-- What holds when a thread stands at a place in its request; `m` is what the
requests before it have left in the sectors. -/
def Stage (m : Store) (c : Channel) (op : Op) : Pc → Prop
  | .acquire => False
  | .check | .select | .settle => Quiet c ∧ c.sectors = m
  | .idle _ i => i = 0 ∧ Quiet c ∧ c.sectors = m
  | .out r => Quiet c ∧ c.sectors = m ∧ Loaded c op r.index
  | .expect => Quiet c ∧ c.sectors = m ∧ Loaded c op 5
  | .command => Quiet c ∧ c.sectors = m ∧ Loaded c op 5 ∧ c.expectingInterrupt = true
  | .down =>
    match op.cmd with
    | .read =>
      c.sectors = m ∧ (Working c op (.fetching op.sec.toNat) 0 ∨ Working c op (.ready (m op.dev op.sec.toNat).val) 1)
    | .write data =>
      c.sectors = m ∧ Working c op (.storing op.sec.toNat data) 0 ∨ c.sectors = op.after m ∧ Working c op .idle 1
  | .busy _ =>
    c.sectors = m ∧
      match op.cmd with
      | .read => Working c op (.ready (m op.dev op.sec.toNat).val) 0
      | .write _ => Working c op (.accepting op.sec.toNat) 0 ∨ Working c op (.wanting op.sec.toNat []) 0
  | .drq =>
    c.sectors = m ∧
      match op.cmd with
      | .read => Working c op (.ready (m op.dev op.sec.toNat).val) 0
      | .write _ => Working c op (.wanting op.sec.toNat []) 0
  | .input got =>
    c.sectors = m ∧ op.cmd = .read ∧
      ∃ w ws, got ++ w :: ws = (m op.dev op.sec.toNat).val ∧ Working c op (.ready (w :: ws)) 0
  | .output rest =>
    c.sectors = m ∧ rest ≠ [] ∧
      ∃ data got, op.cmd = .write data ∧ got ++ rest = data.val ∧ Working c op (.wanting op.sec.toNat got) 0
  | .count got | .release got =>
    Quiet c ∧ c.sectors = op.after m ∧ (op.cmd = .read → got = (m op.dev op.sec.toNat).val)

/-- The counts are those of the requests. -/
def Counts (c : Channel) (log : List Done) : Prop :=
  ∀ dev, c.readCnt dev = log.countP (Done.reads dev) ∧ c.writeCnt dev = log.countP (Done.writes dev)

/-- The requests that are counted: a thread that is about to release the lock
has counted its own. -/
def Task.counted (log : List Done) (k : Task) : List Done :=
  match k.pc with
  | .release got => log ++ [⟨k.op, got⟩]
  | _ => log

/-- A request whose sector is on its disk and has a number of 28 bits, made with
interrupts on. -/
structure Task.Proper (c : Channel) (k : Task) : Prop where
  onDisk : k.op.sec.toNat < c.capacity k.op.dev
  lt : k.op.sec.toNat < 2 ^ 28
  intrOn : k.intrOn = true

/-- The steps a drive takes before it waits for the driver. -/
def Phase.left : Phase → Nat
  | .fetching _ | .storing _ _ => 2
  | .accepting _ => 1
  | _ => 0

/-- The steps a request has left, from a place in it, at the most: those of the
thread and those of a drive that the thread has still to set to work. -/
def Pc.left (cmd : Cmd) : Pc → Nat
  | .acquire => 5277
  | .check => 5276
  | .idle false i => 4275 + (1000 - i)
  | .select => 4274
  | .settle => 4273
  | .idle true i => 3272 + (1000 - i)
  | .out r => 3271 - r.index
  | .expect => 3266
  | .command => 3265
  | .down => match cmd with
    | .read => 3262
    | .write _ => 3
  | .busy i => 261 + (3000 - i) + if cmd = .read then 0 else 2
  | .drq => 260 + if cmd = .read then 0 else 2
  | .input got => 3 + (sectorWords - got.length)
  | .output rest => 5 + rest.length
  | .count _ => 2
  | .release _ => 1

/-- With those of the drive that it has set to work, and the interrupt. -/
def Channel.left (c : Channel) (op : Op) (pc : Pc) : Nat :=
  pc.left op.cmd + (c.phase op.dev).left + c.intrq.toNat

/-- A thread that holds the lock gets on: it panics, or its request is over, or
has fewer steps left. -/
def Serves (c c' : Channel) (t : Nat) (k : Task) : Prop :=
  c'.panicked = true ∨ c.log.length < c'.log.length ∨
    c'.lock = some t ∧ ∃ k', c'.task t = some k' ∧ k'.op = k.op ∧ c'.left k'.op k'.pc < c.left k.op k.pc

/-- No complaint of the driver, only that a drive is slow. -/
def Message.slow : Message → Bool
  | .idleTimeout | .unexpectedInterrupt => false
  | _ => true

/-- What holds of a channel between two steps, of one that was `c₀`. -/
structure Inv (c₀ c : Channel) : Prop where
  capacity : c.capacity = c₀.capacity
  proper : ∀ t k, c.task t = some k → k.Proper c
  outside : ∀ t k, c.task t = some k → k.pc = .acquire ∨ c.lock = some t
  free : c.lock = none → Quiet c ∧ Counts c c.log ∧ Replays c₀.sectors c.log c.sectors
  held : ∀ t, c.lock = some t →
    ∃ k m, c.task t = some k ∧ Counts c (k.counted c.log) ∧ Replays c₀.sectors c.log m ∧ Stage m c k.op k.pc
  console : ∀ msg ∈ c.console, msg.slow = true

/-! ## The registers -/

theorem device_bits : ∀ x : BitVec 8, x.toNat < 16 →
    ((devMbs ||| devLba ||| devDev ||| x) &&& devDev ≠ 0 ∧ (devMbs ||| devLba ||| 0 ||| x) &&& devDev = 0) ∧
    ((devMbs ||| devLba ||| devDev ||| x) &&& devLba ≠ 0 ∧ (devMbs ||| devLba ||| 0 ||| x) &&& devLba ≠ 0) ∧
    ((devMbs ||| devLba ||| devDev ||| x) &&& 0x0f).toNat = x.toNat ∧
    ((devMbs ||| devLba ||| 0 ||| x) &&& 0x0f).toNat = x.toNat := by
  decide

/-- The top bits of the sector number fit beside the bits of the device
register that say how to read it. -/
theorem top_lt (h : op.sec.toNat < 2 ^ 28) : ((op.sec >>> 24).setWidth 8 : BitVec 8).toNat < 16 := by
  simp only [BitVec.toNat_setWidth, BitVec.toNat_ushiftRight, Nat.shiftRight_eq_div_pow]
  omega

theorem selected_eq (hr : Loaded c op 5) (h : op.sec.toNat < 2 ^ 28) : c.selected = op.dev := by
  have hb := device_bits _ (top_lt h)
  simp only [Channel.selected, hr .device (by decide), Op.value]
  by_cases hd : op.dev = 1
  · rw [if_pos hd, if_neg hb.1.1, hd]
  · rw [if_neg hd, if_pos hb.1.2]
    omega

theorem lba_eq (hr : Loaded c op 5) (h : op.sec.toNat < 2 ^ 28) : c.lba = op.sec.toNat := by
  have hb := device_bits _ (top_lt h)
  have htop : (c.regs .device &&& 0x0f).toNat = op.sec.toNat / 2 ^ 24 := by
    have ht : ((op.sec >>> 24).setWidth 8 : BitVec 8).toNat = op.sec.toNat / 2 ^ 24 := by
      simp only [BitVec.toNat_setWidth, BitVec.toNat_ushiftRight, Nat.shiftRight_eq_div_pow]
      omega
    rw [hr .device (by decide), ← ht]
    by_cases hd : op.dev = 1
    · simp only [Op.value, if_pos hd]
      exact hb.2.2.1
    · simp only [Op.value, if_neg hd]
      exact hb.2.2.2
  simp only [Channel.lba, htop, hr .lbal (by decide), hr .lbam (by decide), hr .lbah (by decide), Op.value,
    BitVec.toNat_setWidth, BitVec.toNat_ushiftRight, Nat.shiftRight_eq_div_pow]
  omega

/-- The request's drive takes the command. -/
theorem outCommand_eq (hq : Quiet c) (hr : Loaded c op 5) (hc : op.sec.toNat < c.capacity op.dev)
    (h : op.sec.toNat < 2 ^ 28) :
    c.outCommand op.cmd.code = some (c.setPhase op.dev (match op.cmd with
      | .read => .fetching op.sec.toNat
      | .write _ => .accepting op.sec.toNat)) := by
  have hb := device_bits _ (top_lt h)
  have hlba : c.regs .device &&& devLba ≠ 0 := by
    rw [hr .device (by decide)]
    by_cases hd : op.dev = 1
    · simp only [Op.value, if_pos hd]
      exact hb.2.1.1
    · simp only [Op.value, if_neg hd]
      exact hb.2.1.2
  have hrest : c.atRest = true := by simp [Channel.atRest, hq.rest]
  simp only [Channel.outCommand, selected_eq hr h, lba_eq hr h]
  rw [if_pos ⟨hrest, hr .nsect (by decide), hlba, hc⟩]
  cases op.cmd with
  | read => rfl
  | write data => rfl

/-! ## The drives -/

theorem Quiet.altStatus (h : Quiet c) : c.altStatus = staDrdy := by simp only [Channel.altStatus, h.rest, Phase.status]

theorem Quiet.outb (h : Quiet c) (r : Reg) (b : BitVec 8) :
    c.outb r b = some { c with regs := Function.update c.regs r b } := by
  simp [Channel.outb, Channel.atRest, h.rest]

theorem Working.altStatus (h : Working c op p n) : c.altStatus = p.status := by
  simp only [Channel.altStatus, h.selected, h.dev]

/-- The phases a drive does not leave by itself. -/
def Phase.still : Phase → Bool
  | .idle | .ready _ | .wanting _ _ => true
  | _ => false

theorem move_still (h : (c.phase dev).still = true) : c.move dev = c := by
  cases hp : c.phase dev with
  | idle => simp only [Channel.move, hp]
  | ready ws => simp only [Channel.move, hp]
  | wanting sec got => simp only [Channel.move, hp]
  | fetching sec => rw [hp] at h; cases h
  | accepting sec => rw [hp] at h; cases h
  | storing sec data => rw [hp] at h; cases h

theorem Quiet.move (h : Quiet c) (dev : Fin 2) : c.move dev = c := move_still (by rw [h.rest]; rfl)

theorem Working.move_still (h : Working c op p n) (hp : p.still = true) (dev : Fin 2) : c.move dev = c := by
  by_cases hd : dev = op.dev
  · exact Ata.move_still (by rw [hd, h.dev, hp])
  · exact Ata.move_still (by rw [h.other dev hd]; rfl)

/-- A drive that goes to another phase and leaves its interrupt as it is. -/
theorem Working.setPhase (h : Working c op p n) (p' : Phase) : Working (c.setPhase op.dev p') op p' n := by
  refine ⟨?_, fun dev hd => ?_, h.selected, h.expecting, h.signals⟩
  · simp only [Channel.setPhase, Function.update_self]
  · simp only [Channel.setPhase, Function.update_of_ne hd]
    exact h.other dev hd

/-- A drive that goes to another phase and asks for an interrupt. -/
theorem Working.raise (h : Working c op p 0) (p' : Phase) (m : Store) :
    Working { c.setPhase op.dev p' with sectors := m, intrq := true } op p' 1 := by
  have hs := h.signals
  have hw := h.setPhase p'
  refine ⟨hw.dev, hw.other, hw.selected, hw.expecting, ?_⟩
  simp only [Channel.setPhase, Bool.toNat_true]
  omega

/-- The driver takes an interrupt that the drive asks for. -/
theorem Working.handle (h : Working c op p n) (hi : c.intrq = true) : Working c.handle op p n := by
  have hs := h.signals
  simp only [Channel.handle, h.expecting, if_true]
  refine ⟨h.dev, h.other, h.selected, h.expecting, ?_⟩
  simp only [hi, Bool.toNat_true] at hs
  simp only [Channel.ackStatus, Bool.toNat_false]
  omega

/-- A request's drive that has come to rest, and has no interrupt left, leaves
the channel quiet. -/
theorem Working.quiet (h : Working c op .idle 0) : Quiet c := by
  have hs := h.signals
  refine ⟨fun dev => ?_, ?_, by omega⟩
  · by_cases hd : dev = op.dev
    · rw [hd]
      exact h.dev
    · exact h.other dev hd
  · cases hi : c.intrq with
    | false => rfl
    | true =>
      rw [hi] at hs
      simp at hs

/-- Of a channel's drives only the one of the request does something by itself. -/
theorem stage_other (hs : Stage m c op pc) (hd : dev ≠ op.dev) : c.phase dev = .idle := by
  cases pc with
  | acquire => exact hs.elim
  | check => exact hs.1.rest dev
  | select => exact hs.1.rest dev
  | settle => exact hs.1.rest dev
  | idle again i => exact hs.2.1.rest dev
  | out r => exact hs.1.rest dev
  | expect => exact hs.1.rest dev
  | command => exact hs.1.rest dev
  | down =>
    cases hc : op.cmd with
    | read =>
      simp only [Stage, hc] at hs
      obtain ⟨hm, hw | hw⟩ := hs
      · exact hw.other dev hd
      · exact hw.other dev hd
    | write data =>
      simp only [Stage, hc] at hs
      obtain ⟨hm, hw⟩ | ⟨hm, hw⟩ := hs
      · exact hw.other dev hd
      · exact hw.other dev hd
  | busy i =>
    obtain ⟨hm, hw⟩ := hs
    cases hc : op.cmd with
    | read =>
      simp only [hc] at hw
      exact hw.other dev hd
    | write data =>
      simp only [hc] at hw
      obtain hw | hw := hw
      · exact hw.other dev hd
      · exact hw.other dev hd
  | drq =>
    obtain ⟨hm, hw⟩ := hs
    cases hc : op.cmd with
    | read =>
      simp only [hc] at hw
      exact hw.other dev hd
    | write data =>
      simp only [hc] at hw
      exact hw.other dev hd
  | input got =>
    obtain ⟨w, ws, hg, hw⟩ := hs.2.2
    exact hw.other dev hd
  | output rest =>
    obtain ⟨data, got, hc, hg, hw⟩ := hs.2.2
    exact hw.other dev hd
  | count got => exact hs.1.rest dev
  | release got => exact hs.1.rest dev

/-- What the drives do by themselves leaves a request at its place. -/
theorem stage_move (hs : Stage m c op pc) (dev : Fin 2) : Stage m (c.move dev) op pc := by
  by_cases hd : c.move dev = c
  · rw [hd]
    exact hs
  obtain rfl : dev = op.dev := by
    by_contra hne
    exact hd (Ata.move_still (by rw [stage_other hs hne]; rfl))
  cases pc with
  | acquire => exact hs
  | check => exact absurd (hs.1.move _) hd
  | select => exact absurd (hs.1.move _) hd
  | settle => exact absurd (hs.1.move _) hd
  | idle again i => exact absurd (hs.2.1.move _) hd
  | out r => exact absurd (hs.1.move _) hd
  | expect => exact absurd (hs.1.move _) hd
  | command => exact absurd (hs.1.move _) hd
  | down =>
    cases hc : op.cmd with
    | read =>
      simp only [Stage, hc] at hs ⊢
      obtain ⟨hm, hw | hw⟩ := hs
      · -- the sector is there to be read
        simp only [Channel.move, hw.dev, hm]
        exact ⟨hm, .inr (hw.raise _ _)⟩
      · exact absurd (hw.move_still rfl _) hd
    | write data =>
      simp only [Stage, hc] at hs ⊢
      obtain ⟨hm, hw⟩ | ⟨hm, hw⟩ := hs
      · -- the sector is stored
        simp only [Channel.move, hw.dev, Op.after, hc, ← hm]
        exact .inr ⟨trivial, hw.raise _ _⟩
      · exact absurd (hw.move_still rfl _) hd
  | busy i =>
    obtain ⟨hm, hw⟩ := hs
    cases hc : op.cmd with
    | read =>
      simp only [hc] at hw
      exact absurd (hw.move_still rfl _) hd
    | write data =>
      simp only [Stage, hc] at hw ⊢
      obtain hw | hw := hw
      · -- the drive has room for the sector
        simp only [Channel.move, hw.dev]
        exact ⟨hm, .inr (hw.setPhase _)⟩
      · exact absurd (hw.move_still rfl _) hd
  | drq =>
    obtain ⟨hm, hw⟩ := hs
    cases hc : op.cmd with
    | read =>
      simp only [hc] at hw
      exact absurd (hw.move_still rfl _) hd
    | write data =>
      simp only [hc] at hw
      exact absurd (hw.move_still rfl _) hd
  | input got =>
    obtain ⟨w, ws, hg, hw⟩ := hs.2.2
    exact absurd (hw.move_still rfl _) hd
  | output rest =>
    obtain ⟨data, got, hc, hg, hw⟩ := hs.2.2
    exact absurd (hw.move_still rfl _) hd
  | count got => exact absurd (hs.1.move _) hd
  | release got => exact absurd (hs.1.move _) hd

/-- No interrupt is taken from a quiet channel. -/
theorem Quiet.intrq_ne (h : Quiet c) : c.intrq ≠ true := by simp [h.intrq]

theorem Working.intrq_ne (h : Working c op p 0) : c.intrq ≠ true := by
  intro hi
  have hs := h.signals
  rw [hi] at hs
  simp at hs

theorem handle_sectors : c.handle.sectors = c.sectors := by
  unfold Channel.handle
  split <;> rfl

/-- An interrupt leaves a request at its place, which is one where the driver
waits for it. -/
theorem stage_handle (hs : Stage m c op pc) (hi : c.intrq = true) :
    c.expectingInterrupt = true ∧ Stage m c.handle op pc := by
  cases pc with
  | acquire => exact hs.elim
  | check => exact absurd hi hs.1.intrq_ne
  | select => exact absurd hi hs.1.intrq_ne
  | settle => exact absurd hi hs.1.intrq_ne
  | idle again i => exact absurd hi hs.2.1.intrq_ne
  | out r => exact absurd hi hs.1.intrq_ne
  | expect => exact absurd hi hs.1.intrq_ne
  | command => exact absurd hi hs.1.intrq_ne
  | down =>
    cases hc : op.cmd with
    | read =>
      simp only [Stage, hc, handle_sectors] at hs ⊢
      obtain ⟨hm, hw | hw⟩ := hs
      · exact absurd hi hw.intrq_ne
      · exact ⟨hw.expecting, hm, .inr (hw.handle hi)⟩
    | write data =>
      simp only [Stage, hc, handle_sectors] at hs ⊢
      obtain ⟨hm, hw⟩ | ⟨hm, hw⟩ := hs
      · exact absurd hi hw.intrq_ne
      · exact ⟨hw.expecting, .inr ⟨hm, hw.handle hi⟩⟩
  | busy i =>
    obtain ⟨hm, hw⟩ := hs
    cases hc : op.cmd with
    | read =>
      simp only [hc] at hw
      exact absurd hi hw.intrq_ne
    | write data =>
      simp only [hc] at hw
      obtain hw | hw := hw
      · exact absurd hi hw.intrq_ne
      · exact absurd hi hw.intrq_ne
  | drq =>
    obtain ⟨hm, hw⟩ := hs
    cases hc : op.cmd with
    | read =>
      simp only [hc] at hw
      exact absurd hi hw.intrq_ne
    | write data =>
      simp only [hc] at hw
      exact absurd hi hw.intrq_ne
  | input got =>
    obtain ⟨w, ws, hg, hw⟩ := hs.2.2
    exact absurd hi hw.intrq_ne
  | output rest =>
    obtain ⟨data, got, hc, hg, hw⟩ := hs.2.2
    exact absurd hi hw.intrq_ne
  | count got => exact absurd hi hs.1.intrq_ne
  | release got => exact absurd hi hs.1.intrq_ne

/-! ## The driver -/

/-- A step at a place in a request leaves these as they are, and prints at most
that a drive is slow. -/
structure Same (c c' : Channel) : Prop where
  lock : c'.lock = c.lock
  task : c'.task = c.task
  capacity : c'.capacity = c.capacity
  log : c'.log = c.log
  console : ∀ msg ∈ c'.console, msg ∈ c.console ∨ msg.slow = true

theorem Same.refl (c : Channel) : Same c c := ⟨rfl, rfl, rfl, rfl, fun _ h => .inl h⟩

theorem Same.print {msg : Message} (h : Same c c') (hm : msg.slow = true) : Same c (c'.print msg) := by
  refine ⟨h.lock, h.task, h.capacity, h.log, fun x hx => ?_⟩
  obtain hx | hx := List.mem_append.mp hx
  · exact h.console x hx
  · obtain rfl := List.mem_singleton.mp hx
    exact .inr hm

/-- A thread that holds the channel's lock, at its place in its request. -/
structure Holds (c₀ : Channel) (m : Store) (c : Channel) (t : Nat) (k : Task) : Prop where
  inv : Inv c₀ c
  lock : c.lock = some t
  task : c.task t = some k
  counts : Counts c (k.counted c.log)
  replays : Replays c₀.sectors c.log m
  stage : Stage m c k.op k.pc

theorem Inv.holds (hI : Inv c₀ c) (hk : c.task t = some k) (hp : k.pc ≠ .acquire) : ∃ m, Holds c₀ m c t k := by
  have hl := (hI.outside t k hk).resolve_left hp
  obtain ⟨k', m, hk', hcnt, hr, hs⟩ := hI.held t hl
  obtain rfl := Option.some.inj (hk.symm.trans hk')
  exact ⟨m, hI, hl, hk, hcnt, hr, hs⟩

/-- Where a request stands is a matter of the registers and the drives, and of
the interrupts the driver waits for. -/
theorem stage_congr (hregs : c'.regs = c.regs) (hphase : c'.phase = c.phase) (hsec : c'.sectors = c.sectors)
    (hintrq : c'.intrq = c.intrq) (hwait : c'.completionWait = c.completionWait)
    (hexp : c'.expectingInterrupt = c.expectingInterrupt) : Stage m c' op pc ↔ Stage m c op pc := by
  have hq : Quiet c' ↔ Quiet c :=
    ⟨fun h => ⟨hphase ▸ h.rest, hintrq ▸ h.intrq, hwait ▸ h.wait⟩,
      fun h => ⟨hphase ▸ h.rest, hintrq ▸ h.intrq, hwait ▸ h.wait⟩⟩
  have hsel : c'.selected = c.selected := by simp only [Channel.selected, hregs]
  have hw : ∀ p n, Working c' op p n ↔ Working c op p n := fun p n =>
    ⟨fun h => ⟨hphase ▸ h.dev, hphase ▸ h.other, hsel ▸ h.selected, hexp ▸ h.expecting, hintrq ▸ hwait ▸ h.signals⟩,
      fun h => ⟨hphase ▸ h.dev, hphase ▸ h.other, hsel ▸ h.selected, hexp ▸ h.expecting, hintrq ▸ hwait ▸ h.signals⟩⟩
  have hl : ∀ n, Loaded c' op n ↔ Loaded c op n := fun n => by simp only [Loaded, hregs]
  cases pc <;> simp only [Stage, hq, hw, hl, hsec, hexp]

/-- Where the threads stand is nothing to the drives. -/
theorem stage_goto {pc' : Pc} : Stage m (c.goto t k pc') op pc ↔ Stage m c op pc :=
  stage_congr rfl rfl rfl rfl rfl rfl

/-- What the thread that holds the lock makes of the channel. -/
structure Goes (c₀ c c' : Channel) (t : Nat) (k : Task) : Prop where
  inv : Inv c₀ c'
  log : c.log <+: c'.log
  serves : Serves c c' t k

theorem Holds.inv_goto (h : Holds c₀ m c t k) (hsame : Same c c')
    (hcnt : Counts c' (({ k with pc } : Task).counted c.log)) (hs : Stage m c' k.op pc) : Inv c₀ (c'.goto t k pc) := by
  have htask : ∀ u x, (c'.goto t k pc).task u = some x → x = { k with pc } ∧ u = t ∨ u ≠ t ∧ c.task u = some x := by
    intro u x hx
    simp only [Channel.goto, Function.update_apply, hsame.task] at hx
    split at hx
    · exact .inl ⟨(Option.some.inj hx).symm, ‹u = t›⟩
    · exact .inr ⟨‹u ≠ t›, hx⟩
  refine ⟨hsame.capacity.trans h.inv.capacity, fun u x hx => ?_, fun u x hx => ?_, fun hl => ?_, fun u hl => ?_,
    fun msg hm => ?_⟩
  · obtain ⟨rfl, rfl⟩ | ⟨hu, hx⟩ := htask u x hx
    · have hp := h.inv.proper _ _ h.task
      exact ⟨hsame.capacity ▸ hp.onDisk, hp.lt, hp.intrOn⟩
    · have hp := h.inv.proper _ _ hx
      exact ⟨hsame.capacity ▸ hp.onDisk, hp.lt, hp.intrOn⟩
  · obtain ⟨rfl, rfl⟩ | ⟨hu, hx⟩ := htask u x hx
    · exact .inr (hsame.lock.trans h.lock)
    · exact (h.inv.outside _ _ hx).imp id hsame.lock.trans
  · have hl : c'.lock = none := hl
    rw [hsame.lock, h.lock] at hl
    cases hl
  · have hl : c'.lock = some u := hl
    rw [hsame.lock, h.lock] at hl
    obtain rfl := Option.some.inj hl
    have hlog : (c'.goto t k pc).log = c.log := hsame.log
    refine ⟨{ k with pc }, m, ?_, ?_, ?_, stage_goto.mpr hs⟩
    · simp only [Channel.goto, Function.update_self]
    · rw [hlog]
      exact hcnt
    · rw [hlog]
      exact h.replays
  · obtain hm | hm := hsame.console msg hm
    · exact h.inv.console msg hm
    · exact hm

/-- The thread goes on, and the counts are right where it comes to. -/
theorem Holds.next (h : Holds c₀ m c t k) (hsame : Same c c')
    (hcnt : Counts c' (({ k with pc } : Task).counted c.log)) (hs : Stage m c' k.op pc)
    (hleft : c'.left k.op pc < c.left k.op k.pc) : Goes c₀ c (c'.goto t k pc) t k := by
  refine ⟨h.inv_goto hsame hcnt hs, by rw [Channel.goto, hsame.log], .inr (.inr ⟨hsame.lock.trans h.lock, ?_⟩)⟩
  refine ⟨{ k with pc }, ?_, rfl, hleft⟩
  simp only [Channel.goto, Function.update_self]

/-- A step that is nothing to the drives. -/
theorem left_lt {pc' : Pc} (hphase : c'.phase = c.phase) (hintrq : c'.intrq = c.intrq)
    (h : pc'.left op.cmd < pc.left op.cmd) : c'.left op pc' < c.left op pc := by
  simp only [Channel.left, hphase, hintrq]
  omega

theorem left_setPhase : (c.setPhase op.dev p).left op pc = pc.left op.cmd + p.left + c.intrq.toNat := by
  simp only [Channel.left, Channel.setPhase, Function.update_self]

/-- What leaves every thread at its place. -/
theorem Inv.stay (hI : Inv c₀ c) (hsame : Same c c') (hr : c'.readCnt = c.readCnt) (hw : c'.writeCnt = c.writeCnt)
    (hq : Quiet c → Quiet c' ∧ c'.sectors = c.sectors)
    (hs : ∀ m op pc, Stage m c op pc → Stage m c' op pc) : Inv c₀ c' := by
  have hcnt : ∀ {log}, Counts c log → Counts c' log := fun h dev => by
    rw [hr, hw]
    exact h dev
  refine ⟨hsame.capacity.trans hI.capacity, fun u x hx => ?_, fun u x hx => ?_, fun hl => ?_, fun u hl => ?_,
    fun msg hm => ?_⟩
  · rw [hsame.task] at hx
    have hp := hI.proper _ _ hx
    exact ⟨hsame.capacity ▸ hp.onDisk, hp.lt, hp.intrOn⟩
  · rw [hsame.task] at hx
    exact (hI.outside _ _ hx).imp id hsame.lock.trans
  · rw [hsame.lock] at hl
    obtain ⟨h₁, h₂, h₃⟩ := hI.free hl
    rw [hsame.log, (hq h₁).2]
    exact ⟨(hq h₁).1, hcnt h₂, h₃⟩
  · rw [hsame.lock] at hl
    obtain ⟨k, m, hk, hc, hrep, hst⟩ := hI.held u hl
    rw [hsame.log, hsame.task]
    exact ⟨k, m, hk, hcnt hc, hrep, hs _ _ _ hst⟩
  · obtain hm | hm := hsame.console msg hm
    · exact hI.console msg hm
    · exact hm

theorem Inv.move (hI : Inv c₀ c) (dev : Fin 2) : Inv c₀ (c.move dev) := by
  have hsame : Same c (c.move dev) ∧ (c.move dev).readCnt = c.readCnt ∧ (c.move dev).writeCnt = c.writeCnt := by
    unfold Channel.move
    split <;> exact ⟨⟨rfl, rfl, rfl, rfl, fun _ h => .inl h⟩, rfl, rfl⟩
  exact hI.stay hsame.1 hsame.2.1 hsame.2.2 (fun hq => by rw [hq.move]; exact ⟨hq, rfl⟩)
    fun _ _ _ hs => stage_move hs dev

/-- An interrupt is one that the driver expects. -/
theorem Inv.handle (hI : Inv c₀ c) (hi : c.intrq = true) : Inv c₀ c.handle := by
  have hexp : c.expectingInterrupt = true := by
    cases hl : c.lock with
    | none => exact absurd hi (hI.free hl).1.intrq_ne
    | some t =>
      obtain ⟨k, m, hk, hc, hr, hs⟩ := hI.held t hl
      exact (stage_handle hs hi).1
  have heq : c.handle = { c.ackStatus with completionWait := c.completionWait + 1 } := by
    simp only [Channel.handle, hexp, if_true]
  refine hI.stay ?_ ?_ ?_ (fun hq => absurd hi hq.intrq_ne) fun _ _ _ hs => (stage_handle hs hi).2
  · rw [heq]
    exact ⟨rfl, rfl, rfl, rfl, fun _ h => .inl h⟩
  · rw [heq]
    rfl
  · rw [heq]
    rfl

/-- What `PANIC` leaves is as it was. -/
theorem Inv.panic (hI : Inv c₀ c) {msg : Message} (hm : msg.slow = true) :
    Inv c₀ { c.print msg with panicked := true } := by
  have hsame := (Same.refl c).print hm
  refine hI.stay ⟨hsame.lock, hsame.task, hsame.capacity, hsame.log, hsame.console⟩ rfl rfl
    (fun hq => ⟨⟨hq.rest, hq.intrq, hq.wait⟩, rfl⟩) fun _ _ _ hs => ?_
  refine (stage_congr ?_ ?_ ?_ ?_ ?_ ?_).mpr hs <;> rfl

/-- `lock_acquire`, when the lock is free. -/
theorem Inv.acquire {intrOn : Bool} (hI : Inv c₀ c) (hk : c.task t = some ⟨op, intrOn, .acquire⟩) (hl : c.lock = none) :
    Inv c₀ ({ c with lock := some t }.goto t ⟨op, intrOn, .acquire⟩ .check) := by
  obtain ⟨hq, hcnt, hr⟩ := hI.free hl
  refine ⟨hI.capacity, fun u x hx => ?_, fun u x hx => ?_, fun h => ?_, fun u h => ?_, hI.console⟩
  · by_cases hu : u = t
    · subst hu
      simp only [Channel.goto, Function.update_self, Option.some.injEq] at hx
      subst hx
      have hp := hI.proper _ _ hk
      exact ⟨hp.onDisk, hp.lt, hp.intrOn⟩
    · simp only [Channel.goto, Function.update_of_ne hu] at hx
      have hp := hI.proper _ _ hx
      exact ⟨hp.onDisk, hp.lt, hp.intrOn⟩
  · by_cases hu : u = t
    · exact .inr (by rw [hu]; rfl)
    · simp only [Channel.goto, Function.update_of_ne hu] at hx
      obtain hp | hp := hI.outside _ _ hx
      · exact .inl hp
      · rw [hl] at hp
        cases hp
  · cases h
  · obtain rfl := Option.some.inj h
    refine ⟨⟨op, intrOn, .check⟩, c.sectors, ?_, hcnt, hr, ⟨hq.rest, hq.intrq, hq.wait⟩, rfl⟩
    simp only [Channel.goto, Function.update_self]

/-- `lock_release`: the request is over. -/
theorem Holds.release {intrOn : Bool} (h : Holds c₀ m c t ⟨op, intrOn, .release got⟩) :
    Goes c₀ c { c with lock := none, task := Function.update c.task t none, log := c.log ++ [⟨op, got⟩] } t
      ⟨op, intrOn, .release got⟩ := by
  refine ⟨?_, List.prefix_append .., .inr (.inl (by simp))⟩
  obtain ⟨hq, hm, hg⟩ := h.stage
  have htask : ∀ u x, Function.update c.task t none u = some x → c.task u = some x := fun u x hx => by
    by_cases hu : u = t
    · subst hu
      simp only [Function.update_self] at hx
      cases hx
    · rwa [Function.update_of_ne hu] at hx
  refine ⟨h.inv.capacity, fun u x hx => ?_, fun u x hx => ?_, fun _ => ⟨⟨hq.rest, hq.intrq, hq.wait⟩, h.counts, ?_⟩,
    fun u hl => ?_, h.inv.console⟩
  · have hp := h.inv.proper _ _ (htask u x hx)
    exact ⟨hp.onDisk, hp.lt, hp.intrOn⟩
  · refine (h.inv.outside _ _ (htask u x hx)).imp id fun hl => ?_
    -- no other thread holds the lock
    obtain rfl := Option.some.inj (h.lock.symm.trans hl)
    simp only [Function.update_self] at hx
    cases hx
  · simp only [hm]
    exact h.replays.append hg
  · cases hl

/-- `wait_until_idle` finds the channel at rest the first time it looks. -/
theorem Holds.waitUntilIdle {intrOn again : Bool} {i : Nat} {done : Pc}
    (h : Holds c₀ m c t ⟨op, intrOn, .idle again i⟩)
    (hcd : ∀ log, Task.counted log ⟨op, intrOn, done⟩ = log)
    (hs : ∀ c', Quiet c' → c'.sectors = m → Stage m c' op done)
    (hleft : done.left op.cmd < (Pc.idle again i).left op.cmd) :
    Goes c₀ c (c.waitUntilIdle t ⟨op, intrOn, .idle again i⟩ again i done) t ⟨op, intrOn, .idle again i⟩ := by
  obtain ⟨rfl, hq, hm⟩ := h.stage
  have hst : c.altStatus &&& (staBsy ||| staDrq) = 0 := by
    rw [hq.altStatus]
    decide
  simp only [Channel.waitUntilIdle, if_pos hst, if_pos (show 0 < 1000 by decide)]
  have hcnt : Counts c.ackStatus (Task.counted c.log ⟨op, intrOn, done⟩) := by
    rw [hcd]
    exact h.counts
  exact h.next ⟨rfl, rfl, rfl, rfl, fun _ h => .inl h⟩ hcnt (hs c.ackStatus ⟨hq.rest, rfl, hq.wait⟩ hm)
    (left_lt rfl hq.intrq.symm hleft)

theorem Holds.select {intrOn : Bool} (h : Holds c₀ m c t ⟨op, intrOn, .select⟩) (b : BitVec 8) :
    ∃ c', ((c.outb .device b).map fun c => c.goto t ⟨op, intrOn, .select⟩ .settle) = some c' ∧
      Goes c₀ c c' t ⟨op, intrOn, .select⟩ := by
  obtain ⟨hq, hm⟩ := h.stage
  rw [hq.outb]
  exact ⟨_, rfl, h.next ⟨rfl, rfl, rfl, rfl, fun _ h => .inl h⟩ h.counts ⟨⟨hq.rest, hq.intrq, hq.wait⟩, hm⟩
    (left_lt rfl rfl (by simp [Pc.left]))⟩

/-- The registers are loaded one after the other. -/
theorem Loaded.update {r : Reg} (h : Loaded c op r.index) :
    Loaded { c with regs := Function.update c.regs r (op.value r) } op (r.index + 1) := by
  intro r' hr'
  by_cases hr : r' = r
  · subst hr
    simp only [Function.update_self]
  · simp only [Function.update_of_ne hr]
    refine h r' ?_
    have hne : r'.index ≠ r.index := by
      cases r <;> cases r' <;> simp_all [Reg.index]
    omega

theorem Reg.left_next (r : Reg) {cmd : Cmd} : r.next.left cmd < (Pc.out r).left cmd := by
  cases r <;> simp [Reg.next, Pc.left, Reg.index]

theorem Holds.out {intrOn : Bool} {r : Reg} (h : Holds c₀ m c t ⟨op, intrOn, .out r⟩) :
    ∃ c', ((c.outb r (op.value r)).map fun c => c.goto t ⟨op, intrOn, .out r⟩ r.next) = some c' ∧
      Goes c₀ c c' t ⟨op, intrOn, .out r⟩ := by
  obtain ⟨hq, hm, hl⟩ := h.stage
  rw [hq.outb]
  have hq' : Quiet { c with regs := Function.update c.regs r (op.value r) } := ⟨hq.rest, hq.intrq, hq.wait⟩
  have hl' := hl.update
  refine ⟨_, rfl, ?_⟩
  have hsame : Same c { c with regs := Function.update c.regs r (op.value r) } :=
    ⟨rfl, rfl, rfl, rfl, fun _ h => .inl h⟩
  cases r with
  | nsect => exact h.next hsame h.counts ⟨hq', hm, hl'⟩ (left_lt rfl rfl (Reg.left_next _))
  | lbal => exact h.next hsame h.counts ⟨hq', hm, hl'⟩ (left_lt rfl rfl (Reg.left_next _))
  | lbam => exact h.next hsame h.counts ⟨hq', hm, hl'⟩ (left_lt rfl rfl (Reg.left_next _))
  | lbah => exact h.next hsame h.counts ⟨hq', hm, hl'⟩ (left_lt rfl rfl (Reg.left_next _))
  | device => exact h.next hsame h.counts ⟨hq', hm, hl'⟩ (left_lt rfl rfl (Reg.left_next _))

/-- The command is for the request's drive and sector. -/
theorem Holds.command {intrOn : Bool} (h : Holds c₀ m c t ⟨op, intrOn, .command⟩) :
    ∃ c', ((c.outCommand op.cmd.code).map fun c => match op.cmd with
      | .read => c.goto t ⟨op, intrOn, .command⟩ .down
      | .write _ => c.goto t ⟨op, intrOn, .command⟩ (.busy 0)) = some c' ∧
      Goes c₀ c c' t ⟨op, intrOn, .command⟩ := by
  obtain ⟨hq, hm, hl, he⟩ := h.stage
  have hp := h.inv.proper _ _ h.task
  rw [outCommand_eq hq hl hp.onDisk hp.lt]
  have hw : ∀ p, Working (c.setPhase op.dev p) op p 0 := fun p => by
    refine ⟨?_, fun dev hd => ?_, selected_eq hl hp.lt, he, ?_⟩
    · simp only [Channel.setPhase, Function.update_self]
    · simp only [Channel.setPhase, Function.update_of_ne hd, hq.rest]
    · simp only [Channel.setPhase, hq.intrq, hq.wait, Bool.toNat_false]
  have hsame : ∀ p, Same c (c.setPhase op.dev p) := fun p => ⟨rfl, rfl, rfl, rfl, fun _ h => .inl h⟩
  cases hc : op.cmd with
  | read =>
    refine ⟨_, rfl, h.next (hsame _) h.counts ?_ ?_⟩
    · simp only [Stage, hc]
      exact ⟨hm, .inl (hw _)⟩
    · rw [left_setPhase]
      simp [Channel.left, Pc.left, Phase.left, hc]
      omega
  | write data =>
    refine ⟨_, rfl, h.next (hsame _) h.counts ?_ ?_⟩
    · simp only [Stage, hc]
      exact ⟨hm, .inl (hw _)⟩
    · rw [left_setPhase]
      simp [Channel.left, Pc.left, Phase.left, hc]
      omega

/-- A waited-for interrupt is one less to wait for. -/
theorem Working.down (h : Working c op p 1) (hw : c.completionWait ≠ 0) :
    Working { c with completionWait := c.completionWait - 1 } op p 0 := by
  have hs := h.signals
  refine ⟨h.dev, h.other, h.selected, h.expecting, ?_⟩
  simp only
  omega

theorem Working.wait_zero (h : Working c op p 0) : c.completionWait = 0 := by
  have hs := h.signals
  omega

theorem Holds.down {intrOn : Bool} (h : Holds c₀ m c t ⟨op, intrOn, .down⟩) (hw : c.completionWait ≠ 0) :
    Goes c₀ c ({ c with completionWait := c.completionWait - 1 }.goto t ⟨op, intrOn, .down⟩ (match op.cmd with
      | .read => .busy 0
      | .write _ => .count [])) t ⟨op, intrOn, .down⟩ := by
  have hst := h.stage
  have hsame : Same c { c with completionWait := c.completionWait - 1 } := ⟨rfl, rfl, rfl, rfl, fun _ h => .inl h⟩
  cases hc : op.cmd with
  | read =>
    simp only [Stage, hc] at hst
    obtain ⟨hm, hk | hk⟩ := hst
    · exact absurd hk.wait_zero hw
    · refine h.next hsame h.counts ?_ (left_lt rfl rfl (by simp [Pc.left, hc]))
      simp only [Stage, hc]
      exact ⟨hm, hk.down hw⟩
  | write data =>
    simp only [Stage, hc] at hst
    obtain ⟨hm, hk⟩ | ⟨hm, hk⟩ := hst
    · exact absurd hk.wait_zero hw
    · refine h.next hsame h.counts ⟨(hk.down hw).quiet, hm, fun hr => ?_⟩ (left_lt rfl rfl (by simp [Pc.left, hc]))
      rw [hc] at hr
      cases hr

/-- A channel on which only something was printed since. -/
structure Alike (c c' : Channel) : Prop where
  same : Same c c'
  counts : ∀ log, Counts c log → Counts c' log
  stage : ∀ m op pc, Stage m c op pc → Stage m c' op pc
  altStatus : c'.altStatus = c.altStatus
  phase : c'.phase = c.phase
  intrq : c'.intrq = c.intrq

theorem Alike.refl (c : Channel) : Alike c c := ⟨.refl c, fun _ h => h, fun _ _ _ h => h, rfl, rfl, rfl⟩

theorem Alike.left {pc' : Pc} (h : Alike c c') (hp : pc'.left op.cmd < pc.left op.cmd) :
    c'.left op pc' < c.left op pc := left_lt h.phase h.intrq hp

theorem stage_print {msg : Message} : Stage m (c.print msg) op pc ↔ Stage m c op pc :=
  stage_congr rfl rfl rfl rfl rfl rfl

theorem Alike.printIf (h : Alike c c') (msg : Message) (hm : msg.slow = true) (b : Prop) [Decidable b] :
    Alike c (if b then c'.print msg else c') := by
  by_cases hb : b
  · rw [if_pos hb]
    exact ⟨h.same.print hm, h.counts, fun m op pc hs => stage_print.mpr (h.stage m op pc hs), h.altStatus, h.phase,
      h.intrq⟩
  · rw [if_neg hb]
    exact h

/-- A drive that is not busy any more has words to give, or wants some. -/
theorem stage_drq {i : Nat} (hs : Stage m c op (.busy i)) (hb : c.altStatus &&& staBsy = 0) : Stage m c op .drq := by
  obtain ⟨hm, hk⟩ := hs
  cases hc : op.cmd with
  | read =>
    simp only [hc] at hk
    simp only [Stage, hc]
    exact ⟨hm, hk⟩
  | write data =>
    simp only [hc] at hk
    simp only [Stage, hc]
    obtain hk | hk := hk
    · rw [hk.altStatus, Phase.status] at hb
      exact absurd hb (by decide)
    · exact ⟨hm, hk⟩

theorem Holds.busy {intrOn : Bool} {i : Nat} (h : Holds c₀ m c t ⟨op, intrOn, .busy i⟩) :
    Goes c₀ c (c.waitWhileBusy t ⟨op, intrOn, .busy i⟩ i) t ⟨op, intrOn, .busy i⟩ := by
  have hst : Stage m c op (.busy i) := h.stage
  have h₁ := (Alike.refl c).printIf .busyWaiting rfl (i = 700)
  have h₂ := h₁.printIf .ok rfl (700 ≤ i)
  simp only [Channel.waitWhileBusy]
  by_cases hi : i < 3000
  · rw [if_pos hi]
    by_cases hb : c.altStatus &&& staBsy = 0
    · rw [if_pos (by rw [h₁.altStatus, hb])]
      exact h.next h₂.same (h₂.counts _ h.counts) (h₂.stage _ _ _ (stage_drq hst hb)) (h₂.left (by
        simp only [Pc.left]
        omega))
    · rw [if_neg (by rw [h₁.altStatus]; exact hb)]
      exact h.next h₁.same (h₁.counts _ h.counts) (h₁.stage _ _ (.busy (i + 1)) hst) (h₁.left (by
        simp only [Pc.left]
        omega))
  · rw [if_neg hi]
    exact ⟨h.inv.panic rfl, List.prefix_rfl, .inl rfl⟩

/-- The drive has words to give, or wants some. -/
theorem Holds.drq_ne {intrOn : Bool} (h : Holds c₀ m c t ⟨op, intrOn, .drq⟩) : c.altStatus &&& staDrq ≠ 0 := by
  obtain ⟨hm, hk⟩ := h.stage
  cases hc : op.cmd with
  | read =>
    simp only [hc] at hk
    rw [hk.altStatus]
    simp only [Phase.status]
    decide
  | write data =>
    simp only [hc] at hk
    rw [hk.altStatus]
    simp only [Phase.status]
    decide

/-- `insw` gets the words of the sector, one after the other. -/
theorem Holds.input {intrOn : Bool} (h : Holds c₀ m c t ⟨op, intrOn, .input got⟩) :
    ∃ c', (c.inw.map fun (w, c) =>
        if (got ++ [w]).length = sectorWords then c.goto t ⟨op, intrOn, .input got⟩ (.count (got ++ [w]))
        else c.goto t ⟨op, intrOn, .input got⟩ (.input (got ++ [w]))) = some c' ∧
      Goes c₀ c c' t ⟨op, intrOn, .input got⟩ := by
  obtain ⟨hm, hcmd, w, ws, hg, hk⟩ := h.stage
  have hc : op.cmd = .read := hcmd
  have hlen : got.length + (ws.length + 1) = sectorWords := by
    have := (m op.dev op.sec.toNat).property
    rw [← hg] at this
    simpa using this
  have hsame : ∀ p, Same c (c.setPhase op.dev p) := fun p => ⟨rfl, rfl, rfl, rfl, fun _ h => .inl h⟩
  cases ws with
  | nil =>
    -- the last word: the drive comes to rest
    have hin : c.inw = some (w, c.setPhase op.dev .idle) := by simp only [Channel.inw, hk.selected, hk.dev]
    rw [hin]
    refine ⟨_, rfl, ?_⟩
    simp only
    rw [if_pos (by simpa using hlen)]
    refine h.next (hsame _) h.counts ⟨(hk.setPhase _).quiet, ?_, fun _ => hg⟩ ?_
    · simp only [Op.after, hc]
      exact hm
    · rw [left_setPhase]
      simp only [Channel.left, Pc.left, Phase.left]
      omega
  | cons w' ws =>
    have hin : c.inw = some (w, c.setPhase op.dev (.ready (w' :: ws))) := by
      simp only [Channel.inw, hk.selected, hk.dev]
    rw [hin]
    refine ⟨_, rfl, ?_⟩
    simp only
    rw [if_neg (by simp only [List.length_cons, List.length_append, List.length_nil] at hlen ⊢; omega)]
    refine h.next (hsame _) h.counts ⟨hm, hc, w', ws, ?_, hk.setPhase _⟩ ?_
    · rw [← hg, List.append_assoc]
      rfl
    · rw [left_setPhase]
      simp only [Channel.left, Pc.left, Phase.left, List.length_append, List.length_cons] at hlen ⊢
      omega

/-- `outsw` gives the words of the buffer, one after the other. -/
theorem Holds.output {intrOn : Bool} {w : Word} {rest : List Word}
    (h : Holds c₀ m c t ⟨op, intrOn, .output (w :: rest)⟩) :
    ∃ c', ((c.outw w).map fun c =>
        c.goto t ⟨op, intrOn, .output (w :: rest)⟩ (if rest = [] then .down else .output rest)) = some c' ∧
      Goes c₀ c c' t ⟨op, intrOn, .output (w :: rest)⟩ := by
  obtain ⟨hm, hne, data, got, hcmd, hg, hk⟩ := h.stage
  have hc : op.cmd = .write data := hcmd
  have hlen : got.length + (rest.length + 1) = sectorWords := by
    have := data.property
    rw [← hg] at this
    simpa using this
  have hsame : ∀ p, Same c (c.setPhase op.dev p) := fun p => ⟨rfl, rfl, rfl, rfl, fun _ h => .inl h⟩
  by_cases hr : rest = []
  · -- the last word: the drive stores the sector
    subst hr
    have hfull : (got ++ [w]).length = sectorWords := by simpa using hlen
    have hout : c.outw w = some (c.setPhase op.dev (.storing op.sec.toNat data)) := by
      have hdata : (⟨got ++ [w], hfull⟩ : Sector) = data := Subtype.ext hg
      simp only [Channel.outw, hk.selected, hk.dev, dif_pos hfull, hdata]
    rw [hout]
    refine ⟨_, rfl, ?_⟩
    simp only [if_true]
    have hs : Stage m (c.setPhase op.dev (.storing op.sec.toNat data)) op .down := by
      simp only [Stage, hc]
      exact .inl ⟨hm, hk.setPhase _⟩
    refine h.next (hsame _) h.counts hs ?_
    rw [left_setPhase]
    simp only [Channel.left, Pc.left, Phase.left, hc, List.length_cons]
    omega
  · have hpos := List.length_pos_iff.mpr hr
    have hout : c.outw w = some (c.setPhase op.dev (.wanting op.sec.toNat (got ++ [w]))) := by
      have hpart : ¬ (got ++ [w]).length = sectorWords := by
        simp only [List.length_append, List.length_cons, List.length_nil]
        omega
      simp only [Channel.outw, hk.selected, hk.dev, dif_neg hpart]
    rw [hout]
    refine ⟨_, rfl, ?_⟩
    simp only [if_neg hr]
    refine h.next (hsame _) h.counts ⟨hm, hr, data, got ++ [w], hc, ?_, hk.setPhase _⟩ ?_
    · rw [← hg, List.append_assoc]
      rfl
    · rw [left_setPhase]
      simp only [Channel.left, Pc.left, Phase.left, List.length_cons]
      omega

theorem Counts.read (h : Counts c log) (hc : op.cmd = .read) (dev : Fin 2) :
    Function.update c.readCnt op.dev (c.readCnt op.dev + 1) dev = List.countP (Done.reads dev) (log ++ [⟨op, got⟩]) ∧
      c.writeCnt dev = List.countP (Done.writes dev) (log ++ [⟨op, got⟩]) := by
  have hd := h dev
  simp only [List.countP_append, List.countP_singleton, Done.reads, Done.writes, hc, Function.update_apply]
  by_cases hdev : dev = op.dev
  · subst hdev
    simp [hd.1, hd.2]
  · simp [hdev, Ne.symm hdev, hd.1, hd.2]

theorem Counts.write {data : Sector} (h : Counts c log) (hc : op.cmd = .write data) (dev : Fin 2) :
    c.readCnt dev = List.countP (Done.reads dev) (log ++ [⟨op, got⟩]) ∧
      Function.update c.writeCnt op.dev (c.writeCnt op.dev + 1) dev =
        List.countP (Done.writes dev) (log ++ [⟨op, got⟩]) := by
  have hd := h dev
  simp only [List.countP_append, List.countP_singleton, Done.reads, Done.writes, hc, Function.update_apply]
  by_cases hdev : dev = op.dev
  · subst hdev
    simp [hd.1, hd.2]
  · simp [hdev, Ne.symm hdev, hd.1, hd.2]

/-- The request is counted before the lock is released. -/
theorem Holds.count {intrOn : Bool} (h : Holds c₀ m c t ⟨op, intrOn, .count got⟩) :
    ∃ c', c.runTask t ⟨op, intrOn, .count got⟩ = some c' ∧ Goes c₀ c c' t ⟨op, intrOn, .count got⟩ := by
  obtain ⟨hq, hm, hg⟩ := h.stage
  have hcnt : Counts c c.log := h.counts
  simp only [Channel.runTask]
  cases hc : op.cmd with
  | read =>
    exact ⟨_, rfl, h.next ⟨rfl, rfl, rfl, rfl, fun _ h => .inl h⟩ (hcnt.read hc)
      ⟨⟨hq.rest, hq.intrq, hq.wait⟩, hm, hg⟩ (left_lt rfl rfl (by simp [Pc.left]))⟩
  | write data =>
    exact ⟨_, rfl, h.next ⟨rfl, rfl, rfl, rfl, fun _ h => .inl h⟩ (hcnt.write hc)
      ⟨⟨hq.rest, hq.intrq, hq.wait⟩, hm, hg⟩ (left_lt rfl rfl (by simp [Pc.left]))⟩

/-- The thread that holds the lock gets on, unless it waits for an interrupt. -/
theorem Holds.runTask (h : Holds c₀ m c t k) (hw : k.pc = .down → c.completionWait ≠ 0) :
    ∃ c', c.runTask t k = some c' ∧ Goes c₀ c c' t k := by
  obtain ⟨op, intrOn, pc⟩ := k
  have hsame : Same c c := .refl c
  have hpr := h.inv.proper _ _ h.task
  cases pc with
  | acquire => exact h.stage.elim
  | check =>
    simp only [Channel.runTask]
    rw [if_pos ⟨hpr.onDisk, hpr.lt⟩]
    exact ⟨_, rfl, h.next hsame h.counts ⟨rfl, h.stage⟩ (left_lt rfl rfl (by simp [Pc.left]))⟩
  | idle again i =>
    obtain ⟨rfl, hq, hm⟩ := h.stage
    cases again with
    | false => exact ⟨_, rfl, h.waitUntilIdle (fun _ => rfl) (fun _ hq hm => ⟨hq, hm⟩) (by simp [Pc.left])⟩
    | true =>
      refine ⟨_, rfl, h.waitUntilIdle (fun _ => rfl) (fun _ hq hm => ⟨hq, hm, fun r hr => ?_⟩) ?_⟩
      · exact absurd hr (Nat.not_lt_zero _)
      · simp [Pc.left, Reg.index]
  | select => exact h.select _
  | settle => exact ⟨_, rfl, h.next hsame h.counts ⟨rfl, h.stage⟩ (left_lt rfl rfl (by simp [Pc.left]))⟩
  | out r => exact h.out
  | expect =>
    obtain ⟨hq, hm, hl⟩ := h.stage
    have hon : intrOn = true := hpr.intrOn
    simp only [Channel.runTask]
    rw [if_pos hon]
    exact ⟨_, rfl, h.next ⟨rfl, rfl, rfl, rfl, fun _ h => .inl h⟩ h.counts
      ⟨⟨hq.rest, hq.intrq, hq.wait⟩, hm, hl, rfl⟩ (left_lt rfl rfl (by simp [Pc.left]))⟩
  | command => exact h.command
  | down =>
    have hd := h.down (hw rfl)
    simp only [Channel.runTask]
    rw [if_neg (hw rfl)]
    cases hc : op.cmd with
    | read =>
      simp only [hc] at hd ⊢
      exact ⟨_, rfl, hd⟩
    | write data =>
      simp only [hc] at hd ⊢
      exact ⟨_, rfl, hd⟩
  | busy i => exact ⟨_, rfl, h.busy⟩
  | drq =>
    have hst := h.stage
    simp only [Channel.runTask]
    rw [if_neg h.drq_ne]
    obtain ⟨hm, hk⟩ := hst
    cases hc : op.cmd with
    | read =>
      simp only [hc] at hk
      refine ⟨_, rfl, h.next hsame h.counts ?_ (left_lt rfl rfl (by simp [Pc.left, hc, sectorWords]))⟩
      have hlen := (m op.dev op.sec.toNat).property
      cases hws : (m op.dev op.sec.toNat).val with
      | nil =>
        rw [hws] at hlen
        cases hlen
      | cons w ws =>
        rw [hws] at hk
        exact ⟨hm, hc, w, ws, hws.symm, hk⟩
    | write data =>
      simp only [hc] at hk
      have hlen := data.property
      refine ⟨_, rfl, h.next hsame h.counts ⟨hm, fun hnil => ?_, data, [], hc, rfl, hk⟩
        (left_lt rfl rfl (by simp [Pc.left, hc, hlen, sectorWords]))⟩
      rw [hnil] at hlen
      cases hlen
  | input got => exact h.input
  | output rest =>
    cases rest with
    | nil => exact absurd rfl h.stage.2.1
    | cons w rest => exact h.output
  | count got => exact h.count
  | release got =>
    simp only [Channel.runTask]
    rw [if_pos h.lock]
    exact ⟨_, rfl, h.release⟩

/-- A step of a request can be taken, whatever the drives and the other threads
have done. -/
theorem Inv.runTask (hI : Inv c₀ c) (hk : c.task t = some k) :
    ∃ c', c.runTask t k = some c' ∧ Inv c₀ c' ∧ c.log <+: c'.log := by
  by_cases hp : k.pc = .acquire
  · obtain ⟨op, intrOn, pc⟩ := k
    obtain rfl : pc = .acquire := hp
    have hself : c.lock ≠ some t := fun hl => by
      obtain ⟨k, m, hk', hc, hr, hs⟩ := hI.held t hl
      obtain rfl := Option.some.inj (hk.symm.trans hk')
      exact hs
    simp only [Channel.runTask]
    rw [if_neg hself]
    by_cases hl : c.lock = none
    · rw [if_pos hl]
      exact ⟨_, rfl, hI.acquire hk hl, List.prefix_rfl⟩
    · rw [if_neg hl]
      exact ⟨c, rfl, hI, List.prefix_rfl⟩
  · obtain ⟨m, h⟩ := hI.holds hk hp
    by_cases hw : k.pc = .down ∧ c.completionWait = 0
    · refine ⟨c, ?_, hI, List.prefix_rfl⟩
      simp only [Channel.runTask, hw.1, hw.2, if_true]
    · obtain ⟨c', hc', hg⟩ := h.runTask fun hd h0 => hw ⟨hd, h0⟩
      exact ⟨c', hc', hg.inv, hg.log⟩

end PintosKaist.Ata
