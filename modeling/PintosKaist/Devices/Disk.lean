/-
The disk driver (`devices/disk.c`): the requests of any number of threads, the
two ATA channels, the drives on them, and the completion interrupts.

A channel's registers, its drives and its `struct channel` are one state. What
a thread does from one place where it can be interrupted to the next is one
step, and so is what a drive does by itself, and the interrupt handler. A step
that fails an assertion, or that writes a register while a drive is at work, is
`none`.
-/
import Mathlib.Data.BitVec
import Mathlib.Logic.Function.Basic
import PintosKaist.Lib.Run

namespace PintosKaist.Ata

/-- What the data register moves at a time. -/
abbrev Word := BitVec 16

/-- `DISK_SECTOR_SIZE / 2` -/
def sectorWords : Nat := 256

abbrev Sector := { ws : List Word // ws.length = sectorWords }

def staBsy : BitVec 8 := 0x80
def staDrdy : BitVec 8 := 0x40
def staDrq : BitVec 8 := 0x08

def devMbs : BitVec 8 := 0xa0
def devLba : BitVec 8 := 0x40
def devDev : BitVec 8 := 0x10

def cmdReadSectorRetry : BitVec 8 := 0x20
def cmdWriteSectorRetry : BitVec 8 := 0x30

/-! ## The drives -/

/-- The registers of a channel that the driver writes, but for the command and
the data. -/
inductive Reg where
  | nsect
  | lbal
  | lbam
  | lbah
  | device
deriving DecidableEq

/-- What a drive is at: nothing; it looks for a sector to read, and has words
of it left to give; it makes room for a sector to write, has been given some of
its words, and stores it. -/
inductive Phase where
  | idle
  | fetching (sec : Nat)
  | ready (rest : List Word)
  | accepting (sec : Nat)
  | wanting (sec : Nat) (got : List Word)
  | storing (sec : Nat) (data : Sector)
deriving DecidableEq

/-- The bits of the status register that the driver reads. -/
def Phase.status : Phase → BitVec 8
  | .idle => staDrdy
  | .fetching _ | .accepting _ | .storing _ _ => staBsy
  | .ready _ | .wanting _ _ => staDrdy ||| staDrq

/-! ## Requests -/

/-- The commands of `disk_read` and of `disk_write`, which has the words of its
buffer. -/
inductive Cmd where
  | read
  | write (data : Sector)
deriving DecidableEq

def Cmd.code : Cmd → BitVec 8
  | .read => cmdReadSectorRetry
  | .write _ => cmdWriteSectorRetry

/-- A call of `disk_read` or `disk_write`, on disk `dev` of its channel. -/
structure Op where
  dev : Fin 2
  sec : BitVec 32
  cmd : Cmd
deriving DecidableEq

/-- Where in its request a thread stands. -/
inductive Pc where
  /-- `lock_acquire` -/
  | acquire
  /-- the assertions of `select_sector` -/
  | check
  /-- `wait_until_idle`, before or after `select_device`, `i` polls made -/
  | idle (again : Bool) (i : Nat)
  /-- `select_device`: the device register, then the alternate status -/
  | select
  | settle
  /-- the registers `select_sector` writes -/
  | out (r : Reg)
  /-- `issue_pio_command` -/
  | expect
  | command
  /-- `sema_down` -/
  | down
  /-- `wait_while_busy`, `i` polls made, and its second look at the status -/
  | busy (i : Nat)
  | drq
  /-- `input_sector`, with the words of the buffer -/
  | input (got : List Word)
  /-- `output_sector`, with the words still to go -/
  | output (rest : List Word)
  /-- the count, and `lock_release`, with what was read -/
  | count (got : List Word)
  | release (got : List Word)
deriving DecidableEq

/-- A thread in a request, with its interrupt level. -/
structure Task where
  op : Op
  intrOn : Bool
  pc : Pc
deriving DecidableEq

/-- A request that is over; of a read, what it read. -/
structure Done where
  op : Op
  got : List Word
deriving DecidableEq

/-- What the driver prints, but for the disk's name. -/
inductive Message where
  | idleTimeout
  | busyWaiting
  | ok
  | failed
  | unexpectedInterrupt
deriving DecidableEq

/-- A channel: its registers and drives, whether it asks for an interrupt, its
`struct channel` (of the lock, the thread that holds it; of the semaphore, its
value), and the threads in requests on it. `log` is what was done, the first
one first. -/
structure Channel where
  regs : Reg → BitVec 8
  phase : Fin 2 → Phase
  sectors : Fin 2 → Nat → Sector
  intrq : Bool
  lock : Option Nat
  expectingInterrupt : Bool
  completionWait : Nat
  capacity : Fin 2 → Nat
  readCnt : Fin 2 → Nat
  writeCnt : Fin 2 → Nat
  task : Nat → Option Task
  log : List Done
  console : List Message
  panicked : Bool

namespace Channel

/-! ## The ports -/

/-- The drive the device register selects. -/
def selected (c : Channel) : Fin 2 := if c.regs .device &&& devDev = 0 then 0 else 1

/-- The sector the registers address: 28 bits, the low ones first. -/
def lba (c : Channel) : Nat :=
  (c.regs .lbal).toNat + 2 ^ 8 * (c.regs .lbam).toNat + 2 ^ 16 * (c.regs .lbah).toNat +
    2 ^ 24 * (c.regs .device &&& 0x0f).toNat

def atRest (c : Channel) : Bool := c.phase 0 == .idle && c.phase 1 == .idle

def setPhase (c : Channel) (dev : Fin 2) (p : Phase) : Channel :=
  { c with phase := Function.update c.phase dev p }

/-- `inb` of the alternate status. -/
def altStatus (c : Channel) : BitVec 8 := (c.phase c.selected).status

/-- What `inb` of the status does beside: the drive takes back its interrupt. -/
def ackStatus (c : Channel) : Channel := { c with intrq := false }

/-- `outb` to a register. Both drives latch it, and neither may be at work. -/
def outb (c : Channel) (r : Reg) (b : BitVec 8) : Option Channel :=
  if c.atRest then some { c with regs := Function.update c.regs r b } else none

/-- `outb` to the command register: the selected drive starts on one sector, the
one addressed. It must be on the drive. -/
def outCommand (c : Channel) (b : BitVec 8) : Option Channel :=
  if c.atRest ∧ c.regs .nsect = 1 ∧ c.regs .device &&& devLba ≠ 0 ∧ c.lba < c.capacity c.selected then
    if b = cmdReadSectorRetry then some (c.setPhase c.selected (.fetching c.lba))
    else if b = cmdWriteSectorRetry then some (c.setPhase c.selected (.accepting c.lba))
    else none
  else none

/-- `inw` of the data register, when the drive has words to give. -/
def inw (c : Channel) : Option (Word × Channel) :=
  match c.phase c.selected with
  | .ready [] => none
  | .ready [w] => some (w, c.setPhase c.selected .idle)
  | .ready (w :: ws) => some (w, c.setPhase c.selected (.ready ws))
  | _ => none

/-- `outw` to the data register, when the drive wants words. It starts to store
the sector with the last of them. -/
def outw (c : Channel) (w : Word) : Option Channel :=
  match c.phase c.selected with
  | .wanting sec got =>
    if h : (got ++ [w]).length = sectorWords then some (c.setPhase c.selected (.storing sec ⟨got ++ [w], h⟩))
    else some (c.setPhase c.selected (.wanting sec (got ++ [w])))
  | _ => none

/-- What a drive does by itself. It asks for an interrupt when it has the sector
to be read, and when it has stored one. -/
def move (c : Channel) (dev : Fin 2) : Channel :=
  match c.phase dev with
  | .fetching sec => { c.setPhase dev (.ready (c.sectors dev sec).val) with intrq := true }
  | .accepting sec => c.setPhase dev (.wanting sec [])
  | .storing sec data =>
    { c.setPhase dev .idle with
      sectors := Function.update c.sectors dev (Function.update (c.sectors dev) sec data)
      intrq := true }
  | _ => c

/-! ## The driver -/

/-- The thread goes on to another place in its request. -/
def goto (c : Channel) (t : Nat) (k : Task) (pc : Pc) : Channel :=
  { c with task := Function.update c.task t (some { k with pc }) }

def print (c : Channel) (m : Message) : Channel := { c with console := c.console ++ [m] }

end Channel

/-- What `select_sector` writes to a register. -/
def Op.value (op : Op) : Reg → BitVec 8
  | .nsect => 1
  | .lbal => op.sec.setWidth 8
  | .lbam => (op.sec >>> 8).setWidth 8
  | .lbah => (op.sec >>> 16).setWidth 8
  | .device => devMbs ||| devLba ||| (if op.dev = 1 then devDev else 0) ||| (op.sec >>> 24).setWidth 8

/-- What `select_device` writes to the device register. -/
def Op.selectValue (op : Op) : BitVec 8 := if op.dev = 1 then devMbs ||| devDev else devMbs

/-- What `select_sector` does after it wrote a register. -/
def Reg.next : Reg → Pc
  | .nsect => .out .lbal
  | .lbal => .out .lbam
  | .lbam => .out .lbah
  | .lbah => .out .device
  | .device => .expect

namespace Channel

/-- A turn of `wait_until_idle`; `done` is where it returns to. -/
def waitUntilIdle (c : Channel) (t : Nat) (k : Task) (again : Bool) (i : Nat) (done : Pc) : Channel :=
  if i < 1000 then
    if c.altStatus &&& (staBsy ||| staDrq) = 0 then c.ackStatus.goto t k done
    else c.ackStatus.goto t k (.idle again (i + 1))
  else (c.print .idleTimeout).goto t k done

/-- A turn of `wait_while_busy`. Both callers panic when it gives up. -/
def waitWhileBusy (c : Channel) (t : Nat) (k : Task) (i : Nat) : Channel :=
  if i < 3000 then
    let c := if i = 700 then c.print .busyWaiting else c
    if c.altStatus &&& staBsy = 0 then
      let c := if 700 ≤ i then c.print .ok else c
      c.goto t k .drq
    else c.goto t k (.busy (i + 1))
  else { c.print .failed with panicked := true }

/-- A step of `disk_read` or `disk_write`. -/
def runTask (c : Channel) (t : Nat) (k : Task) : Option Channel :=
  match k.pc with
  | .acquire =>
    if c.lock = some t then none
    else if c.lock = none then some ({ c with lock := some t }.goto t k .check)
    else some c
  | .check =>
    if k.op.sec.toNat < c.capacity k.op.dev ∧ k.op.sec.toNat < 2 ^ 28 then some (c.goto t k (.idle false 0))
    else none
  | .idle false i => some (c.waitUntilIdle t k false i .select)
  | .select => (c.outb .device k.op.selectValue).map fun c => c.goto t k .settle
  | .settle => some (c.goto t k (.idle true 0))
  | .idle true i => some (c.waitUntilIdle t k true i (.out .nsect))
  | .out r => (c.outb r (k.op.value r)).map fun c => c.goto t k r.next
  | .expect => if k.intrOn then some ({ c with expectingInterrupt := true }.goto t k .command) else none
  | .command =>
    (c.outCommand k.op.cmd.code).map fun c => match k.op.cmd with
      | .read => c.goto t k .down
      | .write _ => c.goto t k (.busy 0)
  | .down =>
    if c.completionWait = 0 then some c
    else
      let c := { c with completionWait := c.completionWait - 1 }
      match k.op.cmd with
      | .read => some (c.goto t k (.busy 0))
      | .write _ => some (c.goto t k (.count []))
  | .busy i => some (c.waitWhileBusy t k i)
  | .drq =>
    if c.altStatus &&& staDrq = 0 then some { c with panicked := true }
    else match k.op.cmd with
      | .read => some (c.goto t k (.input []))
      | .write data => some (c.goto t k (.output data.val))
  | .input got =>
    c.inw.map fun (w, c) =>
      if (got ++ [w]).length = sectorWords then c.goto t k (.count (got ++ [w]))
      else c.goto t k (.input (got ++ [w]))
  | .output [] => some (c.goto t k .down)
  | .output (w :: rest) => (c.outw w).map fun c => c.goto t k (if rest = [] then .down else .output rest)
  | .count got =>
    match k.op.cmd with
    | .read =>
      let readCnt := Function.update c.readCnt k.op.dev (c.readCnt k.op.dev + 1)
      some ({ c with readCnt }.goto t k (.release got))
    | .write _ =>
      let writeCnt := Function.update c.writeCnt k.op.dev (c.writeCnt k.op.dev + 1)
      some ({ c with writeCnt }.goto t k (.release got))
  | .release got =>
    if c.lock = some t then
      some { c with lock := none, task := Function.update c.task t none, log := c.log ++ [⟨k.op, got⟩] }
    else none

/-- The scheduler runs thread `t`. -/
def run (c : Channel) (t : Nat) : Option Channel :=
  match c.task t with
  | none => some c
  | some k => c.runTask t k

/-- What `interrupt_handler` does once it found its channel. -/
def handle (c : Channel) : Channel :=
  if c.expectingInterrupt then { c.ackStatus with completionWait := c.completionWait + 1 }
  else c.print .unexpectedInterrupt

end Channel

/-! ## The two channels -/

/-- `channels` -/
abbrev Sys := Fin 2 → Channel

/-- The `irq` of a channel. -/
def irq : Fin 2 → Nat
  | 0 => 14 + 0x20
  | 1 => 15 + 0x20

/-- `interrupt_handler`; it does not return when the interrupt is of no
channel. -/
def interruptHandler (s : Sys) (vecNo : Nat) : Option Sys :=
  if vecNo = irq 0 then some (Function.update s 0 (s 0).handle)
  else if vecNo = irq 1 then some (Function.update s 1 (s 1).handle)
  else none

/-- A thread that is in no request makes one; the scheduler runs a thread; a
drive does what it does by itself; the interrupt of a channel is delivered. -/
inductive Event where
  | call (t : Nat) (n : Fin 2) (op : Op) (intrOn : Bool)
  | run (t : Nat) (n : Fin 2)
  | move (n : Fin 2) (dev : Fin 2)
  | interrupt (n : Fin 2)
deriving DecidableEq

/-- The thread is in no request. -/
def out (s : Sys) (t : Nat) : Bool := (s 0).task t == none && (s 1).task t == none

/-- A thread has called `PANIC`, which does not return. -/
def panicked (s : Sys) : Bool := (s 0).panicked || (s 1).panicked

def step (s : Sys) (e : Event) : Option Sys :=
  if panicked s then some s
  else match e with
    | .call t n op intrOn =>
      if out s t then
        some (Function.update s n { s n with task := Function.update (s n).task t (some ⟨op, intrOn, .acquire⟩) })
      else some s
    | .run t n => ((s n).run t).map (Function.update s n)
    | .move n dev => some (Function.update s n ((s n).move dev))
    | .interrupt n => if (s n).intrq then interruptHandler s (irq n) else some s

end PintosKaist.Ata
