/-
The serial port and the input buffer (`devices/serial.c`, `devices/input.c`):
bytes wait in the transmit queue for the port, and what comes in waits in the
input buffer for a thread that reads it.

What the port does while the driver runs is told by what the driver finds: the
bytes that come in during an interrupt, and how often the port takes one more.
-/
import Mathlib.Algebra.Ring.Nat
import PintosKaist.Devices.IntqRuns

namespace PintosKaist.Devices

/-- `mode` -/
inductive Mode where
  | uninit
  | poll
  | queue
deriving DecidableEq

structure Serial where
  mode : Mode
  /-- `txq` -/
  tx : Sys
  /-- `buffer` of `devices/input.c` -/
  input : Sys
  /-- IER_XMIT and IER_RECV in the port's interrupt enable register -/
  ierXmit : Bool
  ierRecv : Bool
  /-- the bytes given to the port, the first one first -/
  sent : List UInt8
  /-- those of them from before there was a queue -/
  early : List UInt8

def serialStart : Serial := ⟨.uninit, init, init, false, false, [], []⟩

/-- `write_ier` -/
def writeIer (s : Serial) : Serial := { s with ierXmit := !intqEmpty s.tx.q, ierRecv := !intqFull s.input.q }

/-- `serial_notify` -/
def serialNotify (s : Serial) : Serial := if s.mode = .queue then writeIer s else s

/-- `putc_poll` -/
def putcPoll (s : Serial) (byte : UInt8) : Serial := { s with sent := s.sent ++ [byte] }

/-- `init_poll` -/
def initPoll (s : Serial) : Serial := { s with mode := .poll, tx := init, ierXmit := false, ierRecv := false }

/-- `serial_init_queue` -/
def serialInitQueue (s : Serial) : Option Serial :=
  let s := if s.mode = .uninit then initPoll s else s
  if s.mode = .poll then some (writeIer { s with mode := .queue }) else none

/-- The oldest byte of the queue goes out: `intq_getc (&txq)` and what is done
with its value. The queue is not empty. -/
def sendByte (s : Serial) : Option Serial :=
  if intqEmpty s.tx.q then none
  else (takeByte s.tx).map fun tx => putcPoll { s with tx := tx } (s.tx.q.buf s.tx.q.tail)

/-- `serial_putc` before there is a queue. -/
def putcEarly (s : Serial) (byte : UInt8) : Serial :=
  let s := if s.mode = .uninit then initPoll s else s
  { putcPoll s byte with early := s.early ++ [byte] }

/-- `serial_putc` with interrupts off. -/
def serialPutcOff (s : Serial) (byte : UInt8) : Option Serial :=
  if s.mode = .queue then
    (if intqFull s.tx.q then sendByte s else some s).bind fun s =>
      if intqFull s.tx.q then none
      else (storeByte s.tx byte).map fun tx => writeIer { s with tx := tx }
  else some (putcEarly s byte)

/-- Thread `t` calls `serial_putc` with interrupts on. -/
def serialPutcOn (s : Serial) (t : Nat) (byte : UInt8) : Option Serial :=
  if s.mode = .queue then (step s.tx (.call t (.putc byte))).map fun tx => { s with tx := tx }
  else some (putcEarly s byte)

/-- The thread has come out of its call. -/
def Sys.done (q q' : Sys) (t : Nat) : Bool := q.pc t ≠ .out ∧ q'.pc t = .out

/-- Thread `t` goes on in `serial_putc`. -/
def resumePutc (s : Serial) (t : Nat) : Option Serial :=
  (resume s.tx t).map fun tx => if s.tx.done tx t then writeIer { s with tx := tx } else { s with tx := tx }

/-- The loop of `serial_flush`. -/
def flushLoop : Nat → Serial → Option Serial
  | 0, s => if intqEmpty s.tx.q then some s else none
  | n + 1, s => if intqEmpty s.tx.q then some s else (sendByte s).bind (flushLoop n)

/-- `serial_flush` -/
def serialFlush (s : Serial) : Option Serial := flushLoop bufSize s

/-- `input_putc` -/
def inputPutc (s : Serial) (key : UInt8) : Option Serial :=
  if intqFull s.input.q then none
  else (storeByte s.input key).map fun input => serialNotify { s with input := input }

/-- Thread `t` goes on in `input_getc`. -/
def resumeGetc (s : Serial) (t : Nat) : Option Serial :=
  (resume s.input t).map fun input =>
    if s.input.done input t then serialNotify { s with input := input } else { s with input := input }

/-- The first loop of `serial_interrupt`: the port has these bytes, one after
the other, while the loop asks for one. -/
def receive : List UInt8 → Serial → Option Serial
  | [], s => some s
  | byte :: rx, s => if intqFull s.input.q then some s else (inputPutc s byte).bind (receive rx)

/-- The second loop: the port is ready for as many bytes. -/
def transmit : Nat → Serial → Option Serial
  | 0, s => some s
  | n + 1, s => if intqEmpty s.tx.q then some s else (sendByte s).bind (transmit n)

/-- `serial_interrupt` -/
def serialInterrupt (s : Serial) (rx : List UInt8) (ready : Nat) : Option Serial := do
  let s ← receive rx s
  let s ← transmit ready s
  some (writeIer s)

inductive SerialEvent where
  | initQueue
  /-- `serial_putc` with interrupts on or off, and a thread that goes on in it -/
  | putcOn (t : Nat) (byte : UInt8)
  | putcOff (byte : UInt8)
  | resumePutc (t : Nat)
  | flush
  /-- `input_getc`, and a thread that goes on in it -/
  | getc (t : Nat)
  | resumeGetc (t : Nat)
  /-- the keyboard's interrupt handler has a character -/
  | key (c : UInt8)
  | interrupt (rx : List UInt8) (ready : Nat)

def serialStep (s : Serial) : SerialEvent → Option Serial
  | .initQueue => serialInitQueue s
  | .putcOn t byte => serialPutcOn s t byte
  | .putcOff byte => serialPutcOff s byte
  | .resumePutc t => resumePutc s t
  | .flush => serialFlush s
  | .getc t => (step s.input (.call t .getc)).map fun input => { s with input := input }
  | .resumeGetc t => resumeGetc s t
  | .key c => if intqFull s.input.q then some s else inputPutc s c
  -- `serial_init_queue` is where the handler is registered
  | .interrupt rx ready => if s.mode = .queue then serialInterrupt s rx ready else some s

/-- The bytes of the completed calls of `serial_putc`. -/
def Serial.handed (s : Serial) : List UInt8 := s.early ++ s.tx.put

/-- The call the thread is in. -/
def Pc.call : Pc → Option Call
  | .out => none
  | .test c => some c
  | .acquiring c => some c
  | .blocked c => some c
  | .woken c => some c

/-- A thread that sleeps in `wait` sleeps for what is not there. -/
def Sleepers (q : Sys) : Prop := ∀ (w : Waiter) (t : Nat), w.get q.q = some t → w.mustWait q.q = true

/-- What holds of the two queues and the bytes sent. -/
structure Serial.Queues (s : Serial) : Prop where
  tx : Devices.Inv s.tx
  input : Devices.Inv s.input
  txSleepers : Sleepers s.tx
  inputSleepers : Sleepers s.input
  /-- threads only put bytes in the transmit queue, and only get them from the other -/
  puts : ∀ t c, (s.tx.pc t).call = some c → ∃ byte, c = .putc byte
  gets : ∀ t c, (s.input.pc t).call = some c → c = .getc
  sent : s.sent = s.early ++ s.tx.got
  unused : s.mode ≠ .queue → s.tx = init

/-- What holds of the driver between two steps. -/
structure Serial.Inv (s : Serial) : Prop extends s.Queues where
  /-- the port interrupts for as long as there is something to send -/
  xmit : s.mode = .queue → intqEmpty s.tx.q = false → s.ierXmit = true
  recv : s.mode = .queue → s.ierRecv = !intqFull s.input.q

variable {s s' : Serial} {q q' q'' : Sys} {t : Nat} {b : UInt8} {c : Call} {w : Waiter} {e : SerialEvent}
  {es : List SerialEvent} {n : Nat}

/-! ## What a queue's operations do with its bytes -/

/-- No byte comes in or goes out, and no thread comes out of its call. -/
structure Quiet (q q' : Sys) : Prop where
  head : q'.q.head = q.q.head
  tail : q'.q.tail = q.q.tail
  got : q'.got = q.got
  put : q'.put = q.put
  calls : ∀ u, (q'.pc u).call = (q.pc u).call

theorem Quiet.empty (h : Quiet q q') : intqEmpty q'.q = intqEmpty q.q := by
  unfold intqEmpty
  rw [h.head, h.tail]

theorem Quiet.full (h : Quiet q q') : intqFull q'.q = intqFull q.q := by
  unfold intqFull
  rw [h.head, h.tail]

theorem calls_goto {p : Pc} (h : p.call = (q.pc t).call) (u : Nat) : ((q.goto t p).pc u).call = (q.pc u).call := by
  by_cases hu : u = t
  · subst hu
    simp [Sys.goto, h]
  · simp [Sys.goto, Function.update_of_ne hu]

theorem signal_quiet (h : signal q w = some q') :
    Quiet q q' ∧ w.get q'.q = none ∧ ∀ w', w' ≠ w → w'.get q'.q = w'.get q.q := by
  unfold signal at h
  split at h
  · cases h
  split at h
  · rename_i hg
    cases h
    exact ⟨⟨rfl, rfl, rfl, rfl, fun u => rfl⟩, hg, fun w' _ => rfl⟩
  · rename_i t hg
    obtain ⟨q₁, h₁, rfl⟩ := Option.map_eq_some_iff.mp h
    unfold threadUnblock at h₁
    split at h₁
    · rename_i c hc
      cases h₁
      refine ⟨⟨set_head, set_tail, rfl, rfl, ?_⟩, ?_, fun w' hne => ?_⟩
      · exact calls_goto (by rw [hc]; rfl)
      · simp [get_set]
      · simp [get_set, hne, Sys.goto]
    · cases h₁

theorem lockAndWait_quiet (hc : (q.pc t).call = some c) (h : lockAndWait q t c = some q') : Quiet q q' := by
  unfold lockAndWait at h
  split at h
  · unfold wait at h
    split at h
    · cases h
      exact ⟨set_head, set_tail, rfl, rfl, calls_goto hc.symm⟩
    · cases h
  · cases h
    exact ⟨rfl, rfl, rfl, rfl, calls_goto hc.symm⟩

theorem lockRelease_quiet (hc : (q.pc t).call = some c) (h : lockRelease q t c = some q') : Quiet q q' := by
  unfold lockRelease at h
  split at h
  · cases h
    exact ⟨rfl, rfl, rfl, rfl, calls_goto hc.symm⟩
  · cases h

/-- A thread the scheduler runs stops in its call, or completes it. -/
theorem resume_cases (h : resume q t = some q') :
    Quiet q q' ∨ ∃ c q'', q.pc t = .test c ∧ c.mustWait q.q = false ∧ finish q c = some q'' ∧
      q' = q''.goto t .out := by
  unfold resume at h
  split at h
  · cases h
    exact .inl ⟨rfl, rfl, rfl, rfl, fun u => rfl⟩
  · rename_i c hc
    split at h
    · exact .inl (lockAndWait_quiet (by rw [hc]; rfl) h)
    · rename_i hw
      obtain ⟨q'', hq, rfl⟩ := Option.map_eq_some_iff.mp h
      exact .inr ⟨c, q'', hc, Bool.eq_false_iff.mpr hw, hq, rfl⟩
  · rename_i c hc
    exact .inl (lockAndWait_quiet (by rw [hc]; rfl) h)
  · cases h
    exact .inl ⟨rfl, rfl, rfl, rfl, fun u => rfl⟩
  · rename_i c hc
    exact .inl (lockRelease_quiet (by rw [hc]; rfl) h)

/-- What a completed call leaves, and with it which bytes. -/
structure Moved (q q' : Sys) (tail head : Nat) (got put : List UInt8) : Prop where
  head : q'.q.head = head
  tail : q'.q.tail = tail
  got : q'.got = got
  put : q'.put = put
  calls : ∀ u, (q'.pc u).call = (q.pc u).call
  sleepers : Sleepers q → Sleepers q'

theorem takeByte_moved (he : intqEmpty q.q = false) (h : takeByte q = some q') :
    Moved q q' (next q.q.tail) q.q.head (q.got ++ [q.q.buf q.q.tail]) q.put := by
  obtain ⟨hq, hget, hother⟩ := signal_quiet h
  refine ⟨hq.head, hq.tail, hq.got, hq.put, hq.calls, fun hS w t hw => ?_⟩
  cases w with
  | notFull => rw [hget] at hw; cases hw
  | notEmpty =>
    -- whoever waits for a byte saw the queue empty, and it is not
    rw [hother .notEmpty (by decide)] at hw
    exact absurd (hS .notEmpty t hw) (by simp [Waiter.mustWait, he])

theorem storeByte_moved (hf : intqFull q.q = false) (h : storeByte q b = some q') :
    Moved q q' q.q.tail (next q.q.head) q.got (q.put ++ [b]) := by
  obtain ⟨hq, hget, hother⟩ := signal_quiet h
  refine ⟨hq.head, hq.tail, hq.got, hq.put, hq.calls, fun hS w t hw => ?_⟩
  cases w with
  | notEmpty => rw [hget] at hw; cases hw
  | notFull =>
    rw [hother .notFull (by decide)] at hw
    exact absurd (hS .notFull t hw) (by simp [Waiter.mustWait, hf])

theorem lockAndWait_sleepers (hS : Sleepers q) (h : lockAndWait q t c = some q') : Sleepers q' := by
  unfold lockAndWait at h
  split at h
  · unfold wait at h
    split at h
    · rename_i hc
      cases h
      intro w u hw
      have hmust (x : Waiter) (o : Option Nat) (p : Waiter) :
          p.mustWait (x.set { q.q with lock := some t } o) = p.mustWait q.q := by cases x <;> cases p <;> rfl
      simp only [Sys.goto, get_set] at hw
      simp only [Sys.goto, hmust]
      split at hw
      · rename_i he
        exact he ▸ hc
      · exact hS w u (by cases w <;> exact hw)
    · cases h
  · cases h
    exact hS

theorem finish_sleepers (hS : Sleepers q) (hc : c.mustWait q.q = false) (h : finish q c = some q') : Sleepers q' := by
  cases c with
  | getc => exact (takeByte_moved hc h).sleepers hS
  | putc byte => exact (storeByte_moved hc h).sleepers hS

theorem resume_sleepers (hS : Sleepers q) (h : resume q t = some q') : Sleepers q' := by
  unfold resume at h
  split at h
  · cases h
    exact hS
  · split at h
    · exact lockAndWait_sleepers hS h
    · rename_i hw
      obtain ⟨q'', hq, rfl⟩ := Option.map_eq_some_iff.mp h
      have hS' : Sleepers q'' := finish_sleepers hS (Bool.eq_false_iff.mpr hw) hq
      exact hS'
  · exact lockAndWait_sleepers hS h
  · cases h
    exact hS
  · unfold lockRelease at h
    split at h
    · cases h
      exact hS
    · cases h

/-! ## The interrupt enable register -/

theorem writeIer_inv (hQ : s.Queues) : (writeIer s).Inv :=
  ⟨⟨hQ.tx, hQ.input, hQ.txSleepers, hQ.inputSleepers, hQ.puts, hQ.gets, hQ.sent, hQ.unused⟩,
    fun _ he => by simpa [writeIer] using he, fun _ => rfl⟩

theorem serialNotify_inv (hQ : s.Queues) : (serialNotify s).Inv := by
  unfold serialNotify
  split
  · exact writeIer_inv hQ
  · rename_i hm
    exact ⟨hQ, fun h => absurd h hm, fun h => absurd h hm⟩

/-- What one state of the driver has of a later one: no byte that was sent or
handed over is lost. -/
structure Serial.Leads (s s' : Serial) : Prop where
  inv : s'.Inv
  sent : s.sent <+: s'.sent
  handed : s.handed <+: s'.handed

theorem Serial.Leads.refl (hI : s.Inv) : s.Leads s := ⟨hI, List.prefix_rfl, List.prefix_rfl⟩

theorem Serial.Leads.trans {s'' : Serial} (h : s.Leads s') (h' : s'.Leads s'') : s.Leads s'' :=
  ⟨h'.inv, h.sent.trans h'.sent, h.handed.trans h'.handed⟩

/-- The bytes in the transmit queue are those handed over and not sent. -/
theorem Serial.Queues.bytes (hQ : s.Queues) : s.sent ++ s.tx.q.contents = s.handed := by
  rw [hQ.sent, List.append_assoc, hQ.tx.bytes]
  rfl

/-! ## Sending -/

theorem sendByte_leads (hI : s.Inv) (he : intqEmpty s.tx.q = false) :
    ∃ s', sendByte s = some s' ∧ s.Leads s' ∧ s'.handed = s.handed ∧ s'.sent.length = s.sent.length + 1 ∧
      s'.mode = s.mode ∧ intqFull s'.tx.q = false := by
  obtain ⟨tx, htx, hItx, -⟩ := takeByte_inv hI.tx he
  have hM := takeByte_moved he htx
  have hq : s.mode = .queue := by
    by_contra hm
    rw [hI.unused hm] at he
    cases he
  have hhanded : s.early ++ tx.put = s.handed := by rw [hM.put]; rfl
  refine ⟨putcPoll { s with tx := tx } (s.tx.q.buf s.tx.q.tail), by simp [sendByte, he, htx],
    ⟨⟨⟨hItx, hI.input, hM.sleepers hI.txSleepers, hI.inputSleepers, ?_, hI.gets, ?_, fun hm => absurd hq hm⟩,
      fun _ _ => hI.xmit hq he, hI.recv⟩, List.prefix_append .., ?_⟩, hhanded, by simp [putcPoll], rfl, ?_⟩
  · intro t c hc
    exact hI.puts t c (hM.calls t ▸ hc)
  · simp [putcPoll, hI.sent, hM.got]
  · exact hhanded ▸ List.prefix_rfl
  · have hne : s.tx.q.head ≠ s.tx.q.tail := by simpa [intqEmpty] using he
    have hfull := Ring.not_full_next hI.tx.tail_lt hI.tx.head_lt hne
    simpa [putcPoll, intqFull, next, hM.head, hM.tail] using hfull

/-- The second loop of the interrupt handler sends all there is, or as many
bytes as the port takes. -/
theorem transmit_leads : ∀ (n : Nat) {s : Serial}, s.Inv → ∃ s', transmit n s = some s' ∧ s.Leads s' ∧
    s'.handed = s.handed ∧ (intqEmpty s'.tx.q = true ∨ s'.sent.length = s.sent.length + n)
  | 0, s, hI => ⟨s, rfl, .refl hI, rfl, .inr rfl⟩
  | n + 1, s, hI => by
    unfold transmit
    cases he : intqEmpty s.tx.q with
    | true => exact ⟨s, rfl, .refl hI, rfl, .inl he⟩
    | false =>
      obtain ⟨s₁, h₁, hL, hh, hlen, -, -⟩ := sendByte_leads hI he
      obtain ⟨s', h', hL', hh', hcase⟩ := transmit_leads n hL.inv
      refine ⟨s', by simp [h₁, h'], hL.trans hL', hh'.trans hh, ?_⟩
      rcases hcase with hempty | hsent
      · exact .inl hempty
      · exact .inr (by omega)

theorem Serial.Queues.empty_iff (hQ : s.Queues) : intqEmpty s.tx.q = true ↔ s.handed.length ≤ s.sent.length := by
  have hlen : s.tx.q.contents.length = Ring.held bufSize s.tx.q.head s.tx.q.tail := Ring.length_contents
  have hb := congrArg List.length hQ.bytes
  rw [List.length_append] at hb
  have h0 : Ring.held bufSize s.tx.q.head s.tx.q.tail = 0 ↔ s.tx.q.head = s.tx.q.tail := by
    have hh := hQ.tx.head_lt
    have ht := hQ.tx.tail_lt
    rw [Ring.held_eq hh ht]
    split <;> omega
  simp only [intqEmpty, beq_iff_eq]
  omega

/-- At most one byte fewer than there are places waits. -/
theorem Serial.Queues.waiting (hQ : s.Queues) : s.handed.length ≤ s.sent.length + (bufSize - 1) := by
  have hlen : s.tx.q.contents.length = Ring.held bufSize s.tx.q.head s.tx.q.tail := Ring.length_contents
  have hlt := Ring.held_lt s.tx.q.tail hQ.tx.head_lt
  have hb := congrArg List.length hQ.bytes
  rw [List.length_append] at hb
  omega

theorem flushLoop_leads : ∀ (n : Nat) {s : Serial}, s.Inv → s.handed.length ≤ s.sent.length + n →
    ∃ s', flushLoop n s = some s' ∧ s.Leads s' ∧ s'.handed = s.handed ∧ intqEmpty s'.tx.q = true
  | 0, s, hI, hn => by
    have he : intqEmpty s.tx.q = true := hI.empty_iff.mpr hn
    exact ⟨s, by simp [flushLoop, he], .refl hI, rfl, he⟩
  | n + 1, s, hI, hn => by
    unfold flushLoop
    cases he : intqEmpty s.tx.q with
    | true => exact ⟨s, rfl, .refl hI, rfl, he⟩
    | false =>
      obtain ⟨s₁, h₁, hL, hh, hlen, -, -⟩ := sendByte_leads hI he
      obtain ⟨s', h', hL', hh', hempty⟩ := flushLoop_leads n hL.inv (by rw [hh]; omega)
      exact ⟨s', by simp [h₁, h'], hL.trans hL', hh'.trans hh, hempty⟩

theorem serialFlush_leads (hI : s.Inv) :
    ∃ s', serialFlush s = some s' ∧ s.Leads s' ∧ s'.handed = s.handed ∧ intqEmpty s'.tx.q = true :=
  flushLoop_leads bufSize hI (by have := hI.waiting; omega)

/-! ## Handing bytes over -/

theorem empty_of_full (hI : Devices.Inv q) (hf : intqFull q.q = true) : intqEmpty q.q = false := by
  by_contra h
  have hempty : q.q.head = q.q.tail := by simpa [intqEmpty] using h
  have hfull : next q.q.head = q.q.tail := by simpa [intqFull] using hf
  have hlt := hI.head_lt
  rw [hempty, next, Ring.next_eq (hempty ▸ hlt)] at hfull
  unfold bufSize at hfull hlt
  split at hfull <;> omega

/-- Before there is a queue what is sent is what was handed over. -/
theorem Serial.Queues.sent_early (hQ : s.Queues) (hm : s.mode ≠ .queue) : s.sent = s.early := by
  rw [hQ.sent, hQ.unused hm]
  exact List.append_nil _

theorem initPoll_leads (hI : s.Inv) (hm : s.mode = .uninit) : s.Leads (initPoll s) := by
  have hm' : s.mode ≠ .queue := by rw [hm]; decide
  refine ⟨⟨⟨init_inv, hI.input, fun w t hw => ?_, hI.inputSleepers, fun t c hc => ?_, hI.gets, ?_, fun _ => rfl⟩,
    fun h => ?_, fun h => ?_⟩, List.prefix_rfl, ?_⟩
  · cases w <;> cases hw
  · cases hc
  · exact (hI.sent_early hm').trans (List.append_nil _).symm
  · cases h
  · cases h
  · simp [Serial.handed, initPoll, hI.unused hm']

/-- The driver before its first byte: the port is set up by then. -/
theorem initFirst_leads (hI : s.Inv) (hm : s.mode ≠ .queue) :
    ∃ s', (if s.mode = .uninit then initPoll s else s) = s' ∧ s'.mode = .poll ∧ s.Leads s' := by
  split
  · exact ⟨_, rfl, rfl, initPoll_leads hI ‹_›⟩
  · refine ⟨s, rfl, ?_, .refl hI⟩
    cases hs : s.mode with
    | poll => rfl
    | _ => exact absurd hs ‹_›

theorem putcEarly_leads (hI : s.Inv) (hm : s.mode ≠ .queue) : s.Leads (putcEarly s b) := by
  unfold putcEarly
  obtain ⟨s', he, hpoll, hL⟩ := initFirst_leads hI hm
  rw [he]
  have hI' := hL.inv
  have hm' : s'.mode ≠ .queue := by rw [hpoll]; decide
  have htx := hI'.unused hm'
  refine hL.trans ⟨⟨⟨hI'.tx, hI'.input, hI'.txSleepers, hI'.inputSleepers, hI'.puts, hI'.gets, ?_, hI'.unused⟩,
    fun h => absurd h hm', fun h => absurd h hm'⟩, List.prefix_append .., ?_⟩
  · simp [putcPoll, hI'.sent_early hm', htx, init]
  · simp [Serial.handed, putcPoll, htx, init]

theorem serialInitQueue_leads (hI : s.Inv) (h : serialInitQueue s = some s') : s.Leads s' := by
  unfold serialInitQueue at h
  have hm : s.mode ≠ .queue := by
    intro hm
    simp [hm] at h
  obtain ⟨s₁, he, hpoll, hL⟩ := initFirst_leads hI hm
  simp only [he, hpoll, if_true] at h
  cases h
  have hQ := hL.inv.toQueues
  exact hL.trans ⟨writeIer_inv ⟨hQ.tx, hQ.input, hQ.txSleepers, hQ.inputSleepers, hQ.puts, hQ.gets, hQ.sent,
    fun h => absurd rfl h⟩, List.prefix_rfl, List.prefix_rfl⟩

/-- A byte goes in the transmit queue, where there is room, and the register
is written. -/
theorem store_leads {tx : Sys} (hI : s.Inv) (hm : s.mode = .queue) (hf : intqFull s.tx.q = false)
    (h : storeByte s.tx b = some tx) : s.Leads (writeIer { s with tx := tx }) := by
  obtain ⟨tx', htx', hItx, -⟩ := storeByte_inv hI.tx hf
  obtain rfl := Option.some.inj (h.symm.trans htx')
  have hM := storeByte_moved hf h
  refine ⟨writeIer_inv ⟨hItx, hI.input, hM.sleepers hI.txSleepers, hI.inputSleepers, fun t c hc => ?_, hI.gets, ?_,
    fun h => absurd hm h⟩, List.prefix_rfl, ?_⟩
  · exact hI.puts t c (hM.calls t ▸ hc)
  · simp [hI.sent, hM.got]
  · simp [Serial.handed, writeIer, hM.put, ← List.append_assoc]

theorem serialPutcOff_leads (hI : s.Inv) (b : UInt8) : ∃ s', serialPutcOff s b = some s' ∧ s.Leads s' := by
  unfold serialPutcOff
  split
  · rename_i hm
    cases hf : intqFull s.tx.q with
    | false =>
      obtain ⟨tx, htx, -, -⟩ : ∃ tx, storeByte s.tx b = some tx ∧ _ ∧ _ := storeByte_inv hI.tx hf
      exact ⟨_, by simp [hf, htx], store_leads hI hm hf htx⟩
    | true =>
      obtain ⟨s₁, h₁, hL, -, -, hm₁, hf₁⟩ := sendByte_leads hI (empty_of_full hI.tx hf)
      obtain ⟨tx, htx, -, -⟩ : ∃ tx, storeByte s₁.tx b = some tx ∧ _ ∧ _ := storeByte_inv hL.inv.tx hf₁
      exact ⟨_, by simp [h₁, hf₁, htx], hL.trans (store_leads hL.inv (hm₁.trans hm) hf₁ htx)⟩
  · exact ⟨_, rfl, putcEarly_leads hI ‹_›⟩

/-- What a step inside a queue's own calls keeps. -/
theorem Serial.Queues.quietTx {tx : Sys} (hQ : s.Queues) (hItx : Devices.Inv tx) (hS : Sleepers tx)
    (hq : Quiet s.tx tx) (hm : s.mode = .queue) : ({ s with tx := tx } : Serial).Queues :=
  ⟨hItx, hQ.input, hS, hQ.inputSleepers, fun t c hc => hQ.puts t c (hq.calls t ▸ hc), hQ.gets, hq.got ▸ hQ.sent,
    fun h => absurd hm h⟩

theorem serialPutcOn_leads (hI : s.Inv) (h : serialPutcOn s t b = some s') : s.Leads s' := by
  unfold serialPutcOn at h
  split at h
  · rename_i hm
    obtain ⟨tx, htx, rfl⟩ := Option.map_eq_some_iff.mp h
    have hItx := step_keeps hI.tx htx
    simp only [step] at htx
    split at htx
    · cases htx
      refine ⟨⟨⟨hItx, hI.input, hI.txSleepers, hI.inputSleepers, fun u c hc => ?_, hI.gets, hI.sent,
        fun h => absurd hm h⟩, hI.xmit, hI.recv⟩, List.prefix_rfl, List.prefix_rfl⟩
      by_cases hu : u = t
      · subst hu
        simp only [Sys.goto, Function.update_self, Pc.call, Option.some.injEq] at hc
        exact ⟨b, hc.symm⟩
      · simp only [Sys.goto, Function.update_of_ne hu] at hc
        exact hI.puts u c hc
    · cases htx
      exact .refl hI
  · cases h
    exact putcEarly_leads hI ‹_›

/-- A step inside its call leaves the thread in it. -/
theorem Quiet.not_done (h : Quiet q q') : q.done q' t = false := by
  have hc := h.calls t
  unfold Sys.done
  cases hp : q.pc t with
  | out => simp
  | _ =>
    rw [hp] at hc
    cases hp' : q'.pc t with
    | out => rw [hp'] at hc; cases hc
    | _ => simp

theorem done_of_test (h : q.pc t = .test c) : q.done (q'.goto t .out) t = true := by
  simp [Sys.done, h, Sys.goto]

theorem resumePutc_leads (hI : s.Inv) (h : resumePutc s t = some s') : s.Leads s' := by
  unfold resumePutc at h
  obtain ⟨tx, htx, hs⟩ := Option.map_eq_some_iff.mp h
  have hItx : Devices.Inv tx := step_keeps (e := .resume t) hI.tx htx
  rcases resume_cases htx with hq | ⟨c, tx', hc, hw, hfin, rfl⟩
  · rw [hq.not_done] at hs
    simp only [Bool.false_eq_true, if_false] at hs
    by_cases hm : s.mode = .queue
    · subst hs
      refine ⟨⟨hI.quietTx hItx (resume_sleepers hI.txSleepers htx) hq hm, fun _ he => hI.xmit hm (hq.empty ▸ he), hI.recv⟩,
        List.prefix_rfl, ?_⟩
      simp [Serial.handed, hq.put]
    · -- nobody is in a queue that is not used
      rw [hI.unused hm] at htx
      cases htx
      rw [← hI.unused hm] at hs
      exact hs ▸ .refl hI
  · rw [done_of_test hc] at hs
    simp only [if_true] at hs
    obtain ⟨b, rfl⟩ := hI.puts t c (by rw [hc]; rfl)
    have hm : s.mode = .queue := by
      by_contra hm
      rw [hI.unused hm] at hc
      cases hc
    have hL := store_leads hI hm hw hfin
    subst hs
    have hQ := hL.inv.toQueues
    refine ⟨writeIer_inv ⟨hItx, hI.input, hQ.txSleepers, hI.inputSleepers, fun u c hc => ?_, hI.gets, hQ.sent,
      fun h => absurd hm h⟩, List.prefix_rfl, hL.handed⟩
    by_cases hu : u = t
    · subst hu
      simp [Sys.goto, Pc.call] at hc
    · simp only [Sys.goto, Function.update_of_ne hu] at hc
      exact hQ.puts u c hc

/-! ## The input buffer -/

/-- What is done with the input buffer leaves what is to be sent. -/
theorem Serial.Queues.withInput {input : Sys} (hQ : s.Queues) (hI : Devices.Inv input) (hS : Sleepers input)
    (hg : ∀ t c, (input.pc t).call = some c → c = .getc) : ({ s with input := input } : Serial).Queues :=
  ⟨hQ.tx, hI, hQ.txSleepers, hS, hQ.puts, hg, hQ.sent, hQ.unused⟩

theorem notify_leads {input : Sys} (hQ : ({ s with input := input } : Serial).Queues) :
    s.Leads (serialNotify { s with input := input }) := by
  refine ⟨serialNotify_inv hQ, ?_, ?_⟩ <;> unfold serialNotify <;> split <;> exact List.prefix_rfl

theorem inputPutc_leads (hI : s.Inv) (hf : intqFull s.input.q = false) (b : UInt8) :
    ∃ s', inputPutc s b = some s' ∧ s.Leads s' := by
  obtain ⟨input, hin, hIin, -⟩ : ∃ input, storeByte s.input b = some input ∧ _ ∧ _ := storeByte_inv hI.input hf
  have hM := storeByte_moved hf hin
  exact ⟨_, by simp [inputPutc, hf, hin], notify_leads (hI.withInput hIin (hM.sleepers hI.inputSleepers)
    fun t c hc => hI.gets t c (hM.calls t ▸ hc))⟩

theorem resumeGetc_leads (hI : s.Inv) (h : resumeGetc s t = some s') : s.Leads s' := by
  unfold resumeGetc at h
  obtain ⟨input, hin, hs⟩ := Option.map_eq_some_iff.mp h
  have hIin : Devices.Inv input := step_keeps (e := .resume t) hI.input hin
  have hS := resume_sleepers hI.inputSleepers hin
  rcases resume_cases hin with hq | ⟨c, input', hc, hw, hfin, rfl⟩
  · rw [hq.not_done] at hs
    simp only [Bool.false_eq_true, if_false] at hs
    subst hs
    have hQ := hI.withInput hIin hS fun u c hc => hI.gets u c (hq.calls u ▸ hc)
    refine ⟨⟨hQ, hI.xmit, fun hm => ?_⟩, List.prefix_rfl, List.prefix_rfl⟩
    rw [hq.full]
    exact hI.recv hm
  · rw [done_of_test hc] at hs
    simp only [if_true] at hs
    obtain rfl := hI.gets t c (by rw [hc]; rfl)
    have hM := takeByte_moved hw hfin
    subst hs
    refine notify_leads (hI.withInput hIin hS fun u c hu => ?_)
    by_cases hut : u = t
    · subst hut
      simp [Sys.goto, Pc.call] at hu
    · simp only [Sys.goto, Function.update_of_ne hut] at hu
      exact hI.gets u c (hM.calls u ▸ hu)

theorem receive_leads : ∀ (rx : List UInt8) {s : Serial}, s.Inv → ∃ s', receive rx s = some s' ∧ s.Leads s'
  | [], s, hI => ⟨s, rfl, .refl hI⟩
  | byte :: rx, s, hI => by
    unfold receive
    cases hf : intqFull s.input.q with
    | true => exact ⟨s, rfl, .refl hI⟩
    | false =>
      obtain ⟨s₁, h₁, hL⟩ := inputPutc_leads hI hf byte
      obtain ⟨s', h', hL'⟩ := receive_leads rx hL.inv
      exact ⟨s', by simp [h₁, h'], hL.trans hL'⟩

theorem serialInterrupt_leads (hI : s.Inv) (rx : List UInt8) (n : Nat) :
    ∃ s', serialInterrupt s rx n = some s' ∧ s.Leads s' ∧
      (s'.handed.length ≤ s'.sent.length ∨ s.sent.length + n ≤ s'.sent.length) := by
  obtain ⟨s₁, h₁, hL₁⟩ := receive_leads rx hI
  obtain ⟨s₂, h₂, hL₂, hh₂, hcase⟩ := transmit_leads n hL₁.inv
  have hL : s.Leads (writeIer s₂) := hL₁.trans (hL₂.trans ⟨writeIer_inv hL₂.inv.toQueues, List.prefix_rfl, List.prefix_rfl⟩)
  refine ⟨writeIer s₂, by simp [serialInterrupt, h₁, h₂], hL, ?_⟩
  rcases hcase with hempty | hlen
  · exact .inl (hL₂.inv.empty_iff.mp hempty)
  · have := hL₁.sent.length_le
    exact .inr (by simp only [writeIer]; omega)

/-! ## Runs -/

/-- How many bytes the port is ready for in the step. -/
def SerialEvent.takes : SerialEvent → Nat
  | .interrupt _ ready => ready
  | .flush => bufSize
  | _ => 0

/-- The step sends as many bytes as the port takes, or all there are. -/
def Sends (s s' : Serial) (e : SerialEvent) : Prop :=
  s'.handed.length ≤ s'.sent.length ∨ s.sent.length + e.takes ≤ s'.sent.length

theorem Serial.Leads.sends (h : s.Leads s') (he : e.takes = 0) : Sends s s' e :=
  .inr (by rw [he]; exact h.sent.length_le)

theorem serialStep_leads (hI : s.Inv) (h : serialStep s e = some s') : s.Leads s' ∧ Sends s s' e := by
  cases e with
  | initQueue =>
    have hL := serialInitQueue_leads hI h
    exact ⟨hL, hL.sends rfl⟩
  | putcOn t byte =>
    have hL := serialPutcOn_leads hI h
    exact ⟨hL, hL.sends rfl⟩
  | putcOff byte =>
    obtain ⟨s₁, h₁, hL⟩ := serialPutcOff_leads hI byte
    obtain rfl := Option.some.inj (h.symm.trans h₁)
    exact ⟨hL, hL.sends rfl⟩
  | resumePutc t =>
    have hL := resumePutc_leads hI h
    exact ⟨hL, hL.sends rfl⟩
  | flush =>
    obtain ⟨s₁, h₁, hL, -, hempty⟩ := serialFlush_leads hI
    obtain rfl := Option.some.inj (h.symm.trans h₁)
    exact ⟨hL, .inl (hL.inv.empty_iff.mp hempty)⟩
  | getc t =>
    obtain ⟨input, hin, rfl⟩ := Option.map_eq_some_iff.mp h
    have hIin := step_keeps hI.input hin
    simp only [step] at hin
    split at hin
    · cases hin
      refine ⟨⟨⟨hI.withInput hIin hI.inputSleepers fun u c hc => ?_, hI.xmit, hI.recv⟩, List.prefix_rfl,
        List.prefix_rfl⟩, .inr (Nat.le_refl _)⟩
      by_cases hu : u = t
      · subst hu
        simp only [Sys.goto, Function.update_self, Pc.call, Option.some.injEq] at hc
        exact hc.symm
      · simp only [Sys.goto, Function.update_of_ne hu] at hc
        exact hI.gets u c hc
    · cases hin
      exact ⟨.refl hI, .inr (Nat.le_refl _)⟩
  | resumeGetc t =>
    have hL := resumeGetc_leads hI h
    exact ⟨hL, hL.sends rfl⟩
  | key c =>
    simp only [serialStep] at h
    split at h
    · cases h
      exact ⟨.refl hI, .inr (Nat.le_refl _)⟩
    · rename_i hf
      obtain ⟨s₁, h₁, hL⟩ := inputPutc_leads hI (Bool.eq_false_iff.mpr hf) c
      obtain rfl := Option.some.inj (h.symm.trans h₁)
      exact ⟨hL, hL.sends rfl⟩
  | interrupt rx ready =>
    simp only [serialStep] at h
    split at h
    · obtain ⟨s₁, h₁, hL, hcase⟩ := serialInterrupt_leads hI rx ready
      obtain rfl := Option.some.inj (h.symm.trans h₁)
      exact ⟨hL, hcase⟩
    · rename_i hm
      cases h
      -- without a queue there is nothing to send
      exact ⟨.refl hI, .inl (hI.empty_iff.mp (by rw [hI.unused hm]; rfl))⟩

theorem serialStart_inv : serialStart.Inv := by
  refine ⟨⟨init_inv, init_inv, fun w t hw => ?_, fun w t hw => ?_, fun t c hc => ?_, fun t c hc => ?_, rfl,
    fun _ => rfl⟩, fun h => ?_, fun h => ?_⟩
  · cases w <;> cases hw
  · cases w <;> cases hw
  · cases hc
  · cases hc
  · cases h
  · cases h

theorem serialRun_leads (hI : s.Inv) (h : Run.run serialStep s es = some s') : s.Leads s' := by
  induction es generalizing s with
  | nil =>
    cases h
    exact .refl hI
  | cons e es ih =>
    obtain ⟨s₁, h₁, hr⟩ := Run.run_cons.mp h
    have hL := (serialStep_leads hI h₁).1
    exact hL.trans (ih hL.inv hr)

/-- Over a run the port sends as many bytes as it takes, if that many are
there. -/
theorem serialRun_sends (hI : s.Inv) (h : Run.run serialStep s es = some s') {m : Nat} (hm : m ≤ s.handed.length)
    (hn : m ≤ s.sent.length + (es.map SerialEvent.takes).sum) : m ≤ s'.sent.length := by
  induction es generalizing s with
  | nil =>
    cases h
    simpa using hn
  | cons e es ih =>
    obtain ⟨s₁, h₁, hr⟩ := Run.run_cons.mp h
    obtain ⟨hL, hs⟩ := serialStep_leads hI h₁
    have hhanded := hL.handed.length_le
    rw [List.map_cons, List.sum_cons] at hn
    rcases hs with hall | hsome
    · have hsent := (serialRun_leads hL.inv hr).sent.length_le
      omega
    · exact ih hL.inv hr (by omega) (by omega)

/-- A thread asleep in `wait` sleeps for a queue that is full, or empty. -/
theorem blocked_waits (hI : Devices.Inv q) (hS : Sleepers q) (h : q.pc t = .blocked c) : c.mustWait q.q = true :=
  hS c.waiter t ((hI.waiter c.waiter t).mpr (by rw [h]; simp [Pc.waits]))

/-- A thread fills the queue with its interrupts off, and the next one sleeps. -/
def fillAndSleep : List SerialEvent :=
  [.putcOff 72, .initQueue] ++ List.replicate 63 (.putcOff 65) ++ [.putcOn 1 66, .resumePutc 1]

/-- **Nothing is kept back**. Once the port has taken as many bytes as waited,
or the queue was flushed, every byte that was handed over by then is sent, and
they are the first ones sent. -/
theorem serial_drains {xs ys : List SerialEvent} (h : Run.run serialStep serialStart xs = some s)
    (h' : Run.run serialStep s ys = some s') (hn : s.tx.q.contents.length ≤ (ys.map SerialEvent.takes).sum) :
    s.handed <+: s'.sent := by
  have hI := (serialRun_leads serialStart_inv h).inv
  have hL := serialRun_leads hI h'
  have hlen := congrArg List.length hI.bytes
  rw [List.length_append] at hlen
  have hm : s.handed.length ≤ s'.sent.length := serialRun_sends hI h' (Nat.le_refl _) (by omega)
  exact List.prefix_of_prefix_length_le (hL.handed) ⟨_, hL.inv.bytes⟩ hm

theorem serial_drains_three : ∃ s s', Run.run serialStep serialStart [.putcOff 72, .initQueue, .putcOff 105, .putcOff 33] =
    some s ∧ Run.run serialStep s [.interrupt [] 1, .putcOff 10, .interrupt [13] 1] = some s' ∧
    s.handed = [72, 105, 33] ∧ s.handed <+: s'.sent := by
  obtain ⟨s, hs, hb⟩ := (Option.any_eq_true _ _).mp (show
    (Run.run serialStep serialStart [.putcOff 72, .initQueue, .putcOff 105, .putcOff 33]).any (fun s =>
      decide (s.tx.q.contents.length = 2 ∧ s.handed = [72, 105, 33] ∧
        (Run.run serialStep s [.interrupt [] 1, .putcOff 10, .interrupt [13] 1]).isSome)) = true by decide +kernel)
  obtain ⟨hlen, hh, hsome⟩ := of_decide_eq_true hb
  obtain ⟨s', hs'⟩ := Option.isSome_iff_exists.mp hsome
  exact ⟨s, s', hs, hs', hh, serial_drains hs hs' (Nat.le_of_eq hlen)⟩

end PintosKaist.Devices
