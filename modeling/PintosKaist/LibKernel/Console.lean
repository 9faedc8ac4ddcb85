/-
The console (`lib/kernel/console.c`): threads and interrupt handlers that
print, over the serial port and the screen.

A thread prints under the console's lock, and may come to print once more
before it has given it back, so a thread has a stack of calls here. Which bytes
`printf` makes of its format is told by the bytes the call is given.
-/
import PintosKaist.Devices.SerialThreads
import PintosKaist.Devices.Vga
import PintosKaist.Lib.Journal

namespace PintosKaist.Console

open PintosKaist.Devices (Serial SerialEvent serialPutcOn serialPutcOff resumePutc serialStep serialStart Sys NoneAcquires)
open PintosKaist.Vga (Display vgaPutc)
open PintosKaist.Journal

/-- Where `putchar_have_lock` is with a byte: not begun, in `serial_putc`, and
before `vga_putc`. -/
inductive Stage where
  | idle
  | sending (byte : UInt8)
  | showing (byte : UInt8)
deriving DecidableEq

/-- A call of `vprintf`, `puts`, `putbuf` or `putchar`: its number, the byte at
hand and those to come. -/
structure Frame where
  call : Nat
  stage : Stage
  rest : List UInt8
deriving DecidableEq

structure State where
  serial : Serial
  screen : Display
  /-- who holds `console_lock` -/
  holder : Option Nat
  /-- `console_lock_depth` -/
  depth : Nat
  /-- the calls each thread is in, the innermost first -/
  frames : Nat → List Frame
  /-- the bytes of every call so far -/
  given : List (List UInt8)
  /-- what was handed to the port and to the screen -/
  port : List (Entry Nat UInt8)
  shown : List (Entry Nat UInt8)

/-- After `console_init`, before anything is printed. -/
def start (v : Display) : State := ⟨serialStart, v, none, 0, fun _ => [], [], [], []⟩

def State.setFrames (s : State) (t : Nat) (fs : List Frame) : State :=
  { s with frames := Function.update s.frames t fs }

/-- Thread `t` begins a call; it is not inside `serial_putc`. -/
def enter (s : State) (t : Nat) (bytes : List UInt8) : State :=
  { s.setFrames t (⟨s.given.length, .idle, bytes⟩ :: s.frames t) with given := s.given ++ [bytes] }

/-- `acquire_console`. A thread that finds the lock taken sleeps. -/
def acquireConsole (s : State) (t : Nat) (bytes : List UInt8) : State :=
  if s.holder = some t then enter { s with depth := s.depth + 1 } t bytes
  else if s.holder = none then enter { s with holder := some t } t bytes
  else s

/-- `release_console`; `lock_release` asserts that the thread holds the lock. -/
def releaseConsole (s : State) (t : Nat) (fs : List Frame) : Option State :=
  if 0 < s.depth then some ({ s with depth := s.depth - 1 }.setFrames t fs)
  else if s.holder = some t then some ({ s with holder := none }.setFrames t fs)
  else none

/-- The thread's byte is with the port. -/
def handOver (s : State) (t f : Nat) (byte : UInt8) (rest : List UInt8) (fs : List Frame) : State :=
  { s.setFrames t (⟨f, .showing byte, rest⟩ :: fs) with port := s.port ++ [⟨some (t, f), byte⟩] }

/-- `putchar_have_lock` as far as `serial_putc`, with interrupts on or off. -/
def putcharHaveLock (s : State) (t : Nat) (on : Bool) (f : Nat) (byte : UInt8) (rest : List UInt8) (fs : List Frame) :
    Option State :=
  if s.holder = some t then
    if on then (serialPutcOn s.serial t byte).map fun serial =>
      if s.serial.mode = .queue then { s with serial := serial }.setFrames t (⟨f, .sending byte, rest⟩ :: fs)
      else handOver { s with serial := serial } t f byte rest fs
    else (serialPutcOff s.serial byte).map fun serial => handOver { s with serial := serial } t f byte rest fs
  else none

/-- An interrupt handler, or the kernel before it has locks, prints a byte. -/
def putcharUnlocked (s : State) (byte : UInt8) : Option State :=
  (serialPutcOff s.serial byte).map fun serial => { s with
    serial := serial
    screen := vgaPutc s.screen byte
    port := s.port ++ [⟨none, byte⟩]
    shown := s.shown ++ [⟨none, byte⟩] }

inductive ConsoleEvent where
  /-- a thread calls to print these bytes, and returns when they are printed -/
  | call (t : Nat) (bytes : List UInt8)
  | ret (t : Nat)
  /-- the thread prints its next byte, with interrupts on or off -/
  | put (t : Nat) (on : Bool)
  /-- the thread goes on in `serial_putc` -/
  | resume (t : Nat)
  | display (t : Nat)
  | unlocked (byte : UInt8)
  /-- the serial port, the keyboard, and readers of the input buffer -/
  | serial (e : SerialEvent)

def consoleStep (s : State) : ConsoleEvent → Option State
  | .call t bytes =>
    match s.frames t with
    | ⟨_, .sending _, _⟩ :: _ => some s
    | _ => some (acquireConsole s t bytes)
  | .ret t =>
    match s.frames t with
    | ⟨_, .idle, []⟩ :: fs => releaseConsole s t fs
    | _ => some s
  | .put t on =>
    match s.frames t with
    | ⟨f, .idle, byte :: rest⟩ :: fs => putcharHaveLock s t on f byte rest fs
    | _ => some s
  | .resume t =>
    match s.frames t with
    | ⟨f, .sending byte, rest⟩ :: fs => (resumePutc s.serial t).map fun serial =>
      if s.serial.tx.done serial.tx t then handOver { s with serial := serial } t f byte rest fs
      else { s with serial := serial }
    | _ => some s
  | .display t =>
    match s.frames t with
    | ⟨f, .showing byte, rest⟩ :: fs => some { s.setFrames t (⟨f, .idle, rest⟩ :: fs) with
        screen := vgaPutc s.screen byte
        shown := s.shown ++ [⟨some (t, f), byte⟩] }
    | _ => some s
  | .unlocked byte => putcharUnlocked s byte
  | .serial e => if e.outside then (serialStep s.serial e).map fun serial => { s with serial := serial } else some s

/-! ## What the journals say of the calls -/

/-- The byte the thread is inside `serial_putc` with. -/
def Frame.inside (fr : Frame) : Option UInt8 :=
  match fr.stage with
  | .sending byte => some byte
  | _ => none

/-- The bytes of the call that the port does not have. -/
def Frame.unsent (fr : Frame) : List UInt8 :=
  match fr.stage with
  | .sending byte => byte :: fr.rest
  | _ => fr.rest

/-- Those that the screen does not have. -/
def Frame.unshown (fr : Frame) : List UInt8 :=
  match fr.stage with
  | .idle => fr.rest
  | .sending byte => byte :: fr.rest
  | .showing byte => byte :: fr.rest

/-- A journal has of every call what is not left of it, unmixed. -/
structure Keeps (left : Frame → List UInt8) (given : List (List UInt8)) (frames : Nat → List Frame)
    (log : List (Entry Nat UInt8)) : Prop where
  current : ∀ t, ∀ fr ∈ frames t, given[fr.call]? = some (ofCall log fr.call ++ left fr) ∧ Current log t fr.call
  done : ∀ f bs, given[f]? = some bs → (∀ t, ∀ fr ∈ frames t, fr.call ≠ f) → ofCall log f = bs ∧ Unmixed log f
  fresh : ∀ f, given.length ≤ f → ofCall log f = []

/-- What holds between two steps; the screen was `v` at the start. -/
structure Inv (v : Display) (s : State) : Prop where
  serial : s.serial.Inv
  /-- only the thread that holds the lock prints -/
  alone : ∀ t, s.holder ≠ some t → s.frames t = []
  depth : ∀ t, s.holder = some t → (s.frames t).length = s.depth + 1
  free : s.holder = none → s.depth = 0
  inside : ∀ t, (s.serial.tx.pc t).call = ((s.frames t).head?.bind Frame.inside).map Devices.Call.putc
  acquires : NoneAcquires s.serial.tx
  /-- a call that waits for one inside it to return is not in `serial_putc` -/
  outer : ∀ t, ∀ fr ∈ (s.frames t).tail, fr.inside = none
  distinct : ∀ t, ((s.frames t).map Frame.call).Nodup
  handed : s.port.map Entry.item = s.serial.handed
  screen : s.screen = (s.shown.map Entry.item).foldl vgaPutc v
  port : Keeps Frame.unsent s.given s.frames s.port
  shown : Keeps Frame.unshown s.given s.frames s.shown

variable {v : Display} {s s' : State} {t f : Nat} {b : UInt8} {bs : List UInt8} {fr fr' : Frame} {fs : List Frame}
  {left : Frame → List UInt8} {given : List (List UInt8)} {frames : Nat → List Frame} {log : List (Entry Nat UInt8)}

theorem Keeps.call_lt (h : Keeps left given frames log) (hfr : fr ∈ frames t) : fr.call < given.length := by
  obtain ⟨hg, -⟩ := h.current t fr hfr
  exact (List.getElem?_eq_some_iff.mp hg).1

/-- A call begins. -/
theorem Keeps.push (h : Keeps left given frames log) (hcall : fr.call = given.length) (hleft : left fr = bs) :
    Keeps left (given ++ [bs]) (Function.update frames t (fr :: frames t)) log := by
  have hnew : (given ++ [bs])[given.length]? = some bs := by simp
  have hnil := h.fresh given.length (Nat.le_refl _)
  refine ⟨fun u g hg => ?_, fun f cs hf hno => ?_, fun f hf => h.fresh f (by simp at hf; omega)⟩
  · have hold (hgu : g ∈ frames u) : (given ++ [bs])[g.call]? = some (ofCall log g.call ++ left g) ∧ Current log u g.call := by
      rw [List.getElem?_append_left (h.call_lt hgu)]
      exact h.current u g hgu
    by_cases hu : u = t
    · subst hu
      rw [Function.update_self] at hg
      rcases List.mem_cons.mp hg with rfl | hg
      · rw [hcall, hnew, hnil, hleft]
        exact ⟨rfl, current_of_nil hnil⟩
      · exact hold hg
    · rw [Function.update_of_ne hu] at hg
      exact hold hg
  · have hne : f ≠ given.length := fun he => hno t fr (by simp) (hcall.trans he.symm)
    have hlt : f < given.length := by
      have := (List.getElem?_eq_some_iff.mp hf).1
      simp only [List.length_append, List.length_singleton] at this
      omega
    rw [List.getElem?_append_left hlt] at hf
    refine h.done f cs hf fun u g hg => hno u g ?_
    by_cases hu : u = t
    · subst hu
      simp [hg]
    · rwa [Function.update_of_ne hu]

/-- The frames of the stacks whose top a thread changes. -/
theorem mem_update (hf : frames t = fr :: fs) {u : Nat} {g : Frame}
    (hg : g ∈ Function.update frames t (fr' :: fs) u) : u = t ∧ g = fr' ∨ g ∈ frames u ∧ (u = t → g ∈ fs) := by
  by_cases hu : u = t
  · subst hu
    rw [Function.update_self] at hg
    rcases List.mem_cons.mp hg with rfl | hg
    · exact .inl ⟨rfl, rfl⟩
    · exact .inr ⟨hf ▸ List.mem_cons_of_mem _ hg, fun _ => hg⟩
  · rw [Function.update_of_ne hu] at hg
    exact .inr ⟨hg, fun he => absurd he hu⟩

/-- The calls on the stacks are the same. -/
theorem calls_update (hf : frames t = fr :: fs) (hcall : fr'.call = fr.call) {f : Nat}
    (hno : ∀ u, ∀ g ∈ Function.update frames t (fr' :: fs) u, g.call ≠ f) : ∀ u, ∀ g ∈ frames u, g.call ≠ f := by
  intro u g hg
  by_cases hu : u = t
  · subst hu
    rw [hf] at hg
    rcases List.mem_cons.mp hg with rfl | hg
    · exact hcall ▸ hno u fr' (by simp)
    · exact hno u g (by simp [hg])
  · exact hno u g (by rwa [Function.update_of_ne hu])

/-- The innermost call goes on and writes nothing. -/
theorem Keeps.goOn (h : Keeps left given frames log) (hf : frames t = fr :: fs) (hcall : fr'.call = fr.call)
    (hleft : left fr' = left fr) : Keeps left given (Function.update frames t (fr' :: fs)) log := by
  refine ⟨fun u g hg => ?_, fun f cs hfs hno => h.done f cs hfs (calls_update hf hcall hno), h.fresh⟩
  rcases mem_update hf hg with he | hold
  · rw [he.1, he.2, hcall, hleft]
    exact h.current t fr (hf ▸ List.mem_cons_self)
  · exact h.current u g hold.1

/-- The innermost call writes a byte. -/
theorem Keeps.write (h : Keeps left given frames log) (hf : frames t = fr :: fs) (hcall : fr'.call = fr.call)
    (hleft : left fr = b :: left fr') (halone : ∀ u, u ≠ t → frames u = []) (hd : ((frames t).map Frame.call).Nodup) :
    Keeps left given (Function.update frames t (fr' :: fs)) (log ++ [⟨some (t, fr.call), b⟩]) := by
  rw [hf, List.map_cons, List.nodup_cons] at hd
  have hmem : fr ∈ frames t := hf ▸ List.mem_cons_self
  have hcur {g : Nat} (hc : Current log t g) : Current (log ++ [⟨some (t, fr.call), b⟩]) t g :=
    hc.snoc fun w hw => by cases hw; rfl
  refine ⟨fun u g hg => ?_, fun f cs hfs hno => ?_, fun f hfr => ?_⟩
  · rcases mem_update hf hg with he | hold
    · obtain ⟨hgiven, hc⟩ := h.current t fr hmem
      rw [he.1, he.2, hcall, ofCall_append, ofCall_own, List.append_assoc, List.singleton_append, ← hleft]
      exact ⟨hgiven, hcur hc⟩
    · have hu : u = t := by
        by_contra hu
        rw [halone u hu] at hold
        cases hold.1
      subst hu
      have hne : fr.call ≠ g.call := fun he => hd.1 (he ▸ List.mem_map_of_mem (hold.2 rfl))
      obtain ⟨hgiven, hc⟩ := h.current u g hold.1
      rw [ofCall_append, ofCall_other b hne, List.append_nil]
      exact ⟨hgiven, hcur hc⟩
  · have hno' := calls_update hf hcall hno
    have hother := ofCall_other (ι := Nat) (t := t) b (hno' t fr hmem)
    obtain ⟨ho, hu⟩ := h.done f cs hfs hno'
    exact ⟨by rw [ofCall_append, hother, List.append_nil, ho], hu.snoc hother⟩
  · have hne : fr.call ≠ f := by
      have := h.call_lt hmem
      omega
    rw [ofCall_append, ofCall_other b hne, List.append_nil]
    exact h.fresh f hfr

/-- Nobody's byte is written. -/
theorem Keeps.nobody (h : Keeps left given frames log) (b : UInt8) : Keeps left given frames (log ++ [⟨none, b⟩]) := by
  refine ⟨fun u g hg => ?_, fun f cs hfs hno => ?_, fun f hf => ?_⟩
  · obtain ⟨hgiven, hc⟩ := h.current u g hg
    rw [ofCall_append, ofCall_nobody, List.append_nil]
    exact ⟨hgiven, hc.snoc fun w hw => by cases hw⟩
  · obtain ⟨ho, hu⟩ := h.done f cs hfs hno
    exact ⟨by rw [ofCall_append, ofCall_nobody, List.append_nil, ho], hu.snoc (ofCall_nobody b)⟩
  · rw [ofCall_append, ofCall_nobody, List.append_nil]
    exact h.fresh f hf

/-- A call that has nothing left returns. -/
theorem Keeps.pop (h : Keeps left given frames log) (hf : frames t = fr :: fs) (hleft : left fr = []) :
    Keeps left given (Function.update frames t fs) log := by
  have hmem : fr ∈ frames t := hf ▸ List.mem_cons_self
  refine ⟨fun u g hg => ?_, fun f cs hfs hno => ?_, h.fresh⟩
  · by_cases hu : u = t
    · subst hu
      rw [Function.update_self] at hg
      exact h.current u g (hf ▸ List.mem_cons_of_mem _ hg)
    · rw [Function.update_of_ne hu] at hg
      exact h.current u g hg
  · by_cases hfr : fr.call = f
    · obtain ⟨hgiven, hc⟩ := h.current t fr hmem
      rw [hfr, hleft, List.append_nil, hfs] at hgiven
      exact ⟨(Option.some.inj hgiven).symm, hfr ▸ hc.unmixed⟩
    · refine h.done f cs hfs fun u g hg => ?_
      by_cases hu : u = t
      · subst hu
        rw [hf] at hg
        rcases List.mem_cons.mp hg with rfl | hg
        · exact hfr
        · exact hno u g (by simpa using hg)
      · exact hno u g (by rwa [Function.update_of_ne hu])

/-! ## One step -/

theorem start_inv (v : Display) : Inv v (start v) := by
  refine ⟨Devices.serialStart_inv, fun t _ => rfl, fun t h => ?_, fun _ => rfl, fun t => rfl, fun u c h => ?_,
    fun t fr hfr => ?_, fun t => List.nodup_nil, rfl, rfl, ⟨fun t fr hfr => ?_, fun f bs hf => ?_, fun f _ => rfl⟩,
    ⟨fun t fr hfr => ?_, fun f bs hf => ?_, fun f _ => rfl⟩⟩
  · cases h
  · cases h
  · cases hfr
  · cases hfr
  · cases hf
  · cases hfr
  · cases hf

/-- A thread that is in a call has the lock. -/
theorem Inv.holds (hI : Inv v s) (hf : s.frames t = fr :: fs) : s.holder = some t := by
  by_contra h
  rw [hI.alone t h] at hf
  cases hf

theorem Inv.others (hI : Inv v s) (hf : s.frames t = fr :: fs) {u : Nat} (hu : u ≠ t) : s.frames u = [] :=
  hI.alone u fun h => hu (Option.some.inj (h.symm.trans (hI.holds hf)))

/-- Nobody but the thread is inside `serial_putc`. -/
theorem Inv.inside_alone (hI : Inv v s) (hf : s.frames t = fr :: fs) {u : Nat} (hu : s.serial.tx.pc u ≠ .out) : u = t := by
  by_contra hne
  have h := hI.inside u
  rw [hI.others hf hne] at h
  cases hp : s.serial.tx.pc u with
  | out => exact hu hp
  | _ => rw [hp] at h; cases h

/-- The innermost call of a thread goes on. -/
theorem Inv.top (hI : Inv v s) (hf : s.frames t = fr :: fs) (fr' : Frame) (hcall : fr'.call = fr.call)
    (hframes : s'.frames = Function.update s.frames t (fr' :: fs)) (hholder : s'.holder = s.holder)
    (hdepth : s'.depth = s.depth) (hgiven : s'.given = s.given) (hserial : s'.serial.Inv)
    (hother : ∀ u, u ≠ t → (s'.serial.tx.pc u).call = (s.serial.tx.pc u).call)
    (hown : (s'.serial.tx.pc t).call = fr'.inside.map Devices.Call.putc) (hacquires : NoneAcquires s'.serial.tx)
    (hhanded : s'.port.map Entry.item = s'.serial.handed)
    (hscreen : s'.screen = (s'.shown.map Entry.item).foldl vgaPutc v)
    (hport : Keeps Frame.unsent s.given s'.frames s'.port)
    (hshown : Keeps Frame.unshown s.given s'.frames s'.shown) : Inv v s' := by
  have hself : s'.frames t = fr' :: fs := by rw [hframes, Function.update_self]
  have hne {u : Nat} (hu : u ≠ t) : s'.frames u = s.frames u := by rw [hframes, Function.update_of_ne hu]
  refine ⟨hserial, fun u hu => ?_, fun u hu => ?_, fun h => ?_, fun u => ?_, hacquires, fun u g hg => ?_, fun u => ?_,
    hhanded, hscreen, hgiven ▸ hport, hgiven ▸ hshown⟩
  · rw [hholder] at hu
    have hut : u ≠ t := fun he => hu (he ▸ hI.holds hf)
    rw [hne hut]
    exact hI.alone u hu
  · rw [hholder, hI.holds hf] at hu
    cases hu
    have hlen := hI.depth t (hI.holds hf)
    rw [hf] at hlen
    rw [hself, hdepth]
    exact hlen
  · rw [hholder, hI.holds hf] at h
    cases h
  · by_cases hu : u = t
    · subst hu
      rw [hself]
      exact hown
    · rw [hne hu, hother u hu]
      exact hI.inside u
  · by_cases hu : u = t
    · subst hu
      rw [hself] at hg
      exact hI.outer u g (by rw [hf]; exact hg)
    · rw [hne hu] at hg
      exact hI.outer u g hg
  · by_cases hu : u = t
    · subst hu
      have hd := hI.distinct u
      rw [hf] at hd
      rw [hself, List.map_cons, hcall]
      exact hd
    · rw [hne hu]
      exact hI.distinct u

/-- A call is entered, by the thread that has the lock then. -/
theorem enter_inv (hI : Inv v s) (bs : List UInt8) (hh : s.holder = none ∨ s.holder = some t)
    (htop : (s.frames t).head?.bind Frame.inside = none) {d : Nat} (hd : d = (s.frames t).length) :
    Inv v (enter { s with holder := some t, depth := d } t bs) := by
  have halone {u : Nat} (hu : u ≠ t) : s.frames u = [] := by
    refine hI.alone u fun h => ?_
    rcases hh with h' | h' <;> rw [h'] at h
    · cases h
    · exact hu (Option.some.inj h).symm
  refine ⟨hI.serial, fun u hu => ?_, fun u hu => ?_, fun h => ?_, fun u => ?_, hI.acquires, fun u g hg => ?_, fun u => ?_,
    hI.handed, hI.screen, hI.port.push rfl rfl, hI.shown.push rfl rfl⟩
  · have hut : u ≠ t := fun he => hu (he ▸ rfl)
    simp only [enter, State.setFrames, Function.update_of_ne hut]
    exact halone hut
  · cases hu
    simp [enter, State.setFrames, hd]
  · cases h
  · by_cases hu : u = t
    · subst hu
      have := hI.inside u
      rw [htop] at this
      simpa [enter, State.setFrames, Frame.inside] using this
    · simp only [enter, State.setFrames, Function.update_of_ne hu]
      exact hI.inside u
  · by_cases hu : u = t
    · subst hu
      simp only [enter, State.setFrames, Function.update_self, List.tail_cons] at hg
      cases hfr : s.frames u with
      | nil => rw [hfr] at hg; cases hg
      | cons fr fs =>
        rw [hfr] at hg htop
        rcases List.mem_cons.mp hg with rfl | hg
        · exact htop
        · exact hI.outer u g (by rw [hfr]; exact hg)
    · simp only [enter, State.setFrames, Function.update_of_ne hu] at hg
      exact hI.outer u g hg
  · by_cases hu : u = t
    · subst hu
      simp only [enter, State.setFrames, Function.update_self, List.map_cons, List.nodup_cons]
      refine ⟨fun hm => ?_, hI.distinct u⟩
      obtain ⟨g, hg, he⟩ := List.mem_map.mp hm
      exact absurd (hI.port.call_lt hg) (by omega)
    · simp only [enter, State.setFrames, Function.update_of_ne hu]
      exact hI.distinct u

theorem acquireConsole_inv (hI : Inv v s) (bs : List UInt8) (htop : (s.frames t).head?.bind Frame.inside = none) :
    Inv v (acquireConsole s t bs) := by
  unfold acquireConsole
  split
  · rename_i hh
    have h := enter_inv hI bs (.inr hh) htop (hI.depth t hh).symm
    rw [← hh] at h
    exact h
  · split
    · rename_i hh
      have h := enter_inv hI bs (.inl hh) htop (d := s.depth) (by rw [hI.free hh, hI.alone t (by simp [hh])]; rfl)
      exact h
    · exact hI

/-- A call returns; `lock_release` finds that the thread has the lock. -/
theorem releaseConsole_inv (hI : Inv v s) (hf : s.frames t = ⟨f, .idle, []⟩ :: fs) :
    ∃ s', releaseConsole s t fs = some s' ∧ Inv v s' := by
  have hh := hI.holds hf
  have hlen := hI.depth t hh
  rw [hf, List.length_cons] at hlen
  have hport := hI.port.pop hf rfl
  have hshown := hI.shown.pop hf rfl
  have hinside : fs.head?.bind Frame.inside = none := by
    cases hfs : fs with
    | nil => rfl
    | cons g gs => exact hI.outer t g (by rw [hf, hfs]; exact List.mem_cons_self)
  have hmem {u : Nat} {g : Frame} (hg : g ∈ Function.update s.frames t fs u) : u ≠ t → g ∈ s.frames u := by
    intro hu
    rwa [Function.update_of_ne hu] at hg
  have hown : ∀ u, (s.serial.tx.pc u).call =
      ((Function.update s.frames t fs u).head?.bind Frame.inside).map Devices.Call.putc := by
    intro u
    by_cases hu : u = t
    · subst hu
      rw [Function.update_self, hinside, hI.inside u, hf]
      rfl
    · rw [Function.update_of_ne hu]
      exact hI.inside u
  have houter : ∀ u, ∀ g ∈ (Function.update s.frames t fs u).tail, g.inside = none := by
    intro u g hg
    by_cases hu : u = t
    · subst hu
      rw [Function.update_self] at hg
      exact hI.outer u g (by rw [hf]; exact List.mem_of_mem_tail hg)
    · rw [Function.update_of_ne hu] at hg
      exact hI.outer u g hg
  have hdistinct : ∀ u, ((Function.update s.frames t fs u).map Frame.call).Nodup := by
    intro u
    by_cases hu : u = t
    · subst hu
      have hd := hI.distinct u
      rw [hf, List.map_cons, List.nodup_cons] at hd
      rw [Function.update_self]
      exact hd.2
    · rw [Function.update_of_ne hu]
      exact hI.distinct u
  unfold releaseConsole
  split
  · refine ⟨_, rfl, hI.serial, fun u hu => ?_, fun u hu => ?_, fun h => ?_, hown, hI.acquires, houter, hdistinct,
      hI.handed, hI.screen, hport, hshown⟩
    · have hut : u ≠ t := fun he => hu (he ▸ hh)
      simp only [State.setFrames, Function.update_of_ne hut]
      exact hI.alone u hu
    · obtain rfl := Option.some.inj (hh.symm.trans hu)
      simp only [State.setFrames, Function.update_self]
      omega
    · rw [show s.holder = none from h] at hh
      cases hh
  · have hnil : fs = [] := List.eq_nil_of_length_eq_zero (by omega)
    refine ⟨_, rfl, hI.serial, fun u _ => ?_, fun u hu => ?_, fun _ => ?_, hown, hI.acquires, houter, hdistinct,
      hI.handed, hI.screen, hport, hshown⟩
    · by_cases hu : u = t
      · subst hu
        simp [State.setFrames, hnil]
      · simp only [State.setFrames, Function.update_of_ne hu]
        exact hI.others hf hu
    · cases hu
    · show s.depth = 0
      omega

/-- The thread's byte is with the port. -/
theorem handOver_inv {serial : Serial} (hI : Inv v s) (hf : s.frames t = fr :: fs) (hcall : fr.call = f)
    (hleft : fr.unsent = b :: bs) (hshow : fr.unshown = b :: bs) (hserial : serial.Inv)
    (hother : ∀ u, u ≠ t → (serial.tx.pc u).call = (s.serial.tx.pc u).call) (hown : (serial.tx.pc t).call = none)
    (hacquires : NoneAcquires serial.tx) (hhanded : serial.handed = s.serial.handed ++ [b]) :
    Inv v (handOver { s with serial := serial } t f b bs fs) := by
  subst hcall
  refine hI.top hf ⟨fr.call, .showing b, bs⟩ rfl rfl rfl rfl rfl hserial hother hown hacquires ?_ hI.screen ?_ ?_
  · simp [handOver, State.setFrames, hI.handed, hhanded]
  · exact hI.port.write hf rfl hleft (fun u hu => hI.others hf hu) (hI.distinct t)
  · exact hI.shown.goOn hf rfl hshow.symm

theorem putcharHaveLock_inv {on : Bool} (hI : Inv v s) (hf : s.frames t = ⟨f, .idle, b :: bs⟩ :: fs) :
    ∃ s', putcharHaveLock s t on f b bs fs = some s' ∧ Inv v s' := by
  have hh := hI.holds hf
  have hnone : (s.serial.tx.pc t).call = none := by rw [hI.inside t, hf]; rfl
  have hout : s.serial.tx.pc t = .out := by
    cases hp : s.serial.tx.pc t with
    | out => rfl
    | _ => rw [hp] at hnone; cases hnone
  unfold putcharHaveLock
  rw [if_pos hh]
  cases on with
  | false =>
    obtain ⟨serial, hs, hL⟩ := Devices.serialPutcOff_leads hI.serial b
    have hstill := Devices.serialPutcOff_still hI.serial hs
    simp only [hs, Bool.false_eq_true, if_false, Option.map_some]
    refine ⟨_, rfl, ?_⟩
    exact handOver_inv hI hf rfl rfl rfl hL.inv (fun u _ => hstill.calls u) ((hstill.calls t).trans hnone)
      (hstill.acquires hI.acquires) hstill.handed
  | true =>
    by_cases hm : s.serial.mode = .queue
    · have hs : serialPutcOn s.serial t b = some { s.serial with tx := s.serial.tx.goto t (.test (.putc b)) } := by
        simp [serialPutcOn, hm, Devices.step, hout]
      have hL := Devices.serialPutcOn_leads hI.serial hs
      simp only [hs, if_true, Option.map_some]
      rw [if_pos hm]
      refine ⟨_, rfl, ?_⟩
      refine hI.top hf ⟨f, .sending b, bs⟩ rfl rfl rfl rfl rfl hL.inv (fun u hu => ?_) ?_ ?_ ?_ hI.screen
        (hI.port.goOn hf rfl rfl) (hI.shown.goOn hf rfl rfl)
      · simp [State.setFrames, Sys.goto, Function.update_of_ne hu]
      · simp [State.setFrames, Sys.goto, Frame.inside, Devices.Pc.call]
      · exact Devices.goto_acquires hI.acquires fun c h => by cases h
      · exact hI.handed
    · have hs : serialPutcOn s.serial t b = some (Devices.putcEarly s.serial b) := by
        simp [serialPutcOn, hm]
      have hL := Devices.putcEarly_leads (b := b) hI.serial hm
      have hstill := Devices.putcEarly_still (b := b) hI.serial hm
      simp only [hs, hm, if_true, if_false, Option.map_some]
      refine ⟨_, rfl, ?_⟩
      exact handOver_inv hI hf rfl rfl rfl hL.inv (fun u _ => hstill.calls u) ((hstill.calls t).trans hnone)
        (hstill.acquires hI.acquires) hstill.handed

theorem resume_console_inv (hI : Inv v s) (hf : s.frames t = ⟨f, .sending b, bs⟩ :: fs) :
    ∃ s', consoleStep s (.resume t) = some s' ∧ Inv v s' := by
  have hcall : (s.serial.tx.pc t).call = some (.putc b) := by rw [hI.inside t, hf]; rfl
  obtain ⟨serial, hs⟩ := Devices.resumePutc_runs hI.serial hI.acquires t
  have hL := Devices.resumePutc_leads hI.serial hs
  have hacquires := Devices.resumePutc_acquires hI.serial.tx (fun u hu => hI.inside_alone hf hu) hI.acquires hs
  obtain ⟨hother, hcase⟩ := Devices.resumePutc_cases hcall hs
  simp only [consoleStep, hf, hs, Option.map_some]
  rcases hcase with ⟨hdone, hstill, hhanded⟩ | ⟨hdone, hout, hhanded⟩
  · simp only [hdone, Bool.false_eq_true, if_false]
    refine ⟨_, rfl, hI.top hf ⟨f, .sending b, bs⟩ rfl ?_ rfl rfl rfl hL.inv hother hstill hacquires ?_ hI.screen
      hI.port hI.shown⟩
    · rw [← hf, Function.update_eq_self]
    · exact hI.handed.trans hhanded.symm
  · simp only [hdone, if_true]
    exact ⟨_, rfl, handOver_inv hI hf rfl rfl rfl hL.inv hother hout hacquires hhanded⟩

theorem display_inv (hI : Inv v s) (hf : s.frames t = ⟨f, .showing b, bs⟩ :: fs) :
    ∃ s', consoleStep s (.display t) = some s' ∧ Inv v s' := by
  have hnone : (s.serial.tx.pc t).call = none := by rw [hI.inside t, hf]; rfl
  simp only [consoleStep, hf]
  refine ⟨_, rfl, hI.top hf ⟨f, .idle, bs⟩ rfl rfl rfl rfl rfl hI.serial (fun u _ => rfl) hnone hI.acquires hI.handed ?_
    (hI.port.goOn hf rfl rfl) (hI.shown.write hf rfl rfl (fun u hu => hI.others hf hu) (hI.distinct t))⟩
  simp [hI.screen]

theorem putcharUnlocked_inv (hI : Inv v s) (b : UInt8) : ∃ s', putcharUnlocked s b = some s' ∧ Inv v s' := by
  obtain ⟨serial, hs, hL⟩ := Devices.serialPutcOff_leads hI.serial b
  have hstill := Devices.serialPutcOff_still hI.serial hs
  simp only [putcharUnlocked, hs, Option.map_some]
  refine ⟨_, rfl, hL.inv, hI.alone, hI.depth, hI.free, fun t => (hstill.calls t).trans (hI.inside t),
    hstill.acquires hI.acquires, hI.outer, hI.distinct, ?_, ?_, hI.port.nobody b, hI.shown.nobody b⟩
  · simp [hI.handed, hstill.handed]
  · simp [hI.screen]

/-- What is no step of a thread in `serial_putc`. -/
theorem outside_inv {serial : Serial} (hI : Inv v s) (hL : serial.Inv) (hstill : s.serial.Still serial []) :
    Inv v { s with serial := serial } :=
  ⟨hL, hI.alone, hI.depth, hI.free, fun t => (hstill.calls t).trans (hI.inside t), hstill.acquires hI.acquires, hI.outer,
    hI.distinct, hI.handed.trans (by rw [hstill.handed, List.append_nil]), hI.screen, hI.port, hI.shown⟩

/-- The port is set up once, and a reader that slept in `lock_acquire` finds the
input buffer empty still. -/
def Serves (s : State) (e : ConsoleEvent) : Prop :=
  (e = .serial .initQueue → s.serial.mode ≠ .queue) ∧
    ∀ t, e = .serial (.resumeGetc t) → Devices.StillWaits s.serial.input (.resume t)

theorem consoleStep_inv {e : ConsoleEvent} (hI : Inv v s) (hG : Serves s e) :
    ∃ s', consoleStep s e = some s' ∧ Inv v s' := by
  cases e with
  | call t bs =>
    simp only [consoleStep]
    split
    · exact ⟨s, rfl, hI⟩
    · rename_i hno
      refine ⟨_, rfl, acquireConsole_inv hI bs ?_⟩
      cases hf : s.frames t with
      | nil => rfl
      | cons fr fs =>
        obtain ⟨f, st, rest⟩ := fr
        cases st with
        | sending b => exact absurd hf (hno f b rest fs)
        | _ => rfl
  | ret t =>
    simp only [consoleStep]
    split
    · exact releaseConsole_inv hI ‹_›
    · exact ⟨s, rfl, hI⟩
  | put t on =>
    simp only [consoleStep]
    split
    · exact putcharHaveLock_inv hI ‹_›
    · exact ⟨s, rfl, hI⟩
  | resume t =>
    cases hf : s.frames t with
    | nil => exact ⟨s, by simp [consoleStep, hf], hI⟩
    | cons fr fs =>
      obtain ⟨f, st, rest⟩ := fr
      cases st with
      | sending b => exact resume_console_inv hI hf
      | _ => exact ⟨s, by simp [consoleStep, hf], hI⟩
  | display t =>
    cases hf : s.frames t with
    | nil => exact ⟨s, by simp [consoleStep, hf], hI⟩
    | cons fr fs =>
      obtain ⟨f, st, rest⟩ := fr
      cases st with
      | showing b => exact display_inv hI hf
      | _ => exact ⟨s, by simp [consoleStep, hf], hI⟩
  | unlocked byte => exact putcharUnlocked_inv hI byte
  | serial e =>
    simp only [consoleStep]
    split
    · rename_i he
      obtain ⟨serial, hs⟩ := Devices.outside_runs hI.serial he (fun h => hG.1 (by rw [h]))
        fun t h => hG.2 t (by rw [h])
      have hL := (Devices.serialStep_leads hI.serial hs).1
      exact ⟨_, by rw [hs]; rfl, outside_inv hI hL.inv (Devices.outside_still hI.serial he hs)⟩
    · exact ⟨s, rfl, hI⟩

/-- A step that goes through meets the condition. -/
theorem serves_of_step {e : ConsoleEvent} (h : consoleStep s e = some s') : Serves s e := by
  refine ⟨fun he => ?_, fun t he => ?_⟩
  · subst he
    obtain ⟨serial, hs, -⟩ := Option.map_eq_some_iff.mp h
    exact (Devices.stillWaits_of_serialStep hs).1 rfl
  · subst he
    obtain ⟨serial, hs, -⟩ := Option.map_eq_some_iff.mp h
    exact (Devices.stillWaits_of_serialStep hs).2 t rfl

theorem consoleStep_keeps {e : ConsoleEvent} (hI : Inv v s) (h : consoleStep s e = some s') : Inv v s' := by
  obtain ⟨t, ht, hI'⟩ := consoleStep_inv hI (serves_of_step h)
  exact Option.some.inj (ht.symm.trans h) ▸ hI'

/-! ## Runs -/

/-- **Printing never fails**. Whatever threads and interrupt handlers print, no
assertion of the console's lock or of the transmit queue fails: threads that
meet in `intq_putc` can make `wait` fail, and under the lock they do not meet. -/
theorem console_asserts (v : Display) (es : List ConsoleEvent) :
    (∃ s, Run.run consoleStep (start v) es = some s) ↔ Run.Always consoleStep Serves (start v) es := by
  constructor
  · rintro ⟨s, hs⟩
    exact Run.always_of_run (fun _ _ _ => serves_of_step) hs
  · intro h
    obtain ⟨s, hs, -⟩ := Run.run_progress (I := Inv v) (fun s e hI hG => consoleStep_inv hI hG) (start_inv v) h
    exact ⟨s, hs⟩

/-- The call is over. -/
def State.Over (s : State) (f : Nat) : Prop := ∀ t, ∀ fr ∈ s.frames t, fr.call ≠ f

/-- A thread prints "hi", and again while it does; another one and a handler
come in between. -/
def interleaved : List ConsoleEvent :=
  [.call 1 [104, 105], .put 1 true, .call 2 [50], .call 1 [33], .put 2 true, .unlocked 42, .put 1 false, .display 1, .ret 1,
    .display 1, .put 1 true, .display 1, .ret 1, .call 2 [50], .put 2 true, .display 2, .ret 2]

end PintosKaist.Console
