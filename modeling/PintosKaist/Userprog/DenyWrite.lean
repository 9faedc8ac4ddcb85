/-
Executables are not written while they run: `running_file` and
`deny_write_cnt` under `process_exec`, `process_fork` and `process_exit`
(`userprog/process.c`, `filesys/file.c`, `filesys/inode.c`).

A successful exec opens its file once more and denies writes through that
handle; `process_exit` allows them again. A fork copies the address space and
not the handle, and an exec drops the handle of the one before without closing
it, so the count is right as long as neither matters.
-/
import PintosKaist.Lib.Count
import PintosKaist.Lib.Run

namespace PintosKaist.DenyWrite

open Count

/-- `struct file`, for the handles in `running_file`. -/
structure File where
  inode : Nat
  denyWrite : Bool
  deriving DecidableEq, Repr

structure Execs where
  /-- The process exists and has not exited. -/
  live : Nat → Bool
  /-- The inode whose program is in its address space. -/
  image : Nat → Option Nat
  runningFile : Nat → Option Nat
  /-- Processes from here on have not been created. -/
  next : Nat
  files : Nat → File
  nextFile : Nat
  denyWriteCnt : Nat → Nat

/-- `file_deny_write`. -/
def fileDenyWrite (s : Execs) (f : Nat) : Execs :=
  if (s.files f).denyWrite then s
  else
    let i := (s.files f).inode
    { s with
      files := Function.update s.files f ⟨i, true⟩
      denyWriteCnt := Function.update s.denyWriteCnt i (s.denyWriteCnt i + 1) }

/-- `file_allow_write`, with the `ASSERT` of `inode_allow_write`. -/
def fileAllowWrite (s : Execs) (f : Nat) : Option Execs :=
  if (s.files f).denyWrite then
    let i := (s.files f).inode
    if 0 < s.denyWriteCnt i then
      some { s with
        files := Function.update s.files f ⟨i, false⟩
        denyWriteCnt := Function.update s.denyWriteCnt i (s.denyWriteCnt i - 1) }
    else none
  else some s

/-- `file_close`, as far as writes go. -/
def fileClose (s : Execs) (f : Nat) : Option Execs := fileAllowWrite s f

/-- `process_exit`, its part on `running_file`. -/
def dropRunningFile (s : Execs) (p : Nat) : Option Execs :=
  match s.runningFile p with
  | none => some s
  | some f => (fileAllowWrite s f).bind fun s₁ => fileClose s₁ f

def processExit (s : Execs) (p : Nat) : Option Execs :=
  (dropRunningFile s p).map fun s₁ => { s₁ with live := Function.update s₁.live p false }

/-- `filesys_open`, which found an inode. -/
def openFile (s : Execs) (i : Nat) : Execs :=
  { s with files := Function.update s.files s.nextFile ⟨i, false⟩, nextFile := s.nextFile + 1 }

/-- `process_exec` once `load` has put the program of inode `i` in place;
`opened` is the inode the second `filesys_open` finds. -/
def processExec (s : Execs) (p i : Nat) (opened : Option Nat) : Execs :=
  let s₁ := { s with image := Function.update s.image p (some i) }
  match opened with
  | none => { s₁ with runningFile := Function.update s₁.runningFile p none }
  | some j =>
    let s₂ := openFile s₁ j
    fileDenyWrite { s₂ with runningFile := Function.update s₂.runningFile p (some s₁.nextFile) } s₁.nextFile

/-- A new process with the address space of `p`; its `struct thread` is zero. -/
def processFork (s : Execs) (p : Nat) : Execs :=
  { s with
    live := Function.update s.live s.next true
    image := Function.update s.image s.next (s.image p)
    runningFile := Function.update s.runningFile s.next none
    next := s.next + 1 }

inductive ExecEvent where
  /-- `process_fork`; by the initial thread, `process_create_initd`. -/
  | fork (p : Nat)
  /-- `process_exec`; when `load` fails, `sys_exec` calls `sys_exit`. -/
  | exec (p i : Nat) (loaded : Bool) (opened : Option Nat)
  | exit (p : Nat)
  deriving DecidableEq, Repr

def Execs.step (s : Execs) : ExecEvent → Option Execs
  | .fork p => if p < s.next ∧ s.live p then some (processFork s p) else none
  | .exec p i loaded opened =>
    if p < s.next ∧ s.live p then (if loaded then some (processExec s p i opened) else processExit s p) else none
  | .exit p => if p < s.next ∧ s.live p then processExit s p else none

/-- The initial thread. -/
def Execs.boot : Execs where
  live p := p = 0
  image _ := none
  runningFile _ := none
  next := 1
  files _ := ⟨0, false⟩
  nextFile := 0
  denyWriteCnt _ := 0

/-! ## Who denies -/

variable {s s' : Execs} {e : ExecEvent} {p q f i : Nat}

/-- An inode is denied exactly while a live process runs its program. -/
def Execs.Exact (s : Execs) : Prop :=
  ∀ i, 0 < s.denyWriteCnt i ↔ ∃ p < s.next, s.live p = true ∧ s.image p = some i

/-- The inode a live process has a handle on. -/
def Execs.held (s : Execs) (p : Nat) : Option Nat :=
  if s.live p then (s.runningFile p).map fun f => (s.files f).inode else none

/-- When `p` exits, its file is denied by another process still, or no other
process runs it. -/
def Execs.MayExit (s : Execs) (p : Nat) : Prop :=
  ∀ i ∈ s.held p, (∃ q < s.next, q ≠ p ∧ s.held q = some i) ∨ ∀ q < s.next, q ≠ p → s.live q → s.image q ≠ some i

/-- What the count needs of a step: no exec after an exec, the exec finds the
file it has loaded, and nobody exits who denies for others. -/
def Execs.Careful (s : Execs) : ExecEvent → Prop
  | .fork _ => True
  | .exec p i loaded opened => if loaded then s.runningFile p = none ∧ opened = some i else s.MayExit p
  | .exit p => s.MayExit p

instance : Decidable (s.MayExit p) := inferInstanceAs (Decidable (∀ i ∈ s.held p, _))

instance : DecidablePred s.Careful
  | .fork _ => .isTrue trivial
  | .exec p i loaded opened =>
    inferInstanceAs (Decidable (if loaded then s.runningFile p = none ∧ opened = some i else s.MayExit p))
  | .exit p => inferInstanceAs (Decidable (s.MayExit p))

structure Execs.Ok (s : Execs) : Prop where
  /-- A handle is the process's own, open, denies, and is on what it runs. -/
  file : ∀ p < s.next, ∀ f, s.live p = true → s.runningFile p = some f →
    f < s.nextFile ∧ (s.files f).denyWrite = true ∧ s.image p = some (s.files f).inode
  own : ∀ p < s.next, ∀ q < s.next, ∀ f, s.live p = true → s.live q = true → s.runningFile p = some f →
    s.runningFile q = some f → p = q
  cnt : ∀ i, s.denyWriteCnt i = count (Finset.range s.next) s.held (some i)
  covered : ∀ p < s.next, ∀ i, s.live p = true → s.image p = some i → ∃ q < s.next, s.held q = some i

theorem Execs.Ok.image_of_held (h : s.Ok) (hp : p < s.next) (hh : s.held p = some i) :
    s.live p = true ∧ s.image p = some i := by
  simp only [Execs.held, Option.ite_none_right_eq_some, Option.map_eq_some_iff] at hh
  obtain ⟨hl, f, hf, rfl⟩ := hh
  exact ⟨hl, (h.file p hp f hl hf).2.2⟩

theorem Execs.Ok.exact (h : s.Ok) : s.Exact := by
  intro i
  rw [h.cnt i, Nat.pos_iff_ne_zero, Ne, count_eq_zero]
  constructor
  · intro hne
    push Not at hne
    obtain ⟨p, hp, hh⟩ := hne
    have hp := Finset.mem_range.mp hp
    exact ⟨p, hp, h.image_of_held hp hh⟩
  · rintro ⟨p, hp, hl, hi⟩ hne
    obtain ⟨q, hq, hh⟩ := h.covered p hp i hl hi
    exact hne q (Finset.mem_range.mpr hq) hh

/-! ## The steps -/

theorem ok_fork (h : s.Ok) (hp : p < s.next) (hl : s.live p = true) : (processFork s p).Ok := by
  have hold {q : Nat} (hq : q ≠ s.next) : (processFork s p).live q = s.live q ∧
      (processFork s p).image q = s.image q ∧ (processFork s p).runningFile q = s.runningFile q := by
    simp [processFork, hq]
  have hnew : (processFork s p).runningFile s.next = none := by simp [processFork]
  have hheld {q : Nat} (hq : q ≠ s.next) : (processFork s p).held q = s.held q := by
    obtain ⟨h₁, -, h₃⟩ := hold hq
    simp only [Execs.held, h₁, h₃]
    rfl
  have lt_of {q : Nat} (hq : q < s.next + 1) (hne : q ≠ s.next) : q < s.next := by omega
  refine ⟨fun q hq f hlq hf => ?_, fun q hq r hr f hlq hlr hf hg => ?_, fun i => ?_, fun q hq i hlq hi => ?_⟩
  · have hne : q ≠ s.next := by
      rintro rfl
      simp [hnew] at hf
    obtain ⟨h₁, h₂, h₃⟩ := hold hne
    rw [h₂]
    exact h.file q (lt_of hq hne) f (h₁ ▸ hlq) (h₃ ▸ hf)
  · have hq' : q ≠ s.next := by
      rintro rfl
      simp [hnew] at hf
    have hr' : r ≠ s.next := by
      rintro rfl
      simp [hnew] at hg
    exact h.own q (lt_of hq hq') r (lt_of hr hr') f ((hold hq').1 ▸ hlq) ((hold hr').1 ▸ hlr)
      ((hold hq').2.2 ▸ hf) ((hold hr').2.2 ▸ hg)
  · show s.denyWriteCnt i = count (Finset.range (s.next + 1)) _ _
    have hnone : (processFork s p).held s.next = none := by simp [Execs.held, hnew]
    rw [Finset.range_add_one, count_insert (by simp), hnone, if_neg (by simp), h.cnt i]
    exact count_congr fun q hq => (hheld (Nat.ne_of_lt (Finset.mem_range.mp hq))).symm
  · -- the child runs what its parent runs, and that is denied already
    obtain ⟨q', hq', hi'⟩ : ∃ q' < s.next, s.live q' = true ∧ s.image q' = some i := by
      by_cases hne : q = s.next
      · subst hne
        exact ⟨p, hp, hl, by simpa [processFork] using hi⟩
      · exact ⟨q, lt_of hq hne, (hold hne).1 ▸ hlq, (hold hne).2.1 ▸ hi⟩
    obtain ⟨r, hr, hh⟩ := h.covered q' hq' i hi'.1 hi'.2
    exact ⟨r, Nat.lt_succ_of_lt hr, (hheld (Nat.ne_of_lt hr)).trans hh⟩

/-- What `process_exit` does to the handle of `p`. -/
structure Dropped (s s₁ : Execs) (p : Nat) : Prop where
  live : s₁.live = s.live
  image : s₁.image = s.image
  runningFile : s₁.runningFile = s.runningFile
  next : s₁.next = s.next
  nextFile : s₁.nextFile = s.nextFile
  inode : ∀ g, (s₁.files g).inode = (s.files g).inode
  files : ∀ g, s.runningFile p ≠ some g → s₁.files g = s.files g
  cnt : ∀ j, s₁.denyWriteCnt j + (if s.held p = some j then 1 else 0) = s.denyWriteCnt j

/-- `file_close` after `file_allow_write` finds nothing left to allow. -/
theorem dropped (h : s.Ok) (hp : p < s.next) (hl : s.live p = true) {s₁ : Execs} (hs : dropRunningFile s p = some s₁) :
    Dropped s s₁ p := by
  simp only [dropRunningFile] at hs
  split at hs
  · rename_i hn
    obtain rfl := Option.some.inj hs
    exact ⟨rfl, rfl, rfl, rfl, rfl, fun _ => rfl, fun _ _ => rfl, by simp [Execs.held, hn]⟩
  · rename_i f hf
    have hd := (h.file p hp f hl hf).2.1
    have hheld : s.held p = some (s.files f).inode := by simp [Execs.held, hl, hf]
    simp only [fileAllowWrite, hd, if_true] at hs
    split at hs
    · rename_i hpos
      simp only [fileClose, fileAllowWrite, Option.bind_some, Function.update_self, Bool.false_eq_true, if_false,
        Option.some.injEq] at hs
      subst hs
      refine ⟨rfl, rfl, rfl, rfl, rfl, fun g => ?_, fun g hg => ?_, fun j => ?_⟩
      · simp only [Function.update_apply]
        split
        · rename_i hgf
          rw [hgf]
        · rfl
      · have hne : g ≠ f := fun he => hg (he ▸ hf)
        simp only [Function.update_apply, if_neg hne]
      · simp only [Function.update_apply, hheld, Option.some.injEq]
        grind
    · simp at hs

theorem ok_exit (h : s.Ok) (hp : p < s.next) (hl : s.live p = true) (hm : s.MayExit p)
    (hs : processExit s p = some s') : s'.Ok := by
  simp only [processExit, Option.map_eq_some_iff] at hs
  obtain ⟨s₁, hd, rfl⟩ := hs
  have d := dropped h hp hl hd
  let s' : Execs := { s₁ with live := Function.update s₁.live p false }
  have hlive {q : Nat} (hq : s'.live q = true) : q ≠ p ∧ s.live q = true := by
    simp only [s', Function.update_apply, d.live] at hq
    split at hq
    · cases hq
    · rename_i hne
      exact ⟨hne, hq⟩
  have hheld : s'.held = Function.update s.held p none := by
    funext q
    simp only [s', Execs.held, Function.update_apply, d.live, d.runningFile, d.inode]
    split <;> rfl
  have hnext : s'.next = s.next := d.next
  refine ⟨fun q hq f hlq hf => ?_, fun q hq r hr f hlq hlr hf hg => ?_, fun i => ?_, fun q hq i hlq hi => ?_⟩
  · obtain ⟨hne, hlq⟩ := hlive hlq
    have hf : s.runningFile q = some f := d.runningFile ▸ hf
    obtain ⟨h₁, h₂, h₃⟩ := h.file q (hnext ▸ hq) f hlq hf
    have hother : s.runningFile p ≠ some f := fun he => hne (h.own q (hnext ▸ hq) p hp f hlq hl hf he)
    refine ⟨d.nextFile ▸ h₁, ?_, ?_⟩
    · show (s₁.files f).denyWrite = true
      rw [d.files f hother]
      exact h₂
    · show s₁.image q = some (s₁.files f).inode
      rw [d.image, d.inode]
      exact h₃
  · exact h.own q (hnext ▸ hq) r (hnext ▸ hr) f (hlive hlq).2 (hlive hlr).2 (d.runningFile ▸ hf) (d.runningFile ▸ hg)
  · show s₁.denyWriteCnt i = count (Finset.range s'.next) s'.held (some i)
    have hcnt := d.cnt i
    have hup := count_update (S := Finset.range s.next) (g := s.held) (b := some i) (c := none)
      (Finset.mem_range.mpr hp)
    rw [hnext, hheld]
    rw [if_neg (show ¬ (none : Option Nat) = some i by simp), ← h.cnt i] at hup
    omega
  · obtain ⟨hne, hlq'⟩ := hlive hlq
    have hi' : s.image q = some i := d.image ▸ hi
    obtain ⟨r, hr, hh⟩ := h.covered q (hnext ▸ hq) i hlq' hi'
    obtain ⟨r', hr', hrp, hh'⟩ : ∃ r' < s.next, r' ≠ p ∧ s.held r' = some i := by
      by_cases hrp : r = p
      · -- the handle of `p` goes; another one is left, as `q` runs the file
        subst hrp
        rcases hm i hh with hex | hno
        · exact hex
        · exact absurd hi' (hno q (hnext ▸ hq) hne hlq')
      · exact ⟨r, hr, hrp, hh⟩
    exact ⟨r', hnext ▸ hr', by rw [hheld, Function.update_of_ne hrp]; exact hh'⟩

theorem ok_exec (h : s.Ok) (hp : p < s.next) (hl : s.live p = true) (hn : s.runningFile p = none) :
    (processExec s p i (some i)).Ok := by
  -- the new handle is the one numbered `s.nextFile`
  have heq : processExec s p i (some i) = { s with
      image := Function.update s.image p (some i)
      runningFile := Function.update s.runningFile p (some s.nextFile)
      files := Function.update (Function.update s.files s.nextFile ⟨i, false⟩) s.nextFile ⟨i, true⟩
      nextFile := s.nextFile + 1
      denyWriteCnt := Function.update s.denyWriteCnt i (s.denyWriteCnt i + 1) } := by
    simp [processExec, openFile, fileDenyWrite]
  rw [heq, Function.update_idem]
  let s' : Execs := { s with
    image := Function.update s.image p (some i)
    runningFile := Function.update s.runningFile p (some s.nextFile)
    files := Function.update s.files s.nextFile ⟨i, true⟩
    nextFile := s.nextFile + 1
    denyWriteCnt := Function.update s.denyWriteCnt i (s.denyWriteCnt i + 1) }
  have hold {g : Nat} (hg : g < s.nextFile) : s'.files g = s.files g := by
    simp only [s', Function.update_apply, if_neg (Nat.ne_of_lt hg)]
  have hrun {q : Nat} (hq : q ≠ p) : s'.runningFile q = s.runningFile q := by
    simp only [s', Function.update_apply, if_neg hq]
  have hrunp : s'.runningFile p = some s.nextFile := by simp [s']
  have hpheld : s.held p = none := by simp [Execs.held, hn]
  have hheld {q : Nat} (hq : q < s.next) : s'.held q = Function.update s.held p (some i) q := by
    by_cases hqp : q = p
    · subst hqp
      simp [s', Execs.held, hl]
    · rw [Function.update_of_ne hqp]
      simp only [Execs.held, hrun hqp]
      show (if s.live q = true then _ else none) = if s.live q = true then _ else none
      by_cases hlq : s.live q = true
      · rw [if_pos hlq, if_pos hlq]
        cases hf : s.runningFile q with
        | none => rfl
        | some f => simp only [Option.map_some, hold (h.file q hq f hlq hf).1]
      · rw [if_neg hlq, if_neg hlq]
  show s'.Ok
  refine ⟨fun q hq f hlq hf => ?_, fun q hq r hr f hlq hlr hf hg => ?_, fun j => ?_, fun q hq j hlq hj => ?_⟩
  · by_cases hqp : q = p
    · subst hqp
      obtain rfl := Option.some.inj (hrunp.symm.trans hf)
      simp [s']
    · obtain ⟨h₁, h₂, h₃⟩ := h.file q hq f hlq (hrun hqp ▸ hf)
      refine ⟨Nat.lt_succ_of_lt h₁, by rw [hold h₁]; exact h₂, ?_⟩
      rw [hold h₁]
      simpa [s', Function.update_apply, hqp] using h₃
  · -- nobody had the new handle before
    have fresh {q : Nat} (hq : q < s.next) (hlq : s.live q = true) (hqp : q ≠ p) : s'.runningFile q ≠ some s.nextFile := by
      intro he
      have := (h.file q hq s.nextFile hlq (hrun hqp ▸ he)).1
      omega
    by_cases hqp : q = p
    · subst hqp
      obtain rfl := Option.some.inj (hrunp.symm.trans hf)
      by_contra hne
      exact fresh hr hlr (Ne.symm hne) hg
    · by_cases hrp : r = p
      · subst hrp
        obtain rfl := Option.some.inj (hrunp.symm.trans hg)
        exact absurd hf (fresh hq hlq hqp)
      · exact h.own q hq r hr f hlq hlr (hrun hqp ▸ hf) (hrun hrp ▸ hg)
  · show Function.update s.denyWriteCnt i (s.denyWriteCnt i + 1) j = count (Finset.range s.next) s'.held (some j)
    have hup := count_update (S := Finset.range s.next) (g := s.held) (b := some j) (c := some i)
      (Finset.mem_range.mpr hp)
    rw [hpheld, if_neg (by simp), ← h.cnt j] at hup
    have hcong : count (Finset.range s.next) s'.held (some j) =
        count (Finset.range s.next) (Function.update s.held p (some i)) (some j) :=
      count_congr fun q hq => hheld (Finset.mem_range.mp hq)
    rw [hcong]
    by_cases hji : j = i
    · subst hji
      rw [if_pos rfl] at hup
      rw [Function.update_self]
      omega
    · rw [if_neg (fun he => hji (Option.some.inj he).symm)] at hup
      rw [Function.update_of_ne hji]
      omega
  · by_cases hqp : q = p
    · subst hqp
      refine ⟨q, hq, ?_⟩
      rw [hheld hq, Function.update_self]
      simpa [s'] using hj
    · obtain ⟨r, hr, hh⟩ := h.covered q hq j hlq (by simpa [s', Function.update_apply, hqp] using hj)
      have hrp : r ≠ p := by
        rintro rfl
        simp [hpheld] at hh
      exact ⟨r, hr, by rw [hheld hr, Function.update_of_ne hrp]; exact hh⟩

theorem step_ok (h : s.Ok) (hc : s.Careful e) (hs : s.step e = some s') : s'.Ok := by
  cases e with
  | fork p =>
    simp only [Execs.step, Option.ite_none_right_eq_some, Option.some.injEq] at hs
    exact hs.2 ▸ ok_fork h hs.1.1 hs.1.2
  | exec p i loaded opened =>
    simp only [Execs.step, Option.ite_none_right_eq_some] at hs
    obtain ⟨⟨hp, hl⟩, hs⟩ := hs
    cases loaded with
    | true =>
      obtain ⟨hn, rfl⟩ : s.runningFile p = none ∧ opened = some i := hc
      exact Option.some.inj hs ▸ ok_exec h hp hl hn
    | false => exact ok_exit h hp hl hc hs
  | exit p =>
    simp only [Execs.step, Option.ite_none_right_eq_some] at hs
    exact ok_exit h hs.1.1 hs.1.2 hc hs.2

theorem boot_ok : Execs.boot.Ok := by
  refine ⟨by simp [Execs.boot], by simp [Execs.boot], fun i => ?_, by simp [Execs.boot]⟩
  exact (count_eq_zero.mpr fun p _ => by simp [Execs.boot, Execs.held]).symm

/-- In a run of careful steps, an inode is denied exactly while a live process
runs its program. -/
theorem exact_of_run (es : List ExecEvent) (hr : Run.run Execs.step Execs.boot es = some s)
    (hc : Run.Always Execs.step Execs.Careful Execs.boot es) : s.Exact :=
  (Run.run_invariant (fun _ _ _ h hc hs => step_ok h hc hs) boot_ok hr hc).exact

/-- A process runs inode 5 and forks; the child runs inode 6; the parent
exits. -/
def careful : List ExecEvent := [.fork 0, .exec 1 5 true (some 5), .fork 1, .exec 2 6 true (some 6), .exit 1]

theorem exact_careful : ∃ s, Run.run Execs.step Execs.boot careful = some s ∧ s.denyWriteCnt 6 = 1 ∧
    s.denyWriteCnt 5 = 0 ∧ s.Exact := by
  obtain ⟨s, hs, hd⟩ := (Option.any_eq_true ..).mp
    (show (Run.run Execs.step Execs.boot careful).any (fun s => s.denyWriteCnt 6 = 1 ∧ s.denyWriteCnt 5 = 0) = true
      by decide +kernel)
  obtain ⟨h₆, h₅⟩ := of_decide_eq_true hd
  exact ⟨s, hs, h₆, h₅, exact_of_run careful hs (by decide +kernel)⟩

/-- The parent exits while its child still runs the file: nobody denies
writes any more. -/
theorem not_exact_of_fork : ∃ s, Run.run Execs.step Execs.boot [.fork 0, .exec 1 5 true (some 5), .fork 1, .exit 1] =
    some s ∧ s.live 2 = true ∧ s.image 2 = some 5 ∧ s.denyWriteCnt 5 = 0 ∧ ¬ s.Exact := by
  obtain ⟨s, hs, hd⟩ := (Option.any_eq_true ..).mp
    (show (Run.run Execs.step Execs.boot [.fork 0, .exec 1 5 true (some 5), .fork 1, .exit 1]).any
      (fun s => 2 < s.next ∧ s.live 2 = true ∧ s.image 2 = some 5 ∧ s.denyWriteCnt 5 = 0) = true by decide +kernel)
  obtain ⟨hn, hl, hi, h₀⟩ := of_decide_eq_true hd
  exact ⟨s, hs, hl, hi, h₀, fun h => absurd ((h 5).mpr ⟨2, hn, hl, hi⟩) (by omega)⟩

end PintosKaist.DenyWrite
