/-
`process_wait` and `process_exit` (`userprog/process.c`): the handshake of a
parent and its children over `wait_sema`, `free_sema` and `children_list`, for
any tree of processes and any interleaving.

The fields of `struct thread` are functions of the thread here. A call is cut
at its semaphore operations: `sema_down` is a step that can be taken when the
value is not 0, and a process stays where it is until then. `list_remove` and
the `sema_up` after it are one step, as nothing but the parent looks at its
list. A thread is its own tid.
-/
import Mathlib.Logic.Function.Basic
import PintosKaist.Lib.Run

namespace PintosKaist.Wait

/-- Where a process is. -/
inductive Phase where
  | running
  /-- In `process_wait`, at `sema_down (&child->wait_sema)`. -/
  | waiting (child : Nat)
  /-- Past it. -/
  | reading (child : Nat)
  /-- With `child->exit_status` read. -/
  | reaping (child : Nat) (status : Int)
  /-- In `process_exit`, at `sema_down (&curr->free_sema)`. -/
  | exiting
  /-- Past it: `THREAD_DYING`, then freed. -/
  | dying
  deriving DecidableEq, Repr

/-- A `process_wait` that returned: its result, and whether it called
`sema_down`. -/
structure Waited where
  result : Int
  slept : Bool
  deriving DecidableEq, Repr

structure Procs where
  phase : Nat → Phase
  /-- The thread that called `thread_create`. -/
  parent : Nat → Option Nat
  childrenList : Nat → List Nat
  exitStatus : Nat → Int
  waitSema : Nat → Nat
  freeSema : Nat → Nat
  /-- Threads from here on have not been created. -/
  next : Nat
  /-- What `process_wait` has returned to a process for a child of its own. -/
  waited : Nat → Nat → List Waited

inductive ProcEvent where
  /-- `thread_create`. -/
  | create (p : Nat)
  /-- `cur->exit_status = status` in `sys_exit`. -/
  | store (p : Nat) (status : Int)
  /-- `process_exit` up to `sema_up (&curr->wait_sema)`, included. -/
  | exit (p : Nat)
  /-- `sema_down (&curr->free_sema)`, completed. -/
  | free (p : Nat)
  /-- `process_wait` up to `sema_down (&child->wait_sema)`. -/
  | wait (p tid : Nat)
  /-- That `sema_down`, completed. -/
  | down (p : Nat)
  /-- `int status = child->exit_status`. -/
  | read (p : Nat)
  /-- The rest of `process_wait`. -/
  | reap (p : Nat)
  deriving DecidableEq, Repr

/-- `get_my_child`, for a list of children. -/
def getMyChild (children : List Nat) (tid : Nat) : Option Nat := children.find? (· == tid)

/-- What `process_wait` returns for a status. -/
def waitResult (status : Int) : Int := if status < 0 then -1 else status

def Procs.create (s : Procs) (p : Nat) : Procs :=
  { s with
    phase := Function.update s.phase s.next .running
    parent := Function.update s.parent s.next (some p)
    childrenList := Function.update (Function.update s.childrenList s.next []) p (s.childrenList p ++ [s.next])
    exitStatus := Function.update s.exitStatus s.next 0
    waitSema := Function.update s.waitSema s.next 0
    freeSema := Function.update s.freeSema s.next 0
    next := s.next + 1 }

def Procs.setPhase (s : Procs) (p : Nat) (ph : Phase) : Procs := { s with phase := Function.update s.phase p ph }

/-- `process_wait (tid)` of `p` returns. -/
def Procs.ret (s : Procs) (p tid : Nat) (r : Waited) : Procs :=
  if s.parent tid = some p then
    { s with waited := Function.update s.waited p (Function.update (s.waited p) tid (s.waited p tid ++ [r])) }
  else s

/-- `process_wait`, up to its `sema_down`. -/
def Procs.wait (s : Procs) (p tid : Nat) : Procs :=
  if s.childrenList p = [] then s.ret p tid ⟨-1, false⟩
  else
    match getMyChild (s.childrenList p) tid with
    | none => s.ret p tid ⟨-1, false⟩
    | some child => s.setPhase p (.waiting child)

/-- `process_wait` from `list_remove` on. -/
def Procs.reap (s : Procs) (p child : Nat) (status : Int) : Procs :=
  let s₁ := { s with
    childrenList := Function.update s.childrenList p ((s.childrenList p).erase child)
    freeSema := Function.update s.freeSema child (s.freeSema child + 1) }
  (s₁.setPhase p .running).ret p child ⟨waitResult status, true⟩

def Procs.step (s : Procs) : ProcEvent → Option Procs
  | .create p => if p < s.next ∧ s.phase p = .running then some (s.create p) else none
  | .store p st =>
    if p < s.next ∧ s.phase p = .running then some { s with exitStatus := Function.update s.exitStatus p st } else none
  | .exit p =>
    if p < s.next ∧ s.phase p = .running then
      some { s.setPhase p .exiting with waitSema := Function.update s.waitSema p (s.waitSema p + 1) }
    else none
  | .free p =>
    if p < s.next ∧ s.phase p = .exiting ∧ 0 < s.freeSema p then
      some { s.setPhase p .dying with freeSema := Function.update s.freeSema p (s.freeSema p - 1) }
    else none
  | .wait p tid => if p < s.next ∧ s.phase p = .running then some (s.wait p tid) else none
  | .down p =>
    match s.phase p with
    | .waiting c =>
      if 0 < s.waitSema c then
        some { s.setPhase p (.reading c) with waitSema := Function.update s.waitSema c (s.waitSema c - 1) }
      else none
    | _ => none
  | .read p =>
    match s.phase p with
    | .reading c => some (s.setPhase p (.reaping c (s.exitStatus c)))
    | _ => none
  | .reap p =>
    match s.phase p with
    | .reaping c st => some (s.reap p c st)
    | _ => none

/-- The initial thread, before it has created any. -/
def Procs.boot : Procs where
  phase _ := .running
  parent _ := none
  childrenList _ := []
  exitStatus _ := 0
  waitSema _ := 0
  freeSema _ := 0
  next := 1
  waited _ _ := []

variable {s s' : Procs} {e : ProcEvent} {p c : Nat}

/-! ## The tree -/

/-- The process is in `process_wait` for `c`. -/
def Phase.about (c : Nat) : Phase → Prop
  | .waiting d | .reading d | .reaping d _ => d = c
  | _ => False

/-- `children_list` has children only, each once, and `process_wait` is for a
child on it. -/
structure Procs.Tree (s : Procs) : Prop where
  mem : ∀ p, ∀ c ∈ s.childrenList p, s.parent c = some p
  old : ∀ p c, s.parent c = some p → p < c ∧ c < s.next
  nodup : ∀ p, (s.childrenList p).Nodup
  about : ∀ p c, (s.phase p).about c → c ∈ s.childrenList p
  waited : ∀ p c, s.parent c ≠ some p → s.waited p c = []

/-- A process moves on, to a place that is about a child on its list, if at all. -/
theorem Procs.Tree.about_setPhase {ph : Phase} (h : s.Tree) (hm : ∀ d, ph.about d → d ∈ s.childrenList p) (q d : Nat)
    (hd : ((s.setPhase p ph).phase q).about d) : d ∈ s.childrenList q := by
  simp only [Procs.setPhase, Function.update_apply] at hd
  split at hd
  · rename_i hq
    exact hq ▸ hm d hd
  · exact h.about q d hd

theorem getMyChild_eq_some {l : List Nat} {t d : Nat} (h : getMyChild l t = some d) : d = t ∧ t ∈ l := by
  have h₁ := List.find?_some h
  have h₂ := List.mem_of_find?_eq_some h
  simp only [beq_iff_eq] at h₁
  exact ⟨h₁, h₁ ▸ h₂⟩

theorem getMyChild_of_mem {l : List Nat} {t : Nat} (h : t ∈ l) : getMyChild l t = some t := by
  cases hg : getMyChild l t with
  | none => exact absurd (List.find?_eq_none.mp hg t h) (by simp)
  | some d => rw [(getMyChild_eq_some hg).1]

/-- What `process_wait` does before its `sema_down`: it returns -1, or it is
for a child on the list. -/
theorem wait_cases (s : Procs) (p tid : Nat) : (tid ∉ s.childrenList p ∧ s.wait p tid = s.ret p tid ⟨-1, false⟩) ∨
    (tid ∈ s.childrenList p ∧ s.wait p tid = s.setPhase p (.waiting tid)) := by
  simp only [Procs.wait]
  split
  · rename_i hn
    exact .inl ⟨by simp [hn], rfl⟩
  · split
    · rename_i hg
      exact .inl ⟨fun hm => by simp [getMyChild_of_mem hm] at hg, rfl⟩
    · rename_i d hg
      obtain ⟨rfl, hm⟩ := getMyChild_eq_some hg
      exact .inr ⟨hm, rfl⟩

/-! ## The handshake of a parent and a child -/

/-- The first of the waits returned the status, the others -1 at once. -/
def Answered (status : Int) : List Waited → Prop
  | [] => False
  | w :: ws => w = ⟨waitResult status, true⟩ ∧ ∀ v ∈ ws, v = ⟨-1, false⟩

theorem Answered.append {st : Int} {ws : List Waited} (h : Answered st ws) : Answered st (ws ++ [⟨-1, false⟩]) := by
  cases ws with
  | nil => exact h.elim
  | cons w ws =>
    refine ⟨h.1, fun v hv => ?_⟩
    rcases List.mem_append.mp hv with hv | hv
    · exact h.2 v hv
    · simpa using hv

/-- The process has the unit of `c`'s `wait_sema`. -/
def Phase.past (c : Nat) : Phase → Prop
  | .reading d | .reaping d _ => d = c
  | _ => False

/-- How far parent `p` and child `c` are: the child is not waited for, or the
parent has seen it exit, or it has answered and the child is free to go. -/
inductive Handshake (s : Procs) (p c : Nat) : Prop
  | unwaited (mem : c ∈ s.childrenList p) (waited : s.waited p c = []) (free : s.freeSema c = 0)
      (wait : s.waitSema c = if s.phase c = .exiting then 1 else 0) (alive : s.phase c ≠ .dying)
      (before : ¬ (s.phase p).past c)
  | answering (mem : c ∈ s.childrenList p) (waited : s.waited p c = []) (free : s.freeSema c = 0)
      (wait : s.waitSema c = 0) (exited : s.phase c = .exiting)
      (past : s.phase p = .reading c ∨ s.phase p = .reaping c (s.exitStatus c))
  | answered (mem : c ∉ s.childrenList p) (waited : Answered (s.exitStatus c) (s.waited p c))
      (wait : s.waitSema c = 0)
      (exited : s.phase c = .exiting ∧ s.freeSema c = 1 ∨ s.phase c = .dying ∧ s.freeSema c = 0)

/-- A step leaves the child's side alone. -/
structure SameChild (s s' : Procs) (p c : Nat) : Prop where
  mem : c ∈ s'.childrenList p ↔ c ∈ s.childrenList p
  waited : s'.waited p c = s.waited p c
  free : s'.freeSema c = s.freeSema c
  wait : s'.waitSema c = s.waitSema c
  status : s'.exitStatus c = s.exitStatus c
  exiting : s'.phase c = .exiting ↔ s.phase c = .exiting
  dying : s'.phase c = .dying ↔ s.phase c = .dying

/-- A step that leaves the child's side alone, and by which the parent does
not get or lose the unit. -/
theorem Handshake.congr (h : Handshake s p c) (hc : SameChild s s' p c)
    (hp : s'.phase p = s.phase p ∨ ¬ (s.phase p).past c ∧ ¬ (s'.phase p).past c) : Handshake s' p c := by
  cases h with
  | unwaited mem waited free wait alive before =>
    refine .unwaited (hc.mem.mpr mem) (hc.waited.trans waited) (hc.free.trans free) ?_ (hc.dying.not.mpr alive) ?_
    · rw [hc.wait, wait]
      exact if_congr hc.exiting.symm rfl rfl
    · rcases hp with hp | hp
      · rwa [hp]
      · exact hp.2
  | answering mem waited free wait exited past =>
    refine .answering (hc.mem.mpr mem) (hc.waited.trans waited) (hc.free.trans free) (hc.wait.trans wait)
      (hc.exiting.mpr exited) ?_
    rcases hp with hp | hp
    · rwa [hp, hc.status]
    · rcases past with past | past <;> exact absurd (by rw [past]; rfl) hp.1
  | answered mem waited wait exited =>
    refine .answered (hc.mem.not.mpr mem) (by rwa [hc.status, hc.waited]) (hc.wait.trans wait) ?_
    rwa [hc.exiting, hc.dying, hc.free]

structure Procs.Ok (s : Procs) : Prop extends s.Tree where
  handshake : ∀ p c, s.parent c = some p → Handshake s p c

theorem ok_create (h : s.Ok) (hp : p < s.next) (hr : s.phase p = .running) : (s.create p).Ok := by
  obtain ⟨⟨mem, old, nodup, about, waited⟩, hand⟩ := h
  refine ⟨?_, fun q d hd => ?_⟩
  · constructor <;> simp only [Procs.create, Function.update_apply] <;> grind [Phase.about]
  · by_cases hn : d = s.next
    · subst hn
      refine .unwaited ?_ ?_ ?_ ?_ ?_ ?_ <;> simp only [Procs.create, Function.update_apply] at hd ⊢ <;>
        grind [Phase.about, Phase.past]
    · have hq : s.parent d = some q := by simpa [Procs.create, Function.update_apply, hn] using hd
      have := old q d hq
      refine (hand q d hq).congr ?_ ?_
      · constructor <;> simp only [Procs.create, Function.update_apply] <;> grind
      · simp only [Procs.create, Function.update_apply]
        grind

theorem ok_store {st : Int} (h : s.Ok) (hr : s.phase p = .running) :
    Procs.Ok { s with exitStatus := Function.update s.exitStatus p st } := by
  refine ⟨⟨h.mem, h.old, h.nodup, h.about, h.waited⟩, fun q d hd => ?_⟩
  by_cases hdp : d = p
  · -- only a process that has not exited stores its status
    subst hdp
    cases h.handshake q d hd with
    | unwaited mem waited free wait alive before => exact .unwaited mem waited free wait alive before
    | answering mem waited free wait exited past => exact absurd (hr.symm.trans exited) (by simp)
    | answered mem waited wait exited => simp [hr] at exited
  · refine (h.handshake q d hd).congr ⟨Iff.rfl, rfl, rfl, rfl, ?_, Iff.rfl, Iff.rfl⟩ (.inl rfl)
    show Function.update s.exitStatus p st d = _
    rw [Function.update_apply, if_neg hdp]

theorem ok_exit (h : s.Ok) (hr : s.phase p = .running) :
    Procs.Ok { s.setPhase p .exiting with waitSema := Function.update s.waitSema p (s.waitSema p + 1) } := by
  refine ⟨⟨h.mem, h.old, h.nodup, h.about_setPhase nofun, h.waited⟩, fun q d hd => ?_⟩
  have hlt := h.old q d hd
  by_cases hdp : d = p
  · subst hdp
    have hqd : q ≠ d := Nat.ne_of_lt hlt.1
    cases h.handshake q d hd with
    | unwaited mem waited free wait alive before =>
      refine .unwaited mem waited free ?_ ?_ ?_ <;> simp [Procs.setPhase, wait, hr, hqd, before]
    | answering mem waited free wait exited past => exact absurd (hr.symm.trans exited) (by simp)
    | answered mem waited wait exited => simp [hr] at exited
  · refine (h.handshake q d hd).congr ?_ ?_
    · constructor <;> simp only [Procs.setPhase, Function.update_apply, if_neg hdp]
    · simp only [Procs.setPhase, Function.update_apply]
      grind [Phase.past]

/-- A child gets past `free_sema` only when it was answered. -/
theorem ok_free (h : s.Ok) (he : s.phase p = .exiting) (hf : 0 < s.freeSema p) :
    Procs.Ok { s.setPhase p .dying with freeSema := Function.update s.freeSema p (s.freeSema p - 1) } := by
  refine ⟨⟨h.mem, h.old, h.nodup, h.about_setPhase nofun, h.waited⟩, fun q d hd => ?_⟩
  by_cases hdp : d = p
  · subst hdp
    cases h.handshake q d hd with
    | unwaited mem waited free wait alive before => omega
    | answering mem waited free wait exited past => omega
    | answered mem waited wait exited =>
      have hone : s.freeSema d = 1 := by
        rcases exited with ⟨-, h₁⟩ | ⟨h₀, -⟩
        · exact h₁
        · exact absurd (he.symm.trans h₀) (by simp)
      exact .answered mem waited wait (.inr (by simp [Procs.setPhase, hone]))
  · refine (h.handshake q d hd).congr ?_ ?_
    · constructor <;> simp only [Procs.setPhase, Function.update_apply, if_neg hdp]
    · simp only [Procs.setPhase, Function.update_apply]
      grind [Phase.past]

theorem ok_ret {tid : Nat} (h : s.Ok) (hm : tid ∉ s.childrenList p) : (s.ret p tid ⟨-1, false⟩).Ok := by
  simp only [Procs.ret]
  split
  · rename_i hpar
    refine ⟨⟨h.mem, h.old, h.nodup, h.about, fun q d hne => ?_⟩, fun q d hd => ?_⟩
    · have hw := h.waited q d hne
      simp only [Function.update_apply]
      grind
    · by_cases hqd : q = p ∧ d = tid
      · obtain ⟨rfl, rfl⟩ := hqd
        cases h.handshake q d hd with
        | unwaited mem => exact absurd mem hm
        | answering mem => exact absurd mem hm
        | answered mem waited wait exited =>
          refine .answered mem ?_ wait exited
          simpa using waited.append
      · refine (h.handshake q d hd).congr ⟨Iff.rfl, ?_, rfl, rfl, rfl, Iff.rfl, Iff.rfl⟩ (.inl rfl)
        simp only [Function.update_apply]
        grind
  · exact h

theorem ok_waiting (h : s.Ok) (hr : s.phase p = .running) (hm : c ∈ s.childrenList p) :
    (s.setPhase p (.waiting c)).Ok := by
  refine ⟨⟨h.mem, h.old, h.nodup, h.about_setPhase fun d hd => hd ▸ hm, h.waited⟩, fun q d hd => ?_⟩
  refine (h.handshake q d hd).congr ⟨Iff.rfl, rfl, rfl, rfl, rfl, ?_, ?_⟩ ?_ <;>
    simp only [Procs.setPhase, Function.update_apply] <;> grind [Phase.past]

/-- The parent's `sema_down (&child->wait_sema)`: the child has exited. -/
theorem ok_down (h : s.Ok) (hr : s.phase p = .waiting c) (hw : 0 < s.waitSema c) :
    Procs.Ok { s.setPhase p (.reading c) with waitSema := Function.update s.waitSema c (s.waitSema c - 1) } := by
  have hmem := h.about p c (by rw [hr]; rfl)
  have hpar := h.mem p c hmem
  have hne : c ≠ p := Nat.ne_of_gt (h.old p c hpar).1
  refine ⟨⟨h.mem, h.old, h.nodup, h.about_setPhase fun d hd => hd ▸ hmem, h.waited⟩, fun q d hd => ?_⟩
  by_cases hdc : d = c
  · subst hdc
    obtain rfl : q = p := Option.some.inj (hd.symm.trans hpar)
    cases h.handshake q d hd with
    | unwaited mem waited free wait alive before =>
      have hex : s.phase d = .exiting := by
        by_contra hn
        rw [if_neg hn] at wait
        omega
      rw [if_pos hex] at wait
      refine .answering mem waited free ?_ ?_ (.inl ?_) <;>
        simp [Procs.setPhase, wait, hex, hne]
    | answering mem waited free wait exited past => omega
    | answered mem waited wait exited => omega
  · refine (h.handshake q d hd).congr ⟨Iff.rfl, rfl, rfl, ?_, rfl, ?_, ?_⟩ ?_ <;>
      simp only [Procs.setPhase, Function.update_apply] <;> grind [Phase.past]

theorem ok_read (h : s.Ok) (hr : s.phase p = .reading c) : (s.setPhase p (.reaping c (s.exitStatus c))).Ok := by
  have hmem := h.about p c (by rw [hr]; rfl)
  have hpar := h.mem p c hmem
  have hne : c ≠ p := Nat.ne_of_gt (h.old p c hpar).1
  refine ⟨⟨h.mem, h.old, h.nodup, h.about_setPhase fun d hd => hd ▸ hmem, h.waited⟩, fun q d hd => ?_⟩
  by_cases hqd : q = p ∧ d = c
  · obtain ⟨rfl, rfl⟩ := hqd
    cases h.handshake q d hd with
    | unwaited mem waited free wait alive before => exact absurd (by rw [hr]; rfl) before
    | answering mem waited free wait exited past =>
      refine .answering mem waited free wait ?_ (.inr ?_) <;>
        simp [Procs.setPhase, exited, hne]
    | answered mem waited wait exited => exact absurd hmem mem
  · refine (h.handshake q d hd).congr ⟨Iff.rfl, rfl, rfl, rfl, rfl, ?_, ?_⟩ ?_ <;>
      simp only [Procs.setPhase, Function.update_apply] <;> grind [Phase.past]

/-- The rest of `process_wait`: the child is off the list and free to go. -/
theorem ok_reap {st : Int} (h : s.Ok) (hr : s.phase p = .reaping c st) : (s.reap p c st).Ok := by
  have hmem := h.about p c (by rw [hr]; rfl)
  have hpar := h.mem p c hmem
  have hne : c ≠ p := Nat.ne_of_gt (h.old p c hpar).1
  have heq : s.reap p c st = { s with
      phase := Function.update s.phase p .running
      childrenList := Function.update s.childrenList p ((s.childrenList p).erase c)
      freeSema := Function.update s.freeSema c (s.freeSema c + 1)
      waited := Function.update s.waited p
        (Function.update (s.waited p) c (s.waited p c ++ [⟨waitResult st, true⟩])) } := if_pos hpar
  rw [heq]
  refine ⟨⟨fun q d hd => ?_, h.old, fun q => ?_, fun q d hd => ?_, fun q d hd => ?_⟩, fun q d hd => ?_⟩
  · simp only [Function.update_apply] at hd
    split at hd
    · rename_i hq
      exact hq ▸ h.mem p d (List.mem_of_mem_erase hd)
    · exact h.mem q d hd
  · simp only [Function.update_apply]
    split
    · exact (h.nodup p).erase c
    · exact h.nodup q
  · simp only [Function.update_apply] at hd ⊢
    split at hd
    · exact hd.elim
    · rename_i hq
      rw [if_neg hq]
      exact h.about q d hd
  · have hw := h.waited q d hd
    simp only [Function.update_apply] at hd ⊢
    grind
  · by_cases hdc : d = c
    · subst hdc
      obtain rfl : q = p := Option.some.inj (hd.symm.trans hpar)
      cases h.handshake q d hd with
      | unwaited mem waited free wait alive before => exact absurd (by rw [hr]; rfl) before
      | answering mem waited free wait exited past =>
        obtain rfl : st = s.exitStatus d := by
          rcases past with past | past
          · exact absurd (hr.symm.trans past) (by simp)
          · exact (Phase.reaping.inj (hr.symm.trans past)).2
        refine .answered ?_ ?_ wait (.inl ?_) <;> simp only [Function.update_self]
        · exact (List.Nodup.mem_erase_iff (h.nodup q)).not.mpr (by simp)
        · rw [waited]
          exact ⟨rfl, by simp⟩
        · rw [Function.update_apply, if_neg hne]
          exact ⟨exited, by omega⟩
      | answered mem waited wait exited => exact absurd hmem mem
    · refine (h.handshake q d hd).congr ?_ ?_
      · constructor <;> simp only [Function.update_apply] <;> grind
      · simp only [Function.update_apply]
        grind [Phase.past]

theorem step_ok (h : s.Ok) (hs : s.step e = some s') : s'.Ok := by
  cases e with
  | create p =>
    simp only [Procs.step, Option.ite_none_right_eq_some, Option.some.injEq] at hs
    exact hs.2 ▸ ok_create h hs.1.1 hs.1.2
  | store p st =>
    simp only [Procs.step, Option.ite_none_right_eq_some, Option.some.injEq] at hs
    exact hs.2 ▸ ok_store h hs.1.2
  | exit p =>
    simp only [Procs.step, Option.ite_none_right_eq_some, Option.some.injEq] at hs
    exact hs.2 ▸ ok_exit h hs.1.2
  | free p =>
    simp only [Procs.step, Option.ite_none_right_eq_some, Option.some.injEq] at hs
    exact hs.2 ▸ ok_free h hs.1.2.1 hs.1.2.2
  | wait p tid =>
    simp only [Procs.step, Option.ite_none_right_eq_some, Option.some.injEq] at hs
    obtain ⟨⟨-, hr⟩, rfl⟩ := hs
    rcases wait_cases s p tid with ⟨hm, he⟩ | ⟨hm, he⟩
    · exact he ▸ ok_ret h hm
    · exact he ▸ ok_waiting h hr hm
  | down p =>
    simp only [Procs.step] at hs
    split at hs
    · rename_i c hp
      simp only [Option.ite_none_right_eq_some, Option.some.injEq] at hs
      exact hs.2 ▸ ok_down h hp hs.1
    · cases hs
  | read p =>
    simp only [Procs.step] at hs
    split at hs
    · rename_i c hp
      exact Option.some.inj hs ▸ ok_read h hp
    · cases hs
  | reap p =>
    simp only [Procs.step] at hs
    split at hs
    · rename_i c st hp
      exact Option.some.inj hs ▸ ok_reap h hp
    · cases hs

theorem boot_ok : Procs.boot.Ok :=
  ⟨by constructor <;> simp [Procs.boot, Phase.about], by simp [Procs.boot]⟩

theorem run_ok {es : List ProcEvent} (hr : Run.run Procs.step Procs.boot es = some s) : s.Ok :=
  Run.run_invariant (G := fun _ _ => True) (fun _ _ _ h _ hs => step_ok h hs) boot_ok hr
    (Run.always_of_mem _ fun _ _ _ => trivial)

/-- The handshake, for any tree of processes and any interleaving: the first
`process_wait` for a child returns its status and the later ones -1 at once;
a child gets past `free_sema` only when its parent has read the status and
taken it off the list; and a parent that waits for a child that has exited
does not stay blocked. -/
theorem handshake_of_run (es : List ProcEvent) (hr : Run.run Procs.step Procs.boot es = some s)
    (hc : s.parent c = some p) :
    (s.waited p c = [] ∨ Answered (s.exitStatus c) (s.waited p c)) ∧
      (s.waited p c ≠ [] → ¬ (s.phase p).about c) ∧
      (s.phase c = .dying → c ∉ s.childrenList p ∧ Answered (s.exitStatus c) (s.waited p c)) ∧
      (s.phase p = .waiting c → s.phase c = .exiting → (s.step (.down p)).isSome) := by
  have h := run_ok hr
  cases h.handshake p c hc with
  | unwaited mem waited free wait alive before =>
    refine ⟨.inl waited, fun hne => absurd waited hne, fun hd => absurd hd alive, fun hp he => ?_⟩
    simp [Procs.step, hp, wait, he]
  | answering mem waited free wait exited past =>
    refine ⟨.inl waited, fun hne => absurd waited hne, fun hd => absurd (exited.symm.trans hd) (by simp), fun hp _ => ?_⟩
    simp [hp] at past
  | answered mem waited wait exited =>
    refine ⟨.inr waited, fun _ ha => mem (h.about p c ha), fun _ => ⟨mem, waited⟩, fun hp _ => ?_⟩
    exact absurd (h.about p c (by rw [hp]; rfl)) mem

/-- The initial thread creates a child and waits for it, before it exits with
status 7; then it waits once more. -/
def waitTwice : List ProcEvent :=
  [.create 0, .wait 0 1, .store 1 7, .exit 1, .down 0, .read 0, .reap 0, .free 1, .wait 0 1]

theorem handshake_waitTwice : ∃ s, Run.run Procs.step Procs.boot waitTwice = some s ∧
    s.waited 0 1 = [⟨7, true⟩, ⟨-1, false⟩] ∧ s.phase 1 = .dying ∧ 1 ∉ s.childrenList 0 := by
  obtain ⟨s, hs, hd⟩ := (Option.any_eq_true ..).mp
    (show (Run.run Procs.step Procs.boot waitTwice).any (fun s => s.parent 1 = some 0 ∧
      s.waited 0 1 = [⟨7, true⟩, ⟨-1, false⟩] ∧ s.phase 1 = .dying) = true by decide +kernel)
  obtain ⟨hp, hw, hd⟩ := of_decide_eq_true hd
  exact ⟨s, hs, hw, hd, ((handshake_of_run waitTwice hs hp).2.2.1 hd).1⟩

end PintosKaist.Wait
