/-
Reference counts of open files: `dup_count` is the number of slots that hold
the file, in every state reached without the two calls that miss a count.

Those two are `fork` with a file in slot 0 or 1 of the parent, which copies
the pointer and leaves the count, and `sys_open` once `fd_idx` finds no empty
slot, which leaves a file counted once that no slot holds.
-/
import Mathlib.Algebra.BigOperators.Group.Finset.Piecewise
import Mathlib.Algebra.BigOperators.Group.Finset.Sigma
import Mathlib.Algebra.Ring.Int.Defs
import PintosKaist.Userprog.FdTable

namespace PintosKaist.FdTable

/-! ## Reading back a write -/

section
variable (s : State) (p q fd n f : Nat) (v : Slot)

@[simp] theorem slot_setSlot :
    (s.setSlot p fd v).slot q n = if q = p ∧ n = fd then v else s.slot q n := by
  simp only [State.slot, State.setSlot, State.setProc, Function.update_apply]
  by_cases hq : q = p
  · subst hq; by_cases hn : n = fd <;> simp [hn]
  · simp [hq]

@[simp] theorem files_setSlot : (s.setSlot p fd v).files = s.files := rfl
@[simp] theorem pids_setSlot : (s.setSlot p fd v).pids = s.pids := rfl
@[simp] theorem nextFile_setSlot : (s.setSlot p fd v).nextFile = s.nextFile := rfl

@[simp] theorem slot_setFile (fl : Option File) : (s.setFile f fl).slot p fd = s.slot p fd := rfl
@[simp] theorem slot_setInode (ino : Inode) : (s.setInode f ino).slot p fd = s.slot p fd := rfl

/-- Writing the other fields of a process keeps its slots. -/
theorem slot_setProc {pr : Proc} (h : pr.fdTable = (s.procs p).fdTable) :
    (s.setProc p pr).slot q n = s.slot q n := by
  simp only [State.slot, State.setProc, Function.update_apply]
  split
  · rename_i hq; rw [h, hq]
  · rfl
end

theorem dropStd_fdTable (pr : Proc) (v : Slot) : (dropStd pr v).fdTable = pr.fdTable := by
  cases v <;> rfl

/-! ## The count of a file's slots -/

/-- The slots of one process after the other. -/
theorem refs_eq_sum (s : State) (f : Nat) :
    s.refs f = s.pids.sum fun p => (List.range maxFd).countP fun n => s.slot p n = .file f := by
  unfold State.refs Count.count State.places
  rw [Finset.card_filter, Finset.sum_product]
  refine Finset.sum_congr rfl fun p _ => ?_
  rw [← Finset.card_filter, List.countP_eq_length_filter]
  rfl

/-- The count reads the tables of the processes that have one. -/
theorem refs_congr {s t : State} (hp : s.pids = t.pids) (h : ∀ q n, s.slot q n = t.slot q n) (f : Nat) :
    s.refs f = t.refs f := by
  unfold State.refs State.places
  rw [hp]
  exact Count.count_congr fun x _ => h x.1 x.2

theorem refs_setSlot {s : State} {p fd : Nat} (hp : p ∈ s.pids) (hfd : fd < maxFd) (v : Slot) (f : Nat) :
    (s.setSlot p fd v).refs f + (if s.slot p fd = .file f then 1 else 0) =
      s.refs f + if v = .file f then 1 else 0 := by
  have hplace : (p, fd) ∈ s.places := by simp [State.places, hp, hfd]
  have hfun : (fun x : Nat × Nat => (s.setSlot p fd v).slot x.1 x.2) =
      Function.update (fun x : Nat × Nat => s.slot x.1 x.2) (p, fd) v := by
    funext x
    simp only [slot_setSlot, Function.update_apply, Prod.ext_iff]
  rw [State.refs, hfun]
  exact Count.count_update hplace

/-- A process whose slots hold no file does not count. -/
theorem refs_pids {s : State} {S : Finset Nat}
    (h : ∀ q, (q ∈ S ↔ q ∈ s.pids) ∨ ∀ n < maxFd, ∀ f, s.slot q n ≠ .file f) (f : Nat) :
    State.refs { s with pids := S } f = s.refs f := by
  unfold State.refs Count.count State.places State.slot
  congr 1
  ext ⟨q, n⟩
  simp only [Finset.mem_filter, Finset.mem_product, Finset.mem_range]
  rcases h q with h | h
  · rw [h]
  · constructor <;> rintro ⟨⟨-, hn⟩, hf⟩ <;> exact absurd hf (h n hn f)

theorem refs_pos {s : State} {p fd f : Nat} (hp : p ∈ s.pids) (hfd : fd < maxFd)
    (h : s.slot p fd = .file f) : 0 < s.refs f := by
  have := refs_setSlot hp hfd .null f
  simp [h] at this
  omega

/-! ## The invariant -/

/-- Each file's `dup_count` is the number of its slots plus `off`, what a call
has counted ahead of the slot it is about to fill; no slot holds a file that
is not allocated. -/
structure Counted (s : State) (off : Nat → Int) : Prop where
  exact : ∀ f fl, s.files f = some fl → fl.dupCount = s.refs f + off f
  free : ∀ f, s.files f = none → s.refs f = 0 ∧ off f = 0
  fresh : ∀ f, s.nextFile ≤ f → s.files f = none
  nonneg : ∀ f, 0 ≤ off f

theorem Counted.congr {s t : State} {off : Nat → Int} (h : Counted s off) (hf : t.files = s.files)
    (hn : t.nextFile = s.nextFile) (hr : ∀ f, t.refs f = s.refs f) : Counted t off where
  exact f fl hfl := by rw [hr]; exact h.exact f fl (hf ▸ hfl)
  free f hfl := by rw [hr]; exact h.free f (hf ▸ hfl)
  fresh f hle := by rw [hf]; exact h.fresh f (hn ▸ hle)
  nonneg := h.nonneg

/-- A slot holds only allocated files. -/
theorem Counted.live {s : State} {off : Nat → Int} (h : Counted s off) {p fd f : Nat}
    (hp : p ∈ s.pids) (hfd : fd < maxFd) (hs : s.slot p fd = .file f) : ∃ fl, s.files f = some fl := by
  cases hfl : s.files f with
  | some fl => exact ⟨fl, rfl⟩
  | none =>
    have := refs_pos hp hfd hs
    have := (h.free f hfl).1
    omega

/-- Writing a slot that holds no file with one that is no file. -/
theorem Counted.setSlot_noFile {s : State} {off : Nat → Int} (h : Counted s off) {p fd : Nat} {v : Slot}
    (hp : p ∈ s.pids) (hfd : fd < maxFd) (hold : ∀ f, s.slot p fd ≠ .file f) (hnew : ∀ f, v ≠ .file f) :
    Counted (s.setSlot p fd v) off :=
  h.congr rfl rfl fun f => by
    have := refs_setSlot hp hfd v f
    simpa [hold f, hnew f] using this

/-- Filling a slot that holds no file with a file counted ahead by one. -/
theorem Counted.fill {s : State} {off : Nat → Int} {p fd f : Nat} (hp : p ∈ s.pids) (hfd : fd < maxFd)
    (hold : ∀ g, s.slot p fd ≠ .file g) (h : Counted s (Function.update off f (off f + 1)))
    (hoff : ∀ g, 0 ≤ off g) (halive : s.files f ≠ none) : Counted (s.setSlot p fd (.file f)) off := by
  have hr : ∀ g, (s.setSlot p fd (.file f)).refs g = s.refs g + if f = g then 1 else 0 := fun g => by
    have := refs_setSlot hp hfd (.file f) g
    simpa [hold g] using this
  constructor
  · intro g fl hfl
    have := h.exact g fl hfl
    rw [hr, this, Function.update_apply]
    by_cases hg : g = f
    · subst hg; simp; omega
    · simp [hg, Ne.symm hg]
  · intro g hfl
    have hg : g ≠ f := fun he => halive (he ▸ hfl)
    obtain ⟨h1, h2⟩ := h.free g hfl
    rw [Function.update_of_ne hg] at h2
    exact ⟨by rw [hr, h1]; simp [Ne.symm hg], h2⟩
  · exact h.fresh
  · exact hoff

/-- A freshly opened file is counted ahead by one. -/
theorem Counted.alloc {s t : State} {off : Nat → Int} (h : Counted s off) (fl : File) (hc : fl.dupCount = 1)
    (hf : t.files = Function.update s.files s.nextFile (some fl)) (hn : t.nextFile = s.nextFile + 1)
    (hr : ∀ f, t.refs f = s.refs f) :
    Counted t (Function.update off s.nextFile (off s.nextFile + 1)) := by
  obtain ⟨hr0, ho0⟩ := h.free s.nextFile (h.fresh _ (Nat.le_refl _))
  constructor
  · intro f fl' hfl
    rw [hf, Function.update_apply] at hfl
    rw [hr, Function.update_apply]
    split at hfl
    · rename_i he; subst he
      simp only [Option.some.injEq] at hfl
      subst hfl
      simp [hc, hr0, ho0]
    · rename_i he; simpa [he] using h.exact f fl' hfl
  · intro f hfl
    rw [hf, Function.update_apply] at hfl
    split at hfl
    · simp at hfl
    · rename_i he; rw [hr, Function.update_of_ne he]; exact h.free f hfl
  · intro f hle
    rw [hf, Function.update_of_ne (by omega)]
    exact h.fresh f (by omega)
  · intro f
    rw [Function.update_apply]
    split
    · simp [ho0]
    · exact h.nonneg f

/-! ## The calls -/

/-- What closing a slot leaves: the processes, and every other slot. -/
structure Closed (s s' : State) (p fd : Nat) : Prop where
  pids : s'.pids = s.pids
  slot : ∀ q n, s'.slot q n = if q = p ∧ n = fd then .null else s.slot q n

/-- Dropping one holder of the file in a slot and emptying the slot, with the
file freed when it was the last. -/
theorem Counted.drop {s t : State} {off : Nat → Int} (h : Counted s off) {p fd f : Nat} {fl : File}
    (hp : p ∈ s.pids) (hfd : fd < maxFd) (hslot : s.slot p fd = .file f) (hfl : s.files f = some fl)
    (hn : t.nextFile = s.nextFile) (hcl : Closed s t p fd) {r : Option File}
    (hf : t.files = Function.update s.files f r)
    (hres : r = none ∧ fl.dupCount = 1 ∨ ∃ fl', r = some fl' ∧ fl'.dupCount = fl.dupCount - 1) :
    Counted t off := by
  have hr : ∀ g, t.refs g + (if f = g then 1 else 0) = s.refs g := fun g => by
    have h1 := refs_setSlot hp hfd .null g
    have h2 : t.refs g = (s.setSlot p fd .null).refs g :=
      refs_congr (t := s.setSlot p fd .null) hcl.pids (fun q n => by rw [hcl.slot, slot_setSlot]) g
    simpa [hslot, h2] using h1
  have hrf := hr f
  have hdup := h.exact f fl hfl
  have hoff := h.nonneg f
  simp only [if_true] at hrf
  constructor
  · intro g fl' hg
    rw [hf, Function.update_apply] at hg
    split at hg
    · rename_i he; subst he
      rcases hres with ⟨rfl, -⟩ | ⟨fl'', rfl, hd⟩
      · simp at hg
      · simp only [Option.some.injEq] at hg
        subst hg
        omega
    · rename_i he
      have := hr g
      simp only [Ne.symm he, if_false, Nat.add_zero] at this
      rw [this]
      exact h.exact g fl' hg
  · intro g hg
    rw [hf, Function.update_apply] at hg
    split at hg
    · rename_i he; subst he
      rcases hres with ⟨-, hd⟩ | ⟨fl'', rfl, -⟩
      · omega
      · simp at hg
    · rename_i he
      have := hr g
      simp only [Ne.symm he, if_false, Nat.add_zero] at this
      rw [this]
      exact h.free g hg
  · intro g hle
    rw [hf, Function.update_apply]
    split
    · rename_i he; subst he
      have := h.fresh g (hn ▸ hle)
      simp [hfl] at this
    · exact h.fresh g (hn ▸ hle)
  · exact h.nonneg

@[simp] theorem fileAllowWrite_slot (s : State) (f : Nat) (fl : File) (p fd : Nat) :
    (fileAllowWrite s f fl).slot p fd = s.slot p fd := by
  unfold fileAllowWrite; split <;> simp

theorem fileClose_files (s : State) (f : Nat) (fl : File) :
    (fileClose s f fl).files = Function.update s.files f none := by
  unfold fileClose inodeClose fileAllowWrite State.setFile State.setInode
  split <;> simp

@[simp] theorem fileClose_slot (s : State) (f : Nat) (fl : File) (p fd : Nat) :
    (fileClose s f fl).slot p fd = s.slot p fd := by
  simp [fileClose, inodeClose]

@[simp] theorem fileClose_pids (s : State) (f : Nat) (fl : File) : (fileClose s f fl).pids = s.pids := by
  unfold fileClose inodeClose fileAllowWrite State.setFile State.setInode
  split <;> rfl

@[simp] theorem fileClose_nextFile (s : State) (f : Nat) (fl : File) :
    (fileClose s f fl).nextFile = s.nextFile := by
  unfold fileClose inodeClose fileAllowWrite State.setFile State.setInode
  split <;> rfl

theorem sysClose_counted {s s' : State} {off : Nat → Int} {p fd : Nat} (h : Counted s off) (hp : p ∈ s.pids)
    (hfd : fd < maxFd) (hs : sysClose s p fd = some s') : Counted s' off ∧ Closed s s' p fd := by
  have hin : ¬ ((fd : Int) < 0 ∨ (maxFd : Int) ≤ fd) := by omega
  have hstd : ∀ q n, (s.setProc p (dropStd (s.procs p) (s.slot p fd))).slot q n = s.slot q n :=
    fun q n => slot_setProc s p q n (dropStd_fdTable _ _)
  simp only [sysClose, hin, if_false, Int.toNat_natCast] at hs
  have keep : (∀ f, s.slot p fd ≠ .file f) →
      some ((s.setProc p (dropStd (s.procs p) (s.slot p fd))).setSlot p fd .null) = some s' →
      Counted s' off ∧ Closed s s' p fd := by
    intro hno he
    simp only [Option.some.injEq] at he
    subst he
    refine ⟨Counted.setSlot_noFile ?_ hp hfd (fun f => by rw [hstd]; exact hno f) (by simp), ⟨rfl, ?_⟩⟩
    · exact h.congr rfl rfl (refs_congr (by rfl) hstd)
    · intro q n; rw [slot_setSlot, hstd]
  cases hv : s.slot p fd with
  | null | stdin | stdout =>
    simp only [hv] at hs keep
    exact keep (by simp) hs
  | file f =>
    simp only [hv, dropStd, Option.bind_eq_bind, Option.bind_eq_some_iff, Option.pure_def] at hs
    obtain ⟨fl, hfl, hs⟩ := hs
    simp only [Option.some.injEq] at hs
    have hfl' : s.files f = some fl := hfl
    have hcl : Closed s s' p fd := by
      subst hs
      constructor
      · split <;> simp [State.setProc, State.setFile]
      · intro q n
        have : (s.setProc p (s.procs p)).slot q n = s.slot q n := slot_setProc s p q n rfl
        split <;> simp [this]
    refine ⟨?_, hcl⟩
    by_cases hz : fl.dupCount - 1 = 0
    · refine h.drop hp hfd hv hfl' ?_ hcl (r := none) ?_ (.inl ⟨rfl, by omega⟩)
      · subst hs; simp [hz, State.setProc, State.setFile]
      · subst hs; simp [hz, fileClose_files, State.setProc, State.setFile]
    · refine h.drop hp hfd hv hfl' ?_ hcl (r := some { fl with dupCount := fl.dupCount - 1 }) ?_
        (.inr ⟨_, rfl, rfl⟩)
      · subst hs; simp [hz, State.setProc, State.setFile]
      · subst hs; simp [hz, State.setProc, State.setFile]

/-- `find_unused_fd` stops at or before any empty slot above `fd_idx`, and at
an empty one. -/
theorem nextFree_spec {t : Nat → Slot} {fd : Nat} (hnull : t fd = .null) :
    ∀ {n i : Nat}, i ≤ fd → fd < i + n → nextFree t n i ≤ fd ∧ t (nextFree t n i) = .null
  | 0, i, hle, hlt => by omega
  | n + 1, i, hle, hlt => by
    unfold nextFree
    split
    · rename_i h; exact ⟨hle, h⟩
    · rename_i h
      have hne : i ≠ fd := fun he => h (he ▸ hnull)
      exact nextFree_spec hnull (by omega) (by omega)

/-- There is an empty slot at or above `fd_idx`. -/
def Room (s : State) (p : Nat) : Prop :=
  ∃ fd, fd < maxFd ∧ (s.procs p).fdIdx ≤ fd ∧ s.slot p fd = .null

instance (s : State) (p : Nat) : Decidable (Room s p) :=
  inferInstanceAs (Decidable (∃ fd, fd < maxFd ∧ _))

theorem findUnusedFd_counted {s : State} {p f : Nat} (hp : p ∈ s.pids) (hroom : Room s p)
    (h : Counted s (Function.update 0 f 1)) (halive : s.files f ≠ none) :
    Counted (findUnusedFd s p f).2 0 := by
  obtain ⟨fd, hlt, hle, hnull⟩ := hroom
  obtain ⟨hj, hjn⟩ := nextFree_spec (t := (s.procs p).fdTable) hnull (n := maxFd - (s.procs p).fdIdx)
    hle (by omega)
  simp only [findUnusedFd]
  rw [if_neg (by omega)]
  have hslot : ∀ q n, (s.setProc p { s.procs p with
      fdIdx := nextFree (s.procs p).fdTable (maxFd - (s.procs p).fdIdx) (s.procs p).fdIdx }).slot q n =
      s.slot q n := fun q n => slot_setProc s p q n rfl
  refine Counted.fill hp (by omega) (fun g => ?_) ?_ (fun _ => Int.le_refl 0) halive
  · rw [hslot]
    simp [State.slot, hjn]
  · exact h.congr rfl rfl (refs_congr (by rfl) hslot)

theorem sysOpen_counted {s : State} {p : Nat} {ino : Option Nat} (h : Counted s 0) (hp : p ∈ s.pids)
    (hroom : ino ≠ none → Room s p) : Counted (sysOpen s p ino).2 0 := by
  cases ino with
  | none => exact h
  | some i =>
    refine findUnusedFd_counted (s := (fileOpen (inodeReopen s i) i).2) hp (hroom (by simp)) ?_ ?_
    · exact h.alloc ⟨i, 0, false, 1⟩ rfl rfl rfl (refs_congr (by rfl) fun q n => rfl)
    · simp [fileOpen, inodeReopen, State.setInode]

/-- What `sys_dup2` counts ahead for the slot it is about to fill. -/
def ahead (v : Slot) (g : Nat) : Int := if v = .file g then 1 else 0

theorem ahead_noFile {v : Slot} (h : ∀ f, v ≠ .file f) : ahead v = 0 := by
  funext g
  simp [ahead, h g]

theorem shareSlot_counted {s s₁ : State} {p : Nat} {v : Slot} (h : Counted s 0)
    (hs : shareSlot s p v = some s₁) :
    s₁.pids = s.pids ∧ (∀ q n, s₁.slot q n = s.slot q n) ∧ Counted s₁ (ahead v) ∧
      ∀ f, v = .file f → s₁.files f ≠ none := by
  cases v with
  | null =>
    simp only [shareSlot, Option.some.injEq] at hs
    subst hs
    rw [ahead_noFile (by simp)]
    exact ⟨rfl, fun q n => rfl, h, by simp⟩
  | stdin | stdout =>
    simp only [shareSlot, Option.some.injEq] at hs
    subst hs
    rw [ahead_noFile (by simp)]
    refine ⟨rfl, fun q n => slot_setProc s p q n rfl, ?_, by simp⟩
    exact h.congr rfl rfl (refs_congr (by rfl) fun q n => slot_setProc s p q n rfl)
  | file f =>
    simp only [shareSlot, Option.map_eq_some_iff] at hs
    obtain ⟨fl, hfl, rfl⟩ := hs
    refine ⟨rfl, fun q n => rfl, ?_, by simp [State.setFile]⟩
    have hr : ∀ g, (s.setFile f (some { fl with dupCount := fl.dupCount + 1 })).refs g = s.refs g :=
      refs_congr (by rfl) fun q n => rfl
    constructor
    · intro g fl' hg
      rw [hr]
      simp only [State.setFile, Function.update_apply] at hg
      split at hg
      · rename_i he; subst he
        simp only [Option.some.injEq] at hg
        subst hg
        simp [ahead, h.exact g fl hfl]
      · rename_i he; simpa [ahead, Ne.symm he] using h.exact g fl' hg
    · intro g hg
      rw [hr]
      simp only [State.setFile, Function.update_apply] at hg
      split at hg
      · simp at hg
      · rename_i he; simpa [ahead, Ne.symm he] using h.free g hg
    · intro g hle
      have hne : g ≠ f := by
        rintro rfl
        have := h.fresh g hle
        simp [hfl] at this
      simpa [State.setFile, hne] using h.fresh g hle
    · intro g
      unfold ahead
      split <;> simp

theorem sysDup2_counted {s : State} {p : Nat} {oldfd newfd : Int} {r : Int × State} (h : Counted s 0)
    (hp : p ∈ s.pids) (hs : sysDup2 s p oldfd newfd = some r) : Counted r.2 0 ∧ r.2.pids = s.pids := by
  unfold sysDup2 at hs
  split at hs
  · simp only [Option.some.injEq] at hs; subst hs; exact ⟨h, rfl⟩
  rename_i hold
  split at hs
  · simp only [Option.some.injEq] at hs; subst hs; exact ⟨h, rfl⟩
  split at hs
  · simp only [Option.some.injEq] at hs; subst hs; exact ⟨h, rfl⟩
  rename_i hne
  split at hs
  · simp at hs
  rename_i hnew
  obtain ⟨old, rfl⟩ := Int.eq_ofNat_of_zero_le (by omega : 0 ≤ oldfd)
  obtain ⟨new, rfl⟩ := Int.eq_ofNat_of_zero_le (by omega : 0 ≤ newfd)
  simp only [Int.toNat_natCast, Option.bind_eq_bind, Option.bind_eq_some_iff, Option.pure_def,
    Option.some.injEq] at hs
  obtain ⟨s₁, h₁, s₂, h₂, rfl⟩ := hs
  obtain ⟨hp₁, hslot₁, hc₁, halive⟩ := shareSlot_counted h h₁
  -- The slot is closed, or was empty: either way it is empty now and the rest is as it was.
  have hcl : Counted s₂ (ahead (s.slot p old)) ∧ Closed s₁ s₂ p new := by
    simp only [closeNew, Int.toNat_natCast] at h₂
    split at h₂
    · rename_i hnull
      simp only [Option.some.injEq] at h₂
      subst h₂
      refine ⟨hc₁, rfl, fun q n => ?_⟩
      split
      · rename_i hqn; rw [hqn.1, hqn.2, hnull]
      · rfl
    · exact sysClose_counted hc₁ (hp₁ ▸ hp) (by omega) h₂
  obtain ⟨hc₂, hcl⟩ := hcl
  have hold₂ : s₂.slot p old = s.slot p old := by
    rw [hcl.slot, if_neg (by omega), hslot₁]
  have hp₂ : p ∈ s₂.pids := by rw [hcl.pids, hp₁]; exact hp
  have hnull : ∀ g, s₂.slot p new ≠ .file g := fun g => by rw [hcl.slot]; simp
  refine ⟨?_, by rw [pids_setSlot, hcl.pids, hp₁]⟩
  rw [hold₂]
  cases hv : s.slot p old with
  | null | stdin | stdout =>
    rw [hv, ahead_noFile (by simp)] at hc₂
    exact hc₂.setSlot_noFile hp₂ (by omega) hnull (by simp)
  | file f =>
    rw [hv] at hc₂
    refine Counted.fill hp₂ (by omega) hnull ?_ (fun _ => Int.le_refl 0) ?_
    · have : ahead (.file f) = Function.update (0 : Nat → Int) f (0 + 1) := by
        funext g
        simp [ahead, Function.update_apply, eq_comm]
      exact this ▸ hc₂
    · obtain ⟨fl, hfl⟩ := hc₂.live (f := f) hp₂ (by omega : old < maxFd) (by rw [hold₂, hv])
      simp [hfl]

theorem processExit_counted {s s' : State} {p : Nat} (h : Counted s 0) (hp : p ∈ s.pids)
    (hs : processExit s p = some s') : Counted s' 0 := by
  simp only [processExit, Option.bind_eq_bind, Option.bind_eq_some_iff, Option.pure_def,
    Option.some.injEq] at hs
  obtain ⟨t, ht, rfl⟩ := hs
  have hloop : Counted t 0 ∧ t.pids = s.pids ∧ ∀ n < maxFd, t.slot p n = .null := by
    refine Run.run_range (I := fun k t => Counted t 0 ∧ t.pids = s.pids ∧ ∀ n < k, t.slot p n = .null)
      ?_ ⟨h, rfl, by simp⟩ ht
    rintro k t u hk ⟨hc, hpids, hnull⟩ hu
    unfold exitFd at hu
    split at hu
    · rename_i hsl
      simp only [Option.some.injEq] at hu
      subst hu
      refine ⟨hc, hpids, fun n hn => ?_⟩
      by_cases hnk : n = k
      · exact hnk ▸ hsl
      · exact hnull n (by omega)
    · simp only [Option.map_eq_some_iff] at hu
      obtain ⟨v, hv, rfl⟩ := hu
      obtain ⟨hcv, hcl⟩ := sysClose_counted hc (hpids ▸ hp) hk hv
      refine ⟨?_, by rw [pids_setSlot, hcl.pids, hpids], fun n hn => ?_⟩
      · exact hcv.setSlot_noFile (by rw [hcl.pids, hpids]; exact hp) hk (by simp [hcl.slot]) (by simp)
      · by_cases hnk : n = k
        · simp [hnk]
        · simp [hnk, hcl.slot, hnull n (by omega)]
  obtain ⟨hc, hpids, hnull⟩ := hloop
  refine hc.congr rfl rfl (refs_pids fun q => ?_)
  by_cases hq : q = p
  · right; intro n hn f; rw [hq, hnull n hn]; simp
  · left; simp [hq]

theorem processInit_counted {s : State} {c : Nat} (h : Counted s 0) (hc : c ∉ s.pids) :
    Counted (processInit s c) 0 := by
  refine h.congr rfl rfl fun f => ?_
  have hrow : ∀ n g, (s.setProc c procInit).slot c n ≠ .file g := by
    intro n g
    simp only [State.slot, State.setProc, Function.update_self, procInit, Function.update_apply]
    split
    · simp
    · split <;> simp
  have hins : (processInit s c).refs f = (s.setProc c procInit).refs f := by
    refine refs_pids (s := s.setProc c procInit) (fun q => ?_) f
    by_cases hq : q = c
    · right; intro n _ g; rw [hq]; exact hrow n g
    · left; simp [hq, State.setProc]
  rw [hins]
  unfold State.refs State.places
  refine Count.count_congr fun x hx => ?_
  have hxc : x.1 ≠ c := by
    rintro rfl
    simp [State.setProc, hc] at hx
  simp [State.slot, State.setProc, hxc]

/-- What the copy loop of `fork` keeps: the parent's slots, and no file yet in
the child's slots from `k` on. -/
structure Copying (s : State) (p c k : Nat) (t : State) : Prop where
  counted : Counted t 0
  child : c ∈ t.pids
  parent : p ∈ t.pids
  source : ∀ n, t.slot p n = s.slot p n
  rest : ∀ n, k ≤ n → ∀ f, t.slot c n ≠ .file f

theorem Copying.setSlot_noFile {s t : State} {p c k : Nat} {v : Slot} (h : Copying s p c k t) (hpc : p ≠ c)
    (hk : k < maxFd) (hv : ∀ f, v ≠ .file f) : Copying s p c (k + 1) (t.setSlot c k v) where
  counted := h.counted.setSlot_noFile h.child hk (h.rest k (Nat.le_refl k)) hv
  child := h.child
  parent := h.parent
  source n := by rw [slot_setSlot, if_neg (by omega), h.source]
  rest n hn f := by rw [slot_setSlot, if_neg (by omega)]; exact h.rest n (by omega) f

theorem fileDuplicate_spec (t : State) (fl : File) :
    (fileDuplicate t fl).1 = t.nextFile ∧ (fileDuplicate t fl).2.nextFile = t.nextFile + 1 ∧
      (fileDuplicate t fl).2.pids = t.pids ∧ (fileDuplicate t fl).2.procs = t.procs ∧
      (fileDuplicate t fl).2.files =
        Function.update t.files t.nextFile (some ⟨fl.inode, fl.pos, fl.denyWrite, 1⟩) := by
  unfold fileDuplicate fileOpen inodeReopen fileDenyWrite State.setFile State.setInode
  cases fl.denyWrite <;> simp

theorem copyFd_copying {s t u : State} {p c k : Nat} {ok : Nat → Bool} (hpc : p ≠ c) (hk : k < maxFd)
    (h0 : (s.slot p 0).isFile = false ∧ (s.slot p 1).isFile = false) (h : Copying s p c k t)
    (hu : copyFd p c ok t k = some u) : Copying s p c (k + 1) u := by
  have hnot : ∀ v : Slot, v.isFile = false → ∀ f, v ≠ .file f := by
    rintro _ hv f rfl
    simp [Slot.isFile] at hv
  unfold copyFd at hu
  split at hu
  · rename_i hk1
    simp only [Option.some.injEq] at hu
    subst hu
    refine h.setSlot_noFile hpc hk (hnot _ ?_)
    rw [h.source]
    obtain rfl | rfl : k = 0 ∨ k = 1 := by omega
    · exact h0.1
    · exact h0.2
  cases hv : t.slot p k with
  | null =>
    simp only [hv, Option.some.injEq] at hu
    subst hu
    exact { h with rest := fun n hn f => h.rest n (by omega) f }
  | stdin | stdout =>
    simp only [hv, Option.some.injEq] at hu
    subst hu
    exact h.setSlot_noFile hpc hk (by simp)
  | file f =>
    simp only [hv, Option.bind_eq_bind, Option.bind_eq_some_iff, Option.pure_def] at hu
    obtain ⟨fl, hfl, hu⟩ := hu
    split at hu
    · simp only [Option.some.injEq] at hu
      subst hu
      obtain ⟨hg, hn, hpids, hprocs, hfiles⟩ := fileDuplicate_spec t fl
      have hslot : ∀ q n, (fileDuplicate t fl).2.slot q n = t.slot q n := fun q n => by
        simp [State.slot, hprocs]
      have hc' := h.counted.alloc (t := (fileDuplicate t fl).2) ⟨fl.inode, fl.pos, fl.denyWrite, 1⟩
        rfl hfiles hn (refs_congr hpids hslot)
      constructor
      · refine Counted.fill (by rw [hpids]; exact h.child) hk (fun g => ?_) (hg ▸ hc') (fun _ => Int.le_refl 0) ?_
        · rw [hslot]; exact h.rest k (Nat.le_refl k) g
        · rw [hg, hfiles]; simp
      · rw [pids_setSlot, hpids]; exact h.child
      · rw [pids_setSlot, hpids]; exact h.parent
      · intro n; rw [slot_setSlot, if_neg (by omega), hslot, h.source]
      · intro n hn' g; rw [slot_setSlot, if_neg (by omega), hslot]; exact h.rest n (by omega) g
    · simp only [Option.some.injEq] at hu
      subst hu
      exact h.setSlot_noFile hpc hk (by simp)

theorem doFork_counted {s s' : State} {p c : Nat} {ok : Nat → Bool} (h : Counted s 0) (hp : p ∈ s.pids)
    (hc : c ∉ s.pids)
    (hcond : (s.procs p).fdIdx = maxFd ∨ (s.slot p 0).isFile = false ∧ (s.slot p 1).isFile = false)
    (hs : doFork s p c ok = some s') : Counted s' 0 := by
  have hpc : p ≠ c := by rintro rfl; exact hc hp
  have hinit := processInit_counted h hc
  have hchild : c ∈ (processInit s c).pids := by simp [processInit]
  unfold doFork at hs
  split at hs
  · exact processExit_counted hinit hchild hs
  rename_i hidx
  simp only [Option.bind_eq_bind, Option.bind_eq_some_iff, Option.pure_def, Option.some.injEq] at hs
  obtain ⟨t, ht, rfl⟩ := hs
  have h0 := hcond.resolve_left hidx
  have hstart : Copying s p c 0 (processInit s c) := by
    refine ⟨hinit, hchild, ?_, fun n => ?_, fun n _ f => ?_⟩
    · simp [processInit, hp]
    · simp [processInit, State.slot, State.setProc, hpc]
    · simp only [processInit, State.slot, State.setProc, Function.update_self, procInit, Function.update_apply]
      split
      · simp
      · split <;> simp
  have hend := Run.run_range (fun k t u hk hI hu => copyFd_copying hpc hk h0 hI hu) hstart ht
  exact hend.counted.congr rfl rfl (refs_congr (by rfl) fun q n => slot_setProc _ _ _ _ rfl)

/-! ## Every run -/

/-- The calls that keep the counts: an open finds an empty slot at or above
`fd_idx`, and a fork that copies the table finds no file in slots 0 and 1 of
the parent. -/
def Sound (s : State) : Event → Prop
  | .sysOpen p ino => ino = none ∨ Room s p
  | .fork p _ _ => (s.procs p).fdIdx = maxFd ∨ (s.slot p 0).isFile = false ∧ (s.slot p 1).isFile = false
  | _ => True

instance (s : State) : (e : Event) → Decidable (Sound s e)
  | .sysOpen _ _ => inferInstanceAs (Decidable (_ ∨ _))
  | .fork _ _ _ => inferInstanceAs (Decidable (_ ∨ _))
  | .sysDup2 _ _ _ | .sysClose _ _ | .processExit _ => .isTrue trivial

theorem step_counted {s s' : State} {e : Event} (h : Counted s 0) (hG : Sound s e) (hs : step s e = some s') :
    Counted s' 0 := by
  unfold step at hs
  split at hs
  · simp at hs
  rename_i hp
  simp only [not_not] at hp
  cases e with
  | sysOpen p ino =>
    simp only [Option.some.injEq] at hs
    subst hs
    exact sysOpen_counted h hp fun hne => hG.resolve_left hne
  | sysDup2 p oldfd newfd =>
    simp only [Option.map_eq_some_iff] at hs
    obtain ⟨r, hr, rfl⟩ := hs
    exact (sysDup2_counted h hp hr).1
  | sysClose p fd =>
    by_cases hin : fd < 0 ∨ maxFd ≤ fd
    · simp only [sysClose, hin, if_true, Option.some.injEq] at hs
      exact hs ▸ h
    · obtain ⟨n, rfl⟩ := Int.eq_ofNat_of_zero_le (by omega : 0 ≤ fd)
      exact (sysClose_counted h hp (by omega) hs).1
  | fork p c ok =>
    simp only at hs
    split at hs
    · simp at hs
    · rename_i hc; exact doFork_counted h hp hc hG hs
  | processExit p => exact processExit_counted h hp hs

theorem boot_counted (p : Nat) : Counted (boot p) 0 := by
  refine processInit_counted ⟨by simp, fun f _ => ?_, by simp, fun f => Int.le_refl 0⟩ (by simp)
  simp [State.refs, State.places, Count.count]

/-- **Reference counts are exact** in every state the processes reach by
`Sound` calls: a file's `dup_count` is the number of slots that hold it, over
all processes, and a file that has been closed is in no slot. -/
theorem run_dupCount_exact {p : Nat} {es : List Event} {s : State} (h : Run.run step (boot p) es = some s)
    (hG : Run.Always step Sound (boot p) es) :
    (∀ f fl, s.files f = some fl → fl.dupCount = s.refs f) ∧
      ∀ f, s.files f = none → ∀ q ∈ s.pids, ∀ fd < maxFd, s.slot q fd ≠ .file f := by
  have hc : Counted s 0 :=
    Run.run_invariant (I := fun s => Counted s 0) (fun _ _ _ h hG hs => step_counted h hG hs)
      (boot_counted p) h hG
  refine ⟨fun f fl hfl => ?_, fun f hfl q hq fd hfd hslot => ?_⟩
  · simpa using hc.exact f fl hfl
  · obtain ⟨fl, hlive⟩ := hc.live hq hfd hslot
    simp [hfl] at hlive

/-- Two processes share, duplicate and close one opened file; the child exits. -/
def sampleRun : List Event :=
  [.sysOpen 0 (some 7), .sysDup2 0 2 5, .sysDup2 0 1 9, .fork 0 1 (fun _ => true), .sysClose 0 2,
    .sysDup2 1 9 2, .processExit 1]

theorem run_dupCount_exact_sample :
    ∃ s, Run.run step (boot 0) sampleRun = some s ∧ (∃ fl, s.files 0 = some fl ∧ fl.dupCount = s.refs 0) ∧
      s.files 1 = none := by
  have hG : Run.Always step Sound (boot 0) sampleRun := by decide +kernel
  have hrun : (Run.run step (boot 0) sampleRun).map (fun s => ((s.files 0).isSome, s.files 1)) =
      some (true, none) := by decide +kernel
  obtain ⟨s, hs, hfl⟩ := Option.map_eq_some_iff.mp hrun
  simp only [Prod.mk.injEq] at hfl
  obtain ⟨fl, h0⟩ := Option.isSome_iff_exists.mp hfl.1
  exact ⟨s, hs, ⟨fl, h0, (run_dupCount_exact hs hG).1 0 fl h0⟩, hfl.2⟩

/-- A parent that has put a file in slot 0 forks: the file has three slots and
a `dup_count` of two. -/
theorem dupCount_wrong_after_fork :
    ∃ s, Run.run step (boot 0) [.sysOpen 0 (some 7), .sysDup2 0 2 0, .fork 0 1 (fun _ => true)] = some s ∧
      s.files 0 = some ⟨7, 0, false, 2⟩ ∧ s.refs 0 = 3 ∧
      ¬ ∀ f fl, s.files f = some fl → fl.dupCount = s.refs f := by
  have h : (Run.run step (boot 0) [.sysOpen 0 (some 7), .sysDup2 0 2 0, .fork 0 1 (fun _ => true)]).map
      (fun s => (s.files 0, s.pids.sum fun p => (List.range maxFd).countP fun n => s.slot p n = .file 0)) =
        some (some ⟨7, 0, false, 2⟩, 3) := by
    decide +kernel
  obtain ⟨s, hs, he⟩ := Option.map_eq_some_iff.mp h
  simp only [Prod.mk.injEq, ← refs_eq_sum] at he
  refine ⟨s, hs, he.1, he.2, fun hall => ?_⟩
  have := hall 0 _ he.1
  simp [he.2] at this

end PintosKaist.FdTable
