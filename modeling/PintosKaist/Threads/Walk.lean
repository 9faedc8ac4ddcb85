/-
The donation `while` of `lock_acquire`, in terms of the state before it: the
holders it raises are those on the way from the lock to the first holder that
is above the donor, and each of them ends at the donor's priority.
-/
import PintosKaist.Threads.Lists

namespace PintosKaist.Threads

open OrdList

variable {k k' : Kernel} {t h l : Nat} {pending : Option Nat} {fuel : Nat} {p : Int}

/-- The holders a donation of `p` reaches, from the lock `pending` on. -/
def donees : Nat → Kernel → Int → Option Nat → List Nat
  | fuel + 1, k, p, some pending =>
    match k.holder pending with
    | none => []
    | some h => if p < k.prio h then [] else h :: donees fuel k p (k.threads h).pendingLock
  | _, _, _, _ => []

/-- The state the walk starts in. -/
def acquiring (k : Kernel) (l : Nat) : Kernel :=
  k.modify k.cur fun th => { th with pendingLock := some l }

theorem acquiring_prio : (acquiring k l).prio = k.prio := modify_prio rfl

/-- The threads that `lock_acquire` of `l` by the current thread raises. -/
def raised (k : Kernel) (l : Nat) : List Nat :=
  donees (k.next + 1) (acquiring k l) (k.prio k.cur) (some l)

/-! ## One turn -/

theorem donate_prio : (donate k l h).prio t =
    if t = h then (if k.prio h < k.prio k.cur then k.prio k.cur else k.prio h) else k.prio t := by
  simp only [donate]
  split <;> simp only [Kernel.prio, Kernel.setSema, modify_threads] <;> split <;> rfl

theorem donate_pendingLock : ((donate k l h).threads t).pendingLock = (k.threads t).pendingLock := by
  simp only [donate]
  split <;> simp only [Kernel.setSema, modify_threads] <;> split <;> simp_all

theorem donate_originalPriority :
    ((donate k l h).threads t).originalPriority = (k.threads t).originalPriority := by
  simp only [donate]
  split <;> simp only [Kernel.setSema, modify_threads] <;> split <;> simp_all

theorem donate_donations : ((donate k l h).threads t).donations =
    if t = h then insertBy Donation.priority ⟨k.prio k.cur, k.cur, l⟩ (k.threads h).donations
    else (k.threads t).donations := by
  simp only [donate]
  split <;> simp only [Kernel.setSema, modify_threads] <;> split <;> rfl

theorem donate_holder : (donate k l h).holder = k.holder := by
  simp only [donate]
  split <;> rfl

theorem donate_value {s : Sema} : ((donate k l h).semas s).value = (k.semas s).value := by
  simp only [donate]
  split
  · rfl
  · rw [setSema_semas]
    split
    · rename_i he
      exact he ▸ rfl
    · rfl

/-- A holder that is not above the donor ends at the donor's priority. -/
theorem donate_prio_of_le (hle : ¬ k.prio k.cur < k.prio h) :
    (donate k l h).prio t = if t = h then k.prio k.cur else k.prio t := by
  rw [donate_prio]
  split
  · split <;> omega
  · rfl

/-- The donor keeps its priority, also when the chain comes back to it. -/
theorem donate_prio_cur (hle : ¬ k.prio k.cur < k.prio h) :
    (donate k l h).prio (donate k l h).cur = k.prio k.cur := by
  rw [quiet_donate.cur, donate_prio_of_le hle]
  split <;> rfl

/-- The walk ends at `pending`: there is no holder, or it is above the donor. -/
def Over (k : Kernel) (pending : Option Nat) : Prop :=
  ∀ l, pending = some l → ∀ h, k.holder l = some h → k.prio k.cur < k.prio h

/-- What `walk` does, one turn at a time. -/
theorem walk_cases (hw : walk fuel k pending = some k') :
    (k' = k ∧ Over k pending) ∨
    ∃ n l h, fuel = n + 1 ∧ pending = some l ∧ k.holder l = some h ∧ ¬ k.prio k.cur < k.prio h ∧
      walk n (donate k l h) (k.threads h).pendingLock = some k' := by
  cases pending with
  | none => cases fuel <;> exact .inl ⟨(Option.some.inj hw).symm, by simp [Over]⟩
  | some l =>
    cases fuel with
    | zero => simp [walk] at hw
    | succ n =>
      simp only [walk] at hw
      split at hw
      · rename_i hh
        exact .inl ⟨(Option.some.inj hw).symm, by simp [Over, hh]⟩
      · rename_i h hh
        split at hw
        · rename_i hlt
          exact .inl ⟨(Option.some.inj hw).symm, by simpa [Over, hh] using hlt⟩
        · rename_i hle
          rw [donate_pendingLock] at hw
          exact .inr ⟨n, l, h, rfl, rfl, hh, hle, hw⟩

/-! ## The whole walk -/

/-- The holders reached depend on the priorities only through which of them
are above `p`. -/
theorem donees_congr (hh : k'.holder = k.holder)
    (hl : ∀ t, (k'.threads t).pendingLock = (k.threads t).pendingLock)
    (hp : ∀ t, p < k'.prio t ↔ p < k.prio t) : donees fuel k' p pending = donees fuel k p pending := by
  induction fuel generalizing pending with
  | zero => rfl
  | succ fuel ih =>
    cases pending with
    | none => rfl
    | some l =>
      simp only [donees, hh]
      cases k.holder l with
      | none => rfl
      | some h => simp only [hp, hl, ih]

/-- A donation that raises only threads not above it reaches the same holders. -/
theorem donees_donate (hle : ¬ k.prio k.cur < k.prio h) :
    donees fuel (donate k l h) (k.prio k.cur) pending = donees fuel k (k.prio k.cur) pending := by
  refine donees_congr donate_holder (fun _ => donate_pendingLock) fun t => ?_
  rw [donate_prio_of_le hle]
  split
  · rename_i ht
    rw [ht]
    exact iff_of_false (by omega) hle
  · rfl

theorem donees_of_over (ho : Over k pending) : donees fuel k (k.prio k.cur) pending = [] := by
  cases fuel with
  | zero => rfl
  | succ n =>
    cases pending with
    | none => rfl
    | some l =>
      simp only [donees]
      split
      · rfl
      · rename_i h hh
        exact if_pos (ho l rfl h hh)

/-- After the walk the threads it reached stand at the donor's priority, and
the others where they were. -/
theorem walk_prio (hw : walk fuel k pending = some k') (t : Nat) :
    k'.prio t = if t ∈ donees fuel k (k.prio k.cur) pending then k.prio k.cur else k.prio t := by
  induction fuel generalizing k pending with
  | zero =>
    obtain ⟨rfl, ho⟩ | ⟨n, _, _, he, _⟩ := walk_cases hw
    · simp [donees]
    · cases he
  | succ fuel ih =>
    obtain ⟨rfl, ho⟩ | ⟨n, l, h, he, rfl, hh, hle, hw⟩ := walk_cases hw
    · simp [donees_of_over ho]
    · cases he
      rw [ih hw, donate_prio_cur hle, donees_donate hle, donate_prio_of_le hle]
      simp only [donees, hh, if_neg hle, List.mem_cons]
      by_cases ht : t = h <;> simp [ht]

/-- The walk runs out of turns only on a chain of as many holders. -/
theorem walk_none (hw : walk fuel k pending = none) :
    (donees fuel k (k.prio k.cur) pending).length = fuel := by
  induction fuel generalizing k pending with
  | zero => rfl
  | succ fuel ih =>
    cases pending with
    | none => simp [walk] at hw
    | some l =>
      simp only [walk] at hw
      split at hw
      · cases hw
      · rename_i h hh
        split at hw
        · cases hw
        · rename_i hle
          rw [donate_pendingLock] at hw
          have := ih hw
          rw [donate_prio_cur hle, donees_donate hle] at this
          simp only [donees, hh, if_neg hle, List.length_cons, this]

theorem donees_lt (hlt : ∀ l t, k.holder l = some t → t < k.next) : ∀ t ∈ donees fuel k p pending, t < k.next := by
  induction fuel generalizing pending with
  | zero => simp [donees]
  | succ fuel ih =>
    cases pending with
    | none => simp [donees]
    | some l =>
      simp only [donees]
      split
      · simp
      · rename_i h hh
        split
        · simp
        · intro t ht
          rcases List.mem_cons.mp ht with rfl | ht
          · exact hlt l t hh
          · exact ih t ht

/-- `lock_acquire` of a lock that somebody else holds gets through its `while`,
unless it meets a holder twice: a cycle of threads that wait for each other. -/
theorem walk_ends (hlt : ∀ l t, k.holder l = some t → t < k.next) (hn : (raised k l).Nodup) :
    walk (k.next + 1) (acquiring k l) (some l) ≠ none := by
  intro hw
  have hlen := walk_none hw
  rw [show (acquiring k l).prio (acquiring k l).cur = k.prio k.cur by rw [acquiring_prio]; rfl] at hlen
  have hsub : raised k l ⊆ List.range k.next := fun t ht => by
    rw [List.mem_range]
    exact donees_lt (k := acquiring k l) hlt t ht
  have hle := (List.subperm_of_subset hn hsub).length_le
  rw [List.length_range, raised, hlen] at hle
  omega

theorem raised_setTodo {ms : List Micro} : raised (k.setTodo k.cur ms) l = raised k l := by
  have hcur : (k.setTodo k.cur ms).cur = k.cur := rfl
  unfold raised
  rw [hcur, setTodo_prio]
  refine donees_congr rfl (fun t => ?_) fun t => ?_
  · simp only [acquiring, modify_threads, setTodo_threads, hcur]
    by_cases ht : t = k.cur <;> simp [ht]
  · rw [acquiring_prio, acquiring_prio, setTodo_prio]

end PintosKaist.Threads
