/-
The `list_sort` of `cond_signal` as it runs: with interrupts on, one access to
the links of `cond->waiters` at a time, each comparison by the waiters and
priorities of its moment. Nobody else touches the list meanwhile; but a waiter
that gets to its `sema_down` compares otherwise from then on, and the closing
`ASSERT (is_sorted (...))` may find it in the wrong place.

While no waiter comes to compare otherwise the sort does what it does without a
break, and condition variables lose no signal (`cond_exact`).
-/
import PintosKaist.LibKernel.ListSteps
import PintosKaist.Threads.CondSignal

namespace PintosKaist.Synch

open OrdList Linked Prog LibKernel.Steps PintosKaist.Threads

structure CondSort where
  cond : Cond
  sorting : Option Sorting
  /-- What the waiters compared by when the last `list_sort` began. -/
  keys : Nat → WithBot Int
  /-- An assertion in `list_sort` has failed, and the kernel has stopped. -/
  panicked : Bool

inductive SortAct where
  | act (a : CondAct)
  /-- The next access of the thread's `list_sort`. -/
  | access (t : Nat)
  /-- The end of it. -/
  | sorted (t : Nat)

/-- How the nodes of `cond->waiters` compare. -/
def Cond.less (s : Cond) (prio : Nat → Int) : Node → Node → Bool :=
  nodeLess fun a b => comparePriorityForCond prio (s.sema a) (s.sema b)

/-- The thread has just found waiters, and calls `list_sort`, each loop of which
is followed for `extra` turns more than there are waiters. -/
def CondSort.enter (extra : Nat) (prio : Nat → Int) (c : Cond) : CondSort where
  cond := c
  sorting := some ⟨linksOf c.waiters, listSort (c.waiters.length + 1 + extra) nodeList⟩
  keys w := condKey prio (c.sema w)
  panicked := false

/-- The thread that the step may leave at `list_sort`. -/
def CondAct.finds : CondAct → Option Nat
  | .signal t | .test t => some t
  | _ => none

/-- A step with the priorities of its moment. -/
def CondSort.step (extra : Nat) (s : CondSort) : (Nat → Int) × SortAct → Option CondSort
  | (prio, a) =>
    if s.panicked then none
    else match a with
    | .act (.sort ..) => none
    | .act a => (s.cond.step (a.event prio)).map fun c =>
      if a.finds.any fun t => (c.place t).takes then .enter extra prio c else { s with cond := c }
    | .access t =>
      match s.cond.place t, s.sorting with
      | .sorting _, some ⟨links, .op o rest⟩ =>
        let (answer, links) := perform (s.cond.less prio) o links
        some { s with sorting := some ⟨links, rest answer⟩ }
      | .sorting _, some ⟨_, .fail⟩ => some { s with panicked := true }
      | _, _ => none
    | .sorted t =>
      match s.sorting with
      | some ⟨links, .ret _⟩ =>
        (s.cond.step (.sort t (elems links (s.cond.waiters.length + 1)))).map fun c =>
          { s with cond := c, sorting := none }
      | _ => none

def CondSort.init : CondSort := ⟨.init, none, fun _ => ⊥, false⟩

/-- The waiters compare as they did when the `list_sort` began. -/
def CondSort.Agrees (s : CondSort) (prio : Nat → Int) : Prop :=
  ∀ w ∈ s.cond.waiters, condKey prio (s.cond.sema w) = s.keys w

instance (s : CondSort) (prio : Nat → Int) : Decidable (s.Agrees prio) := inferInstanceAs (Decidable (∀ _ ∈ _, _))

/-- No waiter has come to compare otherwise while `list_sort` goes on. -/
def Undisturbed (s : CondSort) : (Nat → Int) × SortAct → Prop
  | (prio, .access _) => s.Agrees prio
  | _ => True

instance (s : CondSort) (e : (Nat → Int) × SortAct) : Decidable (Undisturbed s e) := by
  unfold Undisturbed
  split <;> infer_instance

/-- The thread that takes the step. -/
def SortAct.thread : SortAct → Option Nat
  | .act a => (a.event fun _ => 0).thread
  | .access t | .sorted t => some t

variable {s s' : CondSort} {c c' : Cond} {t u w : Nat} {prio : Nat → Int} {a : SortAct} {extra : Nat}
  {e : (Nat → Int) × SortAct}

/-! ## The sort -/

structure CondSort.Ok (extra : Nat) (s : CondSort) : Prop where
  cond : s.cond.Ok
  running : s.panicked = false
  /-- A call that has not been made has nobody in its semaphore. -/
  fresh : ∀ w, s.cond.next ≤ w → (s.cond.sema w).waiters = []
  sorts : ∀ t b, s.cond.place t = .sorting b → ∃ x, s.sorting = some x ∧ x.Sorts s.keys s.cond.waiters ∧
    AtMost (sortCost (s.cond.waiters.length + 1 + extra)) x.code ∧ ∀ w ∉ s.cond.waiters, s.keys w = ⊥

theorem init_condSort : CondSort.init.Ok extra := ⟨init_cond, rfl, fun _ _ => rfl, nofun⟩

/-- Nobody waits in the semaphore of a call that is not on the list. -/
theorem Cond.Ok.condKey_rest (h : c.Ok) (hf : ∀ w, c.next ≤ w → (c.sema w).waiters = []) (hw : w ∉ c.waiters) :
    condKey prio (c.sema w) = ⊥ := by
  have hempty : (c.sema w).waiters = [] := by
    by_cases hlt : w < c.next
    · have hsig : w ∈ c.signalled := by
        by_contra hns
        exact hw (h.mem_waiters.mpr ⟨hlt, hns⟩)
      rw [(h.call w hlt).queue, if_neg]
      by_cases hpass : w ∈ c.passed
      · exact ((h.call w hlt).gone hpass).2.2.1
      · obtain ⟨-, hj | ha⟩ := (h.call w hlt).goes hsig hpass <;> simp [*]
    · exact hf w (Nat.le_of_not_lt hlt)
  unfold condKey
  rw [hempty]

theorem Cond.less_eq : c.less prio = nodeLess (lessBy fun w => condKey prio (c.sema w)) := by
  funext a b
  exact comparePriorityForCond_eq prio (c.sema a.entry) (c.sema b.entry)

/-- A step leaves the semaphores of the calls to come alone. -/
theorem fresh_step (h : c.Ok) (hf : ∀ w, c.next ≤ w → (c.sema w).waiters = []) {e : CondEvent}
    (hs : c.step e = some c') : ∀ w, c'.next ≤ w → (c'.sema w).waiters = [] := by
  have hset {v : Nat} (sema : Semaphore) (hv : v < c.next) (w : Nat) (hw : c.next ≤ w) :
      (Function.update c.sema v sema w).waiters = [] := by
    rw [Function.update_of_ne (by omega)]
    exact hf w hw
  cases e with
  | lock e =>
    simp only [Cond.step, Option.ite_none_right_eq_some, Option.map_eq_some_iff] at hs
    obtain ⟨-, l, -, rfl⟩ := hs
    cases e with
    | hold u =>
      simp only [Cond.afterLock]
      split <;> exact hf
    | _ => exact hf
  | wait prio u =>
    simp only [Cond.step, Option.ite_none_right_eq_some, Option.some.injEq] at hs
    obtain ⟨-, rfl⟩ := hs
    intro w hw
    have hw : c.next + 1 ≤ w := hw
    show (Function.update c.sema c.next ⟨0, []⟩ w).waiters = []
    rw [Function.update_of_ne (by omega)]
    exact hf w (by omega)
  | down prio u =>
    simp only [Cond.step] at hs
    split at hs
    · rename_i w hp
      simp only [Option.ite_none_right_eq_some, Option.some.injEq] at hs
      obtain ⟨-, rfl⟩ := hs
      exact hset _ (h.own u w (.inl hp)).1
    · rename_i w hp
      obtain rfl := Option.some.inj hs
      exact hset _ (h.own u w (.inr (.inr hp))).1
    · cases hs
  | signal u =>
    simp only [Cond.step, Option.ite_none_right_eq_some, Option.some.injEq] at hs
    obtain ⟨-, rfl⟩ := hs
    split <;> exact hf
  | sort u order =>
    simp only [Cond.step] at hs
    split at hs
    · simp only [Option.ite_none_right_eq_some, Option.some.injEq] at hs
      obtain ⟨-, rfl⟩ := hs
      exact hf
    · cases hs
  | up prio u =>
    simp only [Cond.step] at hs
    split at hs
    · rename_i b w ws hp hw
      obtain rfl := Option.some.inj hs
      have hlt : w < c.next := h.lt_next (.inl (hw ▸ List.mem_cons_self))
      simp only [Cond.afterUp]
      split <;> exact hset _ hlt
    · cases hs
  | broadcast u =>
    simp only [Cond.step, Option.ite_none_right_eq_some, Option.some.injEq] at hs
    obtain ⟨-, rfl⟩ := hs
    exact hf
  | test u =>
    simp only [Cond.step, Option.ite_none_right_eq_some] at hs
    obtain ⟨-, hs⟩ := hs
    split at hs
    · obtain rfl := Option.some.inj hs
      exact hf
    · simp only [Option.ite_none_right_eq_some, Option.some.injEq] at hs
      obtain ⟨-, rfl⟩ := hs
      exact hf

/-- `list_sort` begins with the waiters in the list. -/
theorem Cond.Ok.enter (h : c.Ok) (hf : ∀ w, c.next ≤ w → (c.sema w).waiters = []) :
    (CondSort.enter extra prio c).Ok extra := by
  have hnodup : c.waiters.Nodup := (List.nodup_append.mp (h.once.nodup_iff.mpr List.nodup_range)).1
  exact ⟨h, rfl, hf, fun t b _ =>
    ⟨_, rfl, sorts_linksOf hnodup (by omega), atMost_listSort, fun w hw => h.condKey_rest hf hw⟩⟩

/-- A step outside `list_sort`, which it may begin. -/
theorem CondSort.Ok.act {a : CondAct} (h : s.Ok extra) (hc : s.cond.step (a.event prio) = some c)
    (hsort : ∀ t order, a ≠ .sort t order) :
    (if a.finds.any fun t => (c.place t).takes then CondSort.enter extra prio c else { s with cond := c }).Ok extra := by
  have hok := step_cond h.cond hc
  have hfresh := fresh_step h.cond h.fresh hc
  split
  · exact hok.enter hfresh
  · rename_i hnone
    refine ⟨hok, h.running, hfresh, fun t b hp => ?_⟩
    have hp : c.place t = .sorting b := hp
    -- the thread has not begun to sort just now
    have hfinds (ht : a.finds = some t) : False := by simp [ht, hp, Place.takes] at hnone
    obtain (he | he | ⟨order, he⟩) | ⟨ht, hw, -⟩ := takes_before h.cond hc hp rfl
    · cases a <;> simp [CondAct.event] at he
      exact (hfinds (congrArg some he)).elim
    · cases a <;> simp [CondAct.event] at he
      exact (hfinds (congrArg some he)).elim
    · cases a <;> simp [CondAct.event] at he
      exact absurd rfl (hsort _ _)
    · show ∃ x, s.sorting = some x ∧ x.Sorts s.keys c.waiters ∧
        AtMost (sortCost (c.waiters.length + 1 + extra)) x.code ∧ ∀ w ∉ c.waiters, s.keys w = ⊥
      rw [hw]
      exact h.sorts t b ht

/-- While the waiters compare as they did, an access goes on with the sort that
began. -/
theorem CondSort.Ok.access {b : Bool} {links : Heap Node} {o : Access Node} {rest : o.Answer → Code Node Unit}
    (h : s.Ok extra)
    (hd : s.Agrees prio) (hp : s.cond.place t = .sorting b) (hx : s.sorting = some ⟨links, .op o rest⟩) :
    CondSort.Ok extra { s with
      sorting := some ⟨(perform (s.cond.less prio) o links).2, rest (perform (s.cond.less prio) o links).1⟩ } := by
  obtain ⟨x, hx', ⟨links', hrun, hholds⟩, hmost, hrest⟩ := h.sorts t b hp
  obtain rfl := Option.some.inj (hx.symm.trans hx')
  have hkeys : (fun w => condKey prio (s.cond.sema w)) = s.keys := by
    funext w
    by_cases hw : w ∈ s.cond.waiters
    · exact hd w hw
    · rw [hrest w hw, h.cond.condKey_rest h.fresh hw]
  rw [Cond.less_eq, hkeys]
  exact ⟨h.cond, h.running, h.fresh, fun u b' hu =>
    ⟨_, rfl, ⟨links', hrun, hholds⟩, (hmost.rest _).mono (Nat.pred_le _), hrest⟩⟩

theorem step_condSort (h : s.Ok extra) (hd : Undisturbed s e) (hs : s.step extra e = some s') : s'.Ok extra := by
  obtain ⟨prio, a⟩ := e
  simp only [CondSort.step, h.running, Bool.false_eq_true, if_false] at hs
  split at hs
  · cases hs
  · rename_i a hsort
    obtain ⟨c, hc, rfl⟩ := Option.map_eq_some_iff.mp hs
    have hact := CondSort.Ok.act h hc hsort
    rwa [h.running] at hact
  · rename_i t
    split at hs
    · rename_i b links o rest hp hx
      have := h.access hd hp hx
      rw [h.running] at this
      exact Option.some.inj hs ▸ this
    · rename_i b links hp hx
      obtain ⟨x, hx', ⟨links', hrun, -⟩, -⟩ := h.sorts t b hp
      obtain rfl := Option.some.inj (hx.symm.trans hx')
      cases hrun
    · cases hs
  · rename_i t
    split at hs
    · obtain ⟨c, hc, rfl⟩ := Option.map_eq_some_iff.mp hs
      refine ⟨step_cond h.cond hc, rfl, fresh_step h.cond h.fresh hc, fun u b hu => ?_⟩
      obtain (he | he | ⟨order, he⟩) | ⟨-, -, he⟩ := takes_before h.cond hc hu rfl
      · cases he
      · cases he
      · cases he
        simp only [Cond.step] at hc
        split at hc
        · simp only [Option.ite_none_right_eq_some, Option.some.injEq] at hc
          obtain ⟨-, rfl⟩ := hc
          rw [show (_ : Cond).place t = _ from setPlace_place.trans (if_pos rfl)] at hu
          cases hu
        · cases hc
      · cases he
    · cases hs

/-! ## A signal goes on, and a broadcast ends -/

theorem step_act {a : CondAct} (hr : s.panicked = false) (hsort : ∀ t order, a ≠ .sort t order) :
    s.step extra (prio, .act a) = (s.cond.step (a.event prio)).map fun c =>
      if a.finds.any fun t => (c.place t).takes then .enter extra prio c else { s with cond := c } := by
  cases a <;> first | exact absurd rfl (hsort _ _) | simp only [CondSort.step, hr, Bool.false_eq_true, if_false]

/-- A thread in `cond_signal` or `cond_broadcast` can take its next step, unless
it sorts and a waiter has come to compare otherwise. -/
theorem CondSort.Ok.goes_on (h : s.Ok extra) (ht : (s.cond.place t).signals = true)
    (ha : ∀ b, s.cond.place t = .sorting b → s.Agrees prio) :
    ∃ a s', a.thread = some t ∧ s.step extra (prio, a) = some s' ∧ s'.panicked = false := by
  have hholder := h.cond.signaller t ht
  suffices hstep : ∃ a, a.thread = some t ∧ (s.step extra (prio, a)).isSome ∧ Undisturbed s (prio, a) by
    obtain ⟨a, hat, hs, hd⟩ := hstep
    obtain ⟨s', hs⟩ := Option.isSome_iff_exists.mp hs
    exact ⟨a, s', hat, hs, (step_condSort h hd hs).running⟩
  cases hp : s.cond.place t with
  | looping =>
    refine ⟨.act (.test t), rfl, ?_, trivial⟩
    rw [step_act h.running (by simp), Option.isSome_map]
    simp only [CondAct.event, Cond.step, hp, if_true, hholder]
    split <;> rfl
  | sorting b =>
    obtain ⟨⟨links, code⟩, hx, ⟨links', hrun, hholds⟩, -⟩ := h.sorts t b hp
    cases code with
    | ret r =>
      refine ⟨.sorted t, rfl, ?_, trivial⟩
      obtain rfl : links = links' := congrArg Prod.snd (Option.some.inj hrun)
      have helems : elems links (s.cond.waiters.length + 1) = sortBy s.keys s.cond.waiters :=
        hholds.elems (by rw [perm_sortBy.length_eq]; exact Nat.lt_succ_self _)
      simp [CondSort.step, h.running, hx, helems, Cond.step, hp, perm_sortBy]
    | op o rest =>
      refine ⟨.access t, rfl, ?_, ha b hp⟩
      simp [CondSort.step, h.running, hx, hp]
    | _ => cases hrun
  | sorted b =>
    refine ⟨.act (.up t), rfl, ?_, trivial⟩
    obtain ⟨w, ws, hw⟩ := List.exists_cons_of_ne_nil (h.cond.found t (by rw [hp]; rfl))
    rw [step_act h.running (by simp), Option.isSome_map]
    simp [CondAct.event, Cond.step, hp, hw]
  | _ =>
    rw [hp] at ht
    cases ht

/-- At most `n` steps are left to a thread in `cond_broadcast`: those outside
`list_sort`, with at most `cost` accesses between two of them, and the accesses
that the sort in progress has left. -/
def CondSort.Left (cost : Nat) (s : CondSort) (t n : Nat) : Prop :=
  ∃ m ≤ cost, (∀ b x, s.cond.place t = .sorting b → s.sorting = some x → AtMost m x.code) ∧
    n = (s.cond.place t).left s.cond.waiters.length * (cost + 1) + m

/-- A step outside the accesses of `list_sort`, as one of `Cond`. -/
theorem CondSort.Ok.cond_step (h : s.Ok extra) (hs : s.step extra e = some s') (hacc : ∀ t, e.2 ≠ .access t) :
    ∃ ev : CondEvent, ev.thread = e.2.thread ∧ s.cond.step ev = some s'.cond ∧
      (s'.sorting = s.sorting ∨ (∃ t, e.2 = .sorted t ∧ s'.sorting = none) ∨
        ∃ t, e.2.thread = some t ∧ (s'.cond.place t).takes = true ∧ s' = .enter extra e.1 s'.cond) := by
  obtain ⟨prio, a⟩ := e
  simp only [CondSort.step, h.running, Bool.false_eq_true, if_false] at hs
  split at hs
  · cases hs
  · rename_i a hsort
    obtain ⟨c, hc, rfl⟩ := Option.map_eq_some_iff.mp hs
    have hthread : (a.event prio).thread = (a.event fun _ => 0).thread := by cases a <;> rfl
    split
    · rename_i hf
      obtain ⟨t, ht, htakes⟩ := (Option.any_eq_true _ _).mp hf
      refine ⟨a.event prio, hthread, hc, .inr (.inr ⟨t, ?_, htakes, rfl⟩)⟩
      cases a <;> simp_all [CondAct.finds, SortAct.thread, CondAct.event, CondEvent.thread]
    · exact ⟨a.event prio, hthread, hc, .inl rfl⟩
  · rename_i t
    exact absurd rfl (hacc t)
  · rename_i t
    split at hs
    · obtain ⟨c, hc, rfl⟩ := Option.map_eq_some_iff.mp hs
      exact ⟨_, rfl, hc, .inr (.inl ⟨t, rfl, rfl⟩)⟩
    · cases hs

/-- An access of `list_sort`. -/
theorem CondSort.Ok.access_step (h : s.Ok extra) (hd : Undisturbed s e) (hs : s.step extra e = some s')
    (hacc : e.2 = .access t) : s'.cond = s.cond ∧ ∃ b links o rest, s.cond.place t = .sorting b ∧
      s.sorting = some ⟨links, .op o rest⟩ ∧ ∃ links' answer, s'.sorting = some ⟨links', rest answer⟩ := by
  obtain ⟨prio, a⟩ := e
  obtain rfl : a = .access t := hacc
  have hrun := (step_condSort h hd hs).running
  simp only [CondSort.step, h.running, Bool.false_eq_true, if_false] at hs
  split at hs
  · rename_i b links o rest hp hx
    obtain rfl := Option.some.inj hs
    exact ⟨rfl, b, links, o, rest, hp, hx, _, _, rfl⟩
  · obtain rfl := Option.some.inj hs
    cases hrun
  · cases hs

variable {cost n : Nat}

/-- While a thread is in `cond_broadcast`, the others neither lengthen nor
shorten what it has left. -/
theorem CondSort.Left.other (hl : s.Left cost t n) (h : s.Ok extra) (hd : Undisturbed s e)
    (ht : (s.cond.place t).broadcasts = true) (he : e.2.thread ≠ some t) (hs : s.step extra e = some s') :
    s'.Left cost t n ∧ s'.cond.waiters = s.cond.waiters := by
  have hsig := Place.broadcasts_signals ht
  by_cases hacc : ∃ u, e.2 = .access u
  · obtain ⟨u, hu⟩ := hacc
    obtain ⟨-, b, -, -, -, hp, -⟩ := h.access_step hd hs hu
    have hut : u = t := h.cond.alone hsig (h.cond.signaller u (by rw [hp]; rfl))
    exact absurd (by rw [hu, hut]; rfl) he
  · obtain ⟨ev, hev, hc, hsort⟩ := h.cond_step hs fun u hu => hacc ⟨u, hu⟩
    obtain ⟨hp, hw⟩ := h.cond.other_step hsig (hev ▸ he) hc
    refine ⟨?_, hw⟩
    obtain ⟨m, hm, hx, rfl⟩ := hl
    refine ⟨m, hm, fun b x hp' hx' => ?_, by rw [hp, hw]⟩
    obtain hsame | ⟨u, -, hnone⟩ | ⟨u, hu, htakes, -⟩ := hsort
    · exact hx b x (hp ▸ hp') (hsame ▸ hx')
    · rw [hnone] at hx'
      cases hx'
    · have hok := (step_condSort h hd hs).cond
      have hsig' : (s'.cond.place t).signals = true := hp ▸ hsig
      have hut : u = t := hok.alone hsig' (hok.signaller u (Place.takes_signals htakes))
      exact absurd (hut ▸ hu) he

theorem Place.left_bounds {p : Place} (h : p.broadcasts = true) (n : Nat) :
    3 * n - 1 ≤ p.left n ∧ p.left n ≤ 3 * n + 1 := by
  cases p with
  | looping => exact ⟨by simp only [left]; omega, le_rfl⟩
  | sorting b => exact ⟨Nat.sub_le .., Nat.le_succ _⟩
  | sorted b => exact ⟨le_rfl, by simp only [left]; omega⟩
  | _ => cases h

/-- Each step of its own brings a broadcast nearer to its end. -/
theorem CondSort.Left.own (hl : s.Left cost t n) (h : s.Ok extra) (hd : Undisturbed s e)
    (hcost : sortCost (s.cond.waiters.length + 1 + extra) ≤ cost) (ht : (s.cond.place t).broadcasts = true)
    (he : e.2.thread = some t) (hs : s.step extra e = some s') :
    (∃ n' < n, (s'.cond.place t).broadcasts = true → s'.Left cost t n') ∧
      ((s'.cond.place t).broadcasts = true → s'.cond.waiters.length ≤ s.cond.waiters.length) := by
  obtain ⟨m, hm, hx, rfl⟩ := hl
  by_cases hacc : ∃ u, e.2 = .access u
  · obtain ⟨u, hu⟩ := hacc
    obtain rfl : u = t := Option.some.inj ((congrArg SortAct.thread hu).symm.trans he)
    obtain ⟨hc, b, links, o, rest, hp, hsort, links', answer, hsort'⟩ := h.access_step hd hs hu
    have hmost := hx b _ hp hsort
    have hpos : 0 < m := by
      by_contra hzero
      obtain rfl : m = 0 := by omega
      exact hmost
    refine ⟨⟨_, Nat.add_lt_add_left (Nat.sub_lt hpos Nat.one_pos) _,
      fun _ => ⟨m - 1, by omega, fun b x _ hx' => ?_, by rw [hc]⟩⟩, fun _ => by rw [hc]⟩
    obtain rfl := Option.some.inj (hsort'.symm.trans hx')
    exact hmost.rest answer
  · obtain ⟨ev, hev, hc, -⟩ := h.cond_step hs fun u hu => hacc ⟨u, hu⟩
    have hlt := h.cond.broadcast_step ht (hev.trans he) hc
    -- between the two ends of the measure there is room for one list length
    have hlen (hb : (s'.cond.place t).broadcasts = true) : s'.cond.waiters.length ≤ s.cond.waiters.length := by
      have h₁ := (Place.left_bounds ht s.cond.waiters.length).2
      have h₂ := (Place.left_bounds hb s'.cond.waiters.length).1
      omega
    refine ⟨⟨_, ?_, fun hb => ⟨cost, le_rfl, fun b x hp hx' => ?_, rfl⟩⟩, hlen⟩
    · calc _ < (s'.cond.place t).left s'.cond.waiters.length * (cost + 1) + (cost + 1) := by omega
        _ = ((s'.cond.place t).left s'.cond.waiters.length + 1) * (cost + 1) := (Nat.succ_mul _ _).symm
        _ ≤ (s.cond.place t).left s.cond.waiters.length * (cost + 1) := Nat.mul_le_mul_right _ hlt
        _ ≤ _ := Nat.le_add_right ..
    · obtain ⟨y, hy, -, hmost, -⟩ := (step_condSort h hd hs).sorts t b hp
      obtain rfl := Option.some.inj (hy.symm.trans hx')
      exact hmost.mono ((sortCost_mono (by have := hlen hb; omega)).trans hcost)

/-- In a run all through which a thread is in its broadcast, it takes no more
steps than it has left. -/
theorem CondSort.Ok.broadcast_ends {es : List ((Nat → Int) × SortAct)} (h : s.Ok extra) (hl : s.Left cost t n)
    (hcost : sortCost (s.cond.waiters.length + 1 + extra) ≤ cost) (hr : Run.run (CondSort.step extra) s es = some s')
    (hd : Run.Always (CondSort.step extra) Undisturbed s es)
    (hb : Run.Always (CondSort.step extra) (fun s _ => (s.cond.place t).broadcasts = true) s es) :
    (es.filter fun e => e.2.thread = some t).length ≤ n := by
  induction es generalizing s n with
  | nil => exact Nat.zero_le _
  | cons e es ih =>
    obtain ⟨s₁, hs, hr⟩ := Run.run_cons.mp hr
    have h₁ := step_condSort h hd.1 hs
    by_cases he : e.2.thread = some t
    · obtain ⟨⟨n', hlt, hl'⟩, hlen⟩ := hl.own h hd.1 hcost hb.1 he hs
      rw [List.filter_cons_of_pos (by simpa using he), List.length_cons]
      cases es with
      | nil => exact Nat.succ_le_of_lt (Nat.zero_lt_of_lt hlt)
      | cons e' es =>
        have hb' := (hb.2 s₁ hs).1
        have := ih h₁ (hl' hb') ((sortCost_mono (by have := hlen hb'; omega)).trans hcost) hr (hd.2 s₁ hs) (hb.2 s₁ hs)
        omega
    · obtain ⟨hl', hw⟩ := hl.other h hd.1 hb.1 he hs
      rw [List.filter_cons_of_neg (by simpa using he)]
      exact ih h₁ hl' (by rw [hw]; exact hcost) hr (hd.2 s₁ hs) (hb.2 s₁ hs)

/-- **Condition variables lose and duplicate no signal** while no waiter comes to
compare otherwise in a `list_sort`. In every state of every such run: no
assertion has failed and the records are exact; a call that has been signalled
goes past its semaphore whenever its thread gets there; a signal or a broadcast
goes on; and a broadcast ends. -/
theorem cond_exact {es : List ((Nat → Int) × SortAct)} (hr : Run.run (CondSort.step extra) .init es = some s)
    (hd : Run.Always (CondSort.step extra) Undisturbed .init es) :
    s.panicked = false ∧ s.cond.Exact ∧
    (∀ w ∈ s.cond.signalled, w ∉ s.cond.passed →
      (s.cond.place (s.cond.owner w) = .joined w → s.cond.lock.phase (s.cond.owner w) = .out) →
      ∀ prio, ∃ s', s.step extra (prio, .act (.down (s.cond.owner w))) = some s' ∧ w ∈ s'.cond.passed) ∧
    (∀ t prio, (s.cond.place t).signals = true → (∀ b, s.cond.place t = .sorting b → s.Agrees prio) →
      ∃ a s', a.thread = some t ∧ s.step extra (prio, a) = some s' ∧ s'.panicked = false) ∧
    ∀ t, (s.cond.place t).broadcasts = true → ∃ n, ∀ es' s', Run.run (CondSort.step extra) s es' = some s' →
      Run.Always (CondSort.step extra) Undisturbed s es' →
      Run.Always (CondSort.step extra) (fun s _ => (s.cond.place t).broadcasts = true) s es' →
      (es'.filter fun e => e.2.thread = some t).length ≤ n := by
  have h : s.Ok extra := Run.run_invariant (fun _ _ _ h hd hs => step_condSort h hd hs) init_condSort hr hd
  refine ⟨h.running, h.cond.toExact, fun w hw hn hp prio => ?_, fun t prio ht ha => h.goes_on ht ha, fun t ht => ?_⟩
  · obtain ⟨c, hc, hpass⟩ := h.cond.goes_past hw hn hp prio
    refine ⟨{ s with cond := c }, ?_, hpass⟩
    have hc : s.cond.step (CondAct.event prio (.down (s.cond.owner w))) = some c := hc
    rw [step_act h.running (by simp), hc]
    rfl
  · refine ⟨_, fun es' s' hr' hd' hb => h.broadcast_ends ⟨_, le_rfl, fun b x hp hx => ?_, rfl⟩ le_rfl hr' hd' hb⟩
    obtain ⟨y, hy, -, hmost, -⟩ := h.sorts t b hp
    obtain rfl := Option.some.inj (hy.symm.trans hx)
    exact hmost

/-- Thread 1 at 31, the others at 40. -/
def brokenPrio (t : Nat) : Int := if t = 1 then 31 else 40

/-- Thread `t` takes the lock, and gives it back. -/
def take (t : Nat) : List CondAct := [CondAct.lock (.acquire t), .lock (.down brokenPrio t), .lock (.hold t)]

def giveBack (t : Nat) : List CondAct := [CondAct.lock (.release t), .lock (.up brokenPrio t)]

/-- Thread 1 waits and sleeps; thread 2 waits, and is preempted by thread 3 on
its way to `sema_down`. Thread 3 calls `cond_broadcast`. -/
def broadcastStart : List SortAct :=
  let acts : List CondAct := take 1 ++ [CondAct.wait 1] ++ giveBack 1 ++ [CondAct.down 1] ++ take 2 ++ [CondAct.wait 2] ++
    giveBack 2 ++ take 3 ++ [CondAct.broadcast 3, .test 3]
  acts.map .act

/-- Thread 3 runs to the end of its broadcast; thread 2 returns. -/
def broadcastRun : List ((Nat → Int) × SortAct) :=
  let turn (n : Nat) : List SortAct := List.replicate n (.access 3) ++ [SortAct.sorted 3, .act (.up 3), .act (.test 3)]
  let acts : List SortAct := broadcastStart ++ turn 10 ++ turn 4 ++ (giveBack 3 ++ [CondAct.down 2] ++ take 2).map .act
  acts.map fun a => (brokenPrio, a)

theorem cond_exact_broadcast : ∃ s, Run.run (CondSort.step 0) .init broadcastRun = some s ∧ s.cond.start 3 = [0, 1] ∧
    s.cond.freed 3 = [0, 1] ∧ s.cond.passed = [1] ∧ s.cond.returned = [1] ∧ s.cond.Exact := by
  obtain ⟨s, hs, hd⟩ := (Option.any_eq_true _ _).mp
    (show (Run.run (CondSort.step 0) .init broadcastRun).any (fun s =>
      decide (s.cond.start 3 = [0, 1] ∧ s.cond.freed 3 = [0, 1] ∧ s.cond.passed = [1] ∧ s.cond.returned = [1])) = true
      by decide +kernel)
  obtain ⟨h₁, h₂, h₃, h₄⟩ := of_decide_eq_true hd
  exact ⟨s, hs, h₁, h₂, h₃, h₄, (cond_exact hs (by decide +kernel)).2.1⟩

/-- In the `list_sort` thread 3 is preempted by thread 2, behind the only pass
and before the closing assertion, and thread 2 goes to sleep. -/
def brokenBroadcast : List ((Nat → Int) × SortAct) :=
  let acts : List SortAct := broadcastStart ++ List.replicate 5 (.access 3) ++ [SortAct.act (.down 2)] ++
    List.replicate 5 (.access 3)
  acts.map fun a => (brokenPrio, a)

/-- The assertion fails: the broadcast and its first signal have signalled
nobody, and nothing happens any more. -/
theorem not_cond_exact : ∃ s, Run.run (CondSort.step 0) .init brokenBroadcast = some s ∧ s.cond.start 3 = [0, 1] ∧
    s.cond.hits = 1 ∧ s.cond.signalled = [] ∧ (s.cond.place 3).broadcasts = true ∧ s.panicked = true ∧
    ∀ e, s.step 0 e = none := by
  obtain ⟨s, hs, hd⟩ := (Option.any_eq_true _ _).mp
    (show (Run.run (CondSort.step 0) .init brokenBroadcast).any (fun s =>
      decide (s.cond.start 3 = [0, 1] ∧ s.cond.hits = 1 ∧ s.cond.signalled = [] ∧
        (s.cond.place 3).broadcasts = true ∧ s.panicked = true)) = true by decide +kernel)
  obtain ⟨h₁, h₂, h₃, h₄, h₅⟩ := of_decide_eq_true hd
  exact ⟨s, hs, h₁, h₂, h₃, h₄, h₅, fun e => by simp only [CondSort.step, h₅, if_true]⟩

end PintosKaist.Synch
