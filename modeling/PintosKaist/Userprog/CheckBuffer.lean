/-
`check_buffer` (`userprog/syscall.c`) walks over the pages of a user buffer
and ends the process at one it does not like. It looks at `writable` only if
the page is in the page table; a page that is not is brought in, whatever it
is. And an end of the buffer past 2^64 lies below its start, where the loop
makes no turn at all.

`check_buffer_sound_iff` says when a buffer that passes is one that `sys_read`
and `sys_write` may use.
-/
import PintosKaist.Vm.Entries

namespace PintosKaist.Vm

variable {s s' s₁ : State} {p q va addr rsp n buffer size : Nat} {page : Page} {b write : Bool}

/-- `pg_round_down`. -/
def pgRoundDown (addr : Nat) : Nat := addr / pgsize * pgsize

/-- One turn of the loop of `check_buffer`; `false` is `sys_exit(-1)`. -/
def checkPage (s : State) (p rsp : Nat) (write : Bool) (addr : Nat) : Option (Bool × State) :=
  if kernBase ≤ addr then some (false, s)
  else if (s.pte p (addr / pgsize)).present then
    if write then some (true, s)
    else do
      let q ← sptFindPage s p addr
      let page ← s.pages q
      some ((s.pte p (addr / pgsize)).writable || page.writable, s)
  else vmTryHandleFault s p addr rsp write true

/-- `n` turns. `addr` never wraps around: the turn at a kernel address is the
last. -/
def checkPages (p rsp : Nat) (write : Bool) : State → Nat → Nat → Option (Bool × State)
  | s, _, 0 => some (true, s)
  | s, addr, n + 1 => do
    let (ok, s) ← checkPage s p rsp write addr
    if ok then checkPages p rsp write s (addr + pgsize) n else some (false, s)

/-- `check_buffer`, called by process `p` with `user_rsp` `rsp`. -/
def checkBuffer (s : State) (p rsp buffer size : Nat) (write : Bool) : Option (Bool × State) :=
  let start := pgRoundDown buffer
  let stop := pgRoundDown ((buffer + size - 1) % 2 ^ 64)
  checkPages p rsp write s start (if start ≤ stop then (stop - start) / pgsize + 1 else 0)

/-- `page->writable` of the page at `addr`, if the table has one. -/
def writableAt (s : State) (p addr : Nat) : Option Bool :=
  (sptFindPage s p addr).bind fun q => (s.pages q).map (·.writable)

/-- The process may read the byte at `addr`, and if the system call stores
there (`write` is that of `check_buffer`) also write it. -/
def Usable (s : State) (p addr : Nat) (write : Bool) : Prop :=
  addr < kernBase ∧ ∃ w, writableAt s p addr = some w ∧ (write = false → w = true)

/-! ## Pages that stay -/

theorem Spts.sptFindPage_eq (h : Spts s) (addr : Nat) :
    Vm.sptFindPage s p addr = hashFind s p (addr / pgsize) := by
  unfold Vm.sptFindPage
  split
  · rename_i h0
    subst h0
    refine (hashFind_none.mpr fun q hq hva => ?_).symm
    obtain ⟨va, hva', hne⟩ := h.live p q hq
    exact hne (Option.some.inj (hva'.symm.trans hva))
  · rfl

/-- The bytes of one page are alike. -/
theorem writableAt_page {addr' : Nat} (h : Spts s) (hd : addr / pgsize = addr' / pgsize) :
    writableAt s p addr = writableAt s p addr' := by
  rw [writableAt, writableAt, h.sptFindPage_eq, h.sptFindPage_eq, hd]

/-- Pages that age stay as writable as they are. -/
theorem writableAt_ages (hs : SameSpts s s')
    (hpages : ∀ q page, s.pages q = some page → ∃ page', s'.pages q = some page' ∧ page.Ages page') (addr : Nat) :
    writableAt s' p addr = writableAt s p addr := by
  have hfind : sptFindPage s' p addr = sptFindPage s p addr := by
    unfold sptFindPage
    rw [hashFind_same hs]
  rw [writableAt, writableAt, hfind]
  cases hq : sptFindPage s p addr with
  | none => rfl
  | some q =>
    obtain ⟨-, page, hpage, -⟩ := sptFindPage_some hq
    obtain ⟨page', hpage', ha⟩ := hpages q page hpage
    simp only [Option.bind_some, hpage, hpage', Option.map_some, ha.2.1]

/-- Pages of `p` are as they were, or new and writable. -/
def Grows (s s' : State) (p : Nat) : Prop :=
  ∀ addr, writableAt s' p addr = writableAt s p addr ∨ writableAt s p addr = none ∧ writableAt s' p addr = some true

theorem Grows.refl (s : State) (p : Nat) : Grows s s p := fun _ => .inl rfl

theorem Grows.trans (h : Grows s s₁ p) (h' : Grows s₁ s' p) : Grows s s' p := by
  intro addr
  rcases h' addr with e' | ⟨e', ht⟩
  · rw [e']
    exact h addr
  · rcases h addr with e | ⟨-, ht'⟩
    · exact .inr ⟨e ▸ e', ht⟩
    · exact absurd (e'.symm.trans ht') (by simp)

theorem Grows.keeps (h : Grows s s' p) {w : Bool} (hw : writableAt s p addr = some w) : writableAt s' p addr = some w := by
  rcases h addr with e | ⟨e, -⟩
  · rw [e, hw]
  · exact absurd (e.symm.trans hw) (by simp)

/-- The page that `vm_stack_growth` makes. -/
theorem Grows.stack (h : Spts s) (hp : p < s.nextPid) (h0 : va ≠ 0) (hnone : hashFind s p va = none) (kind : Kind) :
    Grows s (inserted s p ⟨va, none, true, kind⟩) p ∧
      ∀ addr, addr / pgsize = va → writableAt (inserted s p ⟨va, none, true, kind⟩) p addr = some true := by
  have hins : Spts (inserted s p ⟨va, none, true, kind⟩) := h.inserted hp h0 hnone
  have hnew : ∀ addr, addr / pgsize = va → writableAt (inserted s p ⟨va, none, true, kind⟩) p addr = some true := by
    intro addr he
    rw [writableAt, hins.sptFindPage_eq, h.hashFind_inserted ⟨va, none, true, kind⟩ hp h0 hnone, if_pos ⟨rfl, he⟩]
    simp [inserted, State.setSpt, State.setPage]
  refine ⟨fun addr => ?_, hnew⟩
  by_cases he : addr / pgsize = va
  · exact .inr ⟨by rw [writableAt, h.sptFindPage_eq, he, hnone]; rfl, hnew addr he⟩
  · left
    rw [writableAt, writableAt, hins.sptFindPage_eq, h.sptFindPage_eq,
      h.hashFind_inserted ⟨va, none, true, kind⟩ hp h0 hnone, if_neg fun e => he e.2]
    cases hq : hashFind s p (addr / pgsize) with
    | none => rfl
    | some q =>
      have hne : q ≠ s.nextPage := Nat.ne_of_lt (h.lt p q (h.hashFind_iff.mp hq).1)
      simp [inserted, State.setSpt, State.setPage, Function.update_of_ne hne]

/-- A fault that is handled leaves a page there. -/
theorem Grows.fault {notPresent : Bool} (h : Entries s) (hp : p < s.nextPid)
    (hpres : notPresent = false → (s.pte p (addr / pgsize)).present = true)
    (hr : vmTryHandleFault s p addr rsp write notPresent = some (true, s')) :
    s'.nextPid = s.nextPid ∧ Grows s s' p ∧ ∃ w, writableAt s' p addr = some w := by
  have hbrought : ∀ q, sptFindPage s p addr = some q → Brought s p q s' →
      s'.nextPid = s.nextPid ∧ Grows s s' p ∧ ∃ w, writableAt s' p addr = some w := by
    intro q hfind hb
    obtain ⟨-, page, hpage, -⟩ := sptFindPage_some hfind
    have hsame := writableAt_ages (p := p) hb.toSameSpts hb.pages
    refine ⟨hb.pid, fun a => .inl (hsame a), page.writable, ?_⟩
    rw [hsame, writableAt, hfind, Option.bind_some, hpage, Option.map_some]
  rcases vmTryHandleFault_cases hr with ⟨hf, -⟩ | ⟨q, page, hfind, hpage, -, hnp, hw, hwp⟩ | ⟨q, hfind, -, hclaim⟩ |
    ⟨-, hfind, hwin, rfl⟩
  · cases hf
  · obtain ⟨-, -, -, hun, -⟩ := h.found hfind hpage (hpres hnp)
    exact hbrought q hfind (.wp hpage hun hw hwp)
  · exact hbrought q hfind (.claim hclaim)
  · have h0 := inStackWindow_ne_zero hwin
    rw [h.spts.sptFindPage_eq] at hfind
    obtain ⟨hg, hw⟩ := Grows.stack h.spts hp h0 hfind (.uninit .anon false none)
    rw [vmAllocPage_anon hfind]
    exact ⟨rfl, hg, true, hw addr rfl⟩

/-! ## The loop -/

/-- What is known after turns that passed. -/
structure Passed (s : State) (p : Nat) (s' : State) : Prop where
  entries : Entries s'
  pid : s'.nextPid = s.nextPid
  grows : Grows s s' p

theorem Passed.refl (h : Entries s) : Passed s p s := ⟨h, rfl, .refl s p⟩

theorem Passed.trans (h : Passed s p s₁) (h' : Passed s₁ p s') : Passed s p s' :=
  ⟨h'.entries, h'.pid.trans h.pid, h.grows.trans h'.grows⟩

theorem checkPage_passed (h : Entries s) (hp : p < s.nextPid) (hr : checkPage s p rsp write addr = some (true, s')) :
    Passed s p s' ∧ addr < kernBase ∧ ∃ w, writableAt s' p addr = some w := by
  simp only [checkPage] at hr
  split at hr
  · exact absurd hr (by simp)
  rename_i huser
  have huser := Nat.not_le.mp huser
  split at hr
  · rename_i hpres
    -- the page is there, and nothing changes
    obtain ⟨q, page, hq, hpage, hva, -⟩ := h.back p _ hpres
    have hw : writableAt s p addr = some page.writable := by
      rw [writableAt, h.spts.sptFindPage_eq, h.spts.hashFind_iff.mpr ⟨hq, hva ▸ vaOf_eq hpage⟩, Option.bind_some, hpage,
        Option.map_some]
    have hsame : s' = s := by
      split at hr
      · exact (Prod.mk.inj (Option.some.inj hr)).2.symm
      · simp only [Option.bind_eq_bind, Option.bind_eq_some_iff, Option.some.injEq, Prod.mk.injEq] at hr
        obtain ⟨_, _, _, _, _, rfl⟩ := hr
        rfl
    subst hsame
    exact ⟨.refl h, huser, page.writable, hw⟩
  · have habsent : true = false → (s.pte p (addr / pgsize)).present = true := by simp
    obtain ⟨hpid, hg, hw⟩ := Grows.fault h hp habsent hr
    exact ⟨⟨h.fault hp habsent hr, hpid, hg⟩, huser, hw⟩

/-- A present page that `sys_read` may not write to ends the process. -/
theorem checkPage_readOnly (h : Entries s) (hpres : (s.pte p (addr / pgsize)).present = true)
    (hw : writableAt s p addr = some false) : checkPage s p rsp false addr = some (false, s) := by
  simp only [checkPage, hpres, if_true, Bool.false_eq_true, if_false]
  split
  · rfl
  obtain ⟨q, hfind, hmap⟩ := Option.bind_eq_some_iff.mp hw
  obtain ⟨page, hpage, hwr⟩ := Option.map_eq_some_iff.mp hmap
  obtain ⟨-, -, -, -, hentry⟩ := h.found hfind hpage hpres
  have hpte : (s.pte p (addr / pgsize)).writable = false := by
    rw [Bool.eq_false_iff]
    intro ht
    cases hwr.symm.trans (hentry ht)
  simp only [hfind, hpage, hpte, hwr, Option.bind_eq_bind, Option.bind_some, Bool.or_self]

theorem checkPages_passed (h : Entries s) (hp : p < s.nextPid)
    (hr : checkPages p rsp write s addr n = some (true, s')) :
    Passed s p s' ∧ ∀ k < n, addr + k * pgsize < kernBase ∧ ∃ w, writableAt s' p (addr + k * pgsize) = some w := by
  induction n generalizing s addr with
  | zero =>
    obtain ⟨-, rfl⟩ := Prod.mk.inj (Option.some.inj hr)
    exact ⟨.refl h, by simp⟩
  | succ n ih =>
    simp only [checkPages, Option.bind_eq_bind, Option.bind_eq_some_iff, Prod.exists] at hr
    obtain ⟨ok, s₁, hturn, hr⟩ := hr
    cases ok with
    | false => exact absurd hr (by simp)
    | true =>
      simp only [if_true] at hr
      obtain ⟨hpass, huser, w, hw⟩ := checkPage_passed h hp hturn
      obtain ⟨hrest, hall⟩ := ih hpass.entries (hpass.pid ▸ hp) hr
      refine ⟨hpass.trans hrest, fun k hk => ?_⟩
      cases k with
      | zero =>
        rw [Nat.zero_mul, Nat.add_zero]
        exact ⟨huser, w, hrest.grows.keeps hw⟩
      | succ k =>
        have := hall k (by omega)
        rwa [show addr + (k + 1) * pgsize = addr + pgsize + k * pgsize by rw [Nat.succ_mul]; omega]

/-- The bytes of a buffer that does not reach past 2^64 are in the pages of the
turns. -/
theorem mem_turns (hsize : buffer + size ≤ 2 ^ 64) {a : Nat} (h₁ : buffer ≤ a) (h₂ : a < buffer + size) :
    ∃ k < (if pgRoundDown buffer ≤ pgRoundDown ((buffer + size - 1) % 2 ^ 64) then
        (pgRoundDown ((buffer + size - 1) % 2 ^ 64) - pgRoundDown buffer) / pgsize + 1 else 0),
      pgRoundDown buffer + k * pgsize = pgRoundDown a := by
  have hmod : (buffer + size - 1) % 2 ^ 64 = buffer + size - 1 := Nat.mod_eq_of_lt (by omega)
  rw [hmod]
  have hlo : buffer / pgsize ≤ a / pgsize := Nat.div_le_div_right h₁
  have hhi : a / pgsize ≤ (buffer + size - 1) / pgsize := Nat.div_le_div_right (by omega)
  have hle : pgRoundDown buffer ≤ pgRoundDown (buffer + size - 1) := Nat.mul_le_mul_right _ (hlo.trans hhi)
  refine ⟨a / pgsize - buffer / pgsize, ?_, ?_⟩
  · rw [if_pos hle, pgRoundDown, pgRoundDown, ← Nat.sub_mul, Nat.mul_div_cancel _ (by decide)]
    omega
  · simp only [pgRoundDown]
    rw [← Nat.add_mul, Nat.add_sub_cancel' hlo]

/-- **`check_buffer` is sound** exactly for buffers that end below 2^64 and,
when the kernel is to store there, have no page that is read-only: one that is
not in the page table passes, and is claimed. -/
theorem check_buffer_sound_iff {frames slots : Nat} {mem : Nat → Bytes} {disk : Nat → Sector} {inodes : Nat → Inode}
    {es : List Ev} (hrun : Run.run step (boot frames slots mem disk inodes) es = some s) (hp : p < s.nextPid)
    (hsize : 0 < size) (hr : checkBuffer s p rsp buffer size write = some (true, s')) :
    (∀ a, buffer ≤ a → a < buffer + size → Usable s' p a write) ↔
      buffer + size ≤ 2 ^ 64 ∧
        (write = false → ∀ a, buffer ≤ a → a < buffer + size → writableAt s p a ≠ some false) := by
  have h : Entries s := entries_boot.run hrun
  obtain ⟨hpass, hturns⟩ := checkPages_passed h hp hr
  constructor
  · intro hall
    refine ⟨?_, fun hw a h₁ h₂ hro => ?_⟩
    · by_contra hbig
      have hkern : kernBase ≤ max buffer (2 ^ 64 - 1) := by
        unfold kernBase
        omega
      obtain ⟨huser, -⟩ := hall (max buffer (2 ^ 64 - 1)) (Nat.le_max_left ..) (by omega)
      exact absurd huser (Nat.not_lt.mpr hkern)
    · obtain ⟨-, w, hwa, htrue⟩ := hall a h₁ h₂
      rw [hpass.grows.keeps hro, Option.some.injEq] at hwa
      cases hwa.trans (htrue hw)
  · rintro ⟨hlt, hro⟩ a h₁ h₂
    obtain ⟨k, hk, hbase⟩ := mem_turns hlt h₁ h₂
    obtain ⟨huser, w, hw⟩ := hturns k hk
    rw [hbase] at huser hw
    have hpage : writableAt s' p a = some w := by
      rw [← hw]
      refine writableAt_page hpass.entries.spts ?_
      rw [pgRoundDown, Nat.mul_div_cancel _ (by decide)]
    refine ⟨?_, w, hpage, fun hwr => ?_⟩
    · simp only [pgRoundDown, pgsize, kernBase] at huser ⊢
      omega
    · by_contra hf
      rw [Bool.not_eq_true] at hf
      subst hf
      rcases hpass.grows a with e | ⟨-, e⟩
      · exact hro hwr a h₁ h₂ (e ▸ hpage)
      · cases hpage.symm.trans e

/-- The stack, and a page of a read-only segment that was never touched. -/
def stackAndCode : List Ev :=
  [.spawn, .setupStack 0, .alloc 0 .anon 1 false true (some { smallFile with writable := false })]

theorem check_buffer_sound_iff_stack : ∃ s s', Run.run step (small 4 4) stackAndCode = some s ∧
    checkBuffer s 0 stackTop (stackTop - 7) 8 false = some (true, s') ∧
    ((∀ a, stackTop - 7 ≤ a → a < stackTop - 7 + 8 → Usable s' 0 a false) ↔ stackTop - 7 + 8 ≤ 2 ^ 64 ∧
      (false = false → ∀ a, stackTop - 7 ≤ a → a < stackTop - 7 + 8 → writableAt s 0 a ≠ some false)) := by
  have hrun : (Run.run step (small 4 4) stackAndCode).any (fun s => decide (0 < s.nextPid) &&
      (checkBuffer s 0 stackTop (stackTop - 7) 8 false).any fun x => x.1) = true := by
    decide +kernel
  obtain ⟨s, hs, hx⟩ := (Option.any_eq_true ..).mp hrun
  simp only [Bool.and_eq_true, decide_eq_true_eq, Option.any_eq_true] at hx
  obtain ⟨hp, ⟨_, s'⟩, hcheck, rfl⟩ := hx
  exact ⟨s, s', hs, hcheck, check_buffer_sound_iff hs hp (by decide) hcheck⟩

/-- `sys_read` is let into the untouched page of the segment; and a buffer past
the end of the address space passes at once. -/
theorem check_buffer_code : ∃ s s', Run.run step (small 4 4) stackAndCode = some s ∧
    checkBuffer s 0 stackTop 4096 1 false = some (true, s') ∧
    ¬ (∀ a, 4096 ≤ a → a < 4096 + 1 → Usable s' 0 a false) ∧
    checkBuffer s 0 stackTop 18446744073709551615 2 true = some (true, s) ∧
    ¬ ∀ a, 18446744073709551615 ≤ a → a < 18446744073709551615 + 2 → Usable s 0 a true := by
  have hrun : (Run.run step (small 4 4) stackAndCode).any (fun s =>
      (checkBuffer s 0 stackTop 4096 1 false).any fun x => x.1 && (writableAt x.2 0 4096 == some false)) = true := by
    decide +kernel
  obtain ⟨s, hs, hx⟩ := (Option.any_eq_true ..).mp hrun
  simp only [Bool.and_eq_true, beq_iff_eq, Option.any_eq_true] at hx
  obtain ⟨⟨_, s'⟩, hcheck, rfl, hro⟩ := hx
  refine ⟨s, s', hs, hcheck, fun hall => ?_, rfl, fun hall => ?_⟩
  · obtain ⟨-, w, hw, htrue⟩ := hall 4096 (Nat.le_refl _) (by omega)
    cases (hro.symm.trans hw).trans (congrArg some (htrue rfl))
  · obtain ⟨huser, -⟩ := hall 18446744073709551615 (Nat.le_refl _) (by omega)
    exact absurd huser (by decide)

end PintosKaist.Vm
