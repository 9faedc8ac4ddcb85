/-
`check_address` (`userprog/syscall.c`) looks at the first byte of a string
argument, and the handlers read on: `strlen` up to the NUL, `strcmp` up to the
first byte that differs. What comes after the page of the first byte nobody has
looked at.
-/
import PintosKaist.Userprog.CheckBuffer
import PintosKaist.Vm.Reads

namespace PintosKaist.Vm

variable {s s' : State} {p addr rsp i : Nat} {str : Nat → Byte} {names : List (List Byte)}

/-- `check_address`; `false` is `sys_exit(-1)`. The `write` it passes on is the
library function of that name, which is no null pointer. -/
def checkAddress (s : State) (p rsp addr : Nat) : Option (Bool × State) :=
  if addr = 0 ∨ kernBase ≤ addr then some (false, s)
  else if (s.pte p (addr / pgsize)).present then some (true, s)
  else vmTryHandleFault s p addr rsp true true

/-! ## The bytes that are read -/

/-- `strlen` of the string `str` reads its byte `i`. -/
def StrlenReads (str : Nat → Byte) (i : Nat) : Prop := ∀ j < i, str j ≠ 0

/-- `strcmp` of `str` with `t`, a string without its NUL, reads byte `i` of
`str`. -/
def StrcmpReads (str : Nat → Byte) (t : List Byte) (i : Nat) : Prop := ∀ j < i, str j ≠ 0 ∧ t[j]? = some (str j)

/-- `strcmp` of `str` with `t` is 0. -/
def StrEq (str : Nat → Byte) (t : List Byte) : Prop := (∀ j < t.length, t[j]? = some (str j)) ∧ str t.length = 0

/-- `lookup` reads byte `i` of the name: it compares it with those of the
entries in use, up to one that is equal. -/
def LookupReads (str : Nat → Byte) : List (List Byte) → Nat → Prop
  | [], _ => False
  | t :: ts, i => StrcmpReads str t i ∨ ¬ StrEq str t ∧ LookupReads str ts i

/-- The handlers with a string argument. -/
inductive StringCall where
  | sysExec
  | sysCreate
  | sysRemove
  | sysOpen
  deriving DecidableEq, Repr

/-- The handler reads byte `i` of its argument; `names` are those of the root
directory. `sys_exec` and `filesys_create` begin with `strlen`, and whatever
they do next reads no further. -/
def StringCall.Reads (names : List (List Byte)) (str : Nat → Byte) : StringCall → Nat → Prop
  | .sysExec, i => StrlenReads str i
  | .sysCreate, i => StrlenReads str i ∨ LookupReads str names i
  | .sysRemove, i => LookupReads str names i
  | .sysOpen, i => StrcmpReads str [] i ∨ ¬ StrEq str [] ∧ LookupReads str names i

instance : Decidable (StrlenReads str i) := inferInstanceAs (Decidable (∀ j < i, str j ≠ 0))

/-! ## What `check_address` has looked at -/

/-- A user address with a page in the table of `p`. -/
def Covered (s : State) (p addr : Nat) : Prop := addr < kernBase ∧ (sptFindPage s p addr).isSome

instance : Decidable (Covered s p addr) := inferInstanceAs (Decidable (_ ∧ _))

theorem covered_page {addr' : Nat} (h : Spts s) (hd : addr / pgsize = addr' / pgsize) :
    Covered s p addr ↔ Covered s p addr' := by
  have hlt : addr < kernBase ↔ addr' < kernBase := by
    simp only [kernBase, pgsize] at *
    omega
  rw [Covered, Covered, hlt, h.sptFindPage_eq, h.sptFindPage_eq, hd]

theorem isSome_of_writableAt {w : Bool} (h : writableAt s p addr = some w) : (sptFindPage s p addr).isSome := by
  obtain ⟨q, hq, -⟩ := Option.bind_eq_some_iff.mp h
  rw [hq]
  rfl

/-- A fault on an absent page changes the table at that page only. -/
theorem sptFindPage_fault {a : Nat} (h : Entries s) (hp : p < s.nextPid) (hne : a / pgsize ≠ addr / pgsize)
    (hr : vmTryHandleFault s p addr rsp true true = some (true, s')) : sptFindPage s' p a = sptFindPage s p a := by
  rcases vmTryHandleFault_cases hr with ⟨hf, -⟩ | ⟨_, _, _, _, _, hf, -⟩ | ⟨q, hfind, -, hclaim⟩ | ⟨-, hfind, hwin, rfl⟩
  · cases hf
  · cases hf
  · unfold sptFindPage
    rw [hashFind_same (Brought.claim hclaim).toSameSpts]
  · have h0 := inStackWindow_ne_zero hwin
    rw [h.spts.sptFindPage_eq] at hfind
    have hins := h.spts.hashFind_inserted ⟨addr / pgsize, none, true, .uninit .anon false none⟩ hp h0 hfind p
      (a / pgsize)
    rw [vmAllocPage_anon hfind]
    rw [if_neg fun e => hne e.2] at hins
    rw [sptFindPage, sptFindPage, hins]

theorem checkAddress_passed (h : Entries s) (hp : p < s.nextPid) (hr : checkAddress s p rsp addr = some (true, s')) :
    Entries s' ∧ Covered s' p addr ∧ ∀ a, a / pgsize ≠ addr / pgsize → (Covered s' p a ↔ Covered s p a) := by
  simp only [checkAddress] at hr
  split at hr
  · exact absurd hr (by simp)
  rename_i haddr
  rw [not_or, Nat.not_le] at haddr
  split at hr
  · rename_i hpres
    obtain ⟨-, rfl⟩ := Prod.mk.inj (Option.some.inj hr)
    obtain ⟨q, page, hq, hpage, hva, -⟩ := h.back p _ hpres
    refine ⟨h, ⟨haddr.2, ?_⟩, fun _ _ => .rfl⟩
    rw [h.spts.sptFindPage_eq, h.spts.hashFind_iff.mpr ⟨hq, hva ▸ vaOf_eq hpage⟩]
    rfl
  · have habsent : true = false → (s.pte p (addr / pgsize)).present = true := by simp
    obtain ⟨-, -, w, hw⟩ := Grows.fault h hp habsent hr
    refine ⟨h.fault hp habsent hr, ⟨haddr.2, isSome_of_writableAt hw⟩, fun a hne => ?_⟩
    rw [Covered, Covered, sptFindPage_fault h hp hne hr]

/-- **String arguments are checked** for what the handler reads in the page of
the first byte; the bytes it reads are all covered exactly if those past that
page were covered before. -/
theorem string_checked_iff {frames slots : Nat} {mem : Nat → Bytes} {disk : Nat → Sector} {inodes : Nat → Inode}
    {es : List Ev} (hrun : Run.run step (boot frames slots mem disk inodes) es = some s) (hp : p < s.nextPid)
    (hr : checkAddress s p rsp addr = some (true, s')) (call : StringCall) (names : List (List Byte))
    (str : Nat → Byte) :
    (∀ i, call.Reads names str i → Covered s' p (addr + i)) ↔
      ∀ i, call.Reads names str i → (addr + i) / pgsize ≠ addr / pgsize → Covered s p (addr + i) := by
  obtain ⟨h', hfirst, hother⟩ := checkAddress_passed (entries_boot.run hrun) hp hr
  constructor
  · intro hall i hi hne
    exact (hother _ hne).mp (hall i hi)
  · intro hrest i hi
    by_cases hpage : (addr + i) / pgsize = addr / pgsize
    · exact (covered_page h'.spts hpage).mpr hfirst
    · exact (hother _ hpage).mpr (hrest i hi hpage)

/-- A process that has put a byte that is no NUL at the end of its stack. -/
def stackString : List Ev := [.spawn, .setupStack 0, .store 0 stackTop 65]

theorem string_checked_iff_create : ∃ s s', Run.run step (small 4 4) stackString = some s ∧
    checkAddress s 0 stackTop (stackTop - 4) = some (true, s') ∧
    ((∀ i, StringCall.sysCreate.Reads [] (fun j => if j = 4 then 65 else 0) i → Covered s' 0 (stackTop - 4 + i)) ↔
      ∀ i, StringCall.sysCreate.Reads [] (fun j => if j = 4 then 65 else 0) i →
        (stackTop - 4 + i) / pgsize ≠ (stackTop - 4) / pgsize → Covered s 0 (stackTop - 4 + i)) := by
  have hrun : (Run.run step (small 4 4) stackString).any (fun s => decide (0 < s.nextPid) &&
      (checkAddress s 0 stackTop (stackTop - 4)).any fun x => x.1) = true := by
    decide +kernel
  obtain ⟨s, hs, hx⟩ := (Option.any_eq_true ..).mp hrun
  simp only [Bool.and_eq_true, decide_eq_true_eq, Option.any_eq_true] at hx
  obtain ⟨hp, ⟨_, s'⟩, hcheck, rfl⟩ := hx
  exact ⟨s, s', hs, hcheck, string_checked_iff hs hp hcheck .sysCreate [] _⟩

/-- The last byte of the stack passes for a name. What is there is no NUL, and
`strlen` goes on to the byte above the stack. -/
theorem string_unchecked_create : ∃ s s', Run.run step (small 4 4) stackString = some s ∧
    checkAddress s 0 stackTop stackTop = some (true, s') ∧ readByte s' 0 stackTop = some 65 ∧
    ∀ str : Nat → Byte, str 0 = 65 → ¬ ∀ i, StringCall.sysCreate.Reads [] str i → Covered s' 0 (stackTop + i) := by
  have hrun : (Run.run step (small 4 4) stackString).any (fun s => (checkAddress s 0 stackTop stackTop).any fun x =>
      x.1 && (readByte x.2 0 stackTop == some 65) && !decide (Covered x.2 0 (stackTop + 1))) = true := by
    decide +kernel
  obtain ⟨s, hs, hx⟩ := (Option.any_eq_true ..).mp hrun
  simp only [Bool.and_eq_true, beq_iff_eq, Option.any_eq_true, Bool.not_eq_true', decide_eq_false_iff_not] at hx
  obtain ⟨⟨_, s'⟩, hcheck, ⟨rfl, hbyte⟩, hbare⟩ := hx
  refine ⟨s, s', hs, hcheck, hbyte, fun str h65 hall => hbare (hall 1 (.inl fun j hj => ?_))⟩
  obtain rfl : j = 0 := by omega
  rw [h65]
  decide

end PintosKaist.Vm
