/-
`sys_exec` (`userprog/syscall.c`), `process_exec` and the argument passing of
`load` (`userprog/process.c`), with `strtok_r` and `strlcpy` (`lib/string.c`).

A command line is copied into a page, from there onto the kernel stack, cut into
words there, and the words are copied onto the user stack. An access outside of
a buffer has no result. Allocations succeed.
-/
import Mathlib.Data.BitVec
import Mathlib.Data.List.Forall2
import PintosKaist.Lib.CStr
import PintosKaist.Userprog.LazyPages

namespace PintosKaist.Exec

open Filesys (Byte offT)
open LazyPages (sizeT)
open Vm (pgsize userStack)
open CStr While

def maxArgs : Nat := 128
def maxBuf : Nat := 128

/-- `' '`. -/
def space : Byte := 32

/-! ## `lib/string.c` -/

/-- `strchr`: where `c` is, the null byte included. -/
def strchr (string : List Byte) (c : Byte) : Option Nat := (string ++ [0]).findIdx? fun x => decide (x = c)

/-- `strlcpy (dst, src, size)`: `dst`. -/
def strlcpy (dst src : List Byte) (size : Nat) : Option (List Byte) :=
  (strlen src 0).bind fun srcLen =>
    if size > 0 then
      let dstLen := if srcLen < size - 1 then srcLen else size - 1
      (memcpy src dstLen dst 0 0).bind fun dst => store dst dstLen 0
    else some dst

/-- `strtok_r`, in the block `b`: the token, `*save_ptr`, and the block. The
first loop ends at the null byte too, which `strchr` finds. -/
def strtokR (b : List Byte) (s : Option Nat) (delimiters : List Byte) (savePtr : Nat) :
    Option (Option Nat × Nat × List Byte) :=
  (scan b (fun c => (strchr delimiters c).isSome && c ≠ 0) (s.getD savePtr)).bind fun token =>
    (b[token]?).bind fun c =>
      if c = 0 then some (none, token, b)
      else
        (scan b (fun c => (strchr delimiters c).isNone) token).bind fun s =>
          (b[s]?).bind fun c =>
            if c ≠ 0 then (store b s 0).map fun b => (some token, s + 1, b) else some (some token, s, b)

/-! ## `parse_args` -/

/-- The variables of the loop. -/
structure ParseLoop where
  token : Option Nat
  savePtr : Nat
  target : List Byte
  argv : List (Option Nat)
  argc : Nat

def parseTurn (t : ParseLoop) : Option (ForInStep ParseLoop) :=
  match t.token with
  | none => some (.done t)
  | some token =>
    (store t.argv t.argc (some token)).bind fun argv =>
      (strtokR t.target none [space] t.savePtr).map fun (token, savePtr, target) =>
        .yield ⟨token, savePtr, target, argv, t.argc + 1⟩

/-- `parse_args (target, argv)`: `argc`, `argv`, and the block of `target`. -/
def parseArgs (target : List Byte) (argv : List (Option Nat)) : Option (Nat × List (Option Nat) × List Byte) :=
  (strtokR target (some 0) [space] 0).bind fun (token, savePtr, target) =>
    (whileLoop parseTurn (target.length + 1) ⟨token, savePtr, target, argv, 0⟩).bind fun t =>
      (store t.argv t.argc none).map fun argv => (t.argc, argv, t.target)

/-! ## The user stack -/

/-- The page below `USER_STACK`, and `if_->rsp`. -/
structure UserStack where
  page : List Byte
  rsp : Nat

def stackBottom : Nat := userStack - pgsize

/-- `if_->rsp -= n`. -/
def UserStack.sub (st : UserStack) (n : Nat) : UserStack := { st with rsp := sizeT (st.rsp - n) }

/-- `memcpy (if_->rsp, src + c, size)`. -/
def UserStack.copy (st : UserStack) (src : List Byte) (c size : Nat) : Option UserStack :=
  if st.rsp < stackBottom then none
  else (memcpy src size st.page (st.rsp - stackBottom) c).map fun page => { st with page := page }

/-- `memset (if_->rsp, 0, size)`. -/
def UserStack.zero (st : UserStack) (size : Nat) : Option UserStack :=
  if st.rsp < stackBottom then none
  else (memset 0 size st.page (st.rsp - stackBottom)).map fun page => { st with page := page }

/-- The bytes of a pointer. -/
def pointer (p : Nat) : List Byte := (List.range 8).map fun k => BitVec.ofNat 8 (p / 256 ^ k)

/-- The loop that copies the strings, from `argv[argc - 1]` down, and the part of
`rsp_arr` that it has filled. -/
def pushStrings (cp : List Byte) (argv : List (Option Nat)) : Nat → UserStack → List Nat → Option (UserStack × List Nat)
  | 0, st, rspArr => some (st, rspArr)
  | i + 1, st, rspArr =>
    (argv[i]?).join.bind fun arg =>
      (strlen cp arg).bind fun len =>
        ((st.sub (len + 1)).copy cp arg (len + 1)).bind fun st => pushStrings cp argv i st (st.rsp :: rspArr)

/-- A turn of `while (if_->rsp % 8 != 0)`. -/
def alignTurn (st : UserStack) : Option (ForInStep UserStack) :=
  if st.rsp % 8 ≠ 0 then ((st.sub 1).zero 1).map .yield else some (.done st)

/-- The loop that copies the pointers. -/
def pushPointers (rspArr : List Nat) : Nat → UserStack → Option UserStack
  | 0, st => some st
  | i + 1, st =>
    (rspArr[i]?).bind fun rsp => ((st.sub 8).copy (pointer rsp) 0 8).bind fun st => pushPointers rspArr i st

/-- The argument passing of `load`. -/
def pushArgs (cp : List Byte) (argv : List (Option Nat)) (argc : Nat) (st : UserStack) : Option UserStack :=
  (pushStrings cp argv argc st []).bind fun (st, rspArr) =>
    (whileLoop alignTurn 8 st).bind fun st =>
      ((st.sub 8).zero 8).bind fun st => (pushPointers rspArr argc st).bind fun st => (st.sub 8).zero 8

/-! ## `exec` -/

/-- What `exec` finds: the entry point of the program of a name, when it is
opened, its headers are loaded and the stack is set up; and what is in the
buffers and in the page of the stack. -/
structure Machine where
  image : List Byte → Option Nat
  cpFileName : List Byte
  argv : List (Option Nat)
  stackPage : List Byte
  length_cpFileName : cpFileName.length = maxBuf
  length_argv : argv.length = maxArgs
  length_stackPage : stackPage.length = pgsize

/-- What `load` leaves in `if_`, and the page of the stack. -/
structure Frame where
  rip : Nat
  rdi : Nat
  rsi : Nat
  rsp : Nat
  page : List Byte

/-- The string at `p`, as `filesys_open` reads it. -/
def stringAt (b : List Byte) (p : Nat) : Option (List Byte) := (strlen b p).map fun len => (b.drop p).take len

/-- `load`: the name of the file that it opens, and the frame, unless it fails. -/
def load (m : Machine) (fileName : List Byte) : Option (List Byte × Option Frame) :=
  (parseArgs fileName m.argv).bind fun (argc, argv, fileName) =>
    (stringAt fileName 0).bind fun name =>
      match m.image name with
      | none => some (name, none)
      | some entry =>
        (pushArgs fileName argv argc ⟨m.stackPage, userStack⟩).map fun st =>
          (name, some ⟨entry, argc, sizeT (st.rsp + 8), st.rsp, st.page⟩)

/-- `process_exec`, up to its `do_iret`. -/
def processExec (m : Machine) (fileName : List Byte) : Option (List Byte × Option Frame) :=
  (strlen fileName 0).bind fun len => (memcpy fileName (len + 1) m.cpFileName 0 0).bind (load m)

/-- `sys_exec`, for the command line in the block `fileName`. -/
def sysExec (m : Machine) (fileName : List Byte) : Option (List Byte × Option Frame) :=
  (strlen fileName 0).bind fun len =>
    (strlcpy (List.replicate pgsize 0) fileName (sizeT (offT (len + 1)))).bind (processExec m)

/-! ## `strtok_r` -/

variable {b : List Byte} {seps w tail rest : List Byte} {s : Nat}

theorem isSome_strchr (c : Byte) : (strchr [space] c).isSome = (decide (c = space) || decide (c = 0)) := by
  have hfind : (strchr [space] c).isSome = [space, 0].any fun x => decide (x = c) := List.findIdx?_isSome
  rw [hfind, List.any_cons, List.any_cons, List.any_nil, Bool.or_false, decide_eq_decide.mpr eq_comm,
    decide_eq_decide.mpr (eq_comm (a := (0 : Byte)))]

/-- The first loop passes the separators. -/
theorem scan_seps {c : Byte} (h : b.drop s = seps ++ c :: rest) (hseps : ∀ c ∈ seps, c = space) (hc : c ≠ space) :
    scan b (fun c => (strchr [space] c).isSome && c ≠ 0) s = some (s + seps.length) := by
  refine scan_eq h (fun d hd => ?_) ?_
  · rw [hseps d hd]
    decide
  · rw [isSome_strchr]
    by_cases h0 : c = 0 <;> simp [hc, h0]

theorem drop_append {n : Nat} {l : List Byte} (h : b.drop s = l ++ rest) (hn : l.length = n) :
    b.drop (s + n) = rest := by
  rw [← List.drop_drop, h, ← hn, List.drop_left]

/-- There is no token in a string of separators. -/
theorem strtokR_none {x : Nat} (h : b.drop s = seps ++ 0 :: rest) (hseps : ∀ c ∈ seps, c = space) :
    strtokR b (some s) [space] x = some (none, s + seps.length, b) := by
  have hend : b[s + seps.length]? = some 0 := getElem?_of_drop (drop_append h rfl)
  rw [strtokR, Option.getD_some, scan_seps h hseps (by decide), Option.bind_some, hend, Option.bind_some, if_pos rfl]

/-- The first word of a string is its first token. It is ended by a null byte,
and the rest of the string is what the next call looks at. -/
theorem strtokR_word {x : Nat} (h : b.drop s = seps ++ (w ++ (tail ++ 0 :: rest)))
    (hw : FirstWord space seps w tail) (hz : (0 : Byte) ∉ w) :
    ∃ save, strtokR b (some s) [space] x =
        some (some (s + seps.length), save, b.set (s + seps.length + w.length) 0) ∧
      s + seps.length + w.length ≤ save ∧
      (b.set (s + seps.length + w.length) 0).drop save = tail.tail ++ 0 :: rest := by
  obtain ⟨c, w', hcw⟩ := List.exists_cons_of_ne_nil hw.ne_nil
  have hc : c ≠ space := fun heq => hw.word (by simp [hcw, heq])
  have hc0 : c ≠ 0 := fun heq => hz (by simp [hcw, heq])
  have hword : b.drop (s + seps.length) = w ++ (tail ++ 0 :: rest) := drop_append h rfl
  have hafter : b.drop (s + seps.length + w.length) = tail ++ 0 :: rest := drop_append hword rfl
  have hfirst : b[s + seps.length]? = some c := by
    rw [hcw, List.cons_append] at hword
    exact getElem?_of_drop hword
  have hskip : scan b (fun c => (strchr [space] c).isSome && c ≠ 0) s = some (s + seps.length) := by
    rw [hcw, List.cons_append] at h
    exact scan_seps h hw.seps hc
  have hin : ∀ d ∈ w, (strchr [space] d).isNone = true := by
    intro d hd
    have hd1 : d ≠ space := fun heq => hw.word (heq ▸ hd)
    have hd0 : d ≠ 0 := fun heq => hz (heq ▸ hd)
    rw [← Option.not_isSome, isSome_strchr, decide_eq_false hd1, decide_eq_false hd0]
    rfl
  have hstop : ∀ y rest', b.drop (s + seps.length) = w ++ y :: rest' → y = space ∨ y = 0 →
      scan b (fun c => (strchr [space] c).isNone) (s + seps.length) = some (s + seps.length + w.length) := by
    intro y rest' hy hstop
    refine scan_eq hy hin ?_
    rcases hstop with rfl | rfl <;> decide
  rcases hw.tail with rfl | ⟨l, rfl⟩
  · have hend : b[s + seps.length + w.length]? = some 0 := getElem?_of_drop hafter
    have hsame : b.set (s + seps.length + w.length) 0 = b := by
      obtain ⟨hlt, hget⟩ := List.getElem?_eq_some_iff.mp hend
      rw [← hget, List.set_getElem_self]
    refine ⟨s + seps.length + w.length, ?_, Nat.le_refl _, ?_⟩
    · rw [strtokR, Option.getD_some, hskip, Option.bind_some, hfirst, Option.bind_some, if_neg hc0,
        hstop 0 rest hword (.inr rfl), Option.bind_some, hend, Option.bind_some, if_neg (not_not_intro rfl), hsame]
    · rw [hsame, hafter]
      rfl
  · have hend : b[s + seps.length + w.length]? = some space := getElem?_of_drop hafter
    have hlt : s + seps.length + w.length < b.length := (List.getElem?_eq_some_iff.mp hend).1
    refine ⟨s + seps.length + w.length + 1, ?_, Nat.le_succ _, ?_⟩
    · rw [strtokR, Option.getD_some, hskip, Option.bind_some, hfirst, Option.bind_some, if_neg hc0,
        hstop space _ hword (.inl rfl), Option.bind_some, hend, Option.bind_some, if_pos (by decide), store_eq hlt,
        Option.map_some]
    · rw [List.drop_set_of_lt (Nat.lt_succ_self _), drop_succ_of_drop hafter]
      rfl

/-! ## `parse_args` -/

/-- What the loop of `parse_args` makes of the string `str` at `s`: its words are
the strings that `argv` points to, and the string at `s` ends after the first. -/
structure Parsed (str : List Byte) (s : Nat) (target : List Byte) (argv : List (Option Nat)) (start : Nat)
    (t : ParseLoop) : Prop where
  argc : t.argc = start + (words space str).length
  kept : Kept s target t.target
  length : t.target.length = target.length
  args : ∃ ps, List.Forall₂ (StrAt t.target) ps (words space str) ∧ t.argv = patch argv start (ps.map some)
  lead : StrAt t.target s (lead space str)

/-- The first word, and what was made of the rest. -/
theorem Parsed.word {argc save : Nat} {target : List Byte} {argv : List (Option Nat)} {t : ParseLoop}
    (hp : Parsed tail.tail save (target.set (s + seps.length + w.length) 0) (argv.set argc (some (s + seps.length)))
      (argc + 1) t) (hw : FirstWord space seps w tail) (hdrop : target.drop s = seps ++ (w ++ (tail ++ 0 :: rest)))
    (hz : (0 : Byte) ∉ seps ++ w) (hargv : argc < argv.length) (hsave : s + seps.length + w.length ≤ save) :
    Parsed (seps ++ (w ++ tail)) s target argv argc t := by
  have hin : s + seps.length + w.length < target.length := by
    have hlen := congrArg List.length hdrop
    simp only [List.length_drop, List.length_append, List.length_cons] at hlen
    omega
  have hword : StrAt (target.set (s + seps.length + w.length) 0) (s + seps.length) w :=
    strAt_set (drop_append hdrop rfl) (fun hc => hz (List.mem_append_right _ hc)) hin
  have hlead : StrAt (target.set (s + seps.length + w.length) 0) s (seps ++ w) := by
    have hdrop' : target.drop s = (seps ++ w) ++ (tail ++ 0 :: rest) := by rw [hdrop, List.append_assoc]
    have hset := strAt_set hdrop' hz (by rw [List.length_append]; omega)
    rwa [List.length_append, ← Nat.add_assoc] at hset
  obtain ⟨ps, hargs, hpatch⟩ := hp.args
  refine ⟨?_, ?_, hp.length.trans List.length_set, ⟨(s + seps.length) :: ps, ?_, ?_⟩, ?_⟩
  · rw [hw.words_eq, List.length_cons, hp.argc]
    omega
  · exact (Kept.set target (by omega)).trans hp.kept (by omega)
  · rw [hw.words_eq]
    exact .cons (hword.kept hp.kept hsave) hargs
  · rw [hpatch, List.map_cons, patch_cons hargv]
  · rw [hw.lead_eq]
    exact hlead.kept hp.kept (by rw [List.length_append]; omega)

/-- The loop ends, and has parsed the string. -/
theorem parse_ends {argc fuel x : Nat} {str target : List Byte} {argv : List (Option Nat)}
    (h : target.drop s = str ++ 0 :: rest) (hz : (0 : Byte) ∉ str)
    (hargv : argc + (words space str).length ≤ argv.length) (hfuel : (words space str).length < fuel) :
    ∃ token save target' t, strtokR target (some s) [space] x = some (token, save, target') ∧
      target'.length = target.length ∧ whileLoop parseTurn fuel ⟨token, save, target', argv, argc⟩ = some t ∧
      Parsed str s target argv argc t := by
  induction hlen : str.length using Nat.strong_induction_on generalizing str target s argv argc fuel x with
  | _ n ih =>
    obtain ⟨fuel, rfl⟩ : ∃ f, fuel = f + 1 := ⟨fuel - 1, by omega⟩
    rcases split_word space str with hseps | ⟨seps, w, tail, rfl, hw⟩
    · -- no token: `argv` stays as it is
      have hwords : words space str = [] := words_seps hseps
      refine ⟨none, _, target, _, strtokR_none h hseps, rfl, whileLoop_done rfl, ?_, .refl s target, rfl, ⟨[], ?_, ?_⟩,
        ?_⟩
      · rw [hwords]
        rfl
      · rw [hwords]
        exact .nil
      · simp
      · rw [lead_seps hseps]
        exact strAt_of_drop h hz
    · have hwords := hw.words_eq
      have hz0 : (0 : Byte) ∉ seps ++ w := fun hc => hz (by simp only [List.mem_append] at hc ⊢; tauto)
      have hzw : (0 : Byte) ∉ w := fun hc => hz0 (List.mem_append_right _ hc)
      have hzt : (0 : Byte) ∉ tail.tail := fun hc =>
        hz (List.mem_append_right _ (List.mem_append_right _ (List.mem_of_mem_tail hc)))
      have hdrop : target.drop s = seps ++ (w ++ (tail ++ 0 :: rest)) := by simpa using h
      rw [hwords, List.length_cons] at hargv hfuel
      obtain ⟨save, htok, hsave, hnext⟩ := strtokR_word (x := x) hdrop hw hzw
      have hwpos := List.length_pos_iff.mpr hw.ne_nil
      have hshort : tail.tail.length < n := by
        rw [← hlen]
        simp only [List.length_append, List.length_tail]
        omega
      have hslots : argc + 1 + (words space tail.tail).length ≤ (argv.set argc (some (s + seps.length))).length := by
        rw [List.length_set]
        omega
      have hfuel' : (words space tail.tail).length < fuel := by omega
      obtain ⟨token, save', target', t, htok', -, hloop, hparsed⟩ :=
        @ih _ hshort save (argc + 1) fuel save _ _ _ hnext hzt hslots hfuel' rfl
      have hturn : parseTurn ⟨some (s + seps.length), save, target.set (s + seps.length + w.length) 0, argv, argc⟩ =
          some (.yield ⟨token, save', target', argv.set argc (some (s + seps.length)), argc + 1⟩) := by
        have hcall : strtokR (target.set (s + seps.length + w.length) 0) none [space] save =
            some (token, save', target') := htok'
        simp only [parseTurn, store_eq (show argc < argv.length by omega), Option.bind_some, hcall, Option.map_some]
      exact ⟨_, save, _, t, htok, List.length_set, (whileLoop_yield hturn).trans hloop,
        hparsed.word hw hdrop hz0 (by omega) hsave⟩

/-- **`parse_args` of a command line**: `argv` points to its words, with a NULL
behind them, and the line ends after the first. -/
theorem parseArgs_eq {line : List Byte} {argv : List (Option Nat)} (hz : (0 : Byte) ∉ line)
    (hargv : (words space line).length < argv.length) :
    ∃ argv' target ps, parseArgs (line ++ 0 :: rest) argv = some ((words space line).length, argv', target) ∧
      List.Forall₂ (StrAt target) ps (words space line) ∧ StrAt target 0 (lead space line) ∧
      ∀ (i : Nat) (hi : i < ps.length), argv'[i]? = some (some ps[i]) := by
  have hlong := length_words_le space line
  have hfuel : (words space line).length < (line ++ 0 :: rest).length + 1 := by
    rw [List.length_append, List.length_cons]
    omega
  have hslots : 0 + (words space line).length ≤ argv.length := by omega
  obtain ⟨token, save, target', t, htok, hlen, hloop, hp⟩ := parse_ends (s := 0) (x := 0)
    (List.drop_zero (l := line ++ 0 :: rest)) hz hslots hfuel
  obtain ⟨ps, hargs, hpatch⟩ := hp.args
  have hcount : ps.length = (words space line).length := hargs.length_eq
  have hargc : t.argc = (words space line).length := hp.argc.trans (Nat.zero_add _)
  have hfit : t.argc < t.argv.length := by
    rw [hpatch, length_patch (by rw [List.length_map]; omega)]
    omega
  refine ⟨t.argv.set t.argc none, t.target, ps, ?_, hargs, hp.lead, fun i hi => ?_⟩
  · simp only [parseArgs, htok, Option.bind_some, hlen, hloop]
    rw [store_eq hfit, Option.map_some, hargc]
  · rw [List.getElem?_set_ne (by omega), hpatch, patch, List.take_zero, List.nil_append,
      List.getElem?_append_left (by simpa using hi), List.getElem?_map, List.getElem?_eq_getElem hi, Option.map_some]

end PintosKaist.Exec
