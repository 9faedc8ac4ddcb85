/-
What `load` leaves on the user stack, and what `exec` does with a command line.

The stack is told by the bytes that are on it (`Holds`); each loop of `load` puts
some on top.
-/
import Mathlib.Data.Nat.Digits.Defs
import PintosKaist.Userprog.Exec

namespace PintosKaist.Exec

open LazyPages (sizeT)
open Filesys (Byte offT)
open Vm (pgsize userStack)
open CStr While

/-! ## Bytes on the stack -/

/-- The bytes `top` are on the stack, from `rsp` up to `USER_STACK`. -/
structure Holds (st : UserStack) (top : List Byte) : Prop where
  length : st.page.length = pgsize
  rsp : st.rsp + top.length = userStack
  le : top.length ≤ pgsize
  top : st.page.drop (pgsize - top.length) = top

/-- There is room for more bytes in the page, and writing them puts them on top
of the stack. -/
theorem Holds.patch {st : UserStack} {top : List Byte} (h : Holds st top) (new : List Byte)
    (hfit : new.length + top.length ≤ pgsize) :
    ¬ (st.sub new.length).rsp < stackBottom ∧
      (st.sub new.length).rsp - stackBottom + new.length ≤ (st.sub new.length).page.length ∧
      Holds ⟨CStr.patch st.page ((st.sub new.length).rsp - stackBottom) new, (st.sub new.length).rsp⟩ (new ++ top) := by
  have hrsp := h.rsp
  have hlen := h.length
  have hle := h.le
  have hsub : (st.sub new.length).rsp = userStack - top.length - new.length := by
    simp only [UserStack.sub, sizeT, userStack, pgsize] at hrsp hfit hle ⊢
    omega
  have hat : userStack - top.length - new.length - stackBottom = pgsize - (new ++ top).length := by
    simp only [stackBottom, userStack, pgsize, List.length_append] at hfit ⊢
    omega
  have hin : pgsize - (new ++ top).length + new.length = pgsize - top.length := by
    rw [List.length_append]
    omega
  rw [hsub, hat]
  refine ⟨?_, ?_, ?_, ?_, ?_, ?_⟩
  · simp only [stackBottom, userStack, pgsize] at hfit ⊢
    omega
  · rw [hin, show (st.sub new.length).page = st.page from rfl, hlen]
    omega
  · rw [length_patch (by rw [hin, hlen]; omega), hlen]
  · simp only [List.length_append, userStack, pgsize] at hfit ⊢
    omega
  · rw [List.length_append]
    omega
  · have hpre : (st.page.take (pgsize - (new ++ top).length)).length = pgsize - (new ++ top).length := by
      rw [List.length_take, hlen]
      omega
    rw [CStr.patch, List.append_assoc, List.drop_append, hpre, Nat.sub_self, hin, h.top,
      List.drop_eq_nil_of_le (Nat.le_of_eq hpre), List.nil_append, List.drop_zero]

theorem Holds.copy {st : UserStack} {top new src : List Byte} {c : Nat} (h : Holds st top) (hsrc : new <+: src.drop c)
    (hfit : new.length + top.length ≤ pgsize) :
    ∃ st', (st.sub new.length).copy src c new.length = some st' ∧ Holds st' (new ++ top) := by
  obtain ⟨hbottom, hin, hholds⟩ := h.patch new hfit
  refine ⟨_, ?_, hholds⟩
  rw [UserStack.copy, if_neg hbottom, memcpy_eq hsrc hin, Option.map_some]
  rfl

theorem Holds.zero {st : UserStack} {top : List Byte} {n : Nat} (h : Holds st top) (hfit : n + top.length ≤ pgsize) :
    ∃ st', (st.sub n).zero n = some st' ∧ Holds st' (List.replicate n 0 ++ top) := by
  have hlen : (List.replicate n (0 : Byte)).length = n := List.length_replicate
  obtain ⟨hbottom, hin, hholds⟩ := h.patch (List.replicate n 0) (by rwa [hlen])
  rw [hlen] at hbottom hin hholds
  refine ⟨_, ?_, hholds⟩
  rw [UserStack.zero, if_neg hbottom, memset_eq 0 hin, Option.map_some]
  rfl

/-- The strings of the words, one behind the other, and what they take. -/
def strings (ws : List (List Byte)) : List Byte := ws.flatMap fun w => w ++ [0]
def size (ws : List (List Byte)) : Nat := (ws.map fun w => w.length + 1).sum

/-- Their addresses, when they end at `top`. -/
def addresses (top : Nat) : List (List Byte) → List Nat
  | [] => []
  | w :: ws => (top - size (w :: ws)) :: addresses top ws

theorem size_cons (w : List Byte) (ws : List (List Byte)) : size (w :: ws) = w.length + 1 + size ws := by
  rw [size, List.map_cons, List.sum_cons, size]

theorem strings_cons (w : List Byte) (ws : List (List Byte)) : strings (w :: ws) = (w ++ [0]) ++ strings ws :=
  List.flatMap_cons

theorem length_strings (ws : List (List Byte)) : (strings ws).length = size ws := by
  simp [strings, size, List.length_flatMap]

theorem size_drop_le (ws : List (List Byte)) (i : Nat) : size (ws.drop i) ≤ size ws := by
  have hsum : size ws = size (ws.take i) + size (ws.drop i) := by
    rw [size, size, size, ← List.sum_append, ← List.map_append, List.take_append_drop]
  omega

/-- The loop that copies the strings, from word `i` down. -/
theorem pushStrings_eq {cp : List Byte} {argv : List (Option Nat)} {ws : List (List Byte)} {ps : List Nat}
    (hargs : List.Forall₂ (StrAt cp) ps ws) (hargv : ∀ (i : Nat) (hi : i < ps.length), argv[i]? = some (some ps[i]))
    {top : List Byte} (hfit : size ws + top.length ≤ pgsize) {i : Nat} (hi : i ≤ ws.length) {st : UserStack}
    (h : Holds st (strings (ws.drop i) ++ top)) :
    ∃ st', pushStrings cp argv i st (addresses (userStack - top.length) (ws.drop i)) =
        some (st', addresses (userStack - top.length) ws) ∧ Holds st' (strings ws ++ top) := by
  induction i generalizing st with
  | zero => exact ⟨st, rfl, h⟩
  | succ i ih =>
    have hps : i < ps.length := by
      rw [hargs.length_eq]
      omega
    have hstr : StrAt cp ps[i] ws[i] := List.Forall₂.get hargs hps hi
    have hdrop : ws.drop i = ws[i] :: ws.drop (i + 1) := List.drop_eq_getElem_cons hi
    have hstrings : strings (ws.drop i) = (ws[i] ++ [0]) ++ strings (ws.drop (i + 1)) := by
      rw [hdrop, strings_cons]
    have hsize := size_drop_le ws i
    have hlen : (ws[i] ++ [(0 : Byte)]).length = ws[i].length + 1 := by simp
    have hroom : (ws[i] ++ [(0 : Byte)]).length + (strings (ws.drop (i + 1)) ++ top).length ≤ pgsize := by
      have htotal := congrArg List.length hstrings
      simp only [length_strings, List.length_append, List.length_singleton] at htotal ⊢
      omega
    obtain ⟨st', hcopy, hholds⟩ := h.copy hstr.2 hroom
    rw [hlen] at hcopy
    rw [← List.append_assoc, ← hstrings] at hholds
    obtain ⟨st'', hrest, hdone⟩ := ih (by omega) hholds
    refine ⟨st'', ?_, hdone⟩
    have haddr : st'.rsp :: addresses (userStack - top.length) (ws.drop (i + 1)) =
        addresses (userStack - top.length) (ws.drop i) := by
      have hrsp := hholds.rsp
      rw [List.length_append, length_strings] at hrsp
      rw [hdrop, addresses, ← hdrop]
      congr 1
      omega
    rw [pushStrings, hargv i hps, Option.join_some, Option.bind_some, strlen_eq hstr, Option.bind_some, hcopy,
      Option.bind_some, haddr, hrest]

theorem alignTurn_turns {top : List Byte} {pad : Nat} {st : UserStack} (hfit : 8 + top.length ≤ pgsize)
    (h : Holds st (List.replicate pad 0 ++ top)) (hpad : pad + st.rsp % 8 < 8) :
    Turns alignTurn (fun st => ∃ pad, Holds st (List.replicate pad 0 ++ top) ∧ pad + st.rsp % 8 < 8)
      (fun st => st.rsp % 8 = 0 ∧ ∃ pad < 8, Holds st (List.replicate pad 0 ++ top)) (fun st => st.rsp % 8) st := by
  by_cases hmod : st.rsp % 8 = 0
  · exact .inl ⟨st, by rw [alignTurn, if_neg (not_not_intro hmod)], hmod, pad, by omega, h⟩
  · have hlen : (List.replicate pad (0 : Byte) ++ top).length = pad + top.length := by simp
    obtain ⟨st', hzero, hholds⟩ := h.zero (n := 1) (by rw [hlen]; omega)
    rw [← List.append_assoc, ← List.replicate_add, Nat.add_comm 1 pad] at hholds
    have hrsp := h.rsp
    have hrsp' := hholds.rsp
    rw [hlen] at hrsp
    simp only [List.length_append, List.length_replicate] at hrsp'
    have hless : st'.rsp % 8 + 1 = st.rsp % 8 := by omega
    refine .inr ⟨st', by rw [alignTurn, if_pos hmod, hzero, Option.map_some], ⟨pad + 1, hholds, by omega⟩, ?_⟩
    show st'.rsp % 8 < st.rsp % 8
    omega

/-- The zeros down to the next multiple of eight. -/
theorem align_eq {st : UserStack} {top : List Byte} (h : Holds st top) (hfit : 8 + top.length ≤ pgsize) :
    ∃ st' pad, whileLoop alignTurn 8 st = some st' ∧ Holds st' (List.replicate pad 0 ++ top) ∧ pad < 8 ∧
      st'.rsp % 8 = 0 := by
  have hturns : ∀ st, (∃ pad, Holds st (List.replicate pad 0 ++ top) ∧ pad + st.rsp % 8 < 8) →
      Turns alignTurn (fun st => ∃ pad, Holds st (List.replicate pad 0 ++ top) ∧ pad + st.rsp % 8 < 8)
        (fun st => st.rsp % 8 = 0 ∧ ∃ pad < 8, Holds st (List.replicate pad 0 ++ top)) (fun st => st.rsp % 8) st := by
    rintro st ⟨pad, h, hpad⟩
    exact alignTurn_turns hfit h hpad
  have hstart : Holds st (List.replicate 0 0 ++ top) ∧ 0 + st.rsp % 8 < 8 := ⟨h, by omega⟩
  have hmod : st.rsp % 8 < 8 := Nat.mod_lt _ (by decide)
  obtain ⟨st', hloop, hmod, pad, hpad, hholds⟩ := whileLoop_ends hturns ⟨0, hstart⟩ hmod
  exact ⟨st', pad, hloop, hholds, hpad, hmod⟩

theorem length_pointer (p : Nat) : (pointer p).length = 8 := by simp [pointer]

theorem length_pointers (ps : List Nat) : (ps.flatMap pointer).length = 8 * ps.length := by
  induction ps with
  | nil => rfl
  | cons p ps ih =>
    rw [List.flatMap_cons, List.length_append, ih, length_pointer, List.length_cons]
    omega

/-- The loop that copies the pointers, from word `i` down. -/
theorem pushPointers_eq {ps : List Nat} {top : List Byte} (hfit : 8 * ps.length + top.length ≤ pgsize) {i : Nat}
    (hi : i ≤ ps.length) {st : UserStack} (h : Holds st ((ps.drop i).flatMap pointer ++ top)) :
    ∃ st', pushPointers ps i st = some st' ∧ Holds st' (ps.flatMap pointer ++ top) := by
  induction i generalizing st with
  | zero => exact ⟨st, rfl, h⟩
  | succ i ih =>
    have hdrop : ps.drop i = ps[i] :: ps.drop (i + 1) := List.drop_eq_getElem_cons hi
    have hroom : (pointer ps[i]).length + ((ps.drop (i + 1)).flatMap pointer ++ top).length ≤ pgsize := by
      rw [List.length_append, length_pointers, length_pointer, List.length_drop]
      omega
    have hsrc : pointer ps[i] <+: (pointer ps[i]).drop 0 := List.prefix_refl _
    obtain ⟨st', hcopy, hholds⟩ := h.copy hsrc hroom
    rw [length_pointer] at hcopy
    rw [← List.append_assoc, ← List.flatMap_cons, ← hdrop] at hholds
    obtain ⟨st'', hrest, hdone⟩ := ih (by omega) hholds
    refine ⟨st'', ?_, hdone⟩
    rw [pushPointers, List.getElem?_eq_getElem hi, Option.bind_some, hcopy, Option.bind_some, hrest]

/-! ## The argument passing -/

theorem length_addresses (top : Nat) (ws : List (List Byte)) : (addresses top ws).length = ws.length := by
  induction ws with
  | nil => rfl
  | cons w ws ih => rw [addresses, List.length_cons, ih, List.length_cons]

theorem length_le_size (ws : List (List Byte)) : ws.length ≤ size ws := by
  have hsum := List.length_le_sum_of_one_le (ws.map fun w => w.length + 1) (by simp)
  rwa [List.length_map] at hsum

/-- What the argument passing leaves on the stack. -/
def frame (ws : List (List Byte)) (pad : Nat) : List Byte :=
  List.replicate 8 0 ++
    ((addresses userStack ws).flatMap pointer ++ (List.replicate 8 0 ++ (List.replicate pad 0 ++ strings ws)))

theorem length_frame (ws : List (List Byte)) (pad : Nat) :
    (frame ws pad).length = 8 + 8 * ws.length + 8 + pad + size ws := by
  simp only [frame, List.length_append, List.length_replicate, length_pointers, length_addresses, length_strings]
  omega

/-- **The argument passing of `load`**, for words that fit into the page. -/
theorem pushArgs_eq {cp : List Byte} {argv : List (Option Nat)} {ws : List (List Byte)} {ps : List Nat}
    (hargs : List.Forall₂ (StrAt cp) ps ws) (hargv : ∀ (i : Nat) (hi : i < ps.length), argv[i]? = some (some ps[i]))
    (hfit : 24 + 9 * size ws ≤ pgsize) {st : UserStack} (h : Holds st []) :
    ∃ st' pad, pushArgs cp argv ws.length st = some st' ∧ Holds st' (frame ws pad) ∧ pad < 8 ∧ st'.rsp % 8 = 0 := by
  have hcount := length_le_size ws
  have hnone : strings (ws.drop ws.length) ++ [] = [] := by rw [List.drop_length]; rfl
  have hall : size ws + ([] : List Byte).length ≤ pgsize := by
    rw [List.length_nil]
    omega
  obtain ⟨st₁, hstrings, h₁⟩ := pushStrings_eq hargs hargv hall (Nat.le_refl _) (hnone ▸ h)
  rw [List.drop_length, List.length_nil, Nat.sub_zero, addresses] at hstrings
  rw [List.append_nil] at h₁
  obtain ⟨st₂, pad, halign, h₂, hpad, hmod⟩ := align_eq h₁ (by rw [length_strings]; omega)
  have hlen₂ : (List.replicate pad (0 : Byte) ++ strings ws).length = pad + size ws := by
    rw [List.length_append, List.length_replicate, length_strings]
  obtain ⟨st₃, hnull, h₃⟩ := h₂.zero (n := 8) (by rw [hlen₂]; omega)
  have hlen₃ : (List.replicate 8 (0 : Byte) ++ (List.replicate pad 0 ++ strings ws)).length = 8 + (pad + size ws) := by
    rw [List.length_append, hlen₂, List.length_replicate]
  have hnone' : (List.drop (addresses userStack ws).length (addresses userStack ws)).flatMap pointer = [] := by
    rw [List.drop_length]
    rfl
  have hroom : 8 * (addresses userStack ws).length +
      (List.replicate 8 (0 : Byte) ++ (List.replicate pad 0 ++ strings ws)).length ≤ pgsize := by
    rw [length_addresses, hlen₃]
    omega
  obtain ⟨st₄, hpointers, h₄⟩ := pushPointers_eq hroom (Nat.le_refl _) (by rw [hnone', List.nil_append]; exact h₃)
  rw [length_addresses] at hpointers
  have hlen₄ : ((addresses userStack ws).flatMap pointer ++
      (List.replicate 8 (0 : Byte) ++ (List.replicate pad 0 ++ strings ws))).length =
      8 * ws.length + (8 + (pad + size ws)) := by
    rw [List.length_append, hlen₃, length_pointers, length_addresses]
  obtain ⟨st₅, hret, h₅⟩ := h₄.zero (n := 8) (by rw [hlen₄]; omega)
  refine ⟨st₅, pad, ?_, h₅, hpad, ?_⟩
  · rw [pushArgs, hstrings, Option.bind_some]
    simp only [halign, Option.bind_some, hnull, hpointers, hret]
  · have hrsp₂ := h₂.rsp
    have hrsp₅ := h₅.rsp
    rw [hlen₂] at hrsp₂
    rw [List.length_append, hlen₄, List.length_replicate] at hrsp₅
    omega

/-! ## What the program finds -/

/-- The word at an address of the stack page. -/
def Frame.word (f : Frame) (a : Nat) : Option Nat :=
  if stackBottom ≤ a ∧ a - stackBottom + 8 ≤ f.page.length then
    some (Nat.ofDigits 256 (((f.page.drop (a - stackBottom)).take 8).map BitVec.toNat))
  else none

/-- The string `w` is at an address of the stack page. -/
def Frame.HasString (f : Frame) (p : Nat) (w : List Byte) : Prop := stackBottom ≤ p ∧ StrAt f.page (p - stackBottom) w

/-- The arguments of `main` are the words `ws`: `argv` points to pointers to
them, with a NULL behind, and the strings are apart from one another and from
the pointers. All of it is in the page below `USER_STACK`. -/
structure ArgsOnStack (ws : List (List Byte)) (f : Frame) : Prop where
  page : f.page.length = pgsize
  argc : f.rdi = ws.length
  argv : f.rsi = f.rsp + 8
  aligned : f.rsi % 8 = 0
  ret : f.word f.rsp = some 0
  null : f.word (f.rsi + 8 * ws.length) = some 0
  args : ∃ ps : List Nat, (∀ (i : Nat) (hi : i < ps.length), f.word (f.rsi + 8 * i) = some ps[i]) ∧
    List.Forall₂ f.HasString ps ws ∧ (∀ p ∈ ps, f.rsi + 8 * (ws.length + 1) ≤ p) ∧
    (ps.zip ws).Pairwise fun a b => a.1 + a.2.length < b.1

theorem ofDigits_digits_range (x n : Nat) :
    Nat.ofDigits 256 ((List.range n).map fun k => x / 256 ^ k % 256) = x % 256 ^ n := by
  induction n with
  | zero => simp [Nat.mod_one]
  | succ n ih =>
    rw [List.range_succ, List.map_append, Nat.ofDigits_append, ih, List.length_map, List.length_range,
      List.map_singleton, Nat.ofDigits_singleton, Nat.mod_pow_succ]

/-- A pointer is read back. -/
theorem ofDigits_pointer {p : Nat} (hp : p < 2 ^ 64) : Nat.ofDigits 256 ((pointer p).map BitVec.toNat) = p := by
  have hbytes : (pointer p).map BitVec.toNat = (List.range 8).map fun k => p / 256 ^ k % 256 := by
    simp [pointer, List.map_map, Function.comp_def]
  rw [hbytes, ofDigits_digits_range]
  exact Nat.mod_eq_of_lt hp

theorem ofDigits_zeros : Nat.ofDigits 256 ((List.replicate 8 (0 : Byte)).map BitVec.toNat) = 0 := by decide

/-- What is behind the first bytes on the stack. -/
theorem Holds.behind {st : UserStack} {pre post : List Byte} (h : Holds st (pre ++ post)) :
    stackBottom ≤ st.rsp + pre.length ∧ st.rsp + pre.length - stackBottom + post.length = pgsize ∧
      st.page.drop (st.rsp + pre.length - stackBottom) = post := by
  have hrsp := h.rsp
  have hle := h.le
  have htop := h.top
  rw [List.length_append] at hrsp hle htop
  have hat : st.rsp + pre.length - stackBottom = pgsize - (pre.length + post.length) + pre.length := by
    simp only [stackBottom, userStack, pgsize] at hrsp hle ⊢
    omega
  refine ⟨?_, by rw [hat]; omega, by rw [hat, ← List.drop_drop, htop, List.drop_left]⟩
  simp only [stackBottom, userStack, pgsize] at hrsp hle ⊢
  omega

/-- Eight of the bytes on the stack are a word. -/
theorem Holds.word {st : UserStack} {top pre bytes post : List Byte} {f : Frame} (h : Holds st top)
    (htop : top = pre ++ (bytes ++ post)) (hpage : f.page = st.page) (hbytes : bytes.length = 8) :
    f.word (st.rsp + pre.length) = some (Nat.ofDigits 256 (bytes.map BitVec.toNat)) := by
  subst htop
  obtain ⟨hbottom, hin, hdrop⟩ := h.behind
  rw [List.length_append, hbytes] at hin
  have htake : (bytes ++ post).take 8 = bytes := by rw [← hbytes, List.take_left]
  rw [Frame.word, hpage, if_pos ⟨hbottom, by rw [h.length]; omega⟩, hdrop, htake]

theorem le_of_mem_addresses {top p : Nat} {ws : List (List Byte)} (hp : p ∈ addresses top ws) :
    top - size ws ≤ p ∧ p ≤ top := by
  induction ws with
  | nil => exact absurd hp List.not_mem_nil
  | cons w ws ih =>
    rw [addresses, List.mem_cons] at hp
    have hsize := size_cons w ws
    rcases hp with rfl | hp
    · omega
    · have := ih hp
      omega

/-- The strings are apart. -/
theorem addresses_apart {top : Nat} {ws : List (List Byte)} (hfit : size ws ≤ top) :
    ((addresses top ws).zip ws).Pairwise fun a b => a.1 + a.2.length < b.1 := by
  induction ws with
  | nil => exact .nil
  | cons w ws ih =>
    have hsize := size_cons w ws
    rw [addresses, List.zip_cons_cons, List.pairwise_cons]
    refine ⟨fun b hb => ?_, ih (by omega)⟩
    have hnext := (le_of_mem_addresses (List.of_mem_zip hb).1).1
    show top - size (w :: ws) + w.length < b.1
    omega

/-- The strings are where their addresses say. -/
theorem addresses_strings {f : Frame} {ws : List (List Byte)} (hz : ∀ w ∈ ws, (0 : Byte) ∉ w) (hfit : size ws ≤ pgsize)
    (hdrop : f.page.drop (pgsize - size ws) = strings ws) : List.Forall₂ f.HasString (addresses userStack ws) ws := by
  induction ws with
  | nil => exact .nil
  | cons w ws ih =>
    have hsize := size_cons w ws
    have hstrings := strings_cons w ws
    obtain ⟨hzw, hzs⟩ := List.forall_mem_cons.mp hz
    have hat : userStack - size (w :: ws) - stackBottom = pgsize - size (w :: ws) := by
      simp only [stackBottom, userStack, pgsize] at hfit ⊢
      omega
    have hnext : f.page.drop (pgsize - size ws) = strings ws := by
      have hplus : pgsize - size ws = pgsize - size (w :: ws) + (w ++ [(0 : Byte)]).length := by
        rw [List.length_append, List.length_singleton]
        omega
      rw [hplus, ← List.drop_drop, hdrop, hstrings, List.drop_left]
    refine .cons ⟨?_, hzw, strings ws, ?_⟩ (ih hzs (by omega) hnext)
    · simp only [stackBottom, userStack, pgsize] at hfit ⊢
      omega
    · rw [hat, hdrop, hstrings]

section

variable {st : UserStack} {ws : List (List Byte)} {pad : Nat} {f : Frame}

theorem Holds.pointers (h : Holds st (frame ws pad)) (hpage : f.page = st.page) (i : Nat)
    (hi : i < (addresses userStack ws).length) : f.word (st.rsp + (8 + 8 * i)) = some (addresses userStack ws)[i] := by
  have hsplit : (addresses userStack ws).flatMap pointer =
      ((addresses userStack ws).take i).flatMap pointer ++
        (pointer (addresses userStack ws)[i] ++ ((addresses userStack ws).drop (i + 1)).flatMap pointer) := by
    rw [← List.flatMap_cons, ← List.drop_eq_getElem_cons hi, ← List.flatMap_append, List.take_append_drop]
  have htop : frame ws pad = (List.replicate 8 0 ++ ((addresses userStack ws).take i).flatMap pointer) ++
      (pointer (addresses userStack ws)[i] ++ (((addresses userStack ws).drop (i + 1)).flatMap pointer ++
        (List.replicate 8 0 ++ (List.replicate pad 0 ++ strings ws)))) := by
    rw [frame, hsplit]
    simp only [List.append_assoc]
  have hat : (List.replicate 8 (0 : Byte) ++ ((addresses userStack ws).take i).flatMap pointer).length = 8 + 8 * i := by
    rw [List.length_append, List.length_replicate, length_pointers, List.length_take]
    omega
  have hsmall : (addresses userStack ws)[i] < 2 ^ 64 := by
    have hmem := (le_of_mem_addresses (List.getElem_mem hi)).2
    simp only [userStack] at hmem ⊢
    omega
  have hword := h.word htop hpage (length_pointer _)
  rwa [hat, ofDigits_pointer hsmall] at hword

/-- The null pointer behind them. -/
theorem Holds.null (h : Holds st (frame ws pad)) (hpage : f.page = st.page) :
    f.word (st.rsp + (8 + 8 * ws.length)) = some 0 := by
  have htop : frame ws pad = (List.replicate 8 0 ++ (addresses userStack ws).flatMap pointer) ++
      (List.replicate 8 0 ++ (List.replicate pad 0 ++ strings ws)) := by
    rw [frame, List.append_assoc]
  have hat : (List.replicate 8 (0 : Byte) ++ (addresses userStack ws).flatMap pointer).length = 8 + 8 * ws.length := by
    rw [List.length_append, List.length_replicate, length_pointers, length_addresses]
  have hword := h.word htop hpage List.length_replicate
  rwa [hat, ofDigits_zeros] at hword

/-- And the return address before them. -/
theorem Holds.ret (h : Holds st (frame ws pad)) (hpage : f.page = st.page) : f.word st.rsp = some 0 := by
  have hword := h.word (List.nil_append _).symm hpage List.length_replicate
  rwa [List.length_nil, Nat.add_zero, ofDigits_zeros] at hword

theorem Holds.strings (h : Holds st (frame ws pad)) : st.page.drop (pgsize - size ws) = Exec.strings ws := by
  have hle := h.le
  have hrsp := h.rsp
  rw [length_frame] at hle hrsp
  have htop : frame ws pad = (List.replicate 8 0 ++ ((addresses userStack ws).flatMap pointer ++
      (List.replicate 8 0 ++ List.replicate pad 0))) ++ Exec.strings ws := by
    simp only [frame, List.append_assoc]
  rw [htop] at h
  obtain ⟨hbottom, hin, hdrop⟩ := h.behind
  rw [length_strings] at hin
  rwa [← hin, Nat.add_sub_cancel]

/-- **The bytes of the frame are the arguments.** -/
theorem Holds.args (h : Holds st (frame ws pad)) (hz : ∀ w ∈ ws, (0 : Byte) ∉ w) (hmod : st.rsp % 8 = 0)
    (hpage : f.page = st.page) (hfrsp : f.rsp = st.rsp) (hargc : f.rdi = ws.length)
    (hargv : f.rsi = sizeT (st.rsp + 8)) : ArgsOnStack ws f := by
  have hrsp := h.rsp
  have hle := h.le
  rw [length_frame] at hrsp hle
  have hrsi : f.rsi = st.rsp + 8 := by
    rw [hargv]
    simp only [sizeT, userStack] at hrsp ⊢
    omega
  refine ⟨hpage ▸ h.length, hargc, by rw [hrsi, hfrsp], by omega, hfrsp ▸ h.ret hpage, ?_, addresses userStack ws,
    fun i hi => ?_, addresses_strings hz (by omega) (hpage ▸ h.strings), fun p hp => ?_, addresses_apart (by omega)⟩
  · rw [hrsi, Nat.add_assoc]
    exact h.null hpage
  · rw [hrsi, Nat.add_assoc]
    exact h.pointers hpage i hi
  · have hmem := (le_of_mem_addresses hp).1
    omega

end

/-! ## `exec` -/

section Exec

variable {line rest : List Byte} {m : Machine}

theorem stringAt_eq {b s : List Byte} {p : Nat} (h : StrAt b p s) : stringAt b p = some s := by
  have htake : (b.drop p).take s.length = s := by
    obtain ⟨hz, t, ht⟩ := h
    rw [← ht, List.append_assoc, List.take_left]
  rw [stringAt, strlen_eq h, Option.map_some, htake]

theorem strAt_line (hz : (0 : Byte) ∉ line) (rest : List Byte) : StrAt (line ++ 0 :: rest) 0 line :=
  strAt_of_drop List.drop_zero hz

/-- `load` of a command line: it opens the file that the string starts with, and
the words are the arguments. -/
theorem load_eq (m : Machine) (hz : (0 : Byte) ∉ line) (hlen : line.length < maxBuf) (rest : List Byte) :
    ∃ r, load m (line ++ 0 :: rest) = some (lead space line, r) ∧ r.map Frame.rip = m.image (lead space line) ∧
      ∀ f, r = some f → ArgsOnStack (words space line) f := by
  have hwords : 2 * (words space line).length ≤ line.length + 1 := length_words_le space line
  have hsize : size (words space line) ≤ line.length + 1 := sum_words_le space line
  have hslots : (words space line).length < m.argv.length := by
    rw [m.length_argv]
    simp only [maxBuf, maxArgs] at hlen ⊢
    omega
  obtain ⟨argv, target, ps, hparse, hargs, hlead, hargv⟩ := @parseArgs_eq rest line m.argv hz hslots
  have hnul : ∀ w ∈ words space line, (0 : Byte) ∉ w := by
    have hflip : List.Forall₂ (fun w p => (0 : Byte) ∉ w ∧ w ++ [0] <+: target.drop p) (words space line) ps :=
      hargs.flip
    exact ((List.forall₂_and_left _ _).mp hflip).1
  cases himage : m.image (lead space line) with
  | none =>
    refine ⟨none, ?_, rfl, by simp⟩
    simp only [load, hparse, Option.bind_some, stringAt_eq hlead, himage]
  | some entry =>
    have hfit : 24 + 9 * size (words space line) ≤ pgsize := by
      simp only [maxBuf, pgsize] at hlen ⊢
      omega
    have hempty : Holds ⟨m.stackPage, userStack⟩ [] := by
      refine ⟨m.length_stackPage, rfl, Nat.zero_le _, ?_⟩
      exact List.drop_eq_nil_of_le (Nat.le_of_eq m.length_stackPage)
    obtain ⟨st, pad, hpush, hholds, -, hmod⟩ := pushArgs_eq hargs hargv hfit hempty
    refine ⟨some ⟨entry, (words space line).length, sizeT (st.rsp + 8), st.rsp, st.page⟩, ?_, rfl, ?_⟩
    · simp only [load, hparse, Option.bind_some, stringAt_eq hlead, himage, hpush, Option.map_some]
    · rintro f ⟨⟩
      exact hholds.args hnul hmod rfl rfl rfl rfl

/-- A command line that fits is copied into `cp_file_name`. -/
theorem processExec_eq (hz : (0 : Byte) ∉ line) (hlen : line.length < maxBuf) (rest : List Byte) :
    processExec m (line ++ 0 :: rest) = load m (line ++ 0 :: m.cpFileName.drop (line.length + 1)) := by
  have hsrc : line ++ [0] <+: (line ++ 0 :: rest).drop 0 := (strAt_line hz rest).2
  have hcount : (line ++ [(0 : Byte)]).length = line.length + 1 := by rw [List.length_append, List.length_singleton]
  have hfit : 0 + (line ++ [(0 : Byte)]).length ≤ m.cpFileName.length := by
    rw [hcount, m.length_cpFileName]
    omega
  have hcopy := memcpy_eq hsrc hfit
  rw [hcount] at hcopy
  rw [processExec, strlen_eq (strAt_line hz rest), Option.bind_some, hcopy, Option.bind_some, patch, hcount,
    List.take_zero, List.nil_append, List.append_assoc, List.singleton_append, Nat.zero_add]

/-- One that does not is written past its end. -/
theorem processExec_past (hz : (0 : Byte) ∉ line) (hlen : maxBuf ≤ line.length) (rest : List Byte) :
    processExec m (line ++ 0 :: rest) = none := by
  have hpast : m.cpFileName.length < 0 + (line.length + 1) := by
    rw [m.length_cpFileName]
    omega
  rw [processExec, strlen_eq (strAt_line hz rest), Option.bind_some, memcpy_past (Nat.zero_le _) hpast,
    Option.bind_none]

/-- **The arguments of a program** are the words of its command line. -/
theorem args_on_stack (m : Machine) (hz : (0 : Byte) ∉ line) (hlen : line.length < maxBuf) (rest : List Byte) :
    ∃ r, processExec m (line ++ 0 :: rest) = some (lead space line, r) ∧ r.map Frame.rip = m.image (lead space line) ∧
      ∀ f, r = some f → ArgsOnStack (words space line) f := by
  rw [processExec_eq hz hlen]
  exact load_eq m hz hlen _

end Exec

/-- A machine where every program is found. -/
def plainMachine : Machine where
  image _ := some 0
  cpFileName := List.replicate maxBuf 0
  argv := List.replicate maxArgs none
  stackPage := List.replicate pgsize 0
  length_cpFileName := List.length_replicate
  length_argv := List.length_replicate
  length_stackPage := List.length_replicate

/-- `a b`. -/
theorem args_on_stack_two :
    ∃ r, processExec plainMachine ([97, space, 98] ++ 0 :: []) = some (lead space [97, space, 98], r) ∧
      r.map Frame.rip = plainMachine.image (lead space [97, space, 98]) ∧
        ∀ f, r = some f → ArgsOnStack (words space [97, space, 98]) f :=
  args_on_stack plainMachine (by decide) (by decide) []

/-! ## `sys_exec` -/

/-- How many bytes of a command line of `len` bytes `sys_exec` copies. -/
def copied (len : Nat) : Nat := min len (sizeT (offT (len + 1)) - 1)

/-- `exec` stays in its buffers, and the file that it opens is the first word. -/
def ExecOk (m : Machine) (line rest : List Byte) : Prop :=
  ∃ r, sysExec m (line ++ 0 :: rest) = some ((words space line).headD [], r)

/-- All of them, below 4 GiB. -/
theorem copied_eq {len : Nat} (h : len + 1 < 2 ^ 32) : copied len = len := by
  simp only [copied, sizeT, offT]
  omega

section

variable {src dst s line rest : List Byte} {size n : Nat} {m : Machine}

/-- The length that `strlcpy` copies. -/
theorem dstLen_eq (srcLen size : Nat) : (if srcLen < size - 1 then srcLen else size - 1) = min srcLen (size - 1) := by
  split_ifs <;> omega

/-- The first bytes of a string, in a block of zeros. -/
theorem memcpy_zeros {k : Nat} (h : StrAt src 0 s) (hk : k ≤ s.length) (hfit : k ≤ n) :
    memcpy src k (List.replicate n 0) 0 0 = some (s.take k ++ List.replicate (n - k) 0) := by
  have hcount : (s.take k).length = k := List.length_take_of_le hk
  have hcut : s.take k <+: s := List.take_prefix k s
  have hstr : s <+: s ++ [0] := List.prefix_append s [0]
  have hroom : 0 + (s.take k).length ≤ (List.replicate n (0 : Byte)).length := by
    rw [hcount, List.length_replicate]
    omega
  have hcopy := memcpy_eq (hcut.trans (hstr.trans h.2)) hroom
  rwa [hcount, patch, hcount, List.take_zero, List.nil_append, List.drop_replicate, Nat.zero_add] at hcopy

/-- A string is copied into a block of zeros as far as `strlcpy` is told. -/
theorem strlcpy_eq {k : Nat} (h : StrAt src 0 s) (hk : min s.length (size - 1) = k) (hfit : k < n) :
    strlcpy (List.replicate n 0) src size = some (s.take k ++ 0 :: List.replicate (n - k - 1) 0) := by
  have hzeros : List.replicate (n - k) (0 : Byte) = 0 :: List.replicate (n - k - 1) 0 := by
    rw [← List.replicate_succ, Nat.sub_add_cancel (by omega)]
  have hle : k ≤ s.length := by omega
  have hcount : (s.take k).length = k := List.length_take_of_le hle
  rw [strlcpy, strlen_eq h, Option.bind_some]
  by_cases hsize : 0 < size
  · have hin : k < (s.take k ++ 0 :: List.replicate (n - k - 1) (0 : Byte)).length := by
      rw [List.length_append, hcount, List.length_cons]
      omega
    simp only [if_pos hsize, dstLen_eq, hk, memcpy_zeros h hle (Nat.le_of_lt hfit), hzeros, Option.bind_some]
    rw [store_eq hin, List.set_append_right (s := s.take k) k 0 (Nat.le_of_eq hcount), hcount, Nat.sub_self,
      List.set_cons_zero]
  · obtain rfl : k = 0 := by omega
    rw [if_neg hsize, List.take_zero, List.nil_append, ← hzeros, Nat.sub_zero]

/-- Or it is written past the end. -/
theorem strlcpy_past {k : Nat} (h : StrAt src 0 s) (hk : min s.length (size - 1) = k) (hn : 0 < n) (hpast : n ≤ k) :
    strlcpy (List.replicate n 0) src size = none := by
  have hsize : 0 < size := by omega
  have hle : n ≤ s.length := by omega
  rw [strlcpy, strlen_eq h, Option.bind_some]
  simp only [if_pos hsize, dstLen_eq, hk]
  rcases Nat.lt_or_eq_of_le hpast with hlt | rfl
  · have hcopy : memcpy src k (List.replicate n (0 : Byte)) 0 0 = none :=
      memcpy_past (Nat.zero_le _) (by rw [List.length_replicate]; omega)
    rw [hcopy, Option.bind_none]
  · -- the null byte is one past the end
    have hlen : (s.take n).length = n := List.length_take_of_le hle
    rw [memcpy_zeros h hle (Nat.le_refl n), Option.bind_some, Nat.sub_self, List.replicate_zero, List.append_nil, store,
      if_neg (by omega)]

/-- `sys_exec` hands `process_exec` the bytes it has copied. -/
theorem sysExec_eq (m : Machine) (hz : (0 : Byte) ∉ line) (rest : List Byte) (hfit : copied line.length < pgsize) :
    ∃ zeros, sysExec m (line ++ 0 :: rest) = processExec m (line.take (copied line.length) ++ 0 :: zeros) := by
  refine ⟨List.replicate (pgsize - copied line.length - 1) 0, ?_⟩
  rw [sysExec, strlen_eq (strAt_line hz rest), Option.bind_some, strlcpy_eq (strAt_line hz rest) rfl hfit,
    Option.bind_some]
  rfl

theorem length_take_copied (line : List Byte) : (line.take (copied line.length)).length = copied line.length := by
  rw [List.length_take]
  exact Nat.min_eq_left (Nat.min_le_left _ _)

theorem sysExec_opens (m : Machine) (hz : (0 : Byte) ∉ line) (rest : List Byte) (hlen : copied line.length < maxBuf) :
    ∃ r, sysExec m (line ++ 0 :: rest) = some (lead space (line.take (copied line.length)), r) := by
  have hfit : copied line.length < pgsize := by
    simp only [maxBuf, pgsize] at hlen ⊢
    omega
  have hzk : (0 : Byte) ∉ line.take (copied line.length) := fun hc => hz (List.mem_of_mem_take hc)
  have hlen' : (line.take (copied line.length)).length < maxBuf := by rwa [length_take_copied]
  obtain ⟨zeros, hexec⟩ := sysExec_eq m hz rest hfit
  rw [hexec, processExec_eq hzk hlen']
  obtain ⟨r, hload, -, -⟩ := load_eq m hzk hlen' _
  exact ⟨r, hload⟩

theorem sysExec_past (m : Machine) (hz : (0 : Byte) ∉ line) (rest : List Byte) (hlen : maxBuf ≤ copied line.length) :
    sysExec m (line ++ 0 :: rest) = none := by
  by_cases hfit : copied line.length < pgsize
  · have hzk : (0 : Byte) ∉ line.take (copied line.length) := fun hc => hz (List.mem_of_mem_take hc)
    have hlen' : maxBuf ≤ (line.take (copied line.length)).length := by rwa [length_take_copied]
    obtain ⟨zeros, hexec⟩ := sysExec_eq m hz rest hfit
    rw [hexec, processExec_past hzk hlen']
  · rw [sysExec, strlen_eq (strAt_line hz rest), Option.bind_some,
      strlcpy_past (strAt_line hz rest) rfl (by decide) (Nat.le_of_not_lt hfit), Option.bind_none]

/-- **`exec` of any command line.** -/
theorem exec_ok_iff (m : Machine) (hz : (0 : Byte) ∉ line) (rest : List Byte) :
    ExecOk m line rest ↔ copied line.length < maxBuf ∧ (line.take (copied line.length)).head? ≠ some space ∧
      ((words space line).headD []).length ≤ copied line.length := by
  by_cases hlen : copied line.length < maxBuf
  · obtain ⟨r, hexec⟩ := sysExec_opens m hz rest hlen
    rw [← lead_take_iff, ExecOk, hexec, and_iff_right hlen]
    simp
  · have hpast : sysExec m (line ++ 0 :: rest) = none := sysExec_past m hz rest (Nat.le_of_not_lt hlen)
    rw [ExecOk, hpast]
    refine iff_of_false ?_ fun h => hlen h.1
    rintro ⟨r, h⟩
    cases h

/-- `a b`. -/
theorem exec_ok_two :
    ExecOk plainMachine [97, space, 98] [] ↔ copied [97, space, 98].length < maxBuf ∧
      (([97, space, 98] : List Byte).take (copied [97, space, 98].length)).head? ≠ some space ∧
        ((words space [97, space, 98]).headD []).length ≤ copied [97, space, 98].length :=
  exec_ok_iff plainMachine (by decide) []

/-- ` a`, and 128 bytes. -/
theorem exec_not_ok : ¬ ExecOk plainMachine [space, 97] [] ∧ ¬ ExecOk plainMachine (List.replicate 128 97) [] := by
  refine ⟨?_, ?_⟩
  · have hz : (0 : Byte) ∉ [space, 97] := by decide
    obtain ⟨r, hexec⟩ := sysExec_opens plainMachine hz [] (by decide)
    have hopened : lead space (([space, 97] : List Byte).take (copied [space, 97].length)) ≠
        (words space [space, 97]).headD [] := by decide
    rw [ExecOk, hexec]
    rintro ⟨r', h⟩
    exact hopened (congrArg Prod.fst (Option.some_inj.mp h))
  · have hz : (0 : Byte) ∉ List.replicate 128 97 := fun hc => absurd (List.eq_of_mem_replicate hc) (by decide)
    have hlen : maxBuf ≤ copied (List.replicate 128 (97 : Byte)).length := by
      rw [List.length_replicate, copied_eq (by decide)]
      decide
    rw [ExecOk, sysExec_past plainMachine hz [] hlen]
    rintro ⟨r, h⟩
    cases h

end

end PintosKaist.Exec
