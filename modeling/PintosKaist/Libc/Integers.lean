/-
The integer conversions of `printf`, with every length modifier.

With no option but the length, what is output is the numeral of the value that
was fetched (`vprintf_signed`, `vprintf_unsigned`); so an argument is printed
right if and only if it was fetched right, and `SIZE_MAX` and `PTRDIFF_MAX`,
which are too small, are what may go wrong there.
-/
import PintosKaist.Libc.Vprintf

namespace PintosKaist.Stdio

open CStr While

/-! ## What has to be printed -/

/-- The length modifier of a type. -/
def ArgType.modifier : ArgType → List Byte
  | .char => bytes "hh"
  | .short => bytes "h"
  | .int => []
  | .intmax => bytes "j"
  | .long => bytes "l"
  | .longlong => bytes "ll"
  | .ptrdifft => bytes "t"
  | .sizet => bytes "z"

/-- The bits of a type. -/
def ArgType.bits : ArgType → Nat
  | .char => 8
  | .short => 16
  | .int => 32
  | _ => 64

/-- The integer conversions. -/
inductive IntConversion where
  | d
  | i
  | o
  | u
  | x
  | X
deriving DecidableEq

namespace IntConversion

def char : IntConversion → Byte
  | .d => ch 'd'
  | .i => ch 'i'
  | .o => ch 'o'
  | .u => ch 'u'
  | .x => ch 'x'
  | .X => ch 'X'

def signed : IntConversion → Bool
  | .d | .i => true
  | _ => false

def base : IntConversion → Nat
  | .o => 8
  | .x | .X => 16
  | _ => 10

end IntConversion

/-- The numeral of an integer. -/
def writtenInt (z : Int) : List Byte := (if z < 0 then [ch '-'] else []) ++ written 10 false z.natAbs

/-- The numeral of an argument: its value is that of the low bits of its slot. -/
def argNumeral (k : IntConversion) (m : ArgType) (arg : U64) : List Byte :=
  if k.signed then writtenInt (arg.setWidth m.bits).toInt
  else written k.base (k = .X) (arg.setWidth m.bits).toNat

/-- The format of a conversion with no option but its length. -/
def intFormat (k : IntConversion) (m : ArgType) : List Byte := ch '%' :: m.modifier ++ [k.char]

/-! ## Numerals -/

theorem written_inj {base n m : Nat} {upper : Bool} (hb : 1 < base) (hb16 : base ≤ 16)
    (h : written base upper n = written base upper m) : n = m := by
  have hone (n : Nat) (hn : n ≠ 0) : [ch '0'] ≠ numeral base upper n := by
    intro heq
    have hhead : (numeral base upper n).head? = some (ch '0') := by rw [← heq, List.head?_cons]
    exact numeral_head hb hb16 hhead rfl
  unfold written at h
  split_ifs at h with hn hm hm
  · rw [hn, hm]
  · exact absurd h (hone m hm)
  · exact absurd h.symm (hone n hn)
  · exact numeral_inj hb hb16 h

/-- No numeral starts with a sign. -/
theorem head_written {base : Nat} (hb : 1 < base) (hb16 : base ≤ 16) (upper : Bool) (n : Nat) :
    (written base upper n).head? ≠ some (ch '-') := by
  rw [written]
  split_ifs with hn
  · decide
  · rw [numeral, List.head?_reverse, List.getLast?_map]
    intro hsome
    obtain ⟨d, hd, heq⟩ := Option.map_eq_some_iff.mp hsome
    exact (digit_facts upper d (digit_lt hb hb16 (List.mem_of_getLast? hd))).2.2.1 heq

theorem writtenInt_inj {z w : Int} (h : writtenInt z = writtenInt w) : z = w := by
  have hsign (n m : Nat) : [ch '-'] ++ written 10 false n ≠ [] ++ written 10 false m := by
    intro heq
    have hhead := head_written (by decide : 1 < 10) (by decide) false m
    rw [← List.nil_append (written 10 false m), ← heq] at hhead
    exact hhead rfl
  unfold writtenInt at h
  split_ifs at h with hz hw hw
  · have habs := written_inj (by decide) (by decide) (List.append_cancel_left h)
    omega
  · exact absurd h (hsign _ _)
  · exact absurd h.symm (hsign _ _)
  · have habs := written_inj (by decide) (by decide) (List.append_cancel_left h)
    omega

/-- With no precision a number is printed as it is written. -/
theorem digitString_plain (b : IntegerBase) (n : Nat) (m : ArgType) :
    digitString n b { type := m } = written b.base b.upper n := by
  have hgroup (k : Nat) (ds : List Byte) : grouped false b.group k ds = ds := by
    induction ds generalizing k with
    | nil => rfl
    | cons d ds ih => simp [grouped, ih]
  have hmin : minDigits { type := m } = 1 := rfl
  simp only [digitString, digitsText, hmin, hgroup, groupedLength, Bool.false_eq_true, if_false, false_and,
    List.append_nil, Nat.add_zero, written]
  split_ifs with hn
  · simp [hn]
  · have hlen : 0 < (Nat.digits b.base n).length := List.length_pos_iff.mpr (Nat.digits_ne_nil_iff_ne_zero.mpr hn)
    rw [show 1 - (Nat.digits b.base n).length = 0 by omega, List.replicate_zero, List.append_nil, numeral]

theorem padded_plain (value : U64) (isSigned negative : Bool) {b : IntegerBase} (hb : b ∈ bases) (m : ArgType) :
    padded value isSigned negative b { type := m } =
      (if isSigned ∧ negative then [ch '-'] else []) ++ written b.base b.upper value.toNat := by
  have hle := textLength_le value isSigned negative hb { type := m }
  have hpad : padding 0 (textLength value isSigned negative b { type := m }) = 0 := by
    rw [padding, int_of (by omega) (by omega)]
    omega
  have hsign : signText isSigned negative {} = if isSigned ∧ negative then [ch '-'] else [] := by
    cases isSigned <;> cases negative <;> rfl
  simp [padded, hpad, hsign, digitString_plain, xText]

/-! ## The conversions -/

section Plain

variable {mem : U64 → Byte} {buf out : List Byte} {printf : List Byte → U64 → Option (List Byte)} {args : VaList}
  {k : IntConversion} {m : ArgType} {depth : Nat}

/-- The options are the length alone. -/
theorem parseConversion_plain (k : IntConversion) (m : ArgType) :
    parseConversion (intFormat k m ++ [0]) 1 = some ((intFormat k m).length - 1, { type := m }) := by
  cases k <;> cases m <;> rfl

theorem turn_plain (k : IntConversion) (m : ArgType) (args : VaList) :
    vprintfTurn mem buf printf (intFormat k m ++ [0]) ⟨0, args, []⟩ =
      (convert mem buf printf k.char { type := m } args).map fun r => .yield ⟨(intFormat k m).length, r.2, r.1⟩ := by
  have hmark : (intFormat k m ++ [0])[0]? = some (ch '%') := rfl
  have hnext : ∃ c, (intFormat k m ++ [0])[1]? = some c ∧ c ≠ ch '%' := by
    cases k <;> cases m <;> exact ⟨_, rfl, by decide⟩
  have hlast : (intFormat k m ++ [0])[(intFormat k m).length - 1]? = some k.char := by
    cases k <;> cases m <;> rfl
  have hlen : (intFormat k m).length - 1 + 1 = (intFormat k m).length := by
    cases k <;> cases m <;> rfl
  obtain ⟨c, hc, hne⟩ := hnext
  have hzero : ch '%' ≠ 0 := by decide
  simp only [vprintfTurn, hmark, Option.bind_some, if_neg hzero, ne_eq, not_true_eq_false, if_false, hc, hne,
    parseConversion_plain, hlast, hlen, List.nil_append, Nat.zero_add]

theorem vprintf_plain
    (h : ∀ printf, ∃ args', convert mem buf printf k.char { type := m } args = some (out, args')) :
    vprintf mem buf (depth + 1) (intFormat k m ++ [0]) args = some out := by
  obtain ⟨args', hconv⟩ := h fun b arg => vprintf mem buf depth b fun _ => arg
  have hat : At (intFormat k m ++ [0]) (State.mk (intFormat k m).length args' out).format [] := List.drop_left
  have hturn := @turn_plain mem buf (fun b arg => vprintf mem buf depth b fun _ => arg) k m args
  rw [hconv, Option.map_some] at hturn
  obtain ⟨n, hn⟩ : ∃ n, (intFormat k m ++ [0]).length = n + 1 := ⟨(intFormat k m).length, by simp⟩
  rw [vprintf, hn, whileLoop_yield hturn, whileLoop_done (turn_done hat), Option.map_some]

theorem natAbs_toInt (v : U64) : (if v.toInt < 0 then -v else v).toNat = v.toInt.natAbs := by
  split_ifs with hneg
  · have hlt := v.isLt
    rw [BitVec.toInt_eq_toNat_cond] at hneg ⊢
    rw [BitVec.toNat_neg]
    omega
  · have hlt := v.isLt
    rw [BitVec.toInt_eq_toNat_cond] at hneg ⊢
    omega

/-- A signed conversion prints the value it has fetched. -/
theorem vprintf_signed (hbuf : buf.length = 64) (hk : k.signed = true) :
    vprintf mem buf (depth + 1) (intFormat k m ++ [0]) args = some (writtenInt (signedValue m (args 0)).toInt) := by
  have hchar : k.char = ch 'd' ∨ k.char = ch 'i' := by
    cases k with
    | d => exact .inl rfl
    | i => exact .inr rfl
    | _ => nomatch hk
  refine vprintf_plain fun printf => ⟨(vaArg args).2, ?_⟩
  rw [convert_signed hbuf hchar, padded_plain _ _ _ (by simp [bases]), natAbs_toInt]
  simp [writtenInt, baseD, IntegerBase.upper]

/-- So does an unsigned one. -/
theorem vprintf_unsigned (hbuf : buf.length = 64) (hk : k.signed = false) :
    vprintf mem buf (depth + 1) (intFormat k m ++ [0]) args =
      some (written k.base (k = .X) (unsignedValue m (args 0)).toNat) := by
  obtain ⟨b, hb, hbase, hupper⟩ : ∃ b, unsignedBase k.char = some b ∧ b.base = k.base ∧ b.upper = decide (k = .X) := by
    cases k with
    | d => nomatch hk
    | i => nomatch hk
    | _ => exact ⟨_, rfl, rfl, by decide⟩
  refine vprintf_plain fun printf => ⟨(vaArg args).2, ?_⟩
  rw [convert_unsigned hbuf hb, padded_plain _ _ _ (unsignedBase_mem hb), hbase, hupper]
  simp

/-! ## What is fetched -/

/-- A signed value is fetched as it is, or 2^32 too low. -/
theorem signedValue_eq_iff (m : ArgType) (arg : U64) :
    (signedValue m arg).toInt = (arg.setWidth m.bits).toInt ↔ ¬ (m = .sizet ∧ 2 ^ 31 ≤ arg.toInt) := by
  have hmax : ((sizeMax / 2 : Nat) : Int) = 2 ^ 31 - 1 := rfl
  cases m with
  | char => simp [signedValue, ArgType.bits, BitVec.toInt_signExtend_of_le]
  | short => simp [signedValue, ArgType.bits, BitVec.toInt_signExtend_of_le]
  | int => simp [signedValue, ArgType.bits, BitVec.toInt_signExtend_of_le]
  | intmax => simp [signedValue, ArgType.bits]
  | long => simp [signedValue, ArgType.bits]
  | longlong => simp [signedValue, ArgType.bits]
  | ptrdifft => simp [signedValue, ArgType.bits]
  | sizet =>
    have hlow : arg - BitVec.ofNat 64 sizeMax - 1 ≠ arg := by
      simp only [sizeMax]
      bv_omega
    simp only [signedValue, ArgType.bits, BitVec.setWidth_eq, BitVec.toInt_inj, hmax, true_and]
    split_ifs with hgt
    · exact iff_of_false hlow (by omega)
    · exact iff_of_true rfl (by omega)

/-- An unsigned value is fetched as it is, or without its high half. -/
theorem unsignedValue_eq_iff (m : ArgType) (arg : U64) :
    (unsignedValue m arg).toNat = (arg.setWidth m.bits).toNat ↔ ¬ (m = .ptrdifft ∧ 2 ^ 32 ≤ arg.toNat) := by
  cases m with
  | char =>
    simp [unsignedValue, ArgType.bits]
    omega
  | short =>
    simp [unsignedValue, ArgType.bits]
    omega
  | int =>
    simp [unsignedValue, ArgType.bits]
    omega
  | intmax => simp [unsignedValue, ArgType.bits]
  | long => simp [unsignedValue, ArgType.bits]
  | longlong => simp [unsignedValue, ArgType.bits]
  | sizet => simp [unsignedValue, ArgType.bits]
  | ptrdifft =>
    have hmask : (BitVec.ofNat 64 ptrdiffMax <<< 1 ||| 1).toNat = 2 ^ 32 - 1 := by decide
    simp only [unsignedValue, ArgType.bits, BitVec.setWidth_eq, BitVec.toNat_and, hmask, Nat.and_two_pow_sub_one_eq_mod,
      true_and]
    omega

end Plain

/-- **`printf` prints an integer argument right, but for a `%zd` or `%zi` of 2^31
and more and a `%t` conversion of an unsigned 2^32 and more.** -/
theorem vprintf_integer_iff {buf : List Byte} {depth : Nat} (mem : U64 → Byte) (k : IntConversion) (m : ArgType)
    (args : VaList) (hbuf : buf.length = 64) (hdepth : 0 < depth) :
    vprintf mem buf depth (intFormat k m ++ [0]) args = some (argNumeral k m (args 0)) ↔
      ¬ (k.signed = true ∧ m = .sizet ∧ 2 ^ 31 ≤ (args 0).toInt) ∧
        ¬ (k.signed = false ∧ m = .ptrdifft ∧ 2 ^ 32 ≤ (args 0).toNat) := by
  obtain ⟨depth, rfl⟩ : ∃ d, depth = d + 1 := ⟨depth - 1, by omega⟩
  cases hk : k.signed with
  | true =>
    rw [vprintf_signed hbuf hk, argNumeral, if_pos hk, Option.some_inj]
    have hiff := signedValue_eq_iff m (args 0)
    constructor
    · intro h
      have hval := hiff.mp (writtenInt_inj h)
      exact ⟨fun h => hval h.2, by simp⟩
    · intro h
      rw [hiff.mpr fun hm => h.1 ⟨rfl, hm⟩]
  | false =>
    rw [vprintf_unsigned hbuf hk, argNumeral, if_neg (Bool.eq_false_iff.mp hk), Option.some_inj]
    have hiff := unsignedValue_eq_iff m (args 0)
    have hbase : 1 < k.base ∧ k.base ≤ 16 := by cases k <;> decide
    constructor
    · intro h
      have hval := hiff.mp (written_inj hbase.1 hbase.2 h)
      exact ⟨by simp, fun h => hval h.2⟩
    · intro h
      rw [hiff.mpr fun hm => h.2 ⟨rfl, hm⟩]

/-- `%zd` of 2^31. -/
theorem vprintf_zd_past : ¬ vprintf (fun _ => 0) (List.replicate 64 0) 2 (intFormat .d .sizet ++ [0])
    (fun _ => 2147483648) = some (argNumeral .d .sizet 2147483648) := by
  intro h
  have hprinted := (vprintf_signed List.length_replicate rfl).symm.trans h
  exact (signedValue_eq_iff .sizet 2147483648).mp (writtenInt_inj (Option.some.inj hprinted)) ⟨rfl, by decide⟩

theorem vprintf_integer_hd : vprintf (fun _ => 0) (List.replicate 64 0) 2 (intFormat .d .short ++ [0]) (fun _ => 65535) =
    some (argNumeral .d .short 65535) ↔
      ¬ (true = true ∧ ArgType.short = .sizet ∧ 2 ^ 31 ≤ (65535 : U64).toInt) ∧
        ¬ (true = false ∧ ArgType.short = .ptrdifft ∧ 2 ^ 32 ≤ (65535 : U64).toNat) :=
  vprintf_integer_iff (fun _ => 0) .d .short (fun _ => 65535) List.length_replicate (by decide)

end PintosKaist.Stdio
