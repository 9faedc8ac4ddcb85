/-
`printf` (`lib/stdio.c`): `__vprintf` with `parse_conversion`,
`format_integer`, `format_string` and `output_dup`.

What is output is the list of the characters `output` is called with. The
format and the buffer of `format_integer` are blocks: an access outside them
has no result. Integers of type `int` wrap around.
-/
import Mathlib.Data.Nat.Digits.Defs
import PintosKaist.Lib.CStr

namespace PintosKaist.Stdio

open CStr While

abbrev Byte := BitVec 8
abbrev U64 := BitVec 64

instance lawfulBEq_byte : LawfulBEq Byte := inferInstance

/-- The code of a character. -/
def ch (c : Char) : Byte := .ofNat 8 c.toNat

/-- The characters of a string constant, without its terminator. -/
def bytes (s : String) : List Byte := s.toList.map ch

/-- The `int` an exact result is stored as. -/
def int (x : Int) : Int := x.bmod (2 ^ 32)

/-- `SIZE_MAX` and `PTRDIFF_MAX` of `stdint.h`: limits of 32-bit types. -/
def sizeMax : Nat := 4294967295
def ptrdiffMax : Nat := 2147483647

/-! ## Conversions -/

/-- The flags of `struct printf_conversion`. -/
structure Flags where
  minus : Bool := false
  plus : Bool := false
  space : Bool := false
  pound : Bool := false
  zero : Bool := false
  group : Bool := false
deriving DecidableEq

/-- Its `type`. -/
inductive ArgType where
  | char
  | short
  | int
  | intmax
  | long
  | longlong
  | ptrdifft
  | sizet
deriving DecidableEq

/-- `struct printf_conversion`; a `precision` of -1 is none. -/
structure Conversion where
  flags : Flags := {}
  width : Int := 0
  precision : Int := -1
  type : ArgType := .int
deriving DecidableEq

/-- `struct integer_base` -/
structure IntegerBase where
  base : Nat
  digits : List Byte
  x : Option Byte
  group : Nat

def baseD : IntegerBase := ⟨10, bytes "0123456789", none, 3⟩
def baseO : IntegerBase := ⟨8, bytes "01234567", none, 3⟩
def baseX : IntegerBase := ⟨16, bytes "0123456789abcdef", some (ch 'x'), 4⟩
def baseXUpper : IntegerBase := ⟨16, bytes "0123456789ABCDEF", some (ch 'X'), 4⟩

/-- The arguments still to come, in the slots `va_arg` takes them from. -/
abbrev VaList := Nat → U64

def vaArg (args : VaList) : U64 × VaList := (args 0, fun n => args (n + 1))

/-! ## `format_integer` -/

/-- `output_dup`. -/
def outputDup (c : Byte) : Nat → List Byte
  | 0 => []
  | cnt + 1 => c :: outputDup c cnt

/-- `buf` and the position `cp` in it. -/
structure Cursor where
  buf : List Byte
  cp : Nat

/-- `*cp++ = c`. -/
def Cursor.put (s : Cursor) (c : Byte) : Option Cursor := (store s.buf s.cp c).map fun buf => ⟨buf, s.cp + 1⟩

/-- The sign character, if any. -/
def signChar (isSigned negative : Bool) (f : Flags) : Option Byte :=
  if isSigned then
    if f.plus then some (if negative then ch '-' else ch '+')
    else if f.space then some (if negative then ch '-' else ch ' ')
    else if negative then some (ch '-')
    else none
  else none

/-- The `x` character to use, if any. -/
def xChar (value : U64) (b : IntegerBase) (f : Flags) : Option Byte := if f.pound ∧ value ≠ 0 then b.x else none

/-- A turn of the loop that accumulates the digits; `digits` is `digit_cnt`. -/
def digitTurn (b : IntegerBase) (group : Bool) (s : Cursor × Nat × Nat) : Option (ForInStep (Cursor × Nat × Nat)) :=
  match s with
  | (cur, value, digits) =>
    if value > 0 then
      (if group ∧ digits > 0 ∧ digits % b.group = 0 then cur.put (ch ',') else some cur).bind fun cur =>
      (b.digits[value % b.base]?).bind fun d =>
      (cur.put d).map fun cur => .yield (cur, value / b.base, digits + 1)
    else some (.done (cur, value, digits))

/-- A turn of the loop that appends zeros to match the precision. -/
def zeroTurn (precision : Int) (cur : Cursor) : Option (ForInStep Cursor) :=
  if (cur.cp : Int) < precision ∧ cur.cp < 64 - 1 then (cur.put (ch '0')).map .yield
  else some (.done cur)

/-- The zero the `#` flag asks for in base 8. -/
def octalZero (b : IntegerBase) (f : Flags) (cur : Cursor) : Option Cursor :=
  if f.pound ∧ b.base = 8 then
    if cur.cp = 0 then cur.put (ch '0')
    else (cur.buf[cur.cp - 1]?).bind fun c => if c ≠ ch '0' then cur.put (ch '0') else some cur
  else some cur

/-- `while (cp > buf) output (*--cp, aux)`. -/
def outputBack (buf : List Byte) : Nat → Option (List Byte)
  | 0 => some []
  | cp + 1 => (buf[cp]?).bind fun c => (outputBack buf cp).map fun out => c :: out

/-- `format_integer`, with what `buf` has in it when the function is entered. -/
def formatInteger (value : U64) (isSigned negative : Bool) (b : IntegerBase) (c : Conversion) (buf : List Byte) :
    Option (List Byte) :=
  let sign := signChar isSigned negative c.flags
  let x := xChar value b c.flags
  (whileLoop (digitTurn b c.flags.group) (64 + 1) (⟨buf, 0⟩, value.toNat, 0)).bind fun s =>
  let precision := if c.precision < 0 then 1 else c.precision
  (whileLoop (zeroTurn precision) (64 + 1) s.1).bind fun cur =>
  (octalZero b c.flags cur).bind fun cur =>
  let padCnt := int (c.width - cur.cp - (if x.isSome then 2 else 0) - (if sign.isSome then 1 else 0))
  let padCnt := if padCnt < 0 then 0 else padCnt
  (outputBack cur.buf cur.cp).map fun digits =>
    (if ¬ c.flags.minus ∧ ¬ c.flags.zero then outputDup (ch ' ') padCnt.toNat else []) ++
    sign.toList ++
    x.elim [] (fun x => [ch '0', x]) ++
    (if c.flags.zero then outputDup (ch '0') padCnt.toNat else []) ++
    digits ++
    (if c.flags.minus then outputDup (ch ' ') padCnt.toNat else [])

/-! ## `format_string` -/

/-- `strnlen`. -/
def strnlen (string : Nat → Byte) : Nat → Nat
  | 0 => 0
  | maxlen + 1 => if string 0 ≠ 0 then strnlen (fun i => string (i + 1)) maxlen + 1 else 0

/-- `format_string`; the counts of `output_dup` are of type `size_t`. -/
def formatString (string : Nat → Byte) (length : Int) (c : Conversion) : List Byte :=
  let pad := (BitVec.ofInt 64 (int (c.width - length))).toNat
  (if c.width > length ∧ ¬ c.flags.minus then outputDup (ch ' ') pad else []) ++
  (List.range length.toNat).map string ++
  (if c.width > length ∧ c.flags.minus then outputDup (ch ' ') pad else [])

/-! ## `parse_conversion` -/

def isdigit (c : Byte) : Bool := ch '0' ≤ c && c ≤ ch '9'

/-- The flag a character sets; that of the `GROUP` flag is an apostrophe. -/
def setFlag (f : Flags) (c : Byte) : Option Flags :=
  if c = ch '-' then some { f with minus := true }
  else if c = ch '+' then some { f with plus := true }
  else if c = ch ' ' then some { f with space := true }
  else if c = ch '#' then some { f with pound := true }
  else if c = ch '0' then some { f with zero := true }
  else if c = 39 then some { f with group := true }
  else none

/-- A turn of the loop over the flag characters. -/
def flagTurn (b : List Byte) (s : Nat × Flags) : Option (ForInStep (Nat × Flags)) :=
  (b[s.1]?).map fun c =>
    match setFlag s.2 c with
    | some f => .yield (s.1 + 1, f)
    | none => .done s

/-- A turn of `for (; isdigit (*format); format++) n = n * 10 + *format - '0'`. -/
def numberTurn (b : List Byte) (s : Nat × Int) : Option (ForInStep (Nat × Int)) :=
  (b[s.1]?).map fun c => if isdigit c then .yield (s.1 + 1, int (s.2 * 10 + c.toNat - 48)) else .done s

/-- The `int` in the four bytes at `pos`. -/
def loadInt (b : List Byte) (pos : Nat) : Option Int :=
  (b[pos]?).bind fun c₀ => (b[pos + 1]?).bind fun c₁ => (b[pos + 2]?).bind fun c₂ => (b[pos + 3]?).map fun c₃ =>
    (c₃ ++ c₂ ++ c₁ ++ c₀).toInt

/-- A `*` or a number. `args` is the address of `__vprintf`'s parameter `args`,
which is a pointer: taken for a `va_list` it has the variable `format` behind it
for its overflow area, and what its first half holds is no offset of a register.
So `va_arg (*args, int)` loads from where `format` points to, and moves that by 8. -/
def parseNumber (b : List Byte) (format args : Nat) : Option (Nat × Int × Nat) :=
  (b[format]?).bind fun c =>
    if c = ch '*' then (loadInt b args).map fun n => (format + 1, n, args + 8)
    else (whileLoop (numberTurn b) (b.length + 1) (format, 0)).map fun s => (s.1, s.2, args)

/-- The precision; -1 when there is none. -/
def parsePrecision (b : List Byte) (format args : Nat) : Option (Nat × Int × Nat) :=
  (b[format]?).bind fun c =>
    if c = ch '.' then
      (parseNumber b (format + 1) args).map fun (format, precision, args) =>
        (format, if precision < 0 then -1 else precision, args)
    else some (format, -1, args)

/-- The type of the argument. -/
def parseType (b : List Byte) (format : Nat) : Option (Nat × ArgType) :=
  (b[format]?).bind fun c =>
    if c = ch 'h' then
      (b[format + 1]?).map fun c => if c = ch 'h' then (format + 2, .char) else (format + 1, .short)
    else if c = ch 'j' then some (format + 1, .intmax)
    else if c = ch 'l' then
      (b[format + 1]?).map fun c => if c = ch 'l' then (format + 2, .longlong) else (format + 1, .long)
    else if c = ch 't' then some (format + 1, .ptrdifft)
    else if c = ch 'z' then some (format + 1, .sizet)
    else some (format, .int)

/-- The flags that others override. -/
def clearFlags (f : Flags) : Flags :=
  let f := if f.minus then { f with zero := false } else f
  if f.plus then { f with space := false } else f

/-- `parse_conversion`. `__vprintf` sets its `format` to what is returned. -/
def parseConversion (b : List Byte) (format : Nat) : Option (Nat × Conversion) :=
  let args := format
  (whileLoop (flagTurn b) (b.length + 1) (format, {})).bind fun (format, flags) =>
  let flags := clearFlags flags
  (parseNumber b format args).bind fun (format, width, args) =>
  let (width, flags) := if width < 0 then (int (-width), { flags with minus := true }) else (width, flags)
  (parsePrecision b format args).bind fun (format, precision, _) =>
  let flags := if precision ≥ 0 then { flags with zero := false } else flags
  (parseType b format).map fun (format, type) => (format, ⟨flags, width, precision, type⟩)

/-! ## `__vprintf` -/

/-- The value of a signed integer conversion, fetched from its slot. -/
def signedValue (type : ArgType) (arg : U64) : U64 :=
  match type with
  | .char => ((arg.setWidth 32).setWidth 8).signExtend 64
  | .short => ((arg.setWidth 32).setWidth 16).signExtend 64
  | .int => (arg.setWidth 32).signExtend 64
  | .intmax => arg
  | .long => arg
  | .longlong => arg
  | .ptrdifft => arg
  | .sizet => if arg.toInt > (sizeMax / 2 : Nat) then arg - .ofNat 64 sizeMax - 1 else arg

/-- That of an unsigned one. -/
def unsignedValue (type : ArgType) (arg : U64) : U64 :=
  match type with
  | .char => ((arg.setWidth 32).setWidth 8).setWidth 64
  | .short => ((arg.setWidth 32).setWidth 16).setWidth 64
  | .int => (arg.setWidth 32).setWidth 64
  | .intmax => arg
  | .long => arg
  | .longlong => arg
  | .ptrdifft => arg &&& (BitVec.ofNat 64 ptrdiffMax <<< 1 ||| 1)
  | .sizet => arg

/-- The base of an unsigned integer conversion. -/
def unsignedBase (c : Byte) : Option IntegerBase :=
  if c = ch 'o' then some baseO
  else if c = ch 'u' then some baseD
  else if c = ch 'x' then some baseX
  else if c = ch 'X' then some baseXUpper
  else none

/-- The string at an address; a null pointer stands for `(null)`. -/
def stringAt (mem : U64 → Byte) (s : U64) : Nat → Byte :=
  if s = 0 then fun i => (bytes "(null)").getD i 0 else fun i => mem (s + BitVec.ofNat 64 i)

/-- The conversion the character `k` asks for: what is output, and the arguments
that are left. `printf` is `__printf`, with the format and its argument. -/
def convert (mem : U64 → Byte) (buf : List Byte) (printf : List Byte → U64 → Option (List Byte)) (k : Byte)
    (c : Conversion) (args : VaList) : Option (List Byte × VaList) :=
  if k = ch 'd' ∨ k = ch 'i' then
    let value := signedValue c.type (vaArg args).1
    (formatInteger (if value.toInt < 0 then -value else value) true (value.toInt < 0) baseD c buf).map
      fun out => (out, (vaArg args).2)
  else match unsignedBase k with
  | some b =>
    (formatInteger (unsignedValue c.type (vaArg args).1) false false b c buf).map fun out => (out, (vaArg args).2)
  | none =>
    if k = ch 'c' then some (formatString (fun _ => (vaArg args).1.setWidth 8) 1 c, (vaArg args).2)
    else if k = ch 's' then
      let s := stringAt mem (vaArg args).1
      some (formatString s (int (strnlen s (BitVec.ofInt 64 c.precision).toNat)) c, (vaArg args).2)
    else if k = ch 'p' then
      (formatInteger (vaArg args).1 false false baseX { c with flags := { pound := true } } buf).map
        fun out => (out, (vaArg args).2)
    else if k ∈ bytes "feEgGn" then
      (printf (bytes "<<no %%%c in kernel>>" ++ [0]) (k.signExtend 64)).map fun out => (out, args)
    else (printf (bytes "<<no %%%c conversion>>" ++ [0]) (k.signExtend 64)).map fun out => (out, args)

/-- Where `__vprintf` is in the format, the arguments that are left, and what it
has output. -/
structure State where
  format : Nat
  args : VaList
  out : List Byte

/-- A turn of its loop. -/
def vprintfTurn (mem : U64 → Byte) (buf : List Byte) (printf : List Byte → U64 → Option (List Byte)) (b : List Byte)
    (s : State) : Option (ForInStep State) :=
  (b[s.format]?).bind fun c =>
    if c = 0 then some (.done s)
    else if c ≠ ch '%' then some (.yield ⟨s.format + 1, s.args, s.out ++ [c]⟩)
    else (b[s.format + 1]?).bind fun c =>
      if c = ch '%' then some (.yield ⟨s.format + 2, s.args, s.out ++ [ch '%']⟩)
      else
        (parseConversion b (s.format + 1)).bind fun (format, c) =>
        (b[format]?).bind fun k =>
        (convert mem buf printf k c s.args).map fun (out, args) => .yield ⟨format + 1, args, s.out ++ out⟩

/-- `__vprintf`, calling itself through `__printf` to a depth of `depth` at
most. -/
def vprintf (mem : U64 → Byte) (buf : List Byte) : Nat → List Byte → VaList → Option (List Byte)
  | 0, _, _ => none
  | depth + 1, b, args =>
    let printf := fun b arg => vprintf mem buf depth b fun _ => arg
    (whileLoop (vprintfTurn mem buf printf b) (b.length + 1) ⟨0, args, []⟩).map State.out

end PintosKaist.Stdio
