/-
`__vprintf` and the end of its format.

Each scanner of `parse_conversion` goes on to the first character that is none
of its own, which the terminator is at the latest (`At`); so the format is read
past its end if and only if it is not `Complete`: a conversion of it stops short
of the character that says what to convert, when the terminator is taken for
that character and stepped over, or has a `*` with too little behind the `%`,
when what is loaded for the `*` is not all in the format (`Loads`).
-/
import PintosKaist.Libc.FormatInteger

namespace PintosKaist.Stdio

open CStr While

/-! ## The parts of a conversion -/

def isFlag (c : Byte) : Bool := (setFlag {} c).isSome

/-- What is left of a format behind a number or a `*`. -/
def dropNumber : List Byte → List Byte
  | [] => []
  | c :: t => if c = ch '*' then t else (c :: t).dropWhile isdigit

/-- What is left behind the precision. -/
def dropPrecision : List Byte → List Byte
  | [] => []
  | c :: t => if c = ch '.' then dropNumber t else c :: t

/-- What is left behind the type of the argument. -/
def dropType : List Byte → List Byte
  | [] => []
  | c :: t =>
    if c = ch 'h' ∨ c = ch 'l' then if t.head? = some c then t.tail else t
    else if c ∈ bytes "jtz" then t
    else c :: t

/-- What is left behind all the options of a conversion. -/
def dropOptions (t : List Byte) : List Byte := dropType (dropPrecision (dropNumber (t.dropWhile isFlag)))

/-- Whether there is a `*` for the number. -/
def starCnt : List Byte → Nat
  | [] => 0
  | c :: _ => if c = ch '*' then 1 else 0

/-- Whether there is one for the precision. -/
def precisionStarCnt : List Byte → Nat
  | [] => 0
  | c :: t => if c = ch '.' then starCnt t else 0

/-- How many `int`s a conversion loads from behind its `%`. -/
def loadCnt (t : List Byte) : Nat :=
  starCnt (t.dropWhile isFlag) + precisionStarCnt (dropNumber (t.dropWhile isFlag))

/-- These are in the format; its terminator counts. -/
def Loads (t : List Byte) : Prop := ∀ i < loadCnt t, 8 * i + 4 ≤ t.length + 1

instance (t : List Byte) : Decidable (Loads t) := inferInstanceAs (Decidable (∀ i < _, _))

/-- A format in which every conversion is all there, and has what it loads. -/
inductive Complete : List Byte → Prop
  | nil : Complete []
  | char {c : Byte} {t : List Byte} (hc : c ≠ ch '%') (ht : Complete t) : Complete (c :: t)
  | percent {t : List Byte} (ht : Complete t) : Complete (ch '%' :: ch '%' :: t)
  | conversion {k : Byte} {t t' : List Byte} (hne : t.head? ≠ some (ch '%')) (hload : Loads t)
      (h : dropOptions t = k :: t') (ht : Complete t') : Complete (ch '%' :: t)

theorem dropNumber_suffix (t : List Byte) : dropNumber t <:+ t := by
  cases t with
  | nil => exact List.suffix_refl _
  | cons c t =>
    rw [dropNumber]
    split_ifs
    · exact List.suffix_cons c t
    · exact List.dropWhile_suffix _

theorem dropPrecision_suffix (t : List Byte) : dropPrecision t <:+ t := by
  cases t with
  | nil => exact List.suffix_refl _
  | cons c t =>
    rw [dropPrecision]
    split_ifs
    · exact (dropNumber_suffix t).trans (List.suffix_cons c t)
    · exact List.suffix_refl _

theorem dropType_suffix (t : List Byte) : dropType t <:+ t := by
  cases t with
  | nil => exact List.suffix_refl _
  | cons c t =>
    rw [dropType]
    split_ifs
    · exact (List.tail_suffix t).trans (List.suffix_cons c t)
    · exact List.suffix_cons c t
    · exact List.suffix_cons c t
    · exact List.suffix_refl _

theorem dropOptions_suffix (t : List Byte) : dropOptions t <:+ t :=
  (dropType_suffix _).trans ((dropPrecision_suffix _).trans ((dropNumber_suffix _).trans (List.dropWhile_suffix _)))

theorem complete_char {c : Byte} {t : List Byte} (hc : c ≠ ch '%') : Complete (c :: t) ↔ Complete t := by
  refine ⟨fun h => ?_, .char hc⟩
  cases h with
  | char _ ht => exact ht
  | percent => exact absurd rfl hc
  | conversion => exact absurd rfl hc

theorem complete_percent {t : List Byte} : Complete (ch '%' :: ch '%' :: t) ↔ Complete t := by
  refine ⟨fun h => ?_, .percent⟩
  cases h with
  | char hc => exact absurd rfl hc
  | percent ht => exact ht
  | conversion hne => exact absurd rfl hne

theorem complete_conversion {t : List Byte} (hne : t.head? ≠ some (ch '%')) :
    Complete (ch '%' :: t) ↔ Loads t ∧ ∃ k t', dropOptions t = k :: t' ∧ Complete t' := by
  refine ⟨fun h => ?_, fun ⟨hload, k, t', h, ht⟩ => .conversion hne hload h ht⟩
  cases h with
  | char hc => exact absurd rfl hc
  | percent => exact absurd rfl hne
  | conversion _ hload h ht => exact ⟨hload, _, _, h, ht⟩

theorem starCnt_le_one (t : List Byte) : starCnt t ≤ 1 := by
  unfold starCnt
  split
  · exact Nat.zero_le 1
  · split <;> omega

theorem precisionStarCnt_le_one (t : List Byte) : precisionStarCnt t ≤ 1 := by
  unfold precisionStarCnt
  split
  · exact Nat.zero_le 1
  · split
    · exact starCnt_le_one _
    · exact Nat.zero_le 1

/-! ## Positions -/

variable {b t t' : List Byte} {pos args : Nat} {c : Byte}

/-- At `pos`, `t` is what is left of the format. -/
def At (b : List Byte) (pos : Nat) (t : List Byte) : Prop := b.drop pos = t ++ [0]

theorem At.nil (h : At b pos []) : b[pos]? = some 0 := getElem?_of_drop h

theorem At.head (h : At b pos (c :: t)) : b[pos]? = some c := getElem?_of_drop h

theorem At.tail (h : At b pos (c :: t)) : At b (pos + 1) t := drop_succ_of_drop h

theorem At.length_eq (h : At b pos t) : b.length = pos + (t.length + 1) := by
  have hlen := congrArg List.length h
  simp only [List.length_drop, List.length_append, List.length_singleton] at hlen
  omega

theorem At.length_le (h : At b pos t) : t.length < b.length + 1 := by
  have := h.length_eq
  omega

/-- A loop that goes over the characters of a kind. -/
theorem At.scan {β : Type} {turn : Nat × β → Option (ForInStep (Nat × β))} {p : Byte → Bool}
    (hyield : ∀ {pos x c}, b[pos]? = some c → p c = true → ∃ x', turn (pos, x) = some (.yield (pos + 1, x')))
    (hdone : ∀ {pos x c}, b[pos]? = some c → p c = false → turn (pos, x) = some (.done (pos, x))) (h0 : p 0 = false)
    {fuel : Nat} (x : β) (h : At b pos t) (hf : t.length < fuel) :
    ∃ pos' x', whileLoop turn fuel (pos, x) = some (pos', x') ∧ At b pos' (t.dropWhile p) := by
  induction t generalizing pos x fuel with
  | nil =>
    obtain ⟨fuel, rfl⟩ : ∃ f, fuel = f + 1 := ⟨fuel - 1, by omega⟩
    exact ⟨pos, x, whileLoop_done (hdone h.nil h0), h⟩
  | cons c t ih =>
    obtain ⟨fuel, rfl⟩ : ∃ f, fuel = f + 1 := ⟨fuel - 1, by omega⟩
    by_cases hc : p c = true
    · obtain ⟨x', hx⟩ := hyield (x := x) h.head hc
      obtain ⟨pos', x'', hrun, hat⟩ := ih x' h.tail (Nat.lt_of_succ_lt_succ hf)
      rw [List.dropWhile_cons_of_pos hc]
      exact ⟨pos', x'', (whileLoop_yield hx).trans hrun, hat⟩
    · rw [List.dropWhile_cons_of_neg hc]
      exact ⟨pos, x, whileLoop_done (hdone h.head (Bool.eq_false_of_not_eq_true hc)), h⟩

theorem setFlag_isSome (f : Flags) (c : Byte) : (setFlag f c).isSome = isFlag c := by
  unfold isFlag setFlag
  split_ifs <;> rfl

theorem flagLoop_at (f : Flags) (h : At b pos t) :
    ∃ pos' f', whileLoop (flagTurn b) (b.length + 1) (pos, f) = some (pos', f') ∧ At b pos' (t.dropWhile isFlag) := by
  refine At.scan (fun {pos f c} hb hc => ?_) (fun {pos f c} hb hc => ?_) (by decide) f h h.length_le
  · rw [← setFlag_isSome f] at hc
    obtain ⟨f', hf⟩ := Option.isSome_iff_exists.mp hc
    exact ⟨f', by rw [flagTurn, hb, Option.map_some, hf]⟩
  · rw [← setFlag_isSome f, Option.isSome_eq_false_iff, Option.isNone_iff_eq_none] at hc
    rw [flagTurn, hb, Option.map_some, hc]

theorem numberLoop_at (n : Int) (h : At b pos t) :
    ∃ pos' n', whileLoop (numberTurn b) (b.length + 1) (pos, n) = some (pos', n') ∧ At b pos' (t.dropWhile isdigit) := by
  refine At.scan (fun {pos n c} hb hc => ?_) (fun {pos n c} hb hc => ?_) (by decide) n h h.length_le
  · exact ⟨_, by rw [numberTurn, hb, Option.map_some, if_pos hc]⟩
  · rw [numberTurn, hb, Option.map_some, if_neg (Bool.eq_false_iff.mp hc)]

theorem loadInt_some (h : args + 4 ≤ b.length) : ∃ n, loadInt b args = some n := by
  have hget : ∀ i < 4, ∃ c, b[args + i]? = some c := fun i hi =>
    ⟨_, List.getElem?_eq_getElem (show args + i < b.length by omega)⟩
  obtain ⟨c₀, h₀⟩ := hget 0 (by omega)
  obtain ⟨c₁, h₁⟩ := hget 1 (by omega)
  obtain ⟨c₂, h₂⟩ := hget 2 (by omega)
  obtain ⟨c₃, h₃⟩ := hget 3 (by omega)
  rw [Nat.add_zero] at h₀
  exact ⟨_, by rw [loadInt, h₀, Option.bind_some, h₁, Option.bind_some, h₂, Option.bind_some, h₃, Option.map_some]⟩

theorem loadInt_none (h : b.length < args + 4) : loadInt b args = none := by
  have hlast : b[args + 3]? = none := List.getElem?_eq_none (by omega)
  simp only [loadInt, hlast, Option.map_none, Option.bind_fun_none]

/-- A number whose `*` has its four bytes in the format. -/
theorem parseNumber_at (hload : ∀ i < starCnt t, args + 8 * i + 4 ≤ b.length) (h : At b pos t) :
    ∃ pos' n, parseNumber b pos args = some (pos', n, args + 8 * starCnt t) ∧ At b pos' (dropNumber t) := by
  obtain ⟨pos', n, hloop, hat⟩ := numberLoop_at 0 h
  cases t with
  | nil =>
    refine ⟨pos', n, ?_, hat⟩
    rw [parseNumber, h.nil, Option.bind_some, if_neg (by decide), hloop, Option.map_some]
    rfl
  | cons c t =>
    rw [starCnt] at hload ⊢
    rw [dropNumber]
    split_ifs at hload ⊢ with hstar
    · obtain ⟨n, hn⟩ := loadInt_some (hload 0 Nat.one_pos)
      exact ⟨pos + 1, n, by rw [parseNumber, h.head, Option.bind_some, if_pos hstar, hn, Option.map_some], h.tail⟩
    · refine ⟨pos', n, ?_, hat⟩
      rw [parseNumber, h.head, Option.bind_some, if_neg hstar, hloop, Option.map_some]
      rfl

/-- One whose `*` has not. -/
theorem parseNumber_past {i : Nat} (hi : i < starCnt t) (hload : b.length < args + 4) (h : At b pos t) :
    parseNumber b pos args = none := by
  cases t with
  | nil => exact absurd hi (Nat.not_lt_zero i)
  | cons c t =>
    rw [starCnt] at hi
    split_ifs at hi with hstar
    · rw [parseNumber, h.head, Option.bind_some, if_pos hstar, loadInt_none hload, Option.map_none]
    · exact absurd hi (Nat.not_lt_zero i)

theorem parsePrecision_at (hload : ∀ i < precisionStarCnt t, args + 8 * i + 4 ≤ b.length) (h : At b pos t) :
    ∃ pos' n args', parsePrecision b pos args = some (pos', n, args') ∧ At b pos' (dropPrecision t) := by
  cases t with
  | nil => exact ⟨pos, -1, args, by rw [parsePrecision, h.nil, Option.bind_some, if_neg (by decide)], h⟩
  | cons c t =>
    rw [precisionStarCnt] at hload
    rw [dropPrecision]
    split_ifs at hload ⊢ with hdot
    · obtain ⟨pos', n, hnum, hat⟩ := parseNumber_at hload h.tail
      exact ⟨pos', _, _, by rw [parsePrecision, h.head, Option.bind_some, if_pos hdot, hnum, Option.map_some], hat⟩
    · exact ⟨pos, -1, args, by rw [parsePrecision, h.head, Option.bind_some, if_neg hdot], h⟩

theorem parsePrecision_past {i : Nat} (hi : i < precisionStarCnt t) (hload : b.length < args + 4) (h : At b pos t) :
    parsePrecision b pos args = none := by
  cases t with
  | nil => exact absurd hi (Nat.not_lt_zero i)
  | cons c t =>
    rw [precisionStarCnt] at hi
    split_ifs at hi with hdot
    · rw [parsePrecision, h.head, Option.bind_some, if_pos hdot, parseNumber_past hi hload h.tail, Option.map_none]
    · exact absurd hi (Nat.not_lt_zero i)

/-- A letter that may be doubled. -/
theorem doubled_at {x : Byte} (hx : x ≠ 0) (once twice : ArgType) (h : At b pos t) :
    ∃ pos' type, (b[pos]?).map (fun c => if c = x then (pos + 1, twice) else (pos, once)) = some (pos', type) ∧
      At b pos' (if t.head? = some x then t.tail else t) := by
  cases t with
  | nil => exact ⟨pos, once, by rw [h.nil, Option.map_some, if_neg (Ne.symm hx)], h⟩
  | cons c t =>
    simp only [h.head, Option.map_some, List.head?_cons, Option.some_inj]
    split_ifs with hc
    · exact ⟨pos + 1, twice, rfl, h.tail⟩
    · exact ⟨pos, once, rfl, h⟩

theorem parseType_at (h : At b pos t) : ∃ pos' type, parseType b pos = some (pos', type) ∧ At b pos' (dropType t) := by
  cases t with
  | nil => exact ⟨pos, .int, by rw [parseType, h.nil]; rfl, h⟩
  | cons c t =>
    rw [parseType, h.head, Option.bind_some, dropType]
    by_cases hh : c = ch 'h'
    · rw [if_pos hh, if_pos (.inl hh), hh]
      exact doubled_at (by decide) .short .char h.tail
    · by_cases hl : c = ch 'l'
      · subst hl
        rw [if_neg (by decide), if_neg (by decide), if_pos rfl, if_pos (.inr rfl)]
        exact doubled_at (by decide) .long .longlong h.tail
      · have hjtz : c ∈ bytes "jtz" ↔ c = ch 'j' ∨ c = ch 't' ∨ c = ch 'z' := by simp [bytes]
        rw [if_neg (not_or.mpr ⟨hh, hl⟩)]
        by_cases hc : c = ch 'j' ∨ c = ch 't' ∨ c = ch 'z'
        · rw [if_pos (hjtz.mpr hc)]
          rcases hc with rfl | rfl | rfl
          · exact ⟨pos + 1, .intmax, rfl, h.tail⟩
          · exact ⟨pos + 1, .ptrdifft, rfl, h.tail⟩
          · exact ⟨pos + 1, .sizet, rfl, h.tail⟩
        · rw [if_neg fun hmem => hc (hjtz.mp hmem)]
          rw [not_or, not_or] at hc
          exact ⟨pos, .int, by rw [if_neg hh, if_neg hc.1, if_neg hl, if_neg hc.2.1, if_neg hc.2.2], h⟩

theorem parseConversion_at (hload : Loads t) (h : At b pos t) :
    ∃ pos' c, parseConversion b pos = some (pos', c) ∧ At b pos' (dropOptions t) := by
  have hlen := h.length_eq
  rw [Loads, loadCnt] at hload
  obtain ⟨pos₁, f, hflags, h₁⟩ := flagLoop_at {} h
  have hloadWidth : ∀ i < starCnt (t.dropWhile isFlag), pos + 8 * i + 4 ≤ b.length := fun i hi => by
    have := hload i (by omega)
    omega
  have hloadPrecision : ∀ i < precisionStarCnt (dropNumber (t.dropWhile isFlag)),
      pos + 8 * starCnt (t.dropWhile isFlag) + 8 * i + 4 ≤ b.length := fun i hi => by
    have := hload (starCnt (t.dropWhile isFlag) + i) (by omega)
    omega
  obtain ⟨pos₂, width, hwidth, h₂⟩ := parseNumber_at hloadWidth h₁
  obtain ⟨pos₃, precision, args, hprecision, h₃⟩ := parsePrecision_at hloadPrecision h₂
  obtain ⟨pos₄, type, htype, h₄⟩ := parseType_at h₃
  obtain ⟨c, hc⟩ : ∃ c, parseConversion b pos = some (pos₄, c) := by
    simp only [parseConversion, hflags, hwidth, hprecision, htype, Option.bind_some, Option.map_some]
    exact ⟨_, rfl⟩
  exact ⟨pos₄, c, hc, h₄⟩

/-- What is loaded for a `*` is not all in the format. -/
theorem parseConversion_past (hload : ¬ Loads t) (h : At b pos t) : parseConversion b pos = none := by
  have hlen := h.length_eq
  simp only [Loads, loadCnt, not_forall, Nat.not_le] at hload
  obtain ⟨i, hi, hpast⟩ := hload
  have hstar := starCnt_le_one (t.dropWhile isFlag)
  have hprecision := precisionStarCnt_le_one (dropNumber (t.dropWhile isFlag))
  obtain ⟨pos₁, f, hflags, h₁⟩ := flagLoop_at {} h
  by_cases hfirst : ∀ i < starCnt (t.dropWhile isFlag), pos + 8 * i + 4 ≤ b.length
  · -- the width has been read: it is the precision
    obtain ⟨pos₂, width, hwidth, h₂⟩ := parseNumber_at hfirst h₁
    have hlast : i = starCnt (t.dropWhile isFlag) := by
      by_contra hne
      have := hfirst i (by omega)
      omega
    have hpast' : b.length < pos + 8 * starCnt (t.dropWhile isFlag) + 4 := by omega
    have hnone := parsePrecision_past (i := 0) (by omega) hpast' h₂
    simp only [parseConversion, hflags, hwidth, hnone, Option.bind_some, Option.bind_none]
  · simp only [not_forall, Nat.not_le] at hfirst
    obtain ⟨j, hj, hshort⟩ := hfirst
    have hnone := parseNumber_past hj (show b.length < pos + 4 by omega) h₁
    simp only [parseConversion, hflags, hnone, Option.bind_some, Option.bind_none]

/-! ## Conversions -/

section Turns

variable {mem : U64 → Byte} {buf : List Byte} {printf : List Byte → U64 → Option (List Byte)}

/-- `printf` has a result for the two messages of `__vprintf`. -/
structure Reports (printf : List Byte → U64 → Option (List Byte)) : Prop where
  inKernel : ∀ k, ∃ out, printf (bytes "<<no %%%c in kernel>>" ++ [0]) k = some out
  unknown : ∀ k, ∃ out, printf (bytes "<<no %%%c conversion>>" ++ [0]) k = some out

theorem unsignedBase_mem {k : Byte} {b : IntegerBase} (h : unsignedBase k = some b) : b ∈ bases := by
  unfold unsignedBase at h
  split_ifs at h <;> cases h <;> simp [bases]

theorem convert_signed (hbuf : buf.length = 64) {k : Byte} (hk : k = ch 'd' ∨ k = ch 'i') (c : Conversion)
    (args : VaList) : convert mem buf printf k c args =
      some (padded (if (signedValue c.type (args 0)).toInt < 0 then -signedValue c.type (args 0)
        else signedValue c.type (args 0)) true ((signedValue c.type (args 0)).toInt < 0) baseD c, (vaArg args).2) := by
  rw [convert, if_pos hk]
  exact congrArg (Option.map _) (formatInteger_eq _ _ _ (by simp [bases]) _ hbuf)

theorem convert_unsigned (hbuf : buf.length = 64) {k : Byte} {b : IntegerBase} (hk : unsignedBase k = some b)
    (c : Conversion) (args : VaList) : convert mem buf printf k c args =
      some (padded (unsignedValue c.type (args 0)) false false b c, (vaArg args).2) := by
  have hsigned : ¬ (k = ch 'd' ∨ k = ch 'i') := by
    rintro (rfl | rfl) <;> cases hk
  simp only [convert, if_neg hsigned, hk]
  exact congrArg (Option.map _) (formatInteger_eq _ _ _ (unsignedBase_mem hk) _ hbuf)

/-- Every conversion is done. -/
theorem convert_some (mem : U64 → Byte) (hbuf : buf.length = 64) (hprintf : Reports printf) (k : Byte) (c : Conversion)
    (args : VaList) :
    ∃ out args', convert mem buf printf k c args = some (out, args') := by
  by_cases hsigned : k = ch 'd' ∨ k = ch 'i'
  · exact ⟨_, _, convert_signed hbuf hsigned c args⟩
  · cases hbase : unsignedBase k with
    | some b => exact ⟨_, _, convert_unsigned hbuf hbase c args⟩
    | none =>
      simp only [convert, if_neg hsigned, hbase]
      split_ifs
      · exact ⟨_, _, rfl⟩
      · exact ⟨_, _, rfl⟩
      · exact ⟨_, _, congrArg (Option.map _) (formatInteger_eq _ _ _ (by simp [bases]) _ hbuf)⟩
      · obtain ⟨out, hout⟩ := hprintf.inKernel (k.signExtend 64)
        exact ⟨out, args, by rw [hout, Option.map_some]⟩
      · obtain ⟨out, hout⟩ := hprintf.unknown (k.signExtend 64)
        exact ⟨out, args, by rw [hout, Option.map_some]⟩

variable {s : State}

theorem turn_done (h : At b s.format []) : vprintfTurn mem buf printf b s = some (.done s) := by
  rw [vprintfTurn, h.nil, Option.bind_some, if_pos rfl]

theorem turn_char (h : At b s.format (c :: t)) (h0 : c ≠ 0) (hc : c ≠ ch '%') :
    vprintfTurn mem buf printf b s = some (.yield ⟨s.format + 1, s.args, s.out ++ [c]⟩) := by
  rw [vprintfTurn, h.head, Option.bind_some, if_neg h0, if_pos hc]

theorem turn_percent (h : At b s.format (ch '%' :: ch '%' :: t)) :
    vprintfTurn mem buf printf b s = some (.yield ⟨s.format + 2, s.args, s.out ++ [ch '%']⟩) := by
  rw [vprintfTurn, h.head, Option.bind_some, if_neg (by decide), if_neg (by simp), h.tail.head, Option.bind_some,
    if_pos rfl]

/-- A `%` that is not followed by another. -/
theorem At.percent (h : At b pos (ch '%' :: t)) (hne : t.head? ≠ some (ch '%')) :
    ∃ c, b[pos + 1]? = some c ∧ c ≠ ch '%' := by
  cases t with
  | nil => exact ⟨0, h.tail.nil, by decide⟩
  | cons c t => exact ⟨c, h.tail.head, fun heq => hne (congrArg some heq)⟩

/-- A conversion: the character behind its options is read and stepped over,
whichever it is. -/
theorem turn_conversion (mem : U64 → Byte) (hbuf : buf.length = 64) (hprintf : Reports printf)
    (h : At b s.format (ch '%' :: t)) (hne : t.head? ≠ some (ch '%')) (hload : Loads t) :
    ∃ s' pos, vprintfTurn mem buf printf b s = some (.yield s') ∧ At b pos (dropOptions t) ∧ s'.format = pos + 1 := by
  obtain ⟨c, hc, hpercent⟩ := h.percent hne
  obtain ⟨pos, conv, hparse, hat⟩ := parseConversion_at hload h.tail
  obtain ⟨k, hk⟩ : ∃ k, b[pos]? = some k := by
    cases hopt : dropOptions t with
    | nil => exact ⟨0, At.nil (hopt ▸ hat)⟩
    | cons k t' => exact ⟨k, At.head (hopt ▸ hat)⟩
  obtain ⟨out, args', hout⟩ := convert_some mem hbuf hprintf k conv s.args
  refine ⟨⟨pos + 1, args', s.out ++ out⟩, pos, ?_, hat, rfl⟩
  rw [vprintfTurn, h.head, Option.bind_some, if_neg (by decide), if_neg (by simp), hc, Option.bind_some, if_neg hpercent]
  simp only [hparse, hk, hout, Option.bind_some, Option.map_some]

/-- A conversion whose `*` loads from behind the terminator. -/
theorem turn_past (mem : U64 → Byte) (buf : List Byte) (printf : List Byte → U64 → Option (List Byte))
    (h : At b s.format (ch '%' :: t)) (hne : t.head? ≠ some (ch '%')) (hload : ¬ Loads t) :
    vprintfTurn mem buf printf b s = none := by
  obtain ⟨c, hc, hpercent⟩ := h.percent hne
  rw [vprintfTurn, h.head, Option.bind_some, if_neg (by decide), if_neg (by simp), hc, Option.bind_some, if_neg hpercent,
    parseConversion_past hload h.tail, Option.bind_none]

/-- In this state the loop reads behind the terminator: it has stepped over it,
or is at a `*` that loads from there. -/
def Past (b : List Byte) (s : State) : Prop :=
  s.format = b.length ∨ ∃ t, At b s.format (ch '%' :: t) ∧ t.head? ≠ some (ch '%') ∧ ¬ Loads t

/-- What becomes of the loop: it ends, if the format is complete, or comes to
read behind the terminator. -/
theorem vprintfLoop (mem : U64 → Byte) (hbuf : buf.length = 64) (hprintf : Reports printf) {fuel : Nat}
    (h : At b s.format t) (h0 : 0 ∉ t) (hf : t.length < fuel) :
    Complete t ∧ (∃ s', whileLoop (vprintfTurn mem buf printf b) fuel s = some s') ∨
      ¬ Complete t ∧ whileLoop (vprintfTurn mem buf printf b) fuel s = none ∧
        ∃ s', Visits (vprintfTurn mem buf printf b) s s' ∧ Past b s' := by
  induction fuel generalizing s t with
  | zero => exact absurd hf (Nat.not_lt_zero _)
  | succ fuel ih =>
    -- a turn that goes on with what is left of the format
    have hgo {s₁ : State} {t₁ : List Byte} (hturn : vprintfTurn mem buf printf b s = some (.yield s₁))
        (h₁ : At b s₁.format t₁) (hsuf : t₁ <:+ t) (hlt : t₁.length < t.length) (hiff : Complete t ↔ Complete t₁) :
        Complete t ∧ (∃ s', whileLoop (vprintfTurn mem buf printf b) (fuel + 1) s = some s') ∨
          ¬ Complete t ∧ whileLoop (vprintfTurn mem buf printf b) (fuel + 1) s = none ∧
            ∃ s', Visits (vprintfTurn mem buf printf b) s s' ∧ Past b s' := by
      rw [whileLoop_yield hturn, hiff]
      refine (ih h₁ (fun hmem => h0 (hsuf.subset hmem)) (by omega)).imp_right ?_
      rintro ⟨hnot, hnone, s', hvisits, hend⟩
      exact ⟨hnot, hnone, s', hvisits.head hturn, hend⟩
    cases t with
    | nil => exact .inl ⟨.nil, s, whileLoop_done (turn_done h)⟩
    | cons c t =>
      by_cases hc : c = ch '%'
      · subst hc
        by_cases hhead : t.head? = some (ch '%')
        · obtain ⟨t, rfl⟩ := List.head?_eq_some_iff.mp hhead
          refine hgo (turn_percent h) h.tail.tail ?_ (by simp) complete_percent
          exact (List.suffix_cons _ t).trans (List.suffix_cons _ _)
        · by_cases hload : Loads t
          · obtain ⟨s₁, pos, hturn, hat, hpos⟩ := turn_conversion mem hbuf hprintf h hhead hload
            have hiff := complete_conversion hhead
            rw [and_iff_right hload] at hiff
            have hsuf := (dropOptions_suffix t).trans (List.suffix_cons (ch '%') t)
            cases hopt : dropOptions t with
            | nil =>
              -- the terminator is where the character of the conversion should be
              simp only [hopt, List.nil_eq, reduceCtorEq, false_and, exists_false, iff_false] at hiff
              rw [hopt] at hat
              have hend : s₁.format = b.length := by
                have hlen := congrArg List.length hat
                simp only [List.length_drop, List.nil_append, List.length_singleton] at hlen
                omega
              refine .inr ⟨hiff, ?_, s₁, .turn .start hturn, .inl hend⟩
              rw [whileLoop_yield hturn]
              cases fuel with
              | zero => rfl
              | succ fuel => simp [whileLoop, vprintfTurn, hend]
            | cons k t' =>
              simp only [hopt, List.cons.injEq] at hiff
              rw [hopt] at hat hsuf
              have hlen := (dropOptions_suffix t).length_le
              rw [hopt, List.length_cons] at hlen
              refine hgo hturn (hpos ▸ hat.tail) ((List.suffix_cons k t').trans hsuf) ?_ (hiff.trans ?_)
              · rw [List.length_cons]
                omega
              · refine ⟨fun h => ?_, fun hcomp => ⟨k, t', ⟨rfl, rfl⟩, hcomp⟩⟩
                obtain ⟨_, _, ⟨_, ht⟩, hcomp⟩ := h
                exact ht ▸ hcomp
          · refine .inr ⟨fun hc => hload ((complete_conversion hhead).mp hc).1, ?_, s, .start, .inr ⟨t, h, hhead, hload⟩⟩
            simp only [whileLoop, turn_past mem buf printf h hhead hload]
      · rw [List.mem_cons, not_or] at h0
        exact hgo (turn_char h (Ne.symm h0.1) hc) h.tail (List.suffix_cons c t) (Nat.lt_succ_self _) (complete_char hc)

end Turns

/-- `printf` of the two messages. -/
theorem reports (mem : U64 → Byte) (buf : List Byte) (depth : Nat) :
    Reports fun b arg => vprintf mem buf (depth + 1) b fun _ => arg := by
  constructor <;> exact fun k => ⟨_, rfl⟩

/-- **`__vprintf` keeps to its format, and ends, if and only if the format is
complete**: a conversion that stops short makes it step over the terminator, and
a `*` near the end loads from behind it. -/
theorem vprintf_keeps_to_format_iff {format buf : List Byte} {depth : Nat} (mem : U64 → Byte) (args : VaList)
    (h0 : 0 ∉ format) (hbuf : buf.length = 64) (hdepth : 2 ≤ depth) :
    (∃ out, vprintf mem buf depth (format ++ [0]) args = some out) ↔ Complete format := by
  obtain ⟨depth, rfl⟩ : ∃ d, depth = d + 2 := ⟨depth - 2, by omega⟩
  have hat : At (format ++ [0]) (State.mk 0 args []).format format := rfl
  rcases vprintfLoop mem hbuf (reports mem buf depth) hat h0 hat.length_le with
    ⟨hcomp, s', hrun⟩ | ⟨hnot, hrun, -⟩
  · exact iff_of_true ⟨s'.out, by rw [vprintf, hrun, Option.map_some]⟩ hcomp
  · refine iff_of_false (fun ⟨out, hout⟩ => ?_) hnot
    rw [vprintf, hrun] at hout
    cases hout

/-- Otherwise its loop comes to read behind the terminator. -/
theorem vprintf_reads_past {format buf : List Byte} {depth : Nat} (mem : U64 → Byte) (args : VaList) (h0 : 0 ∉ format)
    (hbuf : buf.length = 64) (hnot : ¬ Complete format) :
    ∃ s, Visits (vprintfTurn mem buf (fun b arg => vprintf mem buf (depth + 1) b fun _ => arg) (format ++ [0]))
      ⟨0, args, []⟩ s ∧ Past (format ++ [0]) s := by
  have hat : At (format ++ [0]) (State.mk 0 args []).format format := rfl
  rcases vprintfLoop mem hbuf (reports mem buf depth) hat h0 hat.length_le with ⟨hcomp, -⟩ | ⟨-, -, hpast⟩
  · exact absurd hcomp hnot
  · exact hpast

/-- A format that is a single `%`. -/
theorem vprintf_past_percent :
    ¬ ∃ out, vprintf (fun _ => 0) (List.replicate 64 0) 2 ([ch '%'] ++ [0]) (fun _ => 0) = some out := by
  have hrun : vprintf (fun _ => 0) (List.replicate 64 0) 2 ([ch '%'] ++ [0]) (fun _ => 0) = none := by decide +kernel
  rw [hrun]
  simp

-- the `*` loads the terminator and a byte behind it
example : vprintf (fun _ => 0) (List.replicate 64 0) 2 (bytes "%*d" ++ [0]) (fun _ => 7) = none := by decide +kernel

theorem vprintf_keeps_to_five :
    (∃ out, vprintf (fun _ => 0) (List.replicate 64 0) 2 (bytes "%5d" ++ [0]) (fun _ => 7) = some out) ↔
      Complete (bytes "%5d") :=
  vprintf_keeps_to_format_iff (fun _ => 0) (fun _ => 7) (by decide) List.length_replicate (Nat.le_refl 2)

end PintosKaist.Stdio
