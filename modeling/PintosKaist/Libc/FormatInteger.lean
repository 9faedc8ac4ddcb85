/-
What `format_integer` outputs.

The buffer is told by what has been written to it (`Cursor.Holds`); the digits
of the value, the commas and the zeros each add to that, and their lengths add
up to what `buf` has room for (`digitsLength_le`). `formatInteger_eq` says what
is output.
-/
import Mathlib.Data.Nat.Digits.Lemmas
import PintosKaist.Libc.Stdio

namespace PintosKaist.Stdio

open CStr While

/-! ## Numerals -/

/-- The character of a digit. -/
def digit (upper : Bool) (d : Nat) : Byte := ch (if upper then (Nat.digitChar d).toUpper else Nat.digitChar d)

/-- The digits of a number, the most significant first; 0 has none. -/
def numeral (base : Nat) (upper : Bool) (n : Nat) : List Byte := ((Nat.digits base n).map (digit upper)).reverse

/-- The numeral of a number as it is written: that of 0 is `0`. -/
def written (base : Nat) (upper : Bool) (n : Nat) : List Byte := if n = 0 then [ch '0'] else numeral base upper n

/-- A string of digits without its commas and leading zeros. -/
def strip (l : List Byte) : List Byte := (l.filter fun c => decide (c ≠ ch ',')).dropWhile fun c => decide (c = ch '0')

theorem digit_facts : ∀ upper, ∀ d < 16, digit upper d ≠ ch ',' ∧ (digit upper d = ch '0' ↔ d = 0) ∧
    digit upper d ≠ ch '-' ∧ ∀ e < 16, digit upper d = digit upper e → d = e := by
  decide +kernel

/-- The bases of `integer_base`. -/
def bases : List IntegerBase := [baseD, baseO, baseX, baseXUpper]

/-- Whether a base has its letters in upper case. -/
def IntegerBase.upper (b : IntegerBase) : Bool := decide (b.x = some (ch 'X'))

theorem bases_facts : ∀ b ∈ bases, 8 ≤ b.base ∧ b.base ≤ 16 ∧ 0 < b.group ∧
    (∀ d < b.base, b.digits[d]? = some (digit b.upper d)) ∧
    b.x = if b.base = 16 then some (if b.upper then ch 'X' else ch 'x') else none := by
  decide +kernel

variable {b : IntegerBase} {upper : Bool} {base n m k : Nat}

theorem digit_lt (hb : 1 < base) (hb16 : base ≤ 16) {d : Nat} (hd : d ∈ Nat.digits base n) : d < 16 :=
  Nat.lt_of_lt_of_le (Nat.digits_lt_base hb hd) hb16

/-- A numeral has no leading zero. -/
theorem numeral_head (hb : 1 < base) (hb16 : base ≤ 16) {c : Byte} (h : (numeral base upper n).head? = some c) :
    c ≠ ch '0' := by
  rw [numeral, List.head?_reverse, List.getLast?_map, Option.map_eq_some_iff] at h
  obtain ⟨d, hd, rfl⟩ := h
  have hmem : d ∈ Nat.digits base n := List.mem_of_getLast? hd
  have hne : Nat.digits base n ≠ [] := List.ne_nil_of_mem hmem
  rw [List.getLast?_eq_some_getLast hne, Option.some_inj] at hd
  have hlast := Nat.getLast_digit_ne_zero base (Nat.digits_ne_nil_iff_ne_zero.mp hne)
  rw [hd] at hlast
  exact fun h0 => hlast ((digit_facts upper d (digit_lt hb hb16 hmem)).2.1.mp h0)

/-- Two numbers of one numeral are the same. -/
theorem numeral_inj (hb : 1 < base) (hb16 : base ≤ 16) (h : numeral base upper n = numeral base upper m) : n = m := by
  have hinj : Set.InjOn (digit upper) {d | d < 16} := fun d hd e he heq => (digit_facts upper d hd).2.2.2 e he heq
  have hback (k : Nat) :
      ((Nat.digits base k).map (digit upper)).map (Function.invFunOn (digit upper) {d | d < 16}) = Nat.digits base k := by
    rw [List.map_map]
    refine (List.map_congr_left fun d hd => ?_).trans (List.map_id _)
    exact hinj.leftInvOn_invFunOn (digit_lt hb hb16 hd)
  rw [numeral, numeral, List.reverse_inj] at h
  refine (Nat.digits_inj_iff (b := base)).mp ?_
  rw [← hback n, h, hback m]

/-! ## The digits in groups -/

/-- The digits `ds` with commas, the first of them being digit `k`. -/
def grouped (group : Bool) (g : Nat) : Nat → List Byte → List Byte
  | _, [] => []
  | k, d :: ds => (if group ∧ k > 0 ∧ k % g = 0 then [ch ','] else []) ++ d :: grouped group g (k + 1) ds

theorem filter_grouped (group : Bool) (g k : Nat) {ds : List Byte} (h : ch ',' ∉ ds) :
    (grouped group g k ds).filter (fun c => decide (c ≠ ch ',')) = ds := by
  induction ds generalizing k with
  | nil => rfl
  | cons d ds ih =>
    rw [List.mem_cons, not_or] at h
    have hd : d ≠ ch ',' := Ne.symm h.1
    rw [grouped, List.filter_append, List.filter_cons, if_pos (decide_eq_true hd), ih _ h.2]
    split_ifs <;> simp

/-- The number of commas is that of the digits that start a new group. -/
theorem length_grouped (group : Bool) (g k : Nat) (ds : List Byte) :
    (grouped group g k ds).length + (if group then (k - 1) / g else 0) =
      ds.length + if group then (k + ds.length - 1) / g else 0 := by
  induction ds generalizing k with
  | nil => simp [grouped]
  | cons d ds ih =>
    have hrest := ih (k + 1)
    cases group with
    | false => simpa [grouped] using hrest
    | true =>
      have hat : k + 1 + ds.length - 1 = k + (ds.length + 1) - 1 := by omega
      simp only [if_true, Nat.add_sub_cancel, hat] at hrest
      have hstep : k / g = (k - 1) / g + if k > 0 ∧ k % g = 0 then 1 else 0 := by
        cases k with
        | zero => simp
        | succ k => simp [Nat.succ_div, Nat.dvd_iff_mod_eq_zero]
      simp only [grouped, true_and, if_true, List.length_append, List.length_cons]
      split_ifs at hstep ⊢ <;> simp only [List.length_nil, List.length_singleton] <;> omega

/-! ## The buffer -/

/-- `w` is what has been written to the buffer. -/
structure Cursor.Holds (s : Cursor) (w : List Byte) : Prop where
  length : s.buf.length = 64
  cp : s.cp = w.length
  take : s.buf.take s.cp = w

variable {s : Cursor} {w ds buf : List Byte} {c : Conversion}

theorem Cursor.Holds.put (h : s.Holds w) (hlt : w.length < 64) (x : Byte) :
    ∃ s', s.put x = some s' ∧ s'.Holds (w ++ [x]) := by
  have hcp : s.cp < s.buf.length := by
    rw [h.length, h.cp]
    exact hlt
  refine ⟨⟨s.buf.set s.cp x, s.cp + 1⟩, by rw [Cursor.put, store_eq hcp, Option.map_some], ?_, ?_, ?_⟩
  · simpa using h.length
  · simp [h.cp]
  · rw [List.take_succ_eq_append_getElem (by simpa using hcp), List.take_set_of_le (Nat.le_refl _), h.take,
      List.getElem_set_self]

/-- The loop that accumulates the digits. -/
theorem digitLoop_eq (hb : b ∈ bases) (group : Bool) {fuel : Nat} (h : s.Holds w)
    (hfit : w.length + (grouped group b.group k ((Nat.digits b.base n).map (digit b.upper))).length ≤ 64)
    (hfuel : (Nat.digits b.base n).length < fuel) :
    ∃ s' k', whileLoop (digitTurn b group) fuel (s, n, k) = some (s', 0, k') ∧
      s'.Holds (w ++ grouped group b.group k ((Nat.digits b.base n).map (digit b.upper))) := by
  obtain ⟨hb8, -, -, hdigits, -⟩ := bases_facts b hb
  induction fuel generalizing s w n k with
  | zero => exact absurd hfuel (Nat.not_lt_zero _)
  | succ fuel ih =>
    rcases Nat.eq_zero_or_pos n with rfl | hn
    · refine ⟨s, k, whileLoop_done (by simp [digitTurn]), ?_⟩
      simpa [grouped] using h
    · have hcons : Nat.digits b.base n = n % b.base :: Nat.digits b.base (n / b.base) :=
        Nat.digits_def' (by omega) hn
      have hd : b.digits[n % b.base]? = some (digit b.upper (n % b.base)) := hdigits _ (Nat.mod_lt _ (by omega))
      simp only [hcons, List.map_cons, grouped, List.length_append, List.length_cons] at hfit hfuel ⊢
      obtain ⟨s₁, hs₁, h₁⟩ : ∃ s₁, (if group ∧ k > 0 ∧ k % b.group = 0 then s.put (ch ',') else some s) = some s₁ ∧
          s₁.Holds (w ++ if group ∧ k > 0 ∧ k % b.group = 0 then [ch ','] else []) := by
        split_ifs with hcomma
        · rw [if_pos hcomma, List.length_singleton] at hfit
          exact h.put (by omega) _
        · exact ⟨s, rfl, by simpa using h⟩
      obtain ⟨s₂, hs₂, h₂⟩ := h₁.put (by rw [List.length_append]; omega) (digit b.upper (n % b.base))
      have hturn : digitTurn b group (s, n, k) = some (.yield (s₂, n / b.base, k + 1)) := by
        simp only [digitTurn, if_pos hn, hs₁, hd, hs₂, Option.bind_some, Option.map_some]
      obtain ⟨s', k', hs', h'⟩ := ih (k := k + 1) (n := n / b.base) h₂
        (by simp only [List.length_append, List.length_singleton]; omega) (by omega)
      refine ⟨s', k', (whileLoop_yield hturn).trans hs', ?_⟩
      simpa using h'

/-- The loop that appends zeros to match the precision. -/
theorem zeroLoop_eq (precision : Int) {fuel : Nat} (h : s.Holds w) (hw : w.length ≤ 64)
    (hfuel : min precision.toNat 63 - w.length < fuel) :
    ∃ s', whileLoop (zeroTurn precision) fuel s = some s' ∧
      s'.Holds (w ++ List.replicate (min precision.toNat 63 - w.length) (ch '0')) := by
  induction fuel generalizing s w with
  | zero => exact absurd hfuel (Nat.not_lt_zero _)
  | succ fuel ih =>
    by_cases hlt : (s.cp : Int) < precision ∧ s.cp < 64 - 1
    · have hcp := h.cp
      obtain ⟨s₁, hs₁, h₁⟩ := h.put (by omega) (ch '0')
      have hturn : zeroTurn precision s = some (.yield s₁) := by
        rw [zeroTurn, if_pos hlt, hs₁, Option.map_some]
      have hlen : (w ++ [ch '0']).length = w.length + 1 := by simp
      obtain ⟨s', hs', h'⟩ := ih h₁ (by omega) (by omega)
      refine ⟨s', (whileLoop_yield hturn).trans hs', ?_⟩
      have hcnt : min precision.toNat 63 - w.length = (min precision.toNat 63 - (w ++ [ch '0']).length) + 1 := by omega
      rw [hcnt, List.replicate_succ, ← List.singleton_append, ← List.append_assoc]
      exact h'
    · have hcp := h.cp
      have hturn : zeroTurn precision s = some (.done s) := by rw [zeroTurn, if_neg hlt]
      have hcnt : min precision.toNat 63 - w.length = 0 := by omega
      refine ⟨s, whileLoop_done hturn, ?_⟩
      rw [hcnt, List.replicate_zero, List.append_nil]
      exact h

/-- The zero of the `#` flag is appended where there is none. -/
theorem octalZero_eq (f : Flags) (h : s.Holds w) (hlt : w.length < 64) :
    ∃ s', octalZero b f s = some s' ∧
      s'.Holds (w ++ if f.pound ∧ b.base = 8 ∧ w.getLast? ≠ some (ch '0') then [ch '0'] else []) := by
  have hcp := h.cp
  unfold octalZero
  by_cases hpound : f.pound = true ∧ b.base = 8
  · rw [if_pos hpound]
    by_cases hw : w = []
    · subst hw
      obtain ⟨s', hs', h'⟩ := h.put hlt (ch '0')
      refine ⟨s', by rw [if_pos (by simpa using hcp), hs'], ?_⟩
      simpa [hpound] using h'
    · have hpos : 0 < w.length := List.length_pos_iff.mpr hw
      have hlast : s.buf[s.cp - 1]? = w.getLast? := by
        rw [List.getLast?_eq_getElem?, ← h.take, List.getElem?_take_of_lt, List.length_take, h.length]
        · congr 1
          omega
        · rw [List.length_take, h.length]
          omega
      rw [if_neg (by omega), hlast, List.getLast?_eq_some_getLast hw, Option.bind_some]
      by_cases hz : w.getLast hw = ch '0'
      · refine ⟨s, by rw [if_neg (not_not.mpr hz)], ?_⟩
        simpa [hz] using h
      · obtain ⟨s', hs', h'⟩ := h.put hlt (ch '0')
        refine ⟨s', by rw [if_pos hz, hs'], ?_⟩
        simpa [hpound, hz] using h'
  · rw [if_neg hpound, if_neg (fun hn => hpound ⟨hn.1, hn.2.1⟩), List.append_nil]
    exact ⟨s, rfl, h⟩

theorem outputBack_eq (buf : List Byte) {cp : Nat} (h : cp ≤ buf.length) :
    outputBack buf cp = some (buf.take cp).reverse := by
  induction cp with
  | zero => rfl
  | succ cp ih =>
    have hlt : cp < buf.length := h
    rw [outputBack, List.getElem?_eq_getElem hlt, Option.bind_some, ih (Nat.le_of_succ_le h), Option.map_some,
      List.take_succ_eq_append_getElem hlt, List.reverse_append, List.reverse_singleton, List.singleton_append]

@[simp] theorem outputDup_eq (x : Byte) (cnt : Nat) : outputDup x cnt = List.replicate cnt x := by
  induction cnt with
  | zero => rfl
  | succ cnt ih => rw [outputDup, ih, List.replicate_succ]

/-! ## What is output -/

/-- The sign of a number as it is written. -/
def signText (isSigned negative : Bool) (f : Flags) : List Byte :=
  if ¬ isSigned then []
  else if negative then [ch '-']
  else if f.plus then [ch '+']
  else if f.space then [ch ' ']
  else []

/-- The `0x` or `0X` in front of it. -/
def xText (value : U64) (b : IntegerBase) (f : Flags) : List Byte :=
  if f.pound ∧ b.base = 16 ∧ value ≠ 0 then [ch '0', if b.upper then ch 'X' else ch 'x'] else []

/-- The digits there have to be. -/
def minDigits (c : Conversion) : Nat := min (if c.precision < 0 then 1 else c.precision).toNat 63

/-- The length of the digits of a number and their commas. -/
def groupedLength (n : Nat) (b : IntegerBase) (group : Bool) : Nat :=
  (Nat.digits b.base n).length + if group then ((Nat.digits b.base n).length - 1) / b.group else 0

/-- The length of the digit string: the `#` flag adds a zero in base 8 if the
precision adds none. -/
def digitsLength (n : Nat) (b : IntegerBase) (c : Conversion) : Nat :=
  if c.flags.pound ∧ b.base = 8 ∧ minDigits c ≤ groupedLength n b c.flags.group then groupedLength n b c.flags.group + 1
  else max (groupedLength n b c.flags.group) (minDigits c)

/-- The length of the text without the padding. -/
def textLength (value : U64) (isSigned negative : Bool) (b : IntegerBase) (c : Conversion) : Nat :=
  (signText isSigned negative c.flags).length + (xText value b c.flags).length + digitsLength value.toNat b c

/-- The digits of a number with their commas and the zeros of the precision, the
least significant first. -/
def digitsText (n : Nat) (b : IntegerBase) (c : Conversion) : List Byte :=
  grouped c.flags.group b.group 0 ((Nat.digits b.base n).map (digit b.upper)) ++
    List.replicate (minDigits c - groupedLength n b c.flags.group) (ch '0')

/-- The digit string. -/
def digitString (n : Nat) (b : IntegerBase) (c : Conversion) : List Byte :=
  (digitsText n b c ++
    if c.flags.pound ∧ b.base = 8 ∧ (digitsText n b c).getLast? ≠ some (ch '0') then [ch '0'] else []).reverse

theorem length_digits_grouped (n : Nat) (b : IntegerBase) (group : Bool) :
    (grouped group b.group 0 ((Nat.digits b.base n).map (digit b.upper))).length = groupedLength n b group := by
  have hlen := length_grouped group b.group 0 ((Nat.digits b.base n).map (digit b.upper))
  simpa [groupedLength] using hlen

theorem length_digitsText (n : Nat) (b : IntegerBase) (c : Conversion) :
    (digitsText n b c).length = max (groupedLength n b c.flags.group) (minDigits c) := by
  rw [digitsText, List.length_append, length_digits_grouped, List.length_replicate]
  omega

theorem getLast?_grouped (group : Bool) (g k : Nat) (ds : List Byte) :
    (grouped group g k ds).getLast? = ds.getLast? := by
  induction ds generalizing k with
  | nil => rfl
  | cons d ds ih =>
    rw [grouped, List.getLast?_append, List.getLast?_cons, List.getLast?_cons, ih]
    simp

/-- The digit string starts with a zero if the precision adds one. -/
theorem getLast?_digitsText (hb : b ∈ bases) (n : Nat) (c : Conversion) :
    (digitsText n b c).getLast? = some (ch '0') ↔ groupedLength n b c.flags.group < minDigits c := by
  obtain ⟨hb8, hb16, -, -, -⟩ := bases_facts b hb
  rw [digitsText, List.getLast?_append, getLast?_grouped, List.getLast?_replicate]
  by_cases hlt : groupedLength n b c.flags.group < minDigits c
  · simp [hlt, show minDigits c - groupedLength n b c.flags.group ≠ 0 by omega]
  · rw [if_pos (by omega), Option.none_or]
    refine iff_of_false (fun hlast => ?_) hlt
    exact numeral_head (n := n) (by omega) hb16 (by rw [numeral, List.head?_reverse]; exact hlast) rfl

theorem length_digitString (hb : b ∈ bases) (n : Nat) (c : Conversion) :
    (digitString n b c).length = digitsLength n b c := by
  have hlast := getLast?_digitsText hb n c
  simp only [digitString, List.length_reverse, List.length_append, length_digitsText, digitsLength, ne_eq, hlast, not_lt]
  split_ifs <;> simp only [List.length_nil, List.length_singleton] <;> omega

/-- **The digit string is the numeral of the value**, but for the commas and the
leading zeros. -/
theorem strip_digitString (hb : b ∈ bases) (n : Nat) (c : Conversion) :
    strip (digitString n b c) = numeral b.base b.upper n := by
  obtain ⟨hb8, hb16, -, -, -⟩ := bases_facts b hb
  have hcomma : ch ',' ∉ (Nat.digits b.base n).map (digit b.upper) := by
    intro hmem
    obtain ⟨d, hd, heq⟩ := List.mem_map.mp hmem
    exact (digit_facts b.upper d (digit_lt (by omega) hb16 hd)).1 heq
  have hhead : (numeral b.base b.upper n).dropWhile (fun c => decide (c = ch '0')) = numeral b.base b.upper n := by
    cases hnum : numeral b.base b.upper n with
    | nil => rfl
    | cons d ds =>
      have hd := numeral_head (n := n) (by omega) hb16 (by rw [hnum, List.head?_cons])
      rw [List.dropWhile_cons_of_neg (by simpa using hd)]
  obtain ⟨zeros, hz, htext⟩ : ∃ zeros : List Byte, (∀ x ∈ zeros, x = ch '0') ∧ digitString n b c =
      (grouped c.flags.group b.group 0 ((Nat.digits b.base n).map (digit b.upper)) ++ zeros).reverse := by
    refine ⟨_, fun x hx => ?_, by rw [digitString, digitsText, List.append_assoc]⟩
    rcases List.mem_append.mp hx with hx | hx
    · exact List.eq_of_mem_replicate hx
    · split_ifs at hx
      · exact List.mem_singleton.mp hx
      · cases hx
  have hkeep : zeros.filter (fun c => decide (c ≠ ch ',')) = zeros :=
    List.filter_eq_self.mpr fun x hx => by rw [hz x hx]; rfl
  rw [strip, htext, List.filter_reverse, List.filter_append, filter_grouped _ _ _ hcomma, hkeep, List.reverse_append,
    List.dropWhile_append_of_pos fun x hx => decide_eq_true (hz x (List.mem_reverse.mp hx))]
  exact hhead

/-- A value has 22 digits at most, in base 8. -/
theorem groupedLength_le (hb : b ∈ bases) (value : U64) (group : Bool) : groupedLength value.toNat b group ≤ 44 := by
  obtain ⟨hb8, -, -, -, -⟩ := bases_facts b hb
  have hlt : value.toNat < b.base ^ 22 := by
    have hval := value.isLt
    have hpow : 8 ^ 22 ≤ b.base ^ 22 := Nat.pow_le_pow_left hb8 22
    omega
  have hcnt : (Nat.digits b.base value.toNat).length ≤ 22 := (Nat.digits_length_le_iff (by omega) _).mpr hlt
  have hcommas : ((Nat.digits b.base value.toNat).length - 1) / b.group ≤ 22 :=
    Nat.le_trans (Nat.div_le_self _ _) (by omega)
  rw [groupedLength]
  split_ifs <;> omega

theorem digitsLength_le (hb : b ∈ bases) (value : U64) (c : Conversion) : digitsLength value.toNat b c ≤ 64 := by
  have hle := groupedLength_le hb value c.flags.group
  have hmin : minDigits c ≤ 63 := Nat.min_le_right _ _
  rw [digitsLength]
  split_ifs <;> omega

/-- The characters that fill the field. -/
def padding (width : Int) (len : Nat) : Nat := (int (width - len)).toNat

/-- The text with the padding the flags ask for. -/
def padded (value : U64) (isSigned negative : Bool) (b : IntegerBase) (c : Conversion) : List Byte :=
  let pad := padding c.width (textLength value isSigned negative b c)
  (if ¬ c.flags.minus ∧ ¬ c.flags.zero then List.replicate pad (ch ' ') else []) ++
  signText isSigned negative c.flags ++ xText value b c.flags ++
  (if c.flags.zero then List.replicate pad (ch '0') else []) ++
  digitString value.toNat b c ++
  (if c.flags.minus then List.replicate pad (ch ' ') else [])

theorem signChar_toList (isSigned negative : Bool) (f : Flags) :
    (signChar isSigned negative f).toList = signText isSigned negative f := by
  unfold signChar signText
  split_ifs <;> simp_all

theorem xChar_text (hb : b ∈ bases) (value : U64) (f : Flags) :
    (xChar value b f).elim [] (fun x => [ch '0', x]) = xText value b f := by
  obtain ⟨-, -, -, -, hx⟩ := bases_facts b hb
  rw [xChar, xText, hx]
  by_cases hpound : f.pound = true ∧ value ≠ 0
  · by_cases hb16 : b.base = 16
    · rw [if_pos hpound, if_pos hb16, if_pos (And.intro hpound.1 ⟨hb16, hpound.2⟩), Option.elim_some]
    · rw [if_pos hpound, if_neg hb16, if_neg fun h => hb16 h.2.1, Option.elim_none]
  · rw [if_neg hpound, if_neg fun h => hpound ⟨h.1, h.2.2⟩, Option.elim_none]

/-- **What `format_integer` outputs**, all of its stores being in the buffer. -/
theorem formatInteger_eq (value : U64) (isSigned negative : Bool) (hb : b ∈ bases) (c : Conversion)
    (hbuf : buf.length = 64) :
    formatInteger value isSigned negative b c buf = some (padded value isSigned negative b c) := by
  have hlen := length_digits_grouped value.toNat b c.flags.group
  have hle := groupedLength_le hb value c.flags.group
  have hmin : minDigits c ≤ 63 := Nat.min_le_right _ _
  have hcnt : (Nat.digits b.base value.toNat).length ≤ groupedLength value.toNat b c.flags.group := Nat.le_add_right _ _
  have h₀ : (⟨buf, 0⟩ : Cursor).Holds [] := ⟨hbuf, rfl, rfl⟩
  have hfit : ([] : List Byte).length + (grouped c.flags.group b.group 0
      ((Nat.digits b.base value.toNat).map (digit b.upper))).length ≤ 64 := by
    rw [hlen, List.length_nil]
    omega
  have hfuel : (Nat.digits b.base value.toNat).length < 64 + 1 := by omega
  obtain ⟨s₁, k, hs₁, h₁⟩ := digitLoop_eq hb c.flags.group h₀ hfit hfuel
  rw [List.nil_append] at h₁
  have hzeros : min (if c.precision < 0 then 1 else c.precision).toNat 63 - (grouped c.flags.group b.group 0
      ((Nat.digits b.base value.toNat).map (digit b.upper))).length < 64 + 1 := by
    rw [hlen]
    omega
  obtain ⟨s₂, hs₂, h₂⟩ := zeroLoop_eq _ h₁ (by rw [hlen]; omega) hzeros
  rw [hlen] at h₂
  obtain ⟨s₃, hs₃, h₃⟩ := octalZero_eq (b := b) c.flags h₂
    (by rw [← hlen] at hle ⊢; simp only [List.length_append, List.length_replicate]; omega)
  have htext : digitString value.toNat b c = (s₃.buf.take s₃.cp).reverse := by rw [h₃.take]; rfl
  have hcp : s₃.cp = digitsLength value.toNat b c := by
    rw [← length_digitString hb, htext, h₃.take, List.length_reverse, ← h₃.cp]
  have hx := xChar_text hb value c.flags
  have hsign := signChar_toList isSigned negative c.flags
  have hxlen : (if (xChar value b c.flags).isSome then 2 else 0 : Int) = (xText value b c.flags).length := by
    rw [← hx]
    cases xChar value b c.flags <;> rfl
  have hsignlen : (if (signChar isSigned negative c.flags).isSome then 1 else 0 : Int) =
      (signText isSigned negative c.flags).length := by
    rw [← hsign]
    cases signChar isSigned negative c.flags <;> rfl
  have hpad (z : Int) : (if z < 0 then 0 else z).toNat = z.toNat := by
    split_ifs <;> omega
  have hwidth : c.width - (s₃.cp : Int) - (xText value b c.flags).length - (signText isSigned negative c.flags).length =
      c.width - textLength value isSigned negative b c := by
    rw [hcp, textLength]
    omega
  have hfit : s₃.cp ≤ s₃.buf.length := by
    rw [hcp, h₃.length]
    exact digitsLength_le hb value c
  simp only [formatInteger, hs₁, hs₂, hs₃, Option.bind_some, outputBack_eq _ hfit, Option.map_some, hx, hsign, hxlen,
    hsignlen, hwidth, hpad, outputDup_eq, ← htext]
  rfl

/-! ## Whether it is right -/

/-- What the output has to be: blanks, a sign, the mark of the base, zeros and
the digits, as wide as it is asked to be and no wider than it has to be. -/
structure Formatted (value : U64) (isSigned negative : Bool) (b : IntegerBase) (c : Conversion) (out : List Byte) :
    Prop where
  parts : ∃ left zeros right digits, out = List.replicate left (ch ' ') ++ signText isSigned negative c.flags ++
    xText value b c.flags ++ List.replicate zeros (ch '0') ++ digits ++ List.replicate right (ch ' ') ∧
    strip digits = numeral b.base b.upper value.toNat ∧
    (signText isSigned negative c.flags ++ xText value b c.flags ++ digits).length =
      textLength value isSigned negative b c
  width : c.width ≤ out.length
  fits : textLength value isSigned negative b c ≤ c.width → out.length = c.width

theorem int_of {x : Int} (h₁ : -2 ^ 31 ≤ x) (h₂ : x < 2 ^ 31) : int x = x := Int.bmod_eq_of_le (by omega) (by omega)

theorem length_padded (value : U64) (isSigned negative : Bool) (hb : b ∈ bases) (c : Conversion) :
    (padded value isSigned negative b c).length = textLength value isSigned negative b c +
      (if c.flags.minus ∧ c.flags.zero then 2 else 1) * padding c.width (textLength value isSigned negative b c) := by
  have hlen := length_digitString hb value.toNat c
  cases hminus : c.flags.minus <;> cases hzero : c.flags.zero <;>
    simp [padded, hminus, hzero, textLength, hlen] <;> omega

theorem textLength_le (value : U64) (isSigned negative : Bool) (hb : b ∈ bases) (c : Conversion) :
    textLength value isSigned negative b c ≤ 67 := by
  have hdigits := digitsLength_le hb value c
  have hsign : (signText isSigned negative c.flags).length ≤ 1 := by
    unfold signText
    split_ifs <;> simp
  have hx : (xText value b c.flags).length ≤ 2 := by
    unfold xText
    split_ifs <;> simp
  rw [textLength]
  omega

/-- **`format_integer` is right, and stays in its buffer, but for a field that is
both left-justified and padded with zeros**: one that is wider than the text is
padded twice. -/
theorem formatInteger_correct_iff (value : U64) (isSigned negative : Bool) (hb : b ∈ bases) (h₀ : 0 ≤ c.width)
    (hwidth : c.width < 2 ^ 31) (hbuf : buf.length = 64) :
    (∃ out, formatInteger value isSigned negative b c buf = some out ∧ Formatted value isSigned negative b c out) ↔
      ¬ (c.flags.minus ∧ c.flags.zero ∧ textLength value isSigned negative b c < c.width) := by
  have hlen := length_padded value isSigned negative hb c
  have hle := textLength_le value isSigned negative hb c
  have hpad : padding c.width (textLength value isSigned negative b c) =
      (c.width - textLength value isSigned negative b c).toNat := by
    rw [padding, int_of (by omega) (by omega)]
  rw [formatInteger_eq value isSigned negative hb c hbuf]
  constructor
  · rintro ⟨out, hout, h⟩ ⟨hminus, hzero, hlt⟩
    obtain rfl := Option.some.inj hout
    have hfits := h.fits (Int.le_of_lt hlt)
    rw [hlen, if_pos ⟨hminus, hzero⟩, hpad] at hfits
    omega
  · intro h
    have htotal : (padded value isSigned negative b c).length =
        textLength value isSigned negative b c + (c.width - textLength value isSigned negative b c).toNat := by
      by_cases hboth : c.flags.minus = true ∧ c.flags.zero = true
      · have hwide : ¬ (textLength value isSigned negative b c : Int) < c.width := fun hlt => h ⟨hboth.1, hboth.2, hlt⟩
        rw [hlen, hpad, if_pos hboth]
        omega
      · rw [hlen, hpad, if_neg hboth, Nat.one_mul]
    refine ⟨_, rfl, ?_, by rw [htotal]; omega, by rw [htotal]; omega⟩
    have hif (p : Prop) [Decidable p] (n : Nat) (x : Byte) :
        (if p then List.replicate n x else []) = List.replicate (if p then n else 0) x := by
      split_ifs <;> rfl
    refine ⟨_, _, _, digitString value.toNat b c, by rw [padded, hif, hif, hif], strip_digitString hb _ c, ?_⟩
    rw [List.length_append, List.length_append, length_digitString hb, textLength]

/-- A field of width 5 with both flags. -/
theorem formatInteger_pads_twice : ¬ ∃ out,
    formatInteger 7 true false baseD ⟨{ minus := true, zero := true }, 5, -1, .int⟩ (List.replicate 64 0) = some out ∧
      Formatted 7 true false baseD ⟨{ minus := true, zero := true }, 5, -1, .int⟩ out := by
  rintro ⟨out, hout, h⟩
  have hlen : textLength 7 true false baseD ⟨{ minus := true, zero := true }, 5, -1, .int⟩ = 1 := by decide +kernel
  have hrun : formatInteger 7 true false baseD ⟨{ minus := true, zero := true }, 5, -1, .int⟩ (List.replicate 64 0) =
      some (bytes "00007    ") := by decide +kernel
  obtain rfl := Option.some.inj (hrun.symm.trans hout)
  have hfits := h.fits (by rw [hlen]; decide)
  exact absurd hfits (by decide)

theorem formatInteger_correct_seven : (∃ out,
    formatInteger 7 true false baseD ⟨{ zero := true }, 5, -1, .int⟩ (List.replicate 64 0) = some out ∧
      Formatted 7 true false baseD ⟨{ zero := true }, 5, -1, .int⟩ out) ↔
    ¬ (false = true ∧ true = true ∧ (textLength 7 true false baseD ⟨{ zero := true }, 5, -1, .int⟩ : Int) < 5) :=
  formatInteger_correct_iff 7 true false (b := baseD) (c := ⟨{ zero := true }, 5, -1, .int⟩) (by simp [bases])
    (by decide) (by decide) List.length_replicate

end PintosKaist.Stdio
