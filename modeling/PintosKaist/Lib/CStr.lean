/-
Blocks of memory, and the C strings in them. A block is the list of what is in
it; an access past its end has no result.

A copy that fits replaces a run of the block (`memcpy_eq`), and any other has no
result (`memcpy_past`). The words of a string are its runs without the separator
(`words`).
-/
import Mathlib.Algebra.Group.Action.Defs
import Mathlib.Algebra.GroupWithZero.Nat
import Mathlib.Algebra.Order.BigOperators.Group.List
import Mathlib.Algebra.Order.Group.Nat
import Mathlib.Data.List.Basic
import Mathlib.Data.List.TakeWhile
import PintosKaist.Lib.While

namespace PintosKaist.CStr

open While

variable {α : Type*}

/-! ## Blocks -/

/-- `b[a] = x`. -/
def store (b : List α) (a : Nat) (x : α) : Option (List α) := if a < b.length then some (b.set a x) else none

/-- `memcpy (dst + a, src + c, size)`. -/
def memcpy (src : List α) : Nat → List α → Nat → Nat → Option (List α)
  | 0, dst, _, _ => some dst
  | size + 1, dst, a, c =>
    (src[c]?).bind fun x => (store dst a x).bind fun dst => memcpy src size dst (a + 1) (c + 1)

/-- `memset (b + a, x, size)`. -/
def memset (x : α) : Nat → List α → Nat → Option (List α)
  | 0, b, _ => some b
  | size + 1, b, a => (store b a x).bind fun b => memset x size b (a + 1)

/-- The block with a run of it replaced. -/
def patch (b : List α) (a : Nat) (new : List α) : List α := b.take a ++ new ++ b.drop (a + new.length)

variable {b dst src new rest : List α} {a c size : Nat} {x : α}

@[simp] theorem patch_nil (b : List α) (a : Nat) : patch b a [] = b := by simp [patch]

theorem patch_cons (h : a < b.length) (x : α) (new : List α) :
    patch (b.set a x) (a + 1) new = patch b a (x :: new) := by
  have htake : (b.set a x).take (a + 1) = b.take a ++ [x] := by
    rw [List.take_succ_eq_append_getElem (by simpa using h), List.take_set_of_le (Nat.le_refl a), List.getElem_set_self]
  have hdrop : (b.set a x).drop (a + 1 + new.length) = b.drop (a + (new.length + 1)) := by
    rw [List.drop_set_of_lt (by omega), Nat.add_right_comm, Nat.add_assoc]
  simp only [patch, htake, hdrop, List.length_cons, List.append_assoc, List.cons_append, List.nil_append]

theorem length_patch (h : a + new.length ≤ b.length) : (patch b a new).length = b.length := by
  simp only [patch, List.length_append, List.length_take, List.length_drop]
  omega

theorem store_eq (h : a < b.length) (x : α) : store b a x = some (b.set a x) := if_pos h

/-- **A copy that fits replaces a run of the block.** -/
theorem memcpy_eq (hsrc : new <+: src.drop c) (hfit : a + new.length ≤ dst.length) :
    memcpy src new.length dst a c = some (patch dst a new) := by
  induction new generalizing dst a c with
  | nil => simp [memcpy]
  | cons x new ih =>
    obtain ⟨t, ht⟩ := hsrc
    have hlt : a < dst.length := by
      rw [List.length_cons] at hfit
      omega
    have hx : src[c]? = some x := by
      have hhead := congrArg List.head? ht
      rw [List.head?_drop] at hhead
      exact hhead.symm
    have htail : new <+: src.drop (c + 1) := by
      refine ⟨t, ?_⟩
      rw [← List.tail_drop, ← ht]
      rfl
    have hfit' : a + 1 + new.length ≤ (dst.set a x).length := by
      rw [List.length_cons] at hfit
      rw [List.length_set]
      omega
    have hrest := ih htail hfit'
    rw [List.length_cons, memcpy, hx, Option.bind_some, store_eq hlt, Option.bind_some, hrest, patch_cons hlt]

/-- One that does not has no result. -/
theorem memcpy_past (ha : a ≤ dst.length) (hpast : dst.length < a + size) : memcpy src size dst a c = none := by
  induction size generalizing dst a c with
  | zero => omega
  | succ size ih =>
    rw [memcpy]
    cases src[c]? with
    | none => rfl
    | some x =>
      rw [Option.bind_some, store]
      split_ifs with hlt
      · rw [Option.bind_some]
        exact ih (by rw [List.length_set]; exact hlt) (by rw [List.length_set]; omega)
      · rfl

theorem memset_eq (x : α) (hfit : a + size ≤ b.length) :
    memset x size b a = some (patch b a (List.replicate size x)) := by
  induction size generalizing b a with
  | zero => simp [memset]
  | succ size ih =>
    have hlt : a < b.length := by omega
    have hfit' : a + 1 + size ≤ (b.set a x).length := by
      rw [List.length_set]
      omega
    have hrest := ih hfit'
    rw [memset, store_eq hlt, Option.bind_some, hrest, patch_cons hlt, List.replicate_succ]

/-! ## Scans -/

/-- A turn of `while (p (*s)) s++`. -/
def scanTurn (b : List α) (p : α → Bool) (s : Nat) : Option (ForInStep Nat) :=
  (b[s]?).map fun c => if p c then .yield (s + 1) else .done s

/-- `while (p (*s)) s++`. -/
def scan (b : List α) (p : α → Bool) (s : Nat) : Option Nat := whileLoop (scanTurn b p) (b.length + 1) s

theorem getElem?_of_drop {s : Nat} (h : b.drop s = x :: rest) : b[s]? = some x := by
  rw [← List.head?_drop, h, List.head?_cons]

theorem drop_succ_of_drop {s : Nat} (h : b.drop s = x :: rest) : b.drop (s + 1) = rest := by
  rw [← List.tail_drop, h, List.tail_cons]

/-- A scan stops at the first that fails the test. -/
theorem scan_eq {p : α → Bool} {l : List α} {s : Nat} (h : b.drop s = l ++ x :: rest) (hl : ∀ c ∈ l, p c = true)
    (hx : p x = false) : scan b p s = some (s + l.length) := by
  have hfuel : l.length < b.length + 1 := by
    have hlen := congrArg List.length h
    simp only [List.length_drop, List.length_append, List.length_cons] at hlen
    omega
  rw [scan]
  generalize b.length + 1 = fuel at hfuel
  induction l generalizing s fuel with
  | nil =>
    obtain ⟨fuel, rfl⟩ : ∃ f, fuel = f + 1 := ⟨fuel - 1, by simp only [List.length_nil] at hfuel; omega⟩
    refine whileLoop_done ?_
    simp only [scanTurn, getElem?_of_drop h, Option.map_some, hx, Bool.false_eq_true, if_false, List.length_nil,
      Nat.add_zero]
  | cons y l ih =>
    obtain ⟨fuel, rfl⟩ : ∃ f, fuel = f + 1 := ⟨fuel - 1, by simp only [List.length_cons] at hfuel; omega⟩
    have hy : p y = true := hl y List.mem_cons_self
    have hturn : scanTurn b p s = some (.yield (s + 1)) := by
      simp only [scanTurn, getElem?_of_drop h, Option.map_some, hy, if_true]
    rw [whileLoop_yield hturn, ih (drop_succ_of_drop h) (fun c hc => hl c (List.mem_cons_of_mem y hc)) fuel
      (Nat.lt_of_succ_lt_succ hfuel), List.length_cons]
    congr 1
    omega

/-! ## Strings -/

section Strings

variable [Zero α] {s : List α} {p : Nat}

/-- `strlen (b + p)`. -/
def strlen [DecidableEq α] (b : List α) (p : Nat) : Option Nat :=
  (scan b (fun c => decide (c ≠ 0)) p).map fun e => e - p

/-- The string `s` is at `p`. -/
def StrAt (b : List α) (p : Nat) (s : List α) : Prop := 0 ∉ s ∧ s ++ [0] <+: b.drop p

theorem strlen_eq [DecidableEq α] (h : StrAt b p s) : strlen b p = some s.length := by
  obtain ⟨hz, t, ht⟩ := h
  have hdrop : b.drop p = s ++ 0 :: t := by rw [← ht, List.append_assoc, List.singleton_append]
  have hne : ∀ c ∈ s, decide (c ≠ 0) = true := fun c hc => decide_eq_true fun h0 => hz (h0 ▸ hc)
  rw [strlen, scan_eq hdrop hne (by simp), Option.map_some, Nat.add_sub_cancel_left]

theorem strAt_iff : StrAt b p s ↔ 0 ∉ s ∧ (∀ k < s.length, b[p + k]? = s[k]?) ∧ b[p + s.length]? = some 0 := by
  simp only [StrAt, List.prefix_iff_getElem?, List.getElem?_drop, List.length_append, List.length_singleton]
  refine and_congr_right fun _ => ⟨fun h => ⟨fun k hk => ?_, ?_⟩, fun ⟨hs, hz⟩ k hk => ?_⟩
  · rw [h k (Nat.lt_succ_of_lt hk), List.getElem_append_left hk, List.getElem?_eq_getElem hk]
  · rw [h s.length (Nat.lt_succ_self _), List.getElem_append_right (Nat.le_refl _)]
    simp
  · rcases Nat.lt_succ_iff_lt_or_eq.mp hk with hlt | rfl
    · rw [hs k hlt, List.getElem_append_left hlt, List.getElem?_eq_getElem hlt]
    · rw [hz, List.getElem_append_right (Nat.le_refl _)]
      simp

theorem strAt_of_drop (h : b.drop p = s ++ 0 :: rest) (hz : 0 ∉ s) : StrAt b p s :=
  ⟨hz, rest, by rw [h, List.append_assoc, List.singleton_append]⟩

/-- A null byte ends a string. -/
theorem strAt_set (h : b.drop p = s ++ rest) (hz : 0 ∉ s) (hlt : p + s.length < b.length) :
    StrAt (b.set (p + s.length) 0) p s := by
  refine strAt_iff.mpr ⟨hz, fun k hk => ?_, ?_⟩
  · rw [List.getElem?_set_ne (by omega), ← List.getElem?_drop, h, List.getElem?_append_left hk]
  · exact List.getElem?_set_self hlt

/-- A block that is as it was before `a`, and in its null bytes. -/
def Kept (a : Nat) (b b' : List α) : Prop := ∀ k, k < a ∨ b[k]? = some 0 → b'[k]? = b[k]?

theorem Kept.refl (a : Nat) (b : List α) : Kept a b b := fun _ _ => rfl

theorem Kept.trans {b' b'' : List α} {c : Nat} (h : Kept a b b') (h' : Kept c b' b'') (hle : a ≤ c) : Kept a b b'' := by
  intro k hk
  have hkeep := h k hk
  rw [← hkeep]
  refine h' k ?_
  rcases hk with hlt | hz
  · exact .inl (Nat.lt_of_lt_of_le hlt hle)
  · exact .inr (hkeep.trans hz)

theorem Kept.set {e : Nat} (b : List α) (hle : a ≤ e) : Kept a b (b.set e 0) := by
  intro k hk
  rcases hk with hlt | hz
  · exact List.getElem?_set_ne (by omega)
  · by_cases heq : e = k
    · subst heq
      rw [List.getElem?_set_self (List.getElem?_eq_some_iff.mp hz).1, hz]
    · exact List.getElem?_set_ne heq

/-- A string that ends before `a` is kept. -/
theorem StrAt.kept {b' : List α} (h : StrAt b p s) (hkeep : Kept a b b') (hle : p + s.length ≤ a) : StrAt b' p s := by
  obtain ⟨hz, hs, hend⟩ := strAt_iff.mp h
  refine strAt_iff.mpr ⟨hz, fun k hk => ?_, ?_⟩
  · rw [hkeep _ (.inl (by omega)), hs k hk]
  · rw [hkeep _ (.inr hend), hend]

end Strings

/-! ## Words -/

section Words

variable [DecidableEq α] {sep : α} {l w : List α}

/-- The longest runs without the separator. -/
def words (sep : α) (l : List α) : List (List α) := (l.splitOn sep).filter fun w => !w.isEmpty

@[simp] theorem words_nil : words sep ([] : List α) = [] := by simp [words]

theorem words_append_sep (l l' : List α) : words sep (l ++ sep :: l') = words sep l ++ words sep l' := by
  simp only [words, List.splitOn_append_cons_self, List.filter_append]

theorem words_sep (l : List α) : words sep (sep :: l) = words sep l := by
  simpa using words_append_sep [] l

theorem words_word (hne : w ≠ []) (h : sep ∉ w) : words sep w = [w] := by
  simp [words, List.splitOn_eq_singleton h, hne]

theorem words_seps_append {seps : List α} (h : ∀ c ∈ seps, c = sep) (l : List α) :
    words sep (seps ++ l) = words sep l := by
  induction seps with
  | nil => rfl
  | cons c seps ih =>
    obtain rfl : c = sep := h c List.mem_cons_self
    rw [List.cons_append, words_sep]
    exact ih fun d hd => h d (List.mem_cons_of_mem c hd)

theorem mem_words (h : w ∈ words sep l) : w ≠ [] ∧ w ∈ l.splitOn sep := by
  obtain ⟨hmem, hne⟩ := List.mem_filter.mp h
  exact ⟨by simpa using hne, hmem⟩

/-- What a string starts with: separators, and its first word. -/
def lead (sep : α) (l : List α) : List α :=
  l.takeWhile (fun c => decide (c = sep)) ++ (l.dropWhile fun c => decide (c = sep)).takeWhile fun c => decide (c ≠ sep)

/-- A string whose first word is `w`, behind `seps`; `tail` is what comes after
it. -/
structure FirstWord (sep : α) (seps w tail : List α) : Prop where
  seps : ∀ c ∈ seps, c = sep
  ne_nil : w ≠ []
  word : sep ∉ w
  tail : tail = [] ∨ ∃ l, tail = sep :: l

/-- A string has a first word, or nothing but separators. -/
theorem split_word (sep : α) (l : List α) :
    (∀ c ∈ l, c = sep) ∨ ∃ seps w tail, l = seps ++ (w ++ tail) ∧ FirstWord sep seps w tail := by
  induction l with
  | nil => exact .inl (by simp)
  | cons c l ih =>
    by_cases hc : c = sep
    · subst hc
      rcases ih with h | ⟨seps, w, tail, rfl, h⟩
      · exact .inl (List.forall_mem_cons.mpr ⟨rfl, h⟩)
      · exact .inr ⟨c :: seps, w, tail, rfl, List.forall_mem_cons.mpr ⟨rfl, h.seps⟩, h.ne_nil, h.word, h.tail⟩
    · right
      by_cases hl : ∃ d l', l = d :: l' ∧ d ≠ sep
      · -- the word goes on
        obtain ⟨d, l', rfl, hd⟩ := hl
        rcases ih with h | ⟨seps, w, tail, heq, h⟩
        · exact absurd (h d List.mem_cons_self) hd
        · cases seps with
          | cons e seps =>
            rw [List.cons_append, List.cons.injEq] at heq
            exact absurd (heq.1.trans (h.seps e List.mem_cons_self)) hd
          | nil =>
            refine ⟨[], c :: w, tail, congrArg (c :: ·) heq, h.seps, by simp, ?_, h.tail⟩
            rw [List.mem_cons, not_or]
            exact ⟨fun heq => hc heq.symm, h.word⟩
      · refine ⟨[], [c], l, rfl, by simp, by simp, by simpa using fun heq => hc heq.symm, ?_⟩
        cases l with
        | nil => exact .inl rfl
        | cons d l' =>
          have hd : d = sep := by
            by_contra hd
            exact hl ⟨d, l', rfl, hd⟩
          exact .inr ⟨l', by rw [hd]⟩

theorem words_seps {seps : List α} (h : ∀ c ∈ seps, c = sep) : words sep seps = [] := by
  have hall := words_seps_append h []
  rwa [List.append_nil, words_nil] at hall

theorem lead_seps {seps : List α} (h : ∀ c ∈ seps, c = sep) : lead sep seps = seps := by
  have htake : seps.takeWhile (fun c => decide (c = sep)) = seps :=
    List.takeWhile_eq_self_iff.mpr fun c hc => decide_eq_true (h c hc)
  have hdrop : seps.dropWhile (fun c => decide (c = sep)) = [] :=
    List.dropWhile_eq_nil_iff.mpr fun c hc => decide_eq_true (h c hc)
  rw [lead, htake, hdrop, List.takeWhile_nil, List.append_nil]

namespace FirstWord

variable {seps tail : List α}

theorem words_eq (h : FirstWord sep seps w tail) : words sep (seps ++ (w ++ tail)) = w :: words sep tail.tail := by
  rw [words_seps_append h.seps]
  rcases h.tail with rfl | ⟨l, rfl⟩
  · rw [List.append_nil, words_word h.ne_nil h.word, List.tail_nil, words_nil]
  · rw [words_append_sep, words_word h.ne_nil h.word, List.tail_cons, List.singleton_append]

theorem lead_eq (h : FirstWord sep seps w tail) : lead sep (seps ++ (w ++ tail)) = seps ++ w := by
  have hseps : ∀ c ∈ seps, decide (c = sep) = true := fun c hc => decide_eq_true (h.seps c hc)
  have hword : ∀ c ∈ w, decide (c ≠ sep) = true := fun c hc => decide_eq_true fun heq => h.word (heq ▸ hc)
  obtain ⟨c, w', hw⟩ := List.exists_cons_of_ne_nil h.ne_nil
  have hc : c ≠ sep := fun heq => h.word (by simp [hw, heq])
  have hdrop : (w ++ tail).dropWhile (fun c => decide (c = sep)) = w ++ tail := by
    rw [hw, List.cons_append, List.dropWhile_cons_of_neg (by simpa using hc)]
  have htake : (w ++ tail).takeWhile (fun c => decide (c = sep)) = [] := by
    rw [hw, List.cons_append, List.takeWhile_cons_of_neg (by simpa using hc)]
  have hrest : tail.takeWhile (fun c => decide (c ≠ sep)) = [] := by
    rcases h.tail with rfl | ⟨l, rfl⟩ <;> simp
  rw [lead, List.takeWhile_append_of_pos hseps, List.dropWhile_append_of_pos hseps, hdrop, htake, List.append_nil,
    List.takeWhile_append_of_pos hword, hrest, List.append_nil]

end FirstWord

theorem lead_isPrefix (sep : α) (l : List α) : lead sep l <+: l := by
  have hrest := List.takeWhile_prefix (l := l.dropWhile fun c => decide (c = sep)) fun c => decide (c ≠ sep)
  conv_rhs => rw [← List.takeWhile_append_dropWhile (p := fun c => decide (c = sep)) (l := l)]
  rw [lead, List.prefix_append_right_inj]
  exact hrest

theorem mem_lead (h : l.head? = some sep) : sep ∈ lead sep l := by
  obtain ⟨t, rfl⟩ := List.head?_eq_some_iff.mp h
  rw [lead, List.takeWhile_cons_of_pos (by simp)]
  exact List.mem_append_left _ List.mem_cons_self

/-- The first bytes of a string start with its first word and nothing before it
if there is no separator in front and they go far enough. -/
theorem lead_take_iff (sep : α) (l : List α) (k : Nat) :
    lead sep (l.take k) = (words sep l).headD [] ↔
      (l.take k).head? ≠ some sep ∧ ((words sep l).headD []).length ≤ k := by
  rcases split_word sep l with hseps | ⟨seps, w, tail, rfl, hw⟩
  · have htake : ∀ c ∈ l.take k, c = sep := fun c hc => hseps c (List.mem_of_mem_take hc)
    rw [words_seps hseps, lead_seps htake, List.headD_nil, List.length_nil]
    refine ⟨fun h => ⟨by rw [h]; simp, Nat.zero_le k⟩, fun ⟨hhead, _⟩ => ?_⟩
    cases hl : l.take k with
    | nil => rfl
    | cons c t =>
      rw [hl] at hhead htake
      exact absurd (congrArg some (htake c List.mem_cons_self)) hhead
  · rw [hw.words_eq, List.headD_cons]
    refine ⟨fun h => ⟨fun hhead => hw.word (h ▸ mem_lead hhead), ?_⟩, fun ⟨hhead, hk⟩ => ?_⟩
    · have hle := (lead_isPrefix sep ((seps ++ (w ++ tail)).take k)).length_le
      rw [h, List.length_take] at hle
      omega
    · obtain ⟨k, rfl⟩ : ∃ j, k = j + 1 :=
        ⟨k - 1, by have := List.length_pos_iff.mpr hw.ne_nil; omega⟩
      cases seps with
      | cons c seps =>
        rw [List.cons_append, List.take_succ_cons] at hhead
        exact absurd (congrArg some (hw.seps c List.mem_cons_self)) hhead
      | nil =>
        have hcut : FirstWord sep [] w (tail.take (k + 1 - w.length)) := by
          refine ⟨hw.seps, hw.ne_nil, hw.word, ?_⟩
          rcases hw.tail with rfl | ⟨t, rfl⟩
          · exact .inl List.take_nil
          · cases k + 1 - w.length with
            | zero => exact .inl rfl
            | succ j => exact .inr ⟨t.take j, rfl⟩
        have htake : ([] ++ (w ++ tail)).take (k + 1) = [] ++ (w ++ tail.take (k + 1 - w.length)) := by
          rw [List.nil_append, List.nil_append, List.take_append, List.take_of_length_le hk]
        rw [htake, hcut.lead_eq, List.nil_append]

/-- The bytes of the pieces of a string, each with its terminator. -/
theorem sum_splitOn (sep : α) (l : List α) : ((l.splitOn sep).map fun w => w.length + 1).sum = l.length + 1 := by
  induction l with
  | nil => simp
  | cons c l ih =>
    rw [List.splitOn_cons_eq_if_modifyHead]
    split_ifs with hc
    · rw [List.map_cons, List.sum_cons, ih, List.length_nil, List.length_cons]
      omega
    · obtain ⟨w, ws, hws⟩ := List.exists_cons_of_ne_nil (List.splitOn_ne_nil sep l)
      rw [hws] at ih ⊢
      simp only [List.modifyHead_cons, List.map_cons, List.sum_cons, List.length_cons] at ih ⊢
      omega

/-- The words of a string fit where it does, each with its terminator. -/
theorem sum_words_le (sep : α) (l : List α) : ((words sep l).map fun w => w.length + 1).sum ≤ l.length + 1 := by
  rw [← sum_splitOn sep l]
  exact (List.filter_sublist.map _).sum_le_sum fun _ _ => Nat.zero_le _

/-- A string has at most one word for every two of its bytes. -/
theorem length_words_le (sep : α) (l : List α) : 2 * (words sep l).length ≤ l.length + 1 := by
  refine Nat.le_trans ?_ (sum_words_le sep l)
  have htwo : ∀ w ∈ words sep l, 2 ≤ w.length + 1 := fun w hw =>
    Nat.succ_le_succ (List.length_pos_iff.mpr (mem_words hw).1)
  have hsum := List.card_nsmul_le_sum ((words sep l).map fun w => w.length + 1) 2 (by simpa using htwo)
  rw [List.length_map, smul_eq_mul, Nat.mul_comm] at hsum
  exact hsum

end Words

end PintosKaist.CStr
