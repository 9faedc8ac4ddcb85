/-
A scan of the hash table of `lib/kernel/hash.c` with `hash_first` and
`hash_next`: it gives each element once, in the order of the buckets.
-/
import PintosKaist.LibKernel.HashTable

namespace PintosKaist.LibKernel

open Buckets

variable {α : Type*} {h : Hash α} {b : Nat} {l : List α} {e : α}

/-- The elements of `n` buckets from bucket `b` on. -/
def bucketsFrom (h : Hash α) (b : Nat) : Nat → List α
  | 0 => []
  | n + 1 => h.buckets b ++ bucketsFrom h (b + 1) n

theorem bucketsFrom_succ {n : Nat} : bucketsFrom h b (n + 1) = bucketsFrom h b n ++ h.buckets (b + n) := by
  induction n generalizing b with
  | zero => simp [bucketsFrom]
  | succ n ih =>
    have hb : b + 1 + n = b + (n + 1) := by omega
    rw [bucketsFrom, ih, bucketsFrom, List.append_assoc, hb]

theorem bucketsFrom_zero (n : Nat) : bucketsFrom h 0 n = all n h.buckets := by
  induction n with
  | zero => rfl
  | succ n ih => rw [bucketsFrom_succ, ih, all_succ, Nat.zero_add]

/-- What is still to come for an iterator with `l` left of its bucket. -/
def ahead (h : Hash α) (b : Nat) (l : List α) : List α := l ++ bucketsFrom h (b + 1) (h.bucketCnt - (b + 1))

variable [DecidableEq α]

/-- The loop of `hash_next` stops at the first element that is left, in
whatever bucket that is, and at NULL when none is. -/
theorem skipEmpty_eq {fuel : Nat} (hb : b < h.bucketCnt) (hf : h.bucketCnt < b + fuel) :
    (ahead h b l = [] ∧ ∃ b', skipEmpty h fuel ⟨b, some (beginOf b l)⟩ = some ⟨b', none⟩) ∨
    ∃ b' e l', skipEmpty h fuel ⟨b, some (beginOf b l)⟩ = some ⟨b', some (.elem e)⟩ ∧ b' < h.bucketCnt ∧
      (b' = b ∧ l = e :: l' ∨ h.buckets b' = e :: l') ∧ ahead h b l = e :: ahead h b' l' := by
  induction fuel generalizing b l with
  | zero => omega
  | succ fuel ih =>
    unfold skipEmpty
    cases l with
    | cons e l => exact .inr ⟨b, e, l, if_neg (by simp [beginOf]), hb, .inl ⟨rfl, rfl⟩, rfl⟩
    | nil =>
      have htail : (some (beginOf b ([] : List α))) = some (.tail b) := rfl
      simp only [htail, if_true]
      split
      · rename_i hle
        refine .inl ⟨?_, _, rfl⟩
        have hz : h.bucketCnt - (b + 1) = 0 := by omega
        unfold ahead
        rw [hz]
        rfl
      · rename_i hle
        have hs : h.bucketCnt - (b + 1) = h.bucketCnt - (b + 1 + 1) + 1 := by omega
        have hahead : ahead h b [] = ahead h (b + 1) (h.buckets (b + 1)) := by
          unfold ahead
          rw [hs]
          rfl
        rw [hahead]
        obtain ⟨hnil, b', hrun⟩ | ⟨b', e, l', hrun, hb', hl, ha⟩ :=
          ih (b := b + 1) (l := h.buckets (b + 1)) (by omega) (by omega)
        · exact .inl ⟨hnil, b', hrun⟩
        · refine .inr ⟨b', e, l', hrun, hb', .inr ?_, ha⟩
          obtain ⟨rfl, hl⟩ | hl := hl
          · exact hl
          · exact hl

/-- The iterator is in bucket `b`, and `l` is what comes after its element
there. -/
def At (h : Hash α) (i : HashIterator α) (b : Nat) (l : List α) : Prop :=
  i.bucket = b ∧ b < h.bucketCnt ∧
    ((i.elem = some (.head b) ∧ l = h.buckets b) ∨ ∃ pre e, i.elem = some (.elem e) ∧ h.buckets b = pre ++ e :: l)

theorem nextIn_at {i : HashIterator α} (hd : (elems h).Nodup) (hi : At h i b l) :
    ∃ p, i.elem = some p ∧ nextIn h b p = some (beginOf b l) := by
  obtain ⟨-, hb, ⟨he, rfl⟩ | ⟨pre, e, he, hl⟩⟩ := hi
  · exact ⟨_, he, rfl⟩
  · refine ⟨_, he, ?_⟩
    have hnd : (h.buckets b).Nodup := (List.nodup_flatMap.mp hd).1 b (List.mem_range.mpr hb)
    rw [hl] at hnd
    have hpre : e ∉ pre := fun hm => (List.nodup_append.mp hnd).2.2 e hm e (by simp) rfl
    have hdrop : (pre ++ e :: l).dropWhile (· ≠ e) = e :: l := by
      rw [List.dropWhile_append_of_pos fun x hx => by simpa using fun he : x = e => hpre (he ▸ hx)]
      simp
    unfold nextIn
    simp only [hl, hdrop]

/-- One `hash_next`: NULL when nothing is ahead, else the first element that
is. -/
theorem hashNext_at {i : HashIterator α} (hd : (elems h).Nodup) (hi : At h i b l) :
    (ahead h b l = [] ∧ ∃ b', hashNext h i = some ⟨b', none⟩) ∨
    ∃ b' e l' i', hashNext h i = some i' ∧ i'.elem = some (.elem e) ∧ At h i' b' l' ∧
      ahead h b l = e :: ahead h b' l' := by
  obtain ⟨p, hp, hn⟩ := nextIn_at hd hi
  have hb := hi.2.1
  have hrun : hashNext h i = skipEmpty h (h.bucketCnt + 1) ⟨b, some (beginOf b l)⟩ := by
    unfold hashNext
    rw [hp, hi.1]
    simp only [Option.bind_eq_bind, Option.bind_some, hn]
  rw [hrun]
  obtain ⟨hnil, b', hs⟩ | ⟨b', e, l', hs, hb', hl, ha⟩ :=
    skipEmpty_eq (l := l) hb (show h.bucketCnt < b + (h.bucketCnt + 1) by omega)
  · exact .inl ⟨hnil, b', hs⟩
  · refine .inr ⟨b', e, l', _, hs, rfl, ⟨rfl, hb', .inr ?_⟩, ha⟩
    obtain ⟨rfl, rfl⟩ | hl := hl
    · -- still in the same bucket: what is left of it ends it
      obtain ⟨-, -, ⟨-, hl⟩ | ⟨pre, e', -, hl⟩⟩ := hi
      · exact ⟨[], e, rfl, hl.symm⟩
      · exact ⟨pre ++ [e'], e, rfl, by rw [hl]; simp⟩
    · exact ⟨[], e, rfl, hl⟩

theorem hashScan_at {fuel : Nat} {i : HashIterator α} (hd : (elems h).Nodup) (hi : At h i b l)
    (hf : (ahead h b l).length < fuel) : hashScan h fuel i = some (ahead h b l) := by
  induction fuel generalizing i b l with
  | zero => omega
  | succ fuel ih =>
    unfold hashScan
    obtain ⟨hnil, b', hn⟩ | ⟨b', e, l', i', hn, he, hi', ha⟩ := hashNext_at hd hi
    · simp only [hn, Option.bind_eq_bind, Option.bind_some]
      rw [hnil]
    · rw [ha, List.length_cons] at hf
      simp only [hn, Option.bind_eq_bind, Option.bind_some, he, ih hi' (Nat.lt_of_succ_lt_succ hf), Option.map_some]
      rw [ha]

/-- A scan from `hash_first` on ends, and gives the elements of the table, one
after the other. -/
theorem hashScan_eq {fuel : Nat} (hd : (elems h).Nodup) (hpos : 0 < h.bucketCnt) (hf : (elems h).length < fuel) :
    hashScan h fuel hashFirst = some (elems h) := by
  have hahead : ahead h 0 (h.buckets 0) = elems h := by
    obtain ⟨n, hn⟩ : ∃ n, h.bucketCnt = n + 1 := ⟨h.bucketCnt - 1, by omega⟩
    unfold elems ahead
    rw [← bucketsFrom_zero, hn]
    rfl
  rw [← hahead] at hf ⊢
  exact hashScan_at hd ⟨rfl, hpos, .inl ⟨rfl, rfl⟩⟩ hf

end PintosKaist.LibKernel
