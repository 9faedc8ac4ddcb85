/-
Each operation of `lib/kernel/list.c` does to the sequences what it is named
for, and leaves the other nodes alone.
-/
import PintosKaist.LibKernel.ListRefine

namespace PintosKaist.LibKernel

open Linked

section
variable {ι α : Type*} {h : Heap α} {ls : ι → KList α} {σ : ι → List α} {i : ι} {a b : α} {xs ms ys us vs : List α}

theorem Represents.row (hr : Represents h ls σ) (hσ : σ i = xs ++ ms ++ ys) (hs : Seam (ls i) xs ys us a b vs) :
    Row h (us ++ a :: ms ++ b :: vs) ∧ (us ++ a :: ms ++ b :: vs).Nodup := by
  have hc := hr.closed i
  rw [hσ, hs.nodes ms] at hc
  exact ⟨hc.row, hc.nodup⟩

theorem Represents.adj (hr : Represents h ls σ) (hσ : σ i = xs ++ ys) (hs : Seam (ls i) xs ys us a b vs) :
    Adj h a b := by
  have hc := hr.closed i
  rw [hσ, hs.nodes_nil] at hc
  exact hc.row.adj

end

variable {ι α : Type*} [DecidableEq ι] [DecidableEq α]
variable {h : Heap α} {ls : ι → KList α} {σ : ι → List α} {i j : ι}
variable {a b e before first last : α} {xs ms ys us vs : List α}

theorem listInsert_represents (hr : Represents h ls σ) (hσ : σ i = xs ++ ys)
    (hb : (ys ++ [(ls i).tail]).head? = some before) (he : Free ls σ e) :
    ∃ h', listInsert h before e = some h' ∧ Represents h' ls (Function.update σ i (xs ++ e :: ys)) ∧
      ∀ x, x ∉ nodes (ls i) (σ i) → x ≠ e → h' x = h x := by
  obtain ⟨us, a, b, vs, hs⟩ := exists_seam (ls i) xs ys
  obtain rfl : b = before := by simpa [hs.right] using hb
  have hn := hs.nodes_nil
  rw [← hσ] at hn
  have ha : a ∈ nodes (ls i) (σ i) := by rw [hn]; simp
  have hbm : b ∈ nodes (ls i) (σ i) := by rw [hn]; simp
  have heb : e ≠ b := fun h => he i (h ▸ hbm)
  have hea : e ≠ a := fun h => he i (h ▸ ha)
  have hrow : Row h [e] := List.isChain_singleton e
  have hpaste : Represents (link (link h a e) e b) ls (Function.update σ i (xs ++ [e] ++ ys)) :=
    hr.paste hrow (List.nodup_singleton e) (by simpa using he) hσ hs rfl rfl
  rw [List.append_assoc] at hpaste
  refine ⟨_, listInsert_eq (hr.adj hσ hs).2 heb hea, hpaste, fun x hx hxe => ?_⟩
  rw [link_of_ne hxe (ne_of_mem_of_not_mem hbm hx).symm, link_of_ne (ne_of_mem_of_not_mem ha hx).symm hxe]

theorem listRemove_represents (hr : Represents h ls σ) (hσ : σ i = xs ++ e :: ys)
    (hb : (ys ++ [(ls i).tail]).head? = some b) :
    ∃ h', listRemove h e = some (some b, h') ∧ Represents h' ls (Function.update σ i (xs ++ ys)) ∧
      ∀ x, x ∉ nodes (ls i) (σ i) → h' x = h x := by
  obtain ⟨us, a, b', vs, hs⟩ := exists_seam (ls i) xs ys
  obtain rfl : b' = b := by simpa [hs.right] using hb
  have hσ' : σ i = xs ++ [e] ++ ys := by rw [hσ]; simp
  obtain ⟨hrow, hnd⟩ := hr.row hσ' hs
  have hn := hs.nodes [e]
  rw [← hσ'] at hn
  have ha : a ∈ nodes (ls i) (σ i) := by rw [hn]; simp
  have hbm : b' ∈ nodes (ls i) (σ i) := by rw [hn]; simp
  have hae : Adj h a e := by
    rw [List.append_assoc] at hrow
    exact hrow.adj
  have heb : Adj h e b' := by
    have hrow' : Row h ((us ++ [a]) ++ e :: b' :: vs) := by simpa using hrow
    exact hrow'.adj
  have hne : e ≠ a := by
    rintro rfl
    simp [List.nodup_append] at hnd
  refine ⟨_, listRemove_eq hae.2 heb.1 hne, hr.cut hσ' hs, fun x hx => ?_⟩
  exact link_of_ne (ne_of_mem_of_not_mem ha hx).symm (ne_of_mem_of_not_mem hbm hx).symm

theorem listPushFront_represents (hr : Represents h ls σ) (he : Free ls σ e) :
    ∃ h', listPushFront h (ls i) e = some h' ∧ Represents h' ls (Function.update σ i (e :: σ i)) ∧
      ∀ x, x ∉ nodes (ls i) (σ i) → x ≠ e → h' x = h x := by
  obtain ⟨n, ns, hn⟩ : ∃ n ns, σ i ++ [(ls i).tail] = n :: ns := List.exists_cons_of_ne_nil (by simp)
  have hbegin : listBegin h (ls i) = some n := by
    have hrow := (hr.closed i).row
    unfold nodes at hrow
    rw [hn] at hrow
    exact (row_cons_cons.mp hrow).1.1
  obtain ⟨h', hrun, hrep, hf⟩ := listInsert_represents hr (List.nil_append (σ i)).symm (by rw [hn]; rfl) he
  refine ⟨h', ?_, hrep, hf⟩
  unfold listPushFront
  rw [hbegin]
  exact hrun

theorem listPushBack_represents (hr : Represents h ls σ) (he : Free ls σ e) :
    ∃ h', listPushBack h (ls i) e = some h' ∧ Represents h' ls (Function.update σ i (σ i ++ [e])) ∧
      ∀ x, x ∉ nodes (ls i) (σ i) → x ≠ e → h' x = h x :=
  listInsert_represents hr (List.append_nil (σ i)).symm rfl he

omit [DecidableEq ι] in
/-- A list that holds something is not empty, and its ends are the first and
the last of what it holds. -/
theorem Represents.ends (hr : Represents h ls σ) (hf : (σ i).head? = some a) (hl : (σ i).getLast? = some b) :
    listEmpty h (ls i) = false ∧ (h (ls i).head).next = some a ∧ (h (ls i).tail).prev = some b := by
  obtain ⟨xs, hx⟩ := List.head?_eq_some_iff.mp hf
  obtain ⟨ys, hy⟩ := List.getLast?_eq_some_iff.mp hl
  have hc := hr.closed i
  have hnd := hc.nodup
  have hfirst : (h (ls i).head).next = some a := by
    have hrow := hc.row
    unfold nodes at hrow
    rw [hx] at hrow
    exact (row_cons_cons.mp hrow).1.1
  have hlast : (h (ls i).tail).prev = some b := by
    have hrow := hc.row
    unfold nodes at hrow
    rw [hy, List.append_assoc, ← List.cons_append] at hrow
    exact hrow.adj.2
  have hne : a ≠ (ls i).tail := by
    intro he
    unfold nodes at hnd
    rw [hx, he] at hnd
    simp at hnd
  refine ⟨?_, hfirst, hlast⟩
  unfold listEmpty listBegin listEnd
  rw [hfirst]
  simpa using hne

theorem listPopFront_represents (hr : Represents h ls σ) (hσ : σ i = e :: xs) :
    ∃ h', listPopFront h (ls i) = some (some e, h') ∧ Represents h' ls (Function.update σ i xs) ∧
      ∀ x, x ∉ nodes (ls i) (σ i) → h' x = h x := by
  obtain ⟨b, hb⟩ : ∃ b, (σ i).getLast? = some b :=
    ⟨_, List.getLast?_eq_some_getLast (by rw [hσ]; exact List.cons_ne_nil e xs)⟩
  obtain ⟨hne, hfirst, -⟩ := hr.ends (a := e) (by rw [hσ]; rfl) hb
  obtain ⟨n, hn⟩ : ∃ n, (xs ++ [(ls i).tail]).head? = some n := by cases xs <;> exact ⟨_, rfl⟩
  obtain ⟨h', hrun, hrep, hf⟩ := listRemove_represents hr (show σ i = [] ++ e :: xs from hσ) hn
  refine ⟨h', ?_, hrep, hf⟩
  unfold listPopFront listFront
  rw [hne, hfirst]
  simp [hrun]

theorem listPopBack_represents (hr : Represents h ls σ) (hσ : σ i = xs ++ [e]) :
    ∃ h', listPopBack h (ls i) = some (some e, h') ∧ Represents h' ls (Function.update σ i xs) ∧
      ∀ x, x ∉ nodes (ls i) (σ i) → h' x = h x := by
  obtain ⟨a, ha⟩ : ∃ a, (σ i).head? = some a := by rw [hσ]; cases xs <;> exact ⟨_, rfl⟩
  obtain ⟨hne, -, hlast⟩ := hr.ends (b := e) ha (by rw [hσ]; simp)
  obtain ⟨h', hrun, hrep, hf⟩ := listRemove_represents hr hσ rfl
  rw [List.append_nil] at hrep
  refine ⟨h', ?_, hrep, hf⟩
  unfold listPopBack listBack
  rw [hne, hlast]
  simp [hrun]

/-! ## `list_splice` -/

omit [DecidableEq ι] in
theorem Represents.has_prev (hr : Represents h ls σ) (hb : before ∈ σ j ++ [(ls j).tail]) :
    ∃ p, (h before).prev = some p := by
  obtain ⟨cs, ds, ns, hσ, hds, -⟩ := insertBefore_eq hb
  obtain ⟨us, a, b, vs, hs⟩ := exists_seam (ls j) cs ds
  obtain ⟨rfl, -⟩ : b = before ∧ vs = ns := by simpa [hs.right] using hds
  exact ⟨a, (hr.adj hσ hs).2⟩

omit [DecidableEq ι] [DecidableEq α] in
theorem Represents.interior (hr : Represents h ls σ) (he : e ∈ σ i) : ∃ a b, Adj h a e ∧ Adj h e b := by
  obtain ⟨xs, ys, hσ⟩ := List.append_of_mem he
  obtain ⟨us, a, b, vs, hs⟩ := exists_seam (ls i) xs (e :: ys)
  obtain ⟨us', a', b', vs', hs'⟩ := exists_seam (ls i) (xs ++ [e]) ys
  obtain ⟨rfl, -⟩ : b = e ∧ vs = ys ++ [(ls i).tail] := by
    have hr := hs.right
    simp only [List.cons_append, List.cons.injEq] at hr
    exact ⟨hr.1.symm, hr.2.symm⟩
  obtain rfl : a' = b := by
    have hl := hs'.left
    rw [← List.cons_append] at hl
    simpa using (List.append_inj_right' hl rfl).symm
  exact ⟨a, b', hr.adj hσ hs, hr.adj (by rw [hσ]; simp) hs'⟩

theorem insertBefore_nil : insertBefore before [] xs = xs := by
  unfold insertBefore
  rw [List.append_nil]
  exact List.takeWhile_append_dropWhile

omit [DecidableEq α] in
theorem mem_nodes_cut (hσ : σ i = xs ++ ms ++ ys) (he : e ∈ nodes (ls j) (Function.update σ i (xs ++ ys) j)) :
    e ∈ nodes (ls j) (σ j) := by
  by_cases hji : j = i
  · subst hji
    rw [Function.update_self] at he
    unfold nodes at he ⊢
    rw [hσ]
    simp only [List.mem_append, List.mem_cons] at he ⊢
    tauto
  · rwa [Function.update_of_ne hji] at he

omit [DecidableEq ι] [DecidableEq α] in
/-- The nodes of the range are apart from their outer neighbours. -/
theorem Represents.range_ne (hr : Represents h ls σ) (hσ : σ i = xs ++ ms ++ ys)
    (hs : Seam (ls i) xs ys us a b vs) (he : e ∈ ms) : e ≠ a ∧ e ≠ b := by
  have hnd := (hr.row hσ hs).2
  rw [List.nodup_append, List.nodup_append, List.nodup_cons] at hnd
  obtain ⟨⟨-, ⟨ha, -⟩, -⟩, -, hb⟩ := hnd
  exact ⟨fun h => ha (h ▸ he), hb e (by simp [he]) b (by simp)⟩

/-- A range that is cut out is a row of free nodes. -/
theorem Represents.cut_free (hr : Represents h ls σ) (hσ : σ i = xs ++ ms ++ ys)
    (hs : Seam (ls i) xs ys us a b vs) :
    Row (link h a b) ms ∧ ms.Nodup ∧ ∀ y ∈ ms, Free ls (Function.update σ i (xs ++ ys)) y := by
  obtain ⟨hrow, hnd⟩ := hr.row hσ hs
  have he : us ++ a :: ms ++ b :: vs = us ++ ([a] ++ (ms ++ b :: vs)) := by simp
  refine ⟨?_, ?_, fun y hy k hk => ?_⟩
  · rw [he] at hrow
    exact hrow.right.right.left.frame fun y hy =>
      link_of_ne (hr.range_ne hσ hs hy).1 (hr.range_ne hσ hs hy).2
  · rw [he] at hnd
    exact ((hnd.of_append_right).of_append_right).of_append_left
  · by_cases hki : k = i
    · subst hki
      rw [Function.update_self, hs.nodes_nil] at hk
      have hperm : (us ++ a :: ms ++ b :: vs).Perm (us ++ a :: b :: vs ++ ms) := by
        have hcomm := List.perm_append_comm_assoc (us ++ [a]) ms (b :: vs)
        have hcomm' : (us ++ a :: ms ++ b :: vs).Perm (ms ++ (us ++ a :: b :: vs)) := by simpa using hcomm
        exact hcomm'.trans List.perm_append_comm
      exact (List.nodup_append.mp (hperm.nodup_iff.mp hnd)).2.2 y hk y hy rfl
    · rw [Function.update_of_ne hki] at hk
      exact hr.not_mem (by rw [hσ]; simp [nodes, hy]) hki hk

theorem listSplice_represents (hr : Represents h ls σ) (hσ : σ i = xs ++ ms ++ ys)
    (hf : (ms ++ ys ++ [(ls i).tail]).head? = some first) (hl : (ys ++ [(ls i).tail]).head? = some last)
    (hb : before ∈ σ j ++ [(ls j).tail]) (hm : before ∉ ms) :
    ∃ h', listSplice h before first last = some h' ∧
      Represents h' ls (let σ' := Function.update σ i (xs ++ ys)
        Function.update σ' j (insertBefore before ms (σ' j))) ∧
      ∀ x, x ∉ nodes (ls i) (σ i) → x ∉ nodes (ls j) (σ j) → h' x = h x := by
  obtain ⟨x, hx⟩ := hr.has_prev hb
  by_cases hms : ms = []
  · subst hms
    obtain rfl : first = last := Option.some.inj (hf.symm.trans hl)
    refine ⟨h, listSplice_self hx, ?_, fun _ _ _ => rfl⟩
    rw [List.append_nil] at hσ
    simp only [insertBefore_nil, Function.update_eq_self, ← hσ]
    exact hr
  obtain ⟨us, a, b, vs, hs⟩ := exists_seam (ls i) xs ys
  obtain rfl : b = last := by simpa [hs.right] using hl
  obtain ⟨p, ms₁, hp⟩ := List.exists_cons_of_ne_nil hms
  obtain rfl : p = first := by simpa [hp] using hf
  obtain ⟨ms₂, q, hq⟩ : ∃ ms₂ q, ms = ms₂ ++ [q] := ⟨_, _, (List.dropLast_append_getLast hms).symm⟩
  have hpm : p ∈ ms := by rw [hp]; exact List.mem_cons_self
  have hqm : q ∈ ms := by rw [hq]; simp
  have hap : Adj h a p := by
    have hrow := (hr.row hσ hs).1
    rw [List.append_assoc, hp] at hrow
    exact hrow.adj
  have hqb : Adj h q b := by
    have hrow := (hr.row hσ hs).1
    have he : us ++ a :: (ms₂ ++ [q]) ++ b :: vs = (us ++ a :: ms₂) ++ q :: b :: vs := by simp
    rw [hq, he] at hrow
    exact hrow.adj
  obtain ⟨-, p', -, hpp'⟩ := hr.interior (i := i) (e := p) (by rw [hσ]; simp [hpm])
  obtain ⟨q', -, hqq', -⟩ := hr.interior (i := i) (e := q) (by rw [hσ]; simp [hqm])
  -- the range is out of its list, and `before` is still in its own
  have hr₁ := hr.cut hσ hs
  obtain ⟨hrow₁, hnd, hfree⟩ := hr.cut_free hσ hs
  have hb₁ : before ∈ Function.update σ i (xs ++ ys) j ++ [(ls j).tail] := by
    by_cases hji : j = i
    · subst hji
      rw [Function.update_self]
      rw [hσ] at hb
      simp only [List.mem_append] at hb ⊢
      tauto
    · rwa [Function.update_of_ne hji]
  obtain ⟨cs, ds, ns, hσ₁, hds, hins⟩ := insertBefore_eq hb₁
  obtain ⟨us', c, b', vs', hs'⟩ := exists_seam (ls j) cs ds
  obtain ⟨rfl, -⟩ : b' = before ∧ vs' = ns := by simpa [hs'.right] using hds
  have hn := hs'.nodes_nil
  rw [← hσ₁] at hn
  have hcm : c ∈ nodes (ls j) (Function.update σ i (xs ++ ys) j) := by rw [hn]; simp
  have hbm : b' ∈ nodes (ls j) (Function.update σ i (xs ++ ys) j) := by rw [hn]; simp
  have hqc : q ≠ c := fun h => hfree q hqm j (h ▸ hcm)
  have hhead : ms.head? = some p := by rw [hp]; rfl
  have hlast : ms.getLast? = some q := by rw [hq]; simp
  have hadj := hr₁.adj hσ₁ hs'
  have hpaste := hr₁.paste hrow₁ hnd hfree hσ₁ hs' hhead hlast
  refine ⟨_, listSplice_eq hx (hr.range_ne hσ hs hpm).2 hqb.2 hap.2 (by rw [hpp'.1]; rfl) hqb.1
    (by rw [hqq'.2]; rfl) (hr.range_ne hσ hs hqm).1 hadj.2 (ne_of_mem_of_not_mem hpm hm) hqc, ?_,
    fun y hyi hyj => ?_⟩
  · simp only [hins]
    exact hpaste
  · have hne : ∀ z ∈ nodes (ls i) (σ i), y ≠ z := fun z hz => (ne_of_mem_of_not_mem hz hyi).symm
    have hya : y ≠ a := hne a (by rw [hσ, hs.nodes ms]; simp)
    have hyb : y ≠ b := hne b (by rw [hσ, hs.nodes ms]; simp)
    have hyp : y ≠ p := hne p (by rw [hσ]; simp [nodes, hpm])
    have hyq : y ≠ q := hne q (by rw [hσ]; simp [nodes, hqm])
    have hyc : y ≠ c := (ne_of_mem_of_not_mem (mem_nodes_cut hσ hcm) hyj).symm
    have hyb' : y ≠ b' := (ne_of_mem_of_not_mem (mem_nodes_cut hσ hbm) hyj).symm
    rw [link_of_ne hyq hyb', link_of_ne hyc hyp, link_of_ne hya hyb]

end PintosKaist.LibKernel
