/-
Stores through a mapped file. A store sets the dirty bit in the page table of
the process that makes it, and the page is written back when it is evicted, on
`munmap` and at exit, if that bit is set in the page table of the process that
is running.

`Synced` is what makes the bytes come back: of the bytes stored through the
mapping, each is in the file, or in a dirty page of the mapping.
-/
import PintosKaist.Vm.Moves

namespace PintosKaist.Vm

/-- A mapping: the process, the file, and the distance from an offset of the
file to the address it is mapped at. -/
structure Mapping where
  pid : Nat
  file : Nat
  base : Int
  deriving DecidableEq, Repr

/-- The page at `va` is one of the mapping. -/
def Mapping.Has (m : Mapping) (va : Nat) (fi : FileInfo) : Prop :=
  fi.file = m.file ∧ (va * pgsize : Int) = fi.ofs + m.base

instance (m : Mapping) (va : Nat) (fi : FileInfo) : Decidable (m.Has va fi) := inferInstanceAs (Decidable (_ ∧ _))

/-- A frame without its count. -/
def slot (s : State) (f : Nat) : Option (Option Nat × Nat) := (s.frames f).map fun frame => (frame.page, frame.kva)

/-- The page `q` of `p` is file-backed and resident, at `va` and in a frame of
its own. -/
def Loaded (s : State) (p q va : Nat) (fi : FileInfo) (kva : Nat) : Prop :=
  q ∈ s.spt p ∧ ∃ page f, s.pages q = some page ∧ page.va = va ∧ page.kind = .file (some fi) ∧
    page.frame = some f ∧ slot s f = some (some q, kva)

/-- What is known of the file and the mapping after the stores `last`. -/
structure Synced (m : Mapping) (s : State) (last : Nat → Option Byte) : Prop where
  sole : ∀ {p q va fi kva}, Loaded s p q va fi kva → fi.file = m.file → (s.pte p va).dirty = true →
    p = m.pid ∧ m.Has va fi
  mem : ∀ {q va fi kva}, Loaded s m.pid q va fi kva → m.Has va fi → ∀ (o : Fin pgsize) (b : Byte),
    o.val < fi.readBytes → last (fi.ofs + o) = some b → fi.ofs + o < (s.inodes m.file).data.length → s.mem kva o = b
  file : ∀ i b, last i = some b → i < (s.inodes m.file).data.length → (s.inodes m.file).data[i]? = some b ∨
    ∃ q va fi kva, ∃ o : Fin pgsize, Loaded s m.pid q va fi kva ∧ m.Has va fi ∧ (s.pte m.pid va).dirty = true ∧
      o.val < fi.readBytes ∧ i = fi.ofs + o
  loads : ∀ {p q page}, q ∈ s.spt p → s.pages q = some page → page.kind.loads = true
  allowed : (s.inodes m.file).denyWrite = false

variable {m : Mapping} {s s' s₁ : State} {last : Nat → Option Byte} {p c q f kva va : Nat} {page page' : Page}
  {fi : FileInfo} {b : Bool} {x : Option Nat}

/-! ## Resident pages -/

theorem slot_some (h : slot s f = some (some q, kva)) :
    ∃ frame, s.frames f = some frame ∧ frame.page = some q ∧ frame.kva = kva := by
  obtain ⟨frame, hframe, e⟩ := Option.map_eq_some_iff.mp h
  exact ⟨frame, hframe, congrArg Prod.fst e, congrArg Prod.snd e⟩

/-- A count is not seen. -/
theorem slot_recount {old : Frame} {n : Int} (hold : s.frames f = some old)
    (hf : s'.frames = Function.update s.frames f (some { old with rCnt := n })) (g : Nat) : slot s' g = slot s g := by
  rw [slot, slot, hf, Function.update_apply]
  split
  next he => rw [he, hold]; rfl
  next => rfl

theorem Loaded.congr (hspt : ∀ p, s'.spt p = s.spt p) (hp : s'.pages = s.pages) (hf : s'.frames = s.frames) :
    Loaded s' p q va fi kva ↔ Loaded s p q va fi kva := by
  rw [Loaded, Loaded, hspt, hp, funext fun f => show slot s' f = slot s f by rw [slot, hf]; rfl]

theorem Loaded.kind (h : Loaded s p q va fi kva) (hpage : s.pages q = some page) :
    page.kind = .file (some fi) ∧ page.va = va := by
  obtain ⟨-, page', f, hpage', hva, hk, -⟩ := h
  obtain rfl := Option.some.inj (hpage.symm.trans hpage')
  exact ⟨hk, hva⟩

/-- Two resident pages of a process at one address are one. -/
theorem Loaded.eq_of_va {q' kva' : Nat} {fi' : FileInfo} (h : Loaded s p q va fi kva) (h' : Loaded s p q' va fi' kva')
    (hs : Spts s) : q' = q ∧ fi' = fi ∧ kva' = kva := by
  obtain ⟨hq, page, f, hpage, hva, hk, hf, hslot⟩ := h
  obtain ⟨hq', page', f', hpage', hva', hk', hf', hslot'⟩ := h'
  obtain rfl := hs.eq_of_va hq hq' rfl hpage hpage' (hva'.trans hva.symm)
  obtain rfl := Option.some.inj (hpage.symm.trans hpage')
  rw [hk, Kind.file.injEq, Option.some.injEq] at hk'
  obtain rfl := Option.some.inj (hf.symm.trans hf')
  rw [hslot, Option.some.injEq, Prod.mk.injEq] at hslot'
  exact ⟨rfl, hk'.symm, hslot'.2.symm⟩

theorem Loaded.not_inHand (h : Loaded s p q va fi kva) (hand : InHand s c) : kva ≠ c := by
  obtain ⟨-, -, f, -, -, -, -, hslot⟩ := h
  obtain ⟨frame, hframe, -, rfl⟩ := slot_some hslot
  exact hand.nobody f frame hframe

/-- A file-backed page with a frame has it for itself. -/
theorem Tenancy.loaded (h : Tenancy s x) (hq : q ∈ s.spt p) (hx : x ≠ some q) (hpage : s.pages q = some page)
    (hk : page.kind = .file (some fi)) (hf : page.frame = some f) :
    ∃ frame, s.frames f = some frame ∧ frame.kva = (s.pte p page.va).kva ∧ Loaded s p q page.va fi frame.kva := by
  obtain ⟨-, -, -, ⟨frame, hframe, hback, hkva, -⟩ | ⟨-, hanon, -⟩⟩ := (h.page p q hq hx page hpage).resident f hf
  · exact ⟨frame, hframe, hkva, hq, page, f, hpage, rfl, hk, hf, by rw [slot, hframe, ← hback]; rfl⟩
  · rw [hk] at hanon
    cases hanon

/-- A byte of the mapping is in one page of the table. -/
theorem Mapping.Has.va_eq {va' : Nat} {fi' : FileInfo} {o o' : Fin pgsize} (h : m.Has va fi) (h' : m.Has va' fi')
    (he : fi'.ofs + o'.val = fi.ofs + o.val) : va' = va := by
  have ho := o.2
  have ho' := o'.2
  obtain ⟨-, h⟩ := h
  obtain ⟨-, h'⟩ := h'
  simp only [pgsize] at *
  omega

/-! ## Write-back -/

theorem Inode.length_writeAt (ino : Inode) (b : Bytes) (size ofs : Nat) :
    (ino.writeAt b size ofs).data.length = ino.data.length := by
  rw [Inode.writeAt]
  split
  · rfl
  · exact List.length_mapIdx

theorem Inode.denyWrite_writeAt (ino : Inode) (b : Bytes) (size ofs : Nat) :
    (ino.writeAt b size ofs).denyWrite = ino.denyWrite := by
  rw [Inode.writeAt]
  split <;> rfl

/-- A byte that was written. -/
theorem Inode.getElem?_writeAt {ino : Inode} {b : Bytes} {size ofs : Nat} (hd : ino.denyWrite = false) (o : Fin pgsize)
    (ho : o.val < size) (hlt : ofs + o < ino.data.length) :
    (ino.writeAt b size ofs).data[ofs + o.val]? = some (b o) := by
  have hin : ofs ≤ ofs + o.val ∧ ofs + o.val < ofs + size ∧ ofs + o.val - ofs < pgsize := by
    have := o.2
    omega
  have ho' : (⟨ofs + o.val - ofs, hin.2.2⟩ : Fin pgsize) = o := Fin.ext (by simp)
  rw [Inode.writeAt, hd, if_neg Bool.false_ne_true, List.getElem?_mapIdx, List.getElem?_eq_getElem hlt, Option.map_some,
    dif_pos hin, ho']

/-- A byte that was not. -/
theorem Inode.getElem?_writeAt_ne {ino : Inode} {b : Bytes} {size ofs i : Nat}
    (hne : ∀ o : Fin pgsize, o.val < size → i ≠ ofs + o) : (ino.writeAt b size ofs).data[i]? = ino.data[i]? := by
  rw [Inode.writeAt]
  split
  · rfl
  · have hout : ¬ (ofs ≤ i ∧ i < ofs + size ∧ i - ofs < pgsize) := by
      intro ⟨h₁, h₂, h₃⟩
      exact hne ⟨i - ofs, h₃⟩ (by show i - ofs < size; omega) (by show i = ofs + (i - ofs); omega)
    rw [List.getElem?_mapIdx]
    simp only [dif_neg hout, Option.map_id']

/-- The page of memory written to the file, and the entry clean. -/
def written (s : State) (p va : Nat) (fi : FileInfo) (kva : Nat) : State :=
  { s with
    inodes := Function.update s.inodes fi.file
      ((s.inodes fi.file).writeAt (s.mem kva) fi.readBytes fi.ofs) }.setPte p va { s.pte p va with dirty := false }

theorem pte_written (p' va' : Nat) : (written s p va fi kva).pte p' va' =
    if p' = p ∧ va' = va then { s.pte p va with dirty := false } else s.pte p' va' := State.pte_setPte ..

theorem inodes_written : (written s p va fi kva).inodes =
    Function.update s.inodes fi.file ((s.inodes fi.file).writeAt (s.mem kva) fi.readBytes fi.ofs) := rfl

theorem length_written (i : Nat) :
    ((written s p va fi kva).inodes i).data.length = (s.inodes i).data.length := by
  rw [inodes_written]
  by_cases he : i = fi.file
  · rw [he, Function.update_self, Inode.length_writeAt]
  · rw [Function.update_of_ne he]

/-- A write-back does nothing, or writes a dirty page and cleans it. -/
theorem writeBack_cases {aux : Option FileInfo} (h : writeBack s p page aux = some s') :
    ∃ fi, aux = some fi ∧
      (((s.pte p page.va).dirty = false ∧ s' = s) ∨
      ((s.pte p page.va).dirty = true ∧ ∃ f frame, page.frame = some f ∧ s.frames f = some frame ∧
        s' = written s p page.va fi frame.kva)) := by
  simp only [writeBack, Option.bind_eq_bind, Option.bind_eq_some_iff] at h
  obtain ⟨fi, rfl, h⟩ := h
  refine ⟨fi, rfl, ?_⟩
  split at h
  next hd =>
    simp only [Option.bind_eq_some_iff, Option.some.injEq] at h
    obtain ⟨frame, ⟨f, hf, hframe⟩, rfl⟩ := h
    exact .inr ⟨hd, f, frame, hf, hframe, rfl⟩
  next hd => exact .inl ⟨by simpa using hd, (Option.some.inj h).symm⟩

/-! ## What keeps the bytes -/

/-- **Only the page `q` changes.** It was clean if it was resident, and if it is
now, it is clean and holds the bytes of its file. -/
theorem Synced.change (h : Synced m s last) (hs' : Spts s')
    (hspt : ∀ {p q'}, q' ≠ q → (q' ∈ s'.spt p ↔ q' ∈ s.spt p)) (hpages : ∀ {q'}, q' ≠ q → s'.pages q' = s.pages q')
    (hslots : ∀ {p q' page f kva}, q' ≠ q → q' ∈ s.spt p → s.pages q' = some page → page.kind.isFile = true →
      page.frame = some f → (slot s' f = some (some q', kva) ↔ slot s f = some (some q', kva)))
    (hdirty : ∀ {p q' va fi kva}, q' ≠ q → Loaded s p q' va fi kva → (s'.pte p va).dirty = (s.pte p va).dirty)
    (hmem : ∀ {p q' va fi kva}, q' ≠ q → Loaded s p q' va fi kva → s'.mem kva = s.mem kva)
    (hold : ∀ {p va fi kva}, Loaded s p q va fi kva → (s.pte p va).dirty = false)
    (hnew : ∀ {p va fi kva}, Loaded s' p q va fi kva → (s'.pte p va).dirty = false ∧ ∀ o : Fin pgsize,
      o.val < fi.readBytes → fi.ofs + o < (s'.inodes fi.file).data.length →
        (s'.inodes fi.file).data[fi.ofs + o.val]? = some (s'.mem kva o))
    (hi : s'.inodes m.file = s.inodes m.file)
    (hloads : ∀ {p page}, q ∈ s'.spt p → s'.pages q = some page → page.kind.loads = true) : Synced m s' last := by
  have hL : ∀ {p q' va fi kva}, q' ≠ q → (Loaded s' p q' va fi kva ↔ Loaded s p q' va fi kva) := by
    intro p q' va fi kva hne
    rw [Loaded, Loaded, hspt hne, hpages hne]
    refine and_congr_right fun hq' => exists_congr fun page => exists_congr fun f => ?_
    refine and_congr_right fun hpage => and_congr_right fun _ => and_congr_right fun hk => and_congr_right fun hf => ?_
    exact hslots hne hq' hpage (by rw [hk]; rfl) hf
  refine ⟨fun {p q' va fi kva} hl hfile hd => ?_, fun {q' va fi kva} hl hhas o b ho hlast hlt => ?_,
    fun i b hlast hlt => ?_, fun {p q' page} hq' hpage => ?_, hi ▸ h.allowed⟩
  · by_cases he : q' = q
    · subst he
      rw [(hnew hl).1] at hd
      cases hd
    · have hl := (hL he).mp hl
      exact h.sole hl hfile (hdirty he hl ▸ hd)
  · by_cases he : q' = q
    · -- the byte was in the file: a dirty page that has it is at the same address
      subst he
      obtain ⟨-, hbytes⟩ := hnew hl
      rw [hhas.1] at hbytes
      have hread := hbytes o ho hlt
      rw [hi] at hlt hread
      obtain hdata | ⟨q₂, va₂, fi₂, kva₂, o₂, hl₂, hhas₂, hd₂, ho₂, hoff⟩ := h.file _ b hlast hlt
      · exact Option.some.inj (hread.symm.trans hdata)
      · have hne : q₂ ≠ q' := by
          rintro rfl
          rw [hold hl₂] at hd₂
          cases hd₂
        obtain rfl := hhas.va_eq hhas₂ hoff.symm
        exact absurd (hl.eq_of_va ((hL hne).mpr hl₂) hs').1 hne
    · have hl := (hL he).mp hl
      rw [hi] at hlt
      rw [hmem he hl]
      exact h.mem hl hhas o b ho hlast hlt
  · rw [hi] at hlt ⊢
    refine (h.file i b hlast hlt).imp id ?_
    rintro ⟨q₂, va₂, fi₂, kva₂, o, hl₂, hhas, hd₂, ho, rfl⟩
    have hne : q₂ ≠ q := by
      rintro rfl
      rw [hold hl₂] at hd₂
      cases hd₂
    exact ⟨q₂, va₂, fi₂, kva₂, o, (hL hne).mpr hl₂, hhas, (hdirty hne hl₂).trans hd₂, ho, rfl⟩
  · by_cases he : q' = q
    · subst he
      exact hloads hq' hpage
    · exact h.loads ((hspt he).mp hq') (hpages he ▸ hpage)

/-- **The write-back of a resident page** cleans it and keeps the bytes. -/
theorem Synced.writeBack (h : Synced m s last) (ht : Tenancy s x) (hl : Loaded s p q page.va fi kva)
    (hpage : s.pages q = some page) (hw : writeBack s p page (some fi) = some s') :
    Synced m s' last ∧ (s'.pte p page.va).dirty = false := by
  obtain ⟨fi', e, ⟨hd, rfl⟩ | ⟨hd, f, frame, hf, hframe, rfl⟩⟩ := writeBack_cases hw
  · exact ⟨h, hd⟩
  obtain rfl := Option.some.inj e
  have hkva : frame.kva = kva := by
    obtain ⟨-, page', f', hpage', -, -, hf', hslot⟩ := hl
    obtain rfl := Option.some.inj (hpage.symm.trans hpage')
    obtain rfl := Option.some.inj (hf.symm.trans hf')
    rw [slot, hframe, Option.map_some, Option.some.injEq, Prod.mk.injEq] at hslot
    exact hslot.2
  subst hkva
  have hcongr : ∀ {p' q' va' fi' kva'}, Loaded (written s p page.va fi frame.kva) p' q' va' fi' kva' →
      Loaded s p' q' va' fi' kva' := (Loaded.congr (State.spt_setPte _ _ _ _) rfl rfl).mp
  have hdirty : ∀ {p' va'}, ((written s p page.va fi frame.kva).pte p' va').dirty = true →
      (s.pte p' va').dirty = true := by
    intro p' va' hd'
    rw [pte_written] at hd'
    split at hd'
    · cases hd'
    · exact hd'
  refine ⟨⟨fun hl' hfile hd' => h.sole (hcongr hl') hfile (hdirty hd'), fun hl' hhas o b ho hlast hlt => ?_,
    fun i b hlast hlt => ?_, fun {p' q' pg} hq hpg => h.loads (p := p') ?_ hpg, ?_⟩,
    by rw [pte_written, if_pos ⟨rfl, rfl⟩]⟩
  · rw [length_written] at hlt
    exact h.mem (hcongr hl') hhas o b ho hlast hlt
  · rw [length_written] at hlt
    by_cases hcov : fi.file = m.file ∧ ∃ o : Fin pgsize, o.val < fi.readBytes ∧ i = fi.ofs + o
    · -- the byte was in this page, and is written now
      obtain ⟨hfile, o, ho, rfl⟩ := hcov
      obtain ⟨rfl, hhas⟩ := h.sole hl hfile hd
      left
      rw [inodes_written, ← hfile, Function.update_self]
      rw [← hfile] at hlt
      rw [Inode.getElem?_writeAt (hfile ▸ h.allowed) o ho hlt, h.mem hl hhas o b ho hlast (hfile ▸ hlt)]
    · have hsame : ((written s p page.va fi frame.kva).inodes m.file).data[i]? = (s.inodes m.file).data[i]? := by
        rw [inodes_written]
        by_cases hfile : fi.file = m.file
        · rw [hfile, Function.update_self, Inode.getElem?_writeAt_ne fun o ho hi => hcov ⟨hfile, o, ho, hi⟩]
        · rw [Function.update_of_ne (Ne.symm hfile)]
      rw [hsame]
      refine (h.file i b hlast hlt).imp id ?_
      rintro ⟨q', va', fi', kva', o, hl', hhas, hd', ho, rfl⟩
      refine ⟨q', va', fi', kva', o, (Loaded.congr (State.spt_setPte _ _ _ _) rfl rfl).mpr hl', hhas, ?_, ho, rfl⟩
      rw [pte_written, if_neg]
      · exact hd'
      · rintro ⟨rfl, rfl⟩
        obtain ⟨-, rfl, -⟩ := hl.eq_of_va hl' ht.spts
        exact hcov ⟨hhas.1, o, ho, rfl⟩
  · rwa [written, State.spt_setPte] at hq
  · rw [inodes_written]
    by_cases hfile : m.file = fi.file
    · rw [hfile, Function.update_self, Inode.denyWrite_writeAt, ← hfile]
      exact h.allowed
    · rw [Function.update_of_ne hfile]
      exact h.allowed

/-- No page changes. -/
theorem Synced.same (h : Synced m s last) (hs' : Spts s') (hspt : ∀ p, s'.spt p = s.spt p) (hp : s'.pages = s.pages)
    (hslot : ∀ f, slot s' f = slot s f)
    (hdirty : ∀ {p q va fi kva}, Loaded s p q va fi kva → (s'.pte p va).dirty = (s.pte p va).dirty)
    (hmem : ∀ {p q va fi kva}, Loaded s p q va fi kva → s'.mem kva = s.mem kva)
    (hi : s'.inodes m.file = s.inodes m.file) : Synced m s' last := by
  have hnone : ∀ {p}, s'.nextPage ∉ s.spt p := by
    intro p hq
    rw [← hspt] at hq
    exact absurd (hs'.lt p _ hq) (Nat.lt_irrefl _)
  refine h.change (q := s'.nextPage) hs' (fun _ => by rw [hspt]) (fun _ => by rw [hp])
    (fun _ _ _ _ _ => by rw [hslot])
    (fun _ hl => hdirty hl) (fun _ hl => hmem hl) (fun hl => absurd hl.1 hnone) (fun hl => ?_) hi fun hq => ?_
  · exact absurd (hspt _ ▸ hl.1) hnone
  · exact absurd (hspt _ ▸ hq) hnone

/-! ## Eviction -/

theorem dirty_clear (p' va' : Nat) : ((pml4ClearPage s p va).pte p' va').dirty = (s.pte p' va').dirty := by
  rw [pte_pml4ClearPage]
  split
  next he => rw [he.1, he.2]
  next => rfl

/-- A page whose frame goes was not resident and file-backed, or was clean. -/
theorem Synced.evict {v : Nat} {victim : Frame} (h : Synced m s last) (hs' : Spts s')
    (hclean : ∀ {p va fi kva}, Loaded s p q va fi kva → (s.pte p va).dirty = false)
    (hvictim : s.frames v = some victim) (hback : victim.page = some q) (hspt : ∀ p, s'.spt p = s.spt p)
    (hpages : s'.pages = Function.update s.pages q (some page')) (hnone : page'.frame = none)
    (hk : page'.kind.loads = true) (hf : s'.frames = Function.update s.frames v none)
    (hdirty : ∀ p va, (s'.pte p va).dirty = (s.pte p va).dirty) (hm : s'.mem = s.mem)
    (hi : s'.inodes m.file = s.inodes m.file) : Synced m s' last := by
  refine h.change hs' (fun _ => by rw [hspt]) (fun hne => by rw [hpages, Function.update_of_ne hne])
    (fun {p q' page f kva} hne _ _ _ _ => ?_) (fun _ _ => hdirty ..) (fun _ _ => by rw [hm]) hclean
    (fun hl => ?_) hi fun _ hpage => ?_
  · rw [slot, slot, hf]
    by_cases he : f = v
    · subst he
      rw [Function.update_self, hvictim]
      simp [hback, Ne.symm hne]
    · rw [Function.update_of_ne he]
  · obtain ⟨-, pg, f, hpg, -, -, hpf, -⟩ := hl
    rw [hpages, Function.update_self, Option.some.injEq] at hpg
    subst hpg
    exact absurd (hnone.symm.trans hpf) (by simp)
  · rw [hpages, Function.update_self, Option.some.injEq] at hpage
    exact hpage ▸ hk

/-- **Eviction by the owner** keeps the bytes: a dirty page goes to its file. -/
theorem Synced.room (h : Synced m s last) (ht : Tenancy s x) (hown : EvictOwn s p) (hr : Room s p s₁ kva) :
    Synced m s₁ last := by
  have hsame := SameSpts.room hr
  have hs₁ := ht.spts.same hsame
  cases hr with
  | free hscan =>
    obtain ⟨-, hfree, -⟩ := Bitmap.scanAndFlip_some hscan
    refine h.same hs₁ (fun _ => rfl) rfl (fun _ => rfl) (fun _ => rfl) (fun {p q va fi k} hl => ?_) rfl
    obtain ⟨-, -, f, -, -, -, -, hslot⟩ := hl
    obtain ⟨frame, hframe, -, rfl⟩ := slot_some hslot
    refine Function.update_of_ne (fun he => ?_) ..
    rw [← he, (ht.used f frame hframe).2] at hfree
    cases hfree
  | anon hfull hlist hvictim hback hpage hframe hkind hslot =>
    refine h.evict hs₁ (fun hl => ?_) hvictim hback hsame.spt rfl rfl rfl rfl (fun _ _ => dirty_clear ..) rfl rfl
    cases hkind.symm.trans (hl.kind hpage).1
  | @file v q rest victim page aux sw hfull hlist hvictim hback hpage hframe hkind hwrite =>
    have hq := hown (Bitmap.free_eq_zero hfull) _ (by rw [hlist]; rfl) _ hvictim _ hback
    obtain ⟨fi, rfl, -⟩ := writeBack_cases hwrite
    have hl : Loaded s p q page.va fi victim.kva :=
      ⟨hq, page, v, hpage, rfl, hkind, hframe, by rw [slot, hvictim, ← hback]; rfl⟩
    obtain ⟨hw, hclean⟩ := h.writeBack ht hl hpage hwrite
    obtain ⟨hs, hspt, -⟩ := writeBack_spec hwrite
    have hpages : sw.pages = s.pages := by rw [hs]
    have hframes : sw.frames = s.frames := by rw [hs]
    refine hw.evict hs₁ (fun {p' va fi kva} hl' => ?_) (hframes ▸ hvictim) hback (fun p' => spt_pml4ClearPage sw p _ p')
      (by rw [hpages]) rfl (by rw [hkind]; rfl) (by rw [hframes]) (fun p' va => dirty_clear ..) rfl rfl
    have hq' := hl'.1
    rw [hspt] at hq'
    obtain rfl := ht.spts.apart p' p q hq' hq
    obtain ⟨-, rfl⟩ := hl'.kind (hpages ▸ hpage)
    exact hclean

/-! ## A page comes in -/

theorem Inode.getElem?_readAt {ino : Inode} {n ofs : Nat} (o : Fin pgsize) (ho : o.val < n)
    (hlt : ofs + o.val < ino.data.length) (b : Bytes) :
    ino.data[ofs + o.val]? = some (overlay (ino.readAt n ofs) b o) := by
  have hget : (ino.readAt n ofs)[o.val]? = ino.data[ofs + o.val]? := by
    rw [Inode.readAt, List.getElem?_take_of_lt ho, List.getElem?_drop]
  rw [overlay, List.getD_eq_getElem?_getD, hget, List.getElem?_eq_getElem hlt, Option.getD_some]

theorem getElem?_segmentBytes {ino : Inode} (o : Fin pgsize) (ho : o.val < fi.readBytes)
    (hlt : fi.ofs + o.val < ino.data.length) : ino.data[fi.ofs + o.val]? = some (segmentBytes ino fi o) := by
  have hofs : fi.ofs ≤ ino.data.length := by omega
  simp only [segmentBytes, if_pos hofs]
  refine Inode.getElem?_readAt o ?_ hlt zeroPage
  have := o.2
  omega

/-- The page `q` gets the page of memory in hand; if it is file-backed now, that
holds the bytes of the file. -/
theorem Synced.attach (h : Synced m s last) (ht : Tenancy s (some q)) (hand : InHand s kva) (hq : q ∈ s.spt p)
    (hpage : s.pages q = some page) (hout : ∀ {p va fi kva}, ¬ Loaded s p q va fi kva) (hsame : SameSpts s s')
    (hpages : s'.pages = Function.update s.pages q (some page')) (hva : page'.va = page.va)
    (hfr : page'.frame = some s.nextFrame)
    (hf : s'.frames = Function.update s.frames s.nextFrame (some ⟨kva, some q, 1⟩))
    (hmem : ∀ k, k ≠ kva → s'.mem k = s.mem k) (hi : s'.inodes = s.inodes)
    (hclean : (s'.pte p page.va).dirty = false)
    (he : ∀ p' va', ¬ (p' = p ∧ va' = page.va) → s'.pte p' va' = s.pte p' va')
    (hbytes : ∀ fi, page'.kind = .file (some fi) → ∀ o : Fin pgsize, o.val < fi.readBytes →
      fi.ofs + o < (s.inodes fi.file).data.length → (s.inodes fi.file).data[fi.ofs + o.val]? = some (s'.mem kva o))
    (hk : page'.kind.loads = true) : Synced m s' last := by
  have hslot : ∀ f, slot s' f = if f = s.nextFrame then some (some q, kva) else slot s f := by
    intro f
    rw [slot, slot, hf, Function.update_apply]
    split <;> rfl
  have hnext : slot s s.nextFrame = none := by
    rw [slot, Option.map_eq_none_iff]
    cases hfr : s.frames s.nextFrame with
    | none => rfl
    | some frame => exact absurd (ht.used _ frame hfr).1 (Nat.lt_irrefl _)
  refine h.change (ht.spts.same hsame) (fun _ => by rw [hsame.spt])
    (fun hne => by rw [hpages, Function.update_of_ne hne]) (fun {p q' page f kva} hne _ _ _ _ => ?_)
    (fun {p' q' va fi k} hne hl => ?_)
    (fun _ hl => hmem _ (hl.not_inHand hand)) (fun hl => absurd hl hout) (fun {p' va fi k} hl => ?_) (by rw [hi])
    fun _ hpg => ?_
  · rw [hslot]
    split
    next e => simp [e, hnext, Ne.symm hne]
    next => rfl
  · obtain ⟨hq', pg, f, hpg, rfl, -⟩ := hl
    rw [he]
    rintro ⟨rfl, hva'⟩
    exact hne (ht.spts.eq_of_va hq hq' rfl hpage hpg hva')
  · obtain ⟨hq', pg, f, hpg, rfl, hkind, hpf, hsl⟩ := hl
    rw [hsame.spt] at hq'
    obtain rfl := ht.spts.apart p' p q hq' hq
    rw [hpages, Function.update_self, Option.some.injEq] at hpg
    subst hpg
    obtain rfl := Option.some.inj (hfr.symm.trans hpf)
    rw [hslot, if_pos rfl, Option.some.injEq, Prod.mk.injEq] at hsl
    obtain ⟨-, rfl⟩ := hsl
    rw [hva, hi]
    exact ⟨hclean, hbytes fi hkind⟩
  · rw [hpages, Function.update_self, Option.some.injEq] at hpg
    exact hpg ▸ hk

/-- A page with no frame is not resident. -/
theorem Loaded.not_of_frame (hpage : s.pages q = some page) (hnone : page.frame = none) : ¬ Loaded s p q va fi kva := by
  intro ⟨_, page', f, hpage', _, _, hf, _⟩
  obtain rfl := Option.some.inj (hpage.symm.trans hpage')
  exact absurd (hnone.symm.trans hf) (by simp)

theorem Loaded.not_of_kind (hpage : s.pages q = some page) (hk : page.kind.isFile = false) :
    ¬ Loaded s p q va fi kva := by
  intro hl
  rw [(hl.kind hpage).1] at hk
  cases hk

theorem pageInitializer_file {type : VmType} {aux : Option FileInfo} (h : pageInitializer type aux = .file (some fi)) :
    type = .file ∧ aux = some fi := by
  cases type <;> simp [pageInitializer] at h
  exact ⟨rfl, h⟩

theorem loads_of_not_uninit {k : Kind} (h : k.isUninit = false) : k.loads = true := by
  cases k with
  | uninit => cases h
  | anon | file => rfl

/-- A file-backed page that was filled holds the bytes of its file. -/
theorem Filled.bytes (hf : Filled s q kva page b s') (hpage : s.pages q = some page) (hk : page.kind.loads = true)
    (hpages : s'.pages = Function.update s.pages q (some page')) (hfile : page'.kind = .file (some fi)) (o : Fin pgsize)
    (ho : o.val < fi.readBytes) (hlt : fi.ofs + o < (s.inodes fi.file).data.length) :
    (s.inodes fi.file).data[fi.ofs + o.val]? = some (s'.mem kva o) := by
  have hself : s'.pages = s.pages → page'.kind = page.kind := by
    intro e
    have hq := congrFun hpages q
    rw [e, hpage, Function.update_self, Option.some.injEq] at hq
    rw [hq]
  have hset : ∀ {k : Kind}, s'.pages = Function.update s.pages q (some { page with kind := k }) → page'.kind = k := by
    intro k e
    have hq := congrFun hpages q
    rw [e, Function.update_self, Function.update_self, Option.some.injEq] at hq
    rw [← hq]
  cases hf with
  | @bare type aux hkind =>
    obtain ⟨rfl, -⟩ := pageInitializer_file ((hset rfl).symm.trans hfile)
    rw [hkind] at hk
    cases hk
  | @load type fi' hkind =>
    obtain ⟨-, e⟩ := pageInitializer_file ((hset rfl).symm.trans hfile)
    obtain rfl := Option.some.inj e
    show _ = some (Function.update s.mem kva _ kva o)
    rw [Function.update_self]
    exact getElem?_segmentBytes o ho hlt
  | swap hkind => cases (hset rfl).symm.trans hfile
  | resident hkind => cases hkind.symm.trans ((hself rfl).symm.trans hfile)
  | @short fi' hkind hlen =>
    rw [hself rfl, hkind, Kind.file.injEq, Option.some.injEq] at hfile
    subst hfile
    show _ = some (Function.update s.mem kva _ kva o)
    rw [Function.update_self]
    exact Inode.getElem?_readAt o ho hlt _
  | @reload fi' hkind hlen hle =>
    rw [hself rfl, hkind, Kind.file.injEq, Option.some.injEq] at hfile
    subst hfile
    show _ = some (Function.update s.mem kva _ kva o)
    rw [Function.update_self]
    exact Inode.getElem?_readAt o ho hlt _

end PintosKaist.Vm
