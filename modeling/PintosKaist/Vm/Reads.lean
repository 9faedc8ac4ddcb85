/-
What a process reads at an address: a load tried once more after its fault
was handled. For a resident page that is the memory behind it; for another it
is what a claim brings in from the file or the slot behind the page, given a
free frame.
-/
import PintosKaist.Vm.Wf

namespace PintosKaist.Vm

variable {s s' : State} {p q f kva va : Nat} {page : Page} {frame : Frame} {o : Fin pgsize}

/-- The byte process `p` reads at `addr`. -/
def readByte (s : State) (p addr : Nat) : Option Byte :=
  match loadByte s p addr with
  | some b => some b
  | none => do
    let (ok, s') ← vmTryHandleFault s p addr 0 false true
    if ok then loadByte s' p addr else none

/-- What `uninit_initialize` puts in a zeroed page. -/
def firstBytes (inodes : Nat → Inode) (init : Bool) (aux : Option FileInfo) : Option Bytes :=
  if init then aux.map fun fi => segmentBytes (inodes fi.file) fi else some zeroPage

/-- What `swap_in` puts in a zeroed page, when it succeeds. -/
def backing (inodes : Nat → Inode) (disk : Nat → Sector) : Kind → Option Bytes
  | .uninit _ init aux => firstBytes inodes init aux
  | .anon swapIdx _ => swapIdx.map fun i => readSlot disk i zeroPage
  | .file aux => do
    let fi ← aux
    let bytes := (inodes fi.file).readAt fi.readBytes fi.ofs
    if bytes.length = fi.readBytes ∧ fi.readBytes ≤ pgsize then some (overlay bytes zeroPage) else none

theorem addr_div (va : Nat) (o : Fin pgsize) : (va * pgsize + o.val) / pgsize = va := by
  rw [Nat.add_comm, Nat.add_mul_div_right _ _ (by decide), Nat.div_eq_of_lt o.2, Nat.zero_add]

theorem pgOfs_addr (va : Nat) (o : Fin pgsize) : pgOfs (va * pgsize + o.val) = o := by
  refine Fin.ext ?_
  show (va * pgsize + o.val) % pgsize = o.val
  rw [Nat.add_comm, Nat.add_mul_mod_self_right, Nat.mod_eq_of_lt o.2]

theorem loadByte_addr : loadByte s p (va * pgsize + o.val) = (mapsTo (s.pte p va)).map fun kva => s.mem kva o := by
  simp only [loadByte, addr_div, pgOfs_addr, permits, mapsTo]
  cases (s.pte p va).present <;> simp

/-- The entry of a page of the table. -/
theorem Ptes.eq (h : Ptes s none) (hs : Spts s) (hq : q ∈ s.spt p) (hpage : s.pages q = some page) :
    mapsTo (s.pte p page.va) = kvaOf s q := by
  rw [h p page.va (by simp), hs.hashFind_iff.mpr ⟨hq, vaOf_eq hpage⟩]
  rfl

/-- `vm_do_claim_page` with a free frame. -/
theorem vmDoClaimPage_free {pool : Bitmap} (hscan : s.userPool.scanAndFlip = some (kva, pool))
    (hpage : s.pages q = some page) :
    vmDoClaimPage s p q =
      swapIn (mapFrame { s.setMem kva zeroPage with userPool := pool } p q page kva page.writable) q kva := by
  have hlink := pushFrame_link { s.setMem kva zeroPage with userPool := pool } p q page kva page.writable
  simp only [vmDoClaimPage, vmGetFrame, hscan, Option.bind_eq_bind, Option.bind_some]
  simp only [pushFrame, State.setFrame, Function.update_self, Option.bind_some] at hlink ⊢
  show Option.bind (s.pages q) _ = _
  rw [hpage, Option.bind_some, hlink]

/-- The first claim of a page, by what it was allocated with. -/
theorem swapIn_uninit {type : VmType} {init : Bool} {aux : Option FileInfo} (hpage : s.pages q = some page)
    (hk : page.kind = .uninit type init aux) (hf : page.frame.bind s.frames = some frame)
    (hz : s.mem frame.kva = zeroPage) :
    swapIn s q frame.kva = (firstBytes s.inodes init aux).map fun b =>
      (true, (s.setPage q { page with kind := pageInitializer type aux }).setMem frame.kva b) := by
  simp only [swapIn, hpage, hk, Option.bind_eq_bind, Option.bind_some, uninitInitialize, firstBytes]
  cases init with
  | false =>
    simp only [Bool.false_eq_true, if_false, Option.map_some, Option.some.injEq, Prod.mk.injEq, true_and]
    have hself : Function.update s.mem frame.kva zeroPage = s.mem := Function.update_eq_self_iff.mpr hz.symm
    simp only [State.setMem, State.setPage, hself]
  | true =>
    simp only [if_true, lazyLoadSegment, Option.bind_eq_bind]
    cases aux with
    | none => rfl
    | some fi =>
      simp only [Option.bind_some, State.setPage, Function.update_self, Option.map_some]
      show Option.bind (page.frame.bind s.frames) _ = _
      rw [hf]
      rfl

/-- A resident page reads as the memory behind it. -/
theorem Wf.readByte_resident (h : Wf s) (hq : q ∈ s.spt p) (hpage : s.pages q = some page) (hf : page.frame = some f)
    (hframe : s.frames f = some frame) : readByte s p (page.va * pgsize + o.val) = some (s.mem frame.kva o) := by
  rw [readByte, loadByte_addr, h.ptes.eq h.links.spts hq hpage, kvaOf_eq hpage hf hframe]
  rfl

theorem Spts.sptFindPage (h : Spts s) (hq : q ∈ s.spt p) (hpage : s.pages q = some page) :
    sptFindPage s p (page.va * pgsize + o.val) = some q := by
  have h0 := h.va_ne_zero hq hpage
  have hpos : 0 < page.va * pgsize := Nat.mul_pos (Nat.pos_of_ne_zero h0) (by decide)
  rw [Vm.sptFindPage, if_neg (by omega), addr_div]
  exact h.hashFind_iff.mpr ⟨hq, vaOf_eq hpage⟩

/-- `swap_in` into a zeroed page brings in what is behind the page, or
fails. -/
theorem swapIn_backing (hpage : s.pages q = some page) (hf : page.frame.bind s.frames = some frame)
    (hz : s.mem frame.kva = zeroPage) :
    (∃ t, swapIn s q frame.kva = some (true, t) ∧ backing s.inodes s.swapDisk page.kind = some (t.mem frame.kva) ∧
      t.procs = s.procs) ∨
    (backing s.inodes s.swapDisk page.kind = none ∧ ∀ t, swapIn s q frame.kva ≠ some (true, t)) := by
  cases hk : page.kind with
  | uninit type init aux =>
    rw [swapIn_uninit hpage hk hf hz, backing]
    cases firstBytes s.inodes init aux with
    | none => exact .inr ⟨rfl, fun t => by simp⟩
    | some b => exact .inl ⟨_, rfl, by simp [State.setMem], rfl⟩
  | anon swapIdx aux =>
    simp only [swapIn, hpage, hk, Option.bind_eq_bind, Option.bind_some, backing]
    cases swapIdx with
    | none => exact .inr ⟨rfl, fun t => by simp [anonSwapIn]⟩
    | some i => exact .inl ⟨_, rfl, by simpa [State.setMem, State.setPage] using readSlot_any .., rfl⟩
  | file aux =>
    simp only [swapIn, hpage, hk, Option.bind_eq_bind, Option.bind_some, backing, fileBackedSwapIn]
    cases aux with
    | none => exact .inr ⟨rfl, fun t => by simp⟩
    | some fi =>
      simp only [Option.bind_some]
      by_cases hlen : ((s.inodes fi.file).readAt fi.readBytes fi.ofs).length = fi.readBytes
      · by_cases hle : fi.readBytes ≤ pgsize
        · rw [if_neg (not_not.mpr hlen), if_neg (Nat.not_lt.mpr hle), if_pos ⟨hlen, hle⟩]
          exact .inl ⟨_, rfl, by simp [State.setMem], rfl⟩
        · rw [if_neg (not_not.mpr hlen), if_pos (Nat.lt_of_not_le hle), if_neg fun h => hle h.2]
          exact .inr ⟨rfl, fun t => by simp⟩
      · rw [if_pos hlen, if_neg fun h => hlen h.1]
        exact .inr ⟨rfl, fun t => by simp⟩

/-- A page without a frame reads as what is behind it. -/
theorem Wf.readByte_absent (h : Wf s) (hfree : 0 < s.userPool.free) (hq : q ∈ s.spt p) (hpage : s.pages q = some page)
    (hf : page.frame = none) :
    readByte s p (page.va * pgsize + o.val) =
      if kernBase ≤ page.va * pgsize + o.val then none
      else (backing s.inodes s.swapDisk page.kind).map fun b => b o := by
  have hpte : mapsTo (s.pte p page.va) = none := by
    rw [h.ptes.eq h.links.spts hq hpage]
    simp [kvaOf, frameOf, hpage, hf]
  obtain ⟨kva, pool, hscan⟩ := Bitmap.exists_scanAndFlip hfree
  rw [readByte, loadByte_addr, hpte]
  simp only [Option.map_none, vmTryHandleFault]
  split
  · rfl
  rw [h.links.spts.sptFindPage hq hpage]
  simp only [hpage, Option.bind_eq_bind, Option.bind_some, Bool.not_true, Bool.and_false,
    Bool.false_eq_true, if_false, vmDoClaimPage_free hscan hpage]
  have hpg : (mapFrame { s.setMem kva zeroPage with userPool := pool } p q page kva page.writable).pages q =
      some { page with frame := some s.nextFrame } := by simp [mapFrame, State.setMem]
  have hfr : (Option.bind (some s.nextFrame)
      (mapFrame { s.setMem kva zeroPage with userPool := pool } p q page kva page.writable).frames) =
      some ⟨kva, some q, 1⟩ := by simp [mapFrame, State.setMem]
  rcases swapIn_backing hpg hfr (by simp [mapFrame, State.setMem]) with ⟨t, ht, hb, hprocs⟩ | ⟨hb, hfail⟩
  · have hpte' : t.pte p page.va = ⟨kva, true, page.writable, false⟩ := by
      rw [State.pte, hprocs]
      have := pte_pml4SetPage { s.setMem kva zeroPage with userPool := pool } p page.va kva page.writable p page.va
      rwa [if_pos ⟨rfl, rfl⟩] at this
    change backing s.inodes s.swapDisk page.kind = some (t.mem kva) at hb
    rw [ht, hb]
    simp [loadByte_addr, hpte', mapsTo]
  · change backing s.inodes s.swapDisk page.kind = none at hb
    rw [hb, Option.map_none, Option.bind_eq_none_iff]
    rintro ⟨ok, t⟩ ht
    cases ok with
    | false => rfl
    | true => exact absurd ht (hfail t)

/-! ## What a claim leaves alone -/

/-- A frame in use is not the one taken from the pool. -/
theorem Wf.kva_ne {pool : Bitmap} (h : Wf s) (hscan : s.userPool.scanAndFlip = some (kva, pool))
    (hq : q ∈ s.spt p) (hf : frameOf s q = some f) (hframe : s.frames f = some frame) : frame.kva ≠ kva := by
  rintro rfl
  have hused := (h.pool.used f (h.links.resident hq hf).1 frame hframe).2.1
  rw [(Bitmap.scanAndFlip_some hscan).2.1] at hused
  exact absurd hused (by simp)

end PintosKaist.Vm
