/-
`file_backed_swap_out` and `file_backed_swap_in` (`vm/file.c`): a page of a
mapping that was evicted comes back.

The first fault goes through `lazy_load_segment`, which reads what there is of
the file and is content with it. The second one wants every byte of the record:
a page that the file ends in, or ends before, comes in once only
(`mmap_reloads_iff`).
-/
import PintosKaist.Userprog.LoadSegment
import PintosKaist.Userprog.Mmap

namespace PintosKaist.Reload

open Filesys hiding inodeReadAt inodeWriteAt
open FileBytes LazyPages LoadSegment While
open Vm (pgsize)

/-- `file_backed_swap_out`: the disk. Only a dirty page is written back. -/
def fileBackedSwapOut (n : Nat) (d : Disk) (inode : StructInode) (malloc : Option Buffer) (fi : LazyPages.FileInfo)
    (dirty : Bool) (kva : Buffer) : Option Disk :=
  if dirty then (inodeWriteAt n d inode malloc kva (offT fi.readBytes) fi.ofs).map Prod.snd else some d

/-- `file_backed_swap_in`. -/
def fileBackedSwapIn (n : Nat) (d : Disk) (inode : StructInode) (malloc : Option Buffer) (fi : LazyPages.FileInfo)
    (kva : Buffer) : Option (Bool × Buffer) :=
  (inodeReadAt n d inode malloc kva (offT fi.readBytes) fi.ofs).map fun (bytesRead, kva) =>
    if (bytesRead : Int) ≠ offT fi.readBytes then (false, kva)
    else (true, memset kva fi.readBytes (sizeT (pgsize - fi.readBytes)))

variable {n : Nat}

/-- A clean page that is evicted and faulted in again is the page that was first
loaded, whatever is in the frames. -/
def Reloads (x : Files n) (fi : LazyPages.FileInfo) : Prop :=
  ∀ kva first, lazyLoadSegment n x.disk (x.inode fi.file) (some x.malloc) fi kva = some (true, first) →
    ∀ d, fileBackedSwapOut n x.disk (x.inode fi.file) (some x.malloc) fi false first = some d →
      ∀ fresh kva', ∃ again, fileBackedSwapIn n d (x.inode fi.file) (some fresh) fi kva' = some (true, again) ∧
        ∀ o < pgsize, again o = first o

/-- A file page that waits for its first fault, and reloads. -/
def PageReloads (x : Files n) (page : Option Page) : Prop :=
  ∃ writable fi, page = some ⟨writable, .uninit .file (some fi)⟩ ∧ Reloads x fi

/-! ## Two reads of the same bytes -/

variable {d : Disk} {i : Inode} {fi : LazyPages.FileInfo} {size offset : Int} {fresh : Buffer}

/-- Two loops of `inode_read_at` that are at the same place, and have read the
same bytes. -/
structure SameRead (s t : ReadLoop) : Prop where
  size : s.size = t.size
  offset : s.offset = t.offset
  bytesRead : s.bytesRead = t.bytesRead
  buffer : ∀ k < s.bytesRead, s.buffer k = t.buffer k

theorem SameRead.advance {s t : ReadLoop} (h : SameRead s t) (chunkSize : Int) (b : Buffer) (a : Nat)
    (bounce bounce' : Option Buffer) :
    SameRead (s.advance chunkSize (memcpy s.buffer s.bytesRead b a chunkSize.toNat) bounce)
      (t.advance chunkSize (memcpy t.buffer t.bytesRead b a chunkSize.toNat) bounce') := by
  refine ⟨?_, ?_, ?_, fun k hk => ?_⟩
  · simp only [ReadLoop.advance, h.size]
  · simp only [ReadLoop.advance, h.offset]
  · simp only [ReadLoop.advance, h.bytesRead]
  · simp only [ReadLoop.advance] at hk
    simp only [ReadLoop.advance, memcpy, patch, ← h.bytesRead]
    by_cases hin : s.bytesRead ≤ k
    · rw [if_pos ⟨hin, hk⟩, if_pos ⟨hin, hk⟩]
    · rw [if_neg fun hc => hin hc.1, if_neg fun hc => hin hc.1]
      exact h.buffer k (Nat.lt_of_not_le hin)

theorem readTurn_alike (fresh fresh' : Buffer) {s t : ReadLoop} (h : SameRead s t) :
    Alike SameRead (readTurn n d i (some fresh) s) (readTurn n d i (some fresh') t) := by
  obtain ⟨b, hb⟩ := bounce_found s.bounce fresh
  obtain ⟨b', hb'⟩ := bounce_found t.bounce fresh'
  simp only [readTurn, ← h.size, ← h.offset, hb, hb', diskRead]
  split_ifs with hstop hfull hin hneg hin
  · exact .done h
  · have hwhole := h.advance (chunkAt i s.size s.offset).size
      (fun k => d ((chunkAt i s.size s.offset).sector * secBytes + k)) 0 s.bounce t.bounce
    simp only [hfull.2] at hwhole ⊢
    exact .yield hwhole
  · exact .fail
  · exact .fail
  · exact .yield (h.advance ..)
  · exact .fail

/-- **A read does not depend on the buffer** it goes to, nor on the bounce
buffer. -/
theorem inodeReadAt_alike {inode : StructInode} {buffer b : Buffer} {m : Nat} (fresh' buffer' : Buffer)
    (h : inodeReadAt n d inode (some fresh) buffer size offset = some (m, b)) :
    ∃ b', inodeReadAt n d inode (some fresh') buffer' size offset = some (m, b') ∧ ∀ k < m, b' k = b k := by
  have hstart : SameRead ⟨size, offset, 0, buffer, none⟩ ⟨size, offset, 0, buffer', none⟩ :=
    ⟨rfl, rfl, rfl, fun k hk => absurd hk (Nat.not_lt_zero k)⟩
  have hrel : Option.Rel SameRead
      (whileLoop (readTurn n d inode.data (some fresh)) (size.toNat + 1) ⟨size, offset, 0, buffer, none⟩)
      (whileLoop (readTurn n d inode.data (some fresh')) (size.toNat + 1) ⟨size, offset, 0, buffer', none⟩) :=
    whileLoop_alike (fun s t h => readTurn_alike fresh fresh' h) hstart
  simp only [inodeReadAt, Option.map_eq_some_iff, Prod.mk.injEq] at h ⊢
  obtain ⟨s, hs, rfl, rfl⟩ := h
  rw [hs] at hrel
  cases ht : whileLoop (readTurn n d inode.data (some fresh')) (size.toNat + 1) ⟨size, offset, 0, buffer', none⟩ with
  | none =>
    rw [ht] at hrel
    cases hrel
  | some t =>
    rw [ht] at hrel
    cases hrel with
    | some hst => exact ⟨t.buffer, ⟨t, rfl, hst.bytesRead.symm, rfl⟩, fun k hk => (hst.buffer k hk).symm⟩

/-! ## A read of bytes that are all there -/

/-- A loop of `inode_read_at` that has everything it wants in front of it, from
the start of a sector on. -/
structure Ahead (i : Inode) (total : Nat) (s : ReadLoop) : Prop where
  size_nonneg : 0 ≤ s.size
  left : (s.bytesRead : Int) + s.size = total
  ahead : 0 < s.size → s.size ≤ offT (i.length - s.offset) ∧ s.offset % sectorSize = 0

theorem Ahead.chunk {total : Nat} {s : ReadLoop} (h : Ahead i total s) (hsize : 0 < s.size) :
    (chunkAt i s.size s.offset).size = min s.size sectorSize := by
  obtain ⟨hleft, halign⟩ := h.ahead hsize
  have hmod : s.offset.tmod sectorSize = 0 := Int.tmod_eq_zero_of_dvd (Int.dvd_of_emod_eq_zero halign)
  simp only [chunkAt, hmod]
  split_ifs <;> omega

theorem Ahead.advance {total : Nat} {s : ReadLoop} (h : Ahead i total s) (hsize : 0 < s.size) (buffer : Buffer)
    (bounce : Option Buffer) : Ahead i total (s.advance (chunkAt i s.size s.offset).size buffer bounce) := by
  obtain ⟨hin, halign⟩ := h.ahead hsize
  have hleft := h.left
  rw [h.chunk hsize]
  refine ⟨?_, ?_, fun hmore => ?_⟩
  · simp only [ReadLoop.advance]
    omega
  · simp only [ReadLoop.advance, sectorSize]
    omega
  · simp only [ReadLoop.advance, sectorSize] at hmore halign ⊢
    have hmin : min s.size (512 : Int) = 512 := by omega
    rw [hmin] at hmore ⊢
    unfold offT at hin ⊢
    omega

theorem readTurn_ahead (fresh : Buffer) {total : Nat} {s : ReadLoop} (h : Ahead i total s) :
    Keeps (readTurn n d i (some fresh)) (Ahead i total) (fun s => s.bytesRead = total) s := by
  obtain ⟨b, hb⟩ := bounce_found s.bounce fresh
  have hleft := h.left
  have h₀ := h.size_nonneg
  by_cases hsize : 0 < s.size
  · have hchunk := h.chunk hsize
    have hgo : ¬ (s.size ≤ 0 ∨ (chunkAt i s.size s.offset).size ≤ 0) := by
      rw [hchunk]
      simp only [sectorSize]
      omega
    simp only [Keeps, readTurn, if_neg hgo, hb, diskRead]
    split_ifs
    · exact h.advance hsize ..
    · trivial
    · trivial
    · exact h.advance hsize ..
    · trivial
  · simp only [Keeps, readTurn, if_pos (Or.inl (Int.not_lt.mp hsize))]
    omega

/-- **A read of what the file has is whole**, if it ends: also when the offset
has wrapped around. -/
theorem inodeReadAt_whole {deny : Int} {buffer b : Buffer} {m total : Nat} (h₁ : (total : Int) < 2 ^ 31)
    (halign : offset % sectorSize = 0) (hin : (total : Int) ≤ offT (i.length - offset))
    (h : inodeReadAt n d ⟨i, deny⟩ (some fresh) buffer (offT total) offset = some (m, b)) : m = total := by
  have hw : offT (total : Int) = total := offT_of_range (by omega) h₁
  rw [hw] at h
  simp only [inodeReadAt, Option.map_eq_some_iff, Prod.mk.injEq] at h
  obtain ⟨s, hs, rfl, -⟩ := h
  have hkeep : ∀ s, Ahead i total s →
      Keeps (readTurn n d i (some fresh)) (Ahead i total) (fun s => s.bytesRead = total) s :=
    fun s h => readTurn_ahead fresh h
  have hstart : Ahead i total ⟨total, offset, 0, buffer, none⟩ :=
    ⟨Int.natCast_nonneg _, Int.zero_add _, fun _ => ⟨hin, halign⟩⟩
  have hdone := whileLoop_post hkeep hstart hs
  exact hdone

/-- A read of more than the file has is short. -/
theorem inodeReadAt_past {i : Extent n} {total : Nat} (d : Disk) (deny : Int) (fresh buffer : Buffer)
    (hpos : 0 < total) (h₁ : total ≤ pgsize) (hr : -2 ^ 31 ≤ offset ∧ offset < 2 ^ 31) (halign : offset % pgsize = 0)
    (hout : offT (i.length - offset) < total) :
    ∃ m b, inodeReadAt n d ⟨i.toInode, deny⟩ (some fresh) buffer (offT total) offset = some (m, b) ∧ m < total := by
  have hl₀ := i.length_nonneg
  have hl₁ := i.length_lt
  have hw : offT (total : Int) = total := by
    simp only [pgsize] at h₁
    exact offT_of_range (by omega) (by omega)
  rw [hw]
  by_cases h₀ : 0 ≤ offset
  · refine ⟨_, _, inodeReadAt_patch d buffer total i.on fresh deny h₀ hr.2, ?_⟩
    have hleft : offT (i.length - offset) = i.length - offset := offT_of_range (by omega) (by omega)
    rw [hleft] at hout
    simp only [inFile]
    omega
  · -- the file is at least a page ahead of the offset, so the difference has wrapped around
    have hneg : offT (i.length - offset) ≤ 0 := by
      simp only [pgsize] at h₁ halign
      unfold offT at hout ⊢
      omega
    have hmod : offset.tmod sectorSize = 0 := by
      refine Int.tmod_eq_zero_of_dvd (Int.dvd_of_emod_eq_zero ?_)
      simp only [pgsize, sectorSize] at halign ⊢
      omega
    have hstop : (chunkAt i.toInode total offset).size ≤ 0 := by
      simp only [chunkAt, hmod]
      split_ifs <;> omega
    refine ⟨0, buffer, ?_, hpos⟩
    have hturn : readTurn n d i.toInode (some fresh) ⟨total, offset, 0, buffer, none⟩ =
        some (.done ⟨total, offset, 0, buffer, none⟩) := by
      simp only [readTurn, if_pos (Or.inr hstop)]
    simp only [FileBytes.inodeReadAt, whileLoop_done hturn, Option.map_some]

/-! ## The second fault -/

/-- The first fault is content with a short read. -/
theorem lazyLoadSegment_past (x : Files n) (kva : Buffer) (hpos : 0 < fi.readBytes) (hle : fi.readBytes ≤ pgsize)
    (hr : -2 ^ 31 ≤ fi.ofs ∧ fi.ofs < 2 ^ 31) (halign : fi.ofs % pgsize = 0)
    (hout : offT ((x.inodes fi.file).length - fi.ofs) < fi.readBytes) :
    ∃ b, lazyLoadSegment n x.disk (x.inode fi.file) (some x.malloc) fi kva = some (true, b) := by
  by_cases h₀ : 0 ≤ fi.ofs
  · obtain ⟨b, hb, -⟩ := lazyLoadSegment_eq (d := x.disk) (i := x.inodes fi.file) (x.denyWriteCnt fi.file) x.malloc kva
      h₀ hr.2
    exact ⟨b, hb⟩
  · have hclip : clipped (x.inodes fi.file).toInode fi = fi.readBytes := by
      have hl₀ := (x.inodes fi.file).length_nonneg
      have hl₁ := (x.inodes fi.file).length_lt
      rw [clipped_eq]
      simp only [sizeT, pgsize] at hle halign ⊢
      unfold offT at hout ⊢
      omega
    obtain ⟨m, b, hread, -⟩ := inodeReadAt_past x.disk (x.denyWriteCnt fi.file) x.malloc kva hpos hle hr halign hout
    simp only [lazyLoadSegment, Files.inode, hclip, hread, Option.map_some]
    split_ifs
    · exact ⟨_, rfl⟩
    · exact ⟨_, rfl⟩

/-- **When a page reloads**: the file has every byte that its record asks for. -/
theorem reloads_iff (x : Files n) (hpos : 0 < fi.readBytes) (hle : fi.readBytes ≤ pgsize)
    (hr : -2 ^ 31 ≤ fi.ofs ∧ fi.ofs < 2 ^ 31) (halign : fi.ofs % pgsize = 0) :
    Reloads x fi ↔ (fi.readBytes : Int) ≤ offT ((x.inodes fi.file).length - fi.ofs) := by
  have hw : offT (fi.readBytes : Int) = fi.readBytes := by
    simp only [pgsize] at hle
    exact offT_of_range (by omega) (by omega)
  have hsector : fi.ofs % sectorSize = 0 := by
    simp only [pgsize, sectorSize] at halign ⊢
    omega
  constructor
  · intro h
    by_contra hout
    have hshort := Int.not_le.mp hout
    obtain ⟨first, hfirst⟩ := lazyLoadSegment_past x (fun _ => 0) hpos hle hr halign hshort
    obtain ⟨again, hagain, -⟩ := h _ first hfirst x.disk rfl x.malloc (fun _ => 0)
    obtain ⟨m, b, hread, hm⟩ := inodeReadAt_past x.disk (x.denyWriteCnt fi.file) x.malloc (fun _ => 0) hpos hle hr halign
      hshort
    have hne : (m : Int) ≠ offT fi.readBytes := by omega
    simp only [fileBackedSwapIn, Files.inode, hread, Option.map_some, if_pos hne] at hagain
    cases hagain
  · intro hin kva first hload d hevict fresh kva'
    obtain rfl : x.disk = d := Option.some.inj hevict
    have hclip : clipped (x.inodes fi.file).toInode fi = fi.readBytes := by
      have hlt : offT ((x.inodes fi.file).length - fi.ofs) < 2 ^ 31 := by
        unfold offT
        omega
      rw [clipped_eq]
      simp only [sizeT, pgsize] at hle ⊢
      omega
    simp only [lazyLoadSegment, Files.inode, hclip, Option.map_eq_some_iff] at hload
    obtain ⟨⟨m, b⟩, hread, hfirst⟩ := hload
    obtain rfl : m = fi.readBytes := by
      refine inodeReadAt_whole ?_ hsector hin hread
      simp only [pgsize] at hle
      omega
    obtain ⟨b', hread', hsame⟩ := inodeReadAt_alike fresh kva' hread
    obtain rfl : memset b fi.readBytes (pgsize - fi.readBytes) = first := by simpa using hfirst
    have hzero : sizeT (pgsize - fi.readBytes) = pgsize - fi.readBytes := by
      simp only [sizeT, pgsize] at hle ⊢
      omega
    refine ⟨memset b' fi.readBytes (pgsize - fi.readBytes), ?_, fun o ho => ?_⟩
    · have hall : ¬ (fi.readBytes : Int) ≠ offT fi.readBytes := by simp [hw]
      simp only [fileBackedSwapIn, Files.inode, hread', Option.map_some, if_neg hall, hzero]
    · simp only [memset, patch]
      by_cases hlt : fi.readBytes ≤ o
      · rw [if_pos (by omega), if_pos (by omega)]
      · rw [if_neg (by omega), if_neg (by omega)]
        exact hsame o (Nat.lt_of_not_le hlt)

/-- The bytes of page `k` of a mapping are bytes of the file behind its
descriptor; the difference is an `off_t`. -/
def WithinFile (p : Mmap.Proc) (a : Mmap.Args) (k : Nat) : Prop :=
  ∃ file, p.inode a = some file ∧
    (a.bytes k : Int) ≤ offT (p.length file - offT (a.offset + (k * pgsize : Nat)))

/-- What a call that returns an address has done. -/
theorem sysMmap_mapped {p : Mmap.Proc} {a : Mmap.Args} {r : Nat} {spt' : Spt}
    (h : Mmap.sysMmap p a = some (r, spt')) (hr : r ≠ 0) :
    ∃ file, p.inode a = some file ∧ a.Ok ∧ a.offset % pgsize = 0 ∧
      ∀ k < a.pages, spt' (a.page k) = some (a.filePage file k (offT (a.offset + (k * pgsize : Nat)))) := by
  have hrefused : Mmap.sysMmap p a ≠ some (0, p.spt) := by
    intro h₀
    rw [h₀] at h
    exact hr (Prod.mk.inj (Option.some.inj h)).1.symm
  have hc : Mmap.addrOk a := by
    by_contra hc
    exact hrefused (by simp only [Mmap.sysMmap, hc, Bool.not_false, if_true])
  cases hf : p.inode a with
  | none =>
    rcases Mmap.sysMmap_no_inode hc hf with ⟨h₀, -⟩ | ⟨h₀, -⟩
    · exact absurd h₀ hrefused
    · rw [h₀] at h
      cases h
  | some file =>
    have hcall := Mmap.sysMmap_inode hc hf
    have hrange : Mmap.rangeOk a (p.length file) := by
      by_contra hrange
      exact hrefused (hcall.trans (if_neg hrange))
    have hok := Mmap.Args.ok_of_checks hc hrange
    rw [if_pos hrange] at hcall
    have hfree : ∀ k < a.pages, p.spt (a.page k) = none := by
      by_contra hclash
      exact hrefused (hcall.trans (Mmap.mmapFile_clash hok hclash))
    obtain ⟨spt₁, hmap, hpages, -⟩ := Mmap.mmapFile_free hok hfree file
    obtain rfl : spt₁ = spt' := (Prod.mk.inj (Option.some.inj (hmap.symm.trans (hcall.symm.trans h)))).2
    have halign : a.offset % pgsize = 0 := by
      simp only [Mmap.rangeOk, ne_eq, Bool.and_eq_true, decide_eq_true_eq] at hrange
      exact Int.emod_eq_zero_of_dvd (Int.dvd_of_tmod_eq_zero hrange.1.1.1)
    exact ⟨file, rfl, hok, halign, hpages⟩

theorem pageReloads_filePage (x : Files n) (a : Mmap.Args) (file k : Nat) (ofs : Int) :
    PageReloads x (some (a.filePage file k ofs)) ↔ Reloads x (a.aux file k ofs) := by
  constructor
  · rintro ⟨w, fi, hpage, hre⟩
    obtain rfl : a.aux file k ofs = fi := by
      simpa [Mmap.Args.filePage] using congrArg (Option.map Page.contents) hpage
    exact hre
  · intro hre
    exact ⟨_, _, rfl, hre⟩

/-- **A page of a mapping reloads exactly when the file has all of its bytes**:
of the others the first fault zeroes what the file lacks, and the second one
fails. -/
theorem mmap_reloads_iff (x : Files n) {p : Mmap.Proc} {a : Mmap.Args} {r k : Nat} {spt' : Spt}
    (hlen : ∀ f, p.length f = (x.inodes f).length) (h : Mmap.sysMmap p a = some (r, spt')) (hr : r ≠ 0)
    (hk : k < a.pages) : PageReloads x (spt' (a.page k)) ↔ WithinFile p a k := by
  obtain ⟨file, hf, hok, halign, hpages⟩ := sysMmap_mapped h hr
  have hin := (a.lt_pages k).mp hk
  have hreloads : Reloads x (a.aux file k (offT (a.offset + (k * pgsize : Nat)))) ↔
      (a.bytes k : Int) ≤ offT (p.length file - offT (a.offset + (k * pgsize : Nat))) := by
    rw [hlen]
    refine reloads_iff x ?_ ?_ ?_ ?_
    · simp only [Mmap.Args.aux, Mmap.Args.bytes, pgsize] at hin ⊢
      omega
    · exact Nat.min_le_left ..
    · simp only [Mmap.Args.aux]
      unfold offT
      omega
    · simp only [Mmap.Args.aux, pgsize] at halign ⊢
      unfold offT
      omega
  rw [hpages k hk, pageReloads_filePage, hreloads]
  constructor
  · intro hbytes
    exact ⟨file, hf, hbytes⟩
  · rintro ⟨file', hf', hbytes⟩
    obtain rfl : file = file' := Option.some.inj (hf.symm.trans hf')
    exact hbytes

/-- A process that has the file of 600 bytes open as descriptor 2. -/
def reader : Mmap.Proc := { Mmap.opened with length := fun _ => 600 }

/-- The first `length` bytes of it. -/
def frontOf (length : Nat) (h : length < 2 ^ 64) : Mmap.Args where
  addr := 0x10000000
  length := length
  writable := 0
  fd := 2
  offset := 0
  addr_lt := by decide
  length_lt := h
  offset_range := Mmap.offset_zero

/-- The mapping that ends with the file reloads. -/
theorem mmap_reloads_exact : ∃ spt', Mmap.sysMmap reader (frontOf 600 (by decide)) = some (0x10000000, spt') ∧
    PageReloads nines (spt' 0x10000000) := by
  have hok : (frontOf 600 (by decide)).Ok := ⟨by decide, by decide, by decide, by decide, by decide⟩
  have hfree : ∀ k < (frontOf 600 (by decide)).pages, reader.spt ((frontOf 600 (by decide)).page k) = none :=
    fun _ _ => rfl
  obtain ⟨spt', hmap, -⟩ := Mmap.mmapFile_free hok hfree 5
  have hcall : Mmap.sysMmap reader (frontOf 600 (by decide)) = some (0x10000000, spt') :=
    ((Mmap.sysMmap_inode (by decide) rfl).trans (if_pos (by decide))).trans hmap
  have hwithin : WithinFile reader (frontOf 600 (by decide)) 0 := ⟨5, rfl, by decide⟩
  exact ⟨spt', hcall, (mmap_reloads_iff nines (fun _ => rfl) hcall (by decide) (by decide)).mpr hwithin⟩

/-- The mapping of a whole page does not. -/
theorem not_reloads_short : ∃ spt', Mmap.sysMmap reader (frontOf 4096 (by decide)) = some (0x10000000, spt') ∧
    ¬ PageReloads nines (spt' 0x10000000) := by
  have hok : (frontOf 4096 (by decide)).Ok := ⟨by decide, by decide, by decide, by decide, by decide⟩
  have hfree : ∀ k < (frontOf 4096 (by decide)).pages, reader.spt ((frontOf 4096 (by decide)).page k) = none :=
    fun _ _ => rfl
  obtain ⟨spt', hmap, hpages, -⟩ := Mmap.mmapFile_free hok hfree 5
  have hcall : Mmap.sysMmap reader (frontOf 4096 (by decide)) = some (0x10000000, spt') :=
    ((Mmap.sysMmap_inode (by decide) rfl).trans (if_pos (by decide))).trans hmap
  refine ⟨spt', hcall, ?_⟩
  have hfirst : spt' 0x10000000 = some ((frontOf 4096 (by decide)).filePage 5 0 0) := hpages 0 (by decide)
  rw [hfirst, pageReloads_filePage, reloads_iff nines (by decide) (by decide) (by decide) (by decide)]
  decide

end PintosKaist.Reload
