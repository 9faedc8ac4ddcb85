/-
The file system refines a store of named arrays: whatever is called on it, in
whatever order, going down and coming up included, the results are those of such
a store, and the disk holds its names and arrays.

Only `file_read_at` and `file_write_at` at an offset before the file, which
mappings make, are outside: they reach sectors that are not the file's.
-/
import PintosKaist.Filesys.Restart

namespace PintosKaist.Filesys

open ArrayStore Volume

variable {v v' : Volume} {ex : Nat → Nat} {dir fm root : Inode} {s : Files} {c : Call} {r : Result} {disk : Disk}

/-- The directory of a formatted disk is empty. -/
theorem Volume.RootMade.represents {w : Volume} (h : w.RootMade fm root) :
    (w.mapOpened fm).Represents root (Store.empty ..) := by
  have hdir : (w.mapOpened fm).header rootDirSector = some root := h.root_header
  refine ⟨⟨hdir, ∅, ⟨Slots.holds_empty fun k hk => ?_, fun name hn => absurd hn Finmap.notMem_empty⟩, fun name => rfl⟩,
    fun x hx => absurd hx Store.not_alive_empty, fun f => ?_⟩
  · have hnone := h.slot_none k
    rw [slot_eq hdir] at hnone
    refine slotAt_eq_none.mpr (Bool.eq_false_iff.mpr fun hu => ?_)
    rw [slotOf, if_pos ⟨hk, hu⟩] at hnone
    cases hnone
  · have hfile : (w.mapOpened fm).files f = none := h.files f
    simp only [handle, hfile, Option.bind_eq_bind, Option.bind_none]
    rfl

/-- **One call.** -/
theorem Volume.Represents.call (hs : v.Represents dir s) (h : Inv v ex) (hin : Inside c) (hr : v.call c = some (r, v')) :
    ∃ s', s.Returns c r s' ∧ v'.Leaves dir s' := by
  cases c <;> simp only [Volume.call, Option.map_eq_some_iff, Prod.exists, Prod.mk.injEq, Option.bind_eq_some_iff] at hr
  case create name initialSize =>
    obtain ⟨ok, w, hc, rfl, rfl⟩ := hr
    exact hs.filesysCreate h hc
  case «open» name =>
    obtain ⟨o, w, hc, rfl, rfl⟩ := hr
    exact hs.filesysOpen h hc
  case remove name =>
    obtain ⟨ok, w, hc, rfl, rfl⟩ := hr
    exact hs.filesysRemove h hc
  case reopen f =>
    obtain ⟨g, w, hc, rfl, rfl⟩ := hr
    exact hs.fileReopen h hc
  case duplicate f =>
    obtain ⟨g, w, hc, rfl, rfl⟩ := hr
    exact hs.fileDuplicate h hc
  case close f =>
    obtain ⟨w, hc, rfl, rfl⟩ := hr
    exact hs.fileClose h hc
  case read f size =>
    obtain ⟨bytes, w, hc, rfl, rfl⟩ := hr
    exact hs.fileRead h hc
  case readAt f size ofs =>
    obtain ⟨bytes, hc, rfl, rfl⟩ := hr
    exact ⟨s, ⟨hs.fileReadAt (offT_lt _) hin h hc, rfl⟩, ⟨ex, h⟩, hs⟩
  case write f buf size =>
    obtain ⟨n, w, hc, rfl, rfl⟩ := hr
    exact hs.fileWriteCnt h hc
  case writeAt f buf size ofs =>
    obtain ⟨n, w, hc, rfl, rfl⟩ := hr
    obtain ⟨s', hw, hrep, hinv, -⟩ := hs.fileWriteAt h (offT_lt _) hin hc
    exact ⟨s', hw, ⟨ex, hinv⟩, hrep⟩
  case seek f newPos =>
    obtain ⟨w, hc, rfl, rfl⟩ := hr
    exact hs.fileSeek h hc
  case tell f =>
    obtain ⟨n, hc, rfl, rfl⟩ := hr
    exact ⟨s, hs.fileTell h hc, ⟨ex, h⟩, hs⟩
  case length f =>
    obtain ⟨n, hc, rfl, rfl⟩ := hr
    exact ⟨s, hs.fileLength h hc, ⟨ex, h⟩, hs⟩
  case ls =>
    obtain ⟨l, w, hc, rfl, rfl⟩ := hr
    exact hs.fsutilLs h hc
  case restart =>
    obtain ⟨w, hdone, w', hmount, rfl, rfl⟩ := hr
    obtain ⟨u, u', hdone', hmount', hleaves, -⟩ := hs.restart h
    obtain rfl := Option.some.inj (hdone.symm.trans hdone')
    obtain rfl := Option.some.inj (hmount.symm.trans hmount')
    exact ⟨_, rfl, hleaves⟩

/-- The state of a run: the ownership of sectors, and a store with the history. -/
def Session.Ok (s : Session) : Prop := ∃ dir store, History s.log store ∧ s.vol.Leaves dir store

theorem Session.Ok.step {s s' : Session} (h : s.Ok) (hin : Inside c) (hr : s.step c = some s') : s'.Ok := by
  obtain ⟨dir, store, hhist, ⟨ex, hinv⟩, hrep⟩ := h
  obtain ⟨⟨r, w⟩, hcall, rfl⟩ := Option.map_eq_some_iff.mp hr
  obtain ⟨store', hreturns, hleaves⟩ := hrep.call hinv hin hcall
  exact ⟨dir, store', .cons hhist hreturns, hleaves⟩

theorem session_ok {size : Fin (2 ^ 32)} {calls : List Call} {s' : Session} (hinit : filesysInit size disk = some v)
    (hrun : Run.run Session.step ⟨v, []⟩ calls = some s') (hin : ∀ c ∈ calls, Inside c) : s'.Ok := by
  obtain ⟨w, fm, root, hmade, rfl⟩ := filesysInit_rootMade hinit
  refine Run.run_invariant (G := fun _ c => Inside c) (I := Session.Ok) (fun _ _ _ hI hG hstep => hI.step hG hstep) ?_
    hrun (Run.always_of_mem _ fun c hc _ => hin c hc)
  exact ⟨root, _, .nil, ⟨_, hmade.inv⟩, hmade.represents⟩

/-- **The file system is a store of named arrays.** From a formatted disk, the
results of any calls are those of a store that had no names at first; and the
volume represents the store they come to. -/
theorem filesys_refines_store {size : Fin (2 ^ 32)} {calls : List Call} {s' : Session}
    (hinit : filesysInit size disk = some v) (hrun : Run.run Session.step ⟨v, []⟩ calls = some s')
    (hin : ∀ c ∈ calls, Inside c) : ∃ dir store, History s'.log store ∧ s'.vol.Represents dir store := by
  obtain ⟨dir, store, hhist, -, hrep⟩ := session_ok hinit hrun hin
  exact ⟨dir, store, hhist, hrep⟩

/-- A file is removed while it is open and written, another takes its name, and
the kernel goes down and comes up. -/
def removedAndBack : List Call :=
  [.create ⟨[65], by decide⟩ 600, .open ⟨[65], by decide⟩, .remove ⟨[65], by decide⟩, .create ⟨[65], by decide⟩ 3,
    .write 0 (fun _ => 7) 1000, .seek 0 598, .read 0 10, .ls, .close 0, .restart, .open ⟨[65], by decide⟩, .read 0 10]

theorem filesys_refines_store_removedAndBack : ∃ v s' dir store, filesysInit 32 (fun _ => 0) = some v ∧
    Run.run Session.step ⟨v, []⟩ removedAndBack = some s' ∧ History s'.log store ∧ s'.vol.Represents dir store := by
  have hrun : (filesysInit 32 fun _ => 0).any (fun v => (Run.run Session.step ⟨v, []⟩ removedAndBack).isSome) = true := by
    decide +kernel
  obtain ⟨v, hv, hv'⟩ := (Option.any_eq_true ..).mp hrun
  obtain ⟨s', hs'⟩ := Option.isSome_iff_exists.mp hv'
  obtain ⟨dir, store, hhist, hrep⟩ := filesys_refines_store hv hs' (by decide)
  exact ⟨v, s', dir, store, hv, hs', hhist, hrep⟩

/-- There is a sector for the inode, and room for the data next to it. -/
def Volume.HasRoom (v : Volume) (initialSize : Int) : Prop :=
  ∃ x, v.freeMap.scan 1 = some x ∧ ((v.freeMap.setMultiple x 1 true).scan (sectorCnt initialSize)).isSome

/-- The name is one that the store can take. -/
def Files.CanName (s : Files) (name : Name) : Prop :=
  name.val ≠ [] ∧ name.val.length ≤ nameMax ∧ s.names name = none ∧
    ∃ taken : Finset Name, (∀ n, n ∈ taken ↔ (s.names n).isSome) ∧ taken.card < 16

theorem Volume.Represents.addable_iff {name : Name} (hs : v.Represents dir s) (h : Inv v ex) :
    name.val.length ≤ nameMax ∧ Addable v.disk dir name.val ↔ s.CanName name := by
  obtain ⟨m, hm, hn⟩ := hs.names.slots
  have hcnt : entryCnt dir = 16 := by
    simp only [entryCnt, h.root dir hs.names.root, entrySize]
    rfl
  have hkeys : (∃ taken : Finset Name, (∀ n, n ∈ taken ↔ (s.names n).isSome) ∧ taken.card < 16) ↔ m.keys.card < 16 := by
    have hmem : ∀ n, n ∈ m.keys ↔ (s.names n).isSome := fun n => by rw [hn, Finmap.lookup_isSome, Finmap.mem_keys]
    refine ⟨fun hex => ?_, fun hlt => ⟨m.keys, hmem, hlt⟩⟩
    obtain ⟨taken, htaken, hlt⟩ := hex
    rwa [Finset.ext fun n => (hmem n).trans (htaken n).symm]
  have hfree : (∃ k < entryCnt dir, (entryAt v.disk dir k).inUse = false) ↔ m.keys.card < 16 := by
    rw [← hcnt, hm.holds.card_lt]
    simp only [slotAt_eq_none]
  have hlook : lookup v.disk dir name.val = none ↔ s.names name = none := by
    rw [lookup_eq, hn, Finmap.lookup_eq_none, ← hm.holds.find_isSome]
    simp
  simp only [Addable, Files.CanName, hkeys, hfree, hlook]
  tauto

/-- `filesys_create` with a size that is not negative returns. -/
theorem Volume.Represents.create_succeeds {name : Name} {size : Int} (hs : v.Represents dir s) (h : Inv v ex) (h₀ : 0 ≤ size)
    (h₁ : size < 2 ^ 31) : ∃ ok v', v.filesysCreate name.val size = some (ok, v') ∧
      (ok = true ↔ s.CanName name ∧ v.HasRoom size) := by
  obtain ⟨r, v₁, root, t, heq⟩ := h.filesysCreate_eq name.val size
  obtain rfl : root = dir := Option.some.inj (t.header.symm.trans hs.names.root)
  rw [heq, ← hs.addable_iff h]
  by_cases hshort : nameMax < name.val.length
  · obtain ⟨v', hcall, -⟩ := t.untouched h name.val h₁ (by simp only [Volume.createIn, if_pos hshort])
    refine ⟨false, v', hcall, fun hno => (by cases hno), fun hc => ?_⟩
    have := hc.1.1
    omega
  have hlen : name.val.length ≤ nameMax := Nat.not_lt.mp hshort
  cases hscan : v.freeMap.scan 1 with
  | none =>
    have halloc : v₁.freeMapAllocate 1 = some (none, v₁) := allocate_none (t.freeMap ▸ hscan)
    obtain ⟨v', hcall, -⟩ := t.untouched h name.val h₁ (by
      simp only [Volume.createIn, if_neg hshort, halloc, Option.bind_eq_bind, Option.bind_some])
    refine ⟨false, v', hcall, fun hno => (by cases hno), fun hc => ?_⟩
    obtain ⟨x, hx, -⟩ := hc.2
    cases hscan.symm.trans hx
  | some x =>
    have hscan₁ : v₁.freeMap.scan 1 = some x := t.freeMap ▸ hscan
    have hroom : v.HasRoom size ↔ ((v.freeMap.setMultiple x 1 true).scan (sectorCnt size)).isSome := by
      simp only [HasRoom, hscan, Option.some.injEq, exists_eq_left']
    rw [hroom, ← t.freeMap, ← t.disk]
    cases hfit : (v₁.freeMap.setMultiple x 1 true).scan (sectorCnt size) with
    | none =>
      obtain ⟨d, hcreate, hsame⟩ := t.inv.createIn_noRoom root hshort hscan₁ h₀ hfit
      obtain ⟨v', hcall, -⟩ := t.fails h h₁ hcreate hsame
      exact ⟨false, v', hcall, by simp⟩
    | some start =>
      obtain ⟨hadds, hfails⟩ := t.inv.createIn_room t.header₁ hshort hscan₁ h₀ h₁ hfit
      by_cases ha : Addable v₁.disk root name.val
      · obtain ⟨d, m, hcreate⟩ := hadds ha
        obtain ⟨v', hcall, -⟩ := t.close h₁ hcreate
        exact ⟨true, v', hcall, by simp [ha, hlen]⟩
      · obtain ⟨d, hcreate, hsame⟩ := hfails ha
        obtain ⟨v', hcall, -⟩ := t.fails h h₁ hcreate hsame
        exact ⟨false, v', hcall, by simp [ha]⟩

end PintosKaist.Filesys
