import Benji.Backup.Content

/-! A full backup reads every block: the version reads back as the source, all its rows are
valid, and the statistics account for every byte. -/
namespace Benji
open Lib

variable {κ : Type}

theorem sourceBlock_eq_slice {v : Version} {io : Source} (h : io.data.length = v.size) (idx : ℕ) :
    v.sourceBlock io idx = slice io.data (idx * v.blockSize) v.blockSize := by
  unfold Version.sourceBlock slice Version.blockSizeAt
  rw [List.take_eq_take_iff, List.length_drop, h]
  omega

section Full
variable [DecidableEq κ] {S : Settings κ} {version v v' : Version} {source : Option Source}
  {io : Source} {hints : Option (List Hint)} {base : Option String} {sched : Schedule}
  {w u start : World κ} {sets : List ℕ × List ℕ} {L : Loop κ}

omit [DecidableEq κ] in
theorem BackupReturned.blockSize_pos
    (h : BackupReturned S version io hints base w v start sets L u) (hb : 0 < S.blockSize) :
    0 < v.blockSize := by
  have hpos : 0 < if version.blockSize ≠ 0 then version.blockSize else S.blockSize := by
    split <;> omega
  have hc := h.check
  cases base with
  | none =>
    have := Option.some.inj (returns_checkBase_none.mp hc).2.1
    dsimp only at this
    omega
  | some uid =>
    obtain ⟨-, b, -, -, -, hn, hr⟩ := returns_checkBase_some hc
    have h1 := hn _ rfl
    have h2 := (Prod.mk.inj hr).2
    omega

theorem full_backup (hp : 0 < S.blocksPerCall) (hb : 0 < S.blockSize)
    (hinj : Function.Injective S.dataHexdigest) (hfresh : Fresh version w)
    (hrows : RowsIntact S.dataHexdigest version.storage.id w)
    (h : (backup S version source none base sched).Returns w v' u) :
    ∃ io stats, source = some io ∧ u.db.versions.find? version.id = some v' ∧
      v'.size = io.data.length ∧
      (∀ idx < v'.blocksCount,
        blockData u.objects v'.storage.id (u.db.blocks.getBlockByIdx v' idx) =
          some (slice io.data (idx * v'.blockSize) v'.blockSize)) ∧
      (∀ b ∈ u.db.blocks, b.versionId = v'.id → b.valid = true ∧
        b.size = min v'.blockSize (io.data.length - b.idx * v'.blockSize)) ∧
      v'.stats = some stats ∧ stats.bytesRead = io.data.length ∧
      stats.bytesRead = stats.bytesWritten + stats.bytesDeduplicated + stats.bytesSparse := by
  obtain ⟨io, v, start, sets, L, hio, rfl, hr⟩ := backup_returned hp hinj hfresh hrows h
  have hpos := hr.blockSize_pos hb
  have hid : version.id = v.id := by rw [hr.resized]
  obtain rfl : sets = ([], List.range v.blocksCount) :=
    (Proc.returns_pure.mp hr.toCopy).1.symm
  have hread : ∀ idx < v.blocksCount, Loop.ToRead (List.range v.blocksCount)
      (start.db.blocks.getBlockByIdx v idx) := by
    intro idx hi
    rw [Loop.ToRead, BlockTable.getBlockByIdx_idx]
    exact .inl (List.mem_range.mpr hi)
  have hset : ∀ idx < v.blocksCount, Settled v u.objects idx (v.sourceBlock io idx)
      (u.db.blocks.getBlockByIdx v idx) := by
    intro idx hi
    have hs := hr.settled idx hi
    rwa [wanted, if_pos (hread idx hi)] at hs
  have hall : (((List.range v.blocksCount).map (start.db.blocks.getBlockByIdx v)).filter
      fun b => Loop.ToRead (List.range v.blocksCount) b) =
      (List.range v.blocksCount).map (start.db.blocks.getBlockByIdx v) := by
    apply List.filter_eq_self.mpr
    intro b hmem
    obtain ⟨idx, hi, rfl⟩ := List.mem_map.mp hmem
    simpa using hread idx (List.mem_range.mp hi)
  have hsum : (((List.range v.blocksCount).map (start.db.blocks.getBlockByIdx v)).map
      Block.size).sum = v.size := by
    have hsizes : ((List.range v.blocksCount).map (start.db.blocks.getBlockByIdx v)).map
        Block.size = (List.range v.blocksCount).map v.blockSizeAt := by
      rw [List.map_map]
      apply List.map_congr_left
      intro idx hi
      have hno : ∀ b ∈ w.db.blocks, b.versionId ≠ v.id := by
        rw [← hid]
        exact hfresh.noRows
      exact size_getBlockByIdx_cloned hr.clone hno (List.mem_range.mp hi)
    rw [hsizes, Version.sum_blockSizeAt]
    exact min_eq_right (Version.size_le_blocksCount_mul hpos)
  have hbytes := hr.bytesRead
  have htotal := hr.bytesTotal
  simp only [hall, hsum, List.not_mem_nil, and_false, decide_false, List.filter_false,
    List.map_nil, List.sum_nil, Nat.add_zero] at hbytes htotal
  refine ⟨io, L.stats, hio, hr.row, hr.size, ?_, ?_, rfl, hbytes.trans hr.size, ?_⟩
  · intro idx hi
    have hdata := (hset idx hi).data
    rw [sourceBlock_eq_slice hr.size.symm] at hdata
    exact hdata
  · intro b hmem hv
    have hi := hr.rows b hmem hv
    have hrow : u.db.blocks.getBlockByIdx v b.idx = b :=
      BlockTable.getBlockByIdx_of_row? (BlockTable.row?_eq_some.mpr ⟨hmem, hv, rfl⟩)
    have hs := hset b.idx hi
    rw [hrow] at hs
    rw [← hr.size]
    exact ⟨hs.valid, hs.size⟩
  · rw [hbytes, htotal]

end Full

section Example

/-- Two-byte blocks; the data is its own checksum. -/
def exampleSettings : Settings Bytes := ⟨⟨"host", "1"⟩, 2, id, 3, 2⟩

def exampleStorage : Storage := ⟨1, "file"⟩

def exampleBase : Version := ⟨3, "v3", exampleStorage, 3, 2, .valid, none⟩

def exampleVersion : Version := ⟨7, "v7", exampleStorage, 0, 0, .incomplete, none⟩

def exampleDatabase : Database Bytes where
  versions := ⟨[exampleBase, exampleVersion], by decide⟩
  blocks := ⟨[⟨3, 0, some ⟨3, 1⟩, some [1, 2], 2, true⟩, ⟨3, 1, some ⟨3, 2⟩, some [5], 1, true⟩],
    by decide⟩
  deletedBlocks := .empty
  locks := .empty

/-- A storage with a base version of three bytes, and a version that was only requested. -/
def exampleWorld : World Bytes where
  db := exampleDatabase
  committed := exampleDatabase
  objects := fun storage uid =>
    if storage = 1 ∧ uid = ⟨3, 1⟩ then some ⟨2, .ok [1, 2], .decoded ⟨2, 2, some [1, 2]⟩⟩
    else if storage = 1 ∧ uid = ⟨3, 2⟩ then some ⟨1, .ok [5], .decoded ⟨1, 1, some [5]⟩⟩
    else none
  versionObjects := fun _ _ => none

def exampleSchedule (events : List Loop.Event) : Schedule where
  createDue := fun _ => false
  queueDue := fun _ => true
  removeDate := fun _ => 0
  sample := fun _ _ => []
  checkOrder := []
  events := events
  metadataError := none

theorem example_fresh : Fresh exampleVersion exampleWorld := by
  refine ⟨by decide, ?_, ?_⟩
  · intro b hb
    rcases List.mem_pair.mp hb with rfl | rfl <;> decide
  · intro b hb uid hu
    rcases List.mem_pair.mp hb with rfl | rfl
    all_goals
      obtain rfl := Option.some.inj hu
      decide

theorem example_rowsIntact :
    RowsIntact exampleSettings.dataHexdigest exampleVersion.storage.id exampleWorld := by
  intro b hb _ _
  rcases List.mem_pair.mp hb with rfl | rfl
  · exact ⟨_, _, rfl, rfl, rfl, rfl⟩
  · exact ⟨_, _, rfl, rfl, rfl, rfl⟩

def exampleSource : Source := ⟨"file:/source", [1, 2, 0, 0, 7, 8, 9]⟩

/-- A block that is deduplicated, a sparse one, and two new ones written out of order. -/
def exampleEvents : List Loop.Event :=
  [.read 3 0 false, .read 2 0 false, .write 2, .read 0 0 false, .collect 2 true, .write 3,
    .read 1 0 false, .collect 3 false]

theorem full_backup_example : ∃ v' u io stats,
    (backup exampleSettings exampleVersion (some exampleSource) none (some "v3")
      (exampleSchedule exampleEvents)).Returns exampleWorld v' u ∧
      some exampleSource = some io ∧ v'.stats = some stats ∧ stats.bytesRead = io.data.length ∧
      ∀ idx < v'.blocksCount,
        blockData u.objects v'.storage.id (u.db.blocks.getBlockByIdx v' idx) =
          some (slice io.data (idx * v'.blockSize) v'.blockSize) := by
  obtain ⟨v', u, h, -⟩ := Proc.returns_of_outcome (f := fun _ _ => true)
    (p := backup exampleSettings exampleVersion (some exampleSource) none (some "v3")
      (exampleSchedule exampleEvents)) (s := exampleWorld) (by decide +kernel)
  obtain ⟨io, stats, hio, -, -, hdata, -, hst, hread, -⟩ :=
    full_backup (by decide) (by decide) Function.injective_id example_fresh example_rowsIntact h
  exact ⟨v', u, io, stats, h, hio, hst, hread, hdata⟩

end Example
end Benji
