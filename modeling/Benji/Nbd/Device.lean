import Benji.Nbd.Chunks

/-! An export as one flat array of bytes: what its blocks hold together, and what each request
makes of them. -/
namespace Benji.Nbd
open Lib

variable {κ : Type}

/-- `math.ceil(version.size / 4096) * 4096`, the size that clients are told. -/
def deviceSize (v : Version) : ℕ := v.size ⌈/⌉ 4096 * 4096

/-- The length of the file that block `b` is copied into. -/
def fileLength (v : Version) (b : Block κ) : ℕ := if b.uid = none then v.blockSize else b.size

/-- The files of the written blocks of `c`, all of them before block `n`, start with the bytes of
`d`; zeros follow where a short sparse block was written to. -/
structure Copies (v c : Version) (n : ℕ) (s : Store κ) (d : Bytes) (table : CowTable κ) :
    Prop where
  nodup : (table.map Prod.fst).Nodup
  lt : ∀ idx b, (idx, b) ∈ table → idx < n
  block : ∀ idx b, (idx, b) ∈ table →
    b = { s.world.db.blocks.getBlockByIdx c idx with uid := some ⟨c.id, idx + 1⟩, checksum := none }
  present : ∀ idx b, (idx, b) ∈ table → s.cowStore.blockPresent ⟨c.id, idx + 1⟩ = true
  file : ∀ idx b, (idx, b) ∈ table → ∃ file, s.cowStore.files ⟨c.id, idx + 1⟩ = some file ∧
    file = slice d (idx * v.blockSize) (v.blockSizeAt idx) ++
      zeros (fileLength v (s.world.db.blocks.getBlockByIdx c idx) - v.blockSizeAt idx)

/-- The version that is written to was made from `v`. -/
structure CloneOf (t : BlockTable κ) (v c : Version) : Prop where
  size : c.size = v.size
  blockSize : c.blockSize = v.blockSize
  storage : c.storage = v.storage
  blocks : ∀ idx, (t.getBlockByIdx c idx).uid = (t.getBlockByIdx v idx).uid ∧
    (t.getBlockByIdx c idx).size = (t.getBlockByIdx v idx).size

namespace Store

/-- The table of written blocks; empty for an export that is read only. -/
def table (cowVersion : Option Version) (s : Store κ) : CowTable κ :=
  (cowVersion.bind fun c => s.cow c.uid).getD []

/-- Whatever the cache returns for the blocks of `v` is in the storage. -/
def CacheOk (v : Version) (s : Store κ) : Prop :=
  ∀ idx uid data, (s.world.db.blocks.getBlockByIdx v idx).uid = some uid →
    s.blockCache uid = some data →
    blockData s.world.objects v.storage.id (s.world.db.blocks.getBlockByIdx v idx) = some data

/-- The export of `v`, written to in `cowVersion`, holds the bytes `d`; the written blocks are
before block `n`. -/
structure ShowsTo (v : Version) (cowVersion : Option Version) (n : ℕ) (s : Store κ) (d : Bytes) :
    Prop where
  blockSize_pos : 0 < v.blockSize
  le : v.blocksCount ≤ n
  length : d.length = v.size
  sized : Sized s.world.db.blocks v
  rows : ∀ idx, v.blocksCount ≤ idx → s.world.db.blocks.row? v idx = none
  readable : ∀ idx, (s.world.db.blocks.getBlockByIdx v idx).uid.isSome → ∃ data m,
    readObject s.world.objects v.storage.id (s.world.db.blocks.getBlockByIdx v idx) =
      .ok (data, m) ∧ data.length = gridSize v idx
  cache : s.CacheOk v
  untouched : ∀ idx < v.blocksCount, idx ∉ (s.table cowVersion).map Prod.fst →
    blockData s.world.objects v.storage.id (s.world.db.blocks.getBlockByIdx v idx) =
      some (slice d (idx * v.blockSize) (v.blockSizeAt idx))
  opened : ∀ c, cowVersion = some c → (s.cow c.uid).isSome
  clone : ∀ c, cowVersion = some c → CloneOf s.world.db.blocks v c
  copies : ∀ c, cowVersion = some c → Copies v c n s d (s.table cowVersion)

/-- Only blocks of the version are written to. -/
abbrev Shows (v : Version) (cowVersion : Option Version) (s : Store κ) (d : Bytes) : Prop :=
  s.ShowsTo v cowVersion v.blocksCount d

variable {v : Version} {cowVersion : Option Version} {s t : Store κ} {d : Bytes} {idx off n : ℕ}

theorem mem_of_lookup {table : CowTable κ} {b : Block κ} (h : table.lookup idx = some b) :
    (idx, b) ∈ table := by
  obtain ⟨l, r, rfl, -⟩ := List.lookup_eq_some_iff.mp h
  exact List.mem_append_right _ (List.mem_cons_self ..)

theorem not_mem_of_lookup {table : CowTable κ} (h : table.lookup idx = none) :
    idx ∉ table.map Prod.fst := by
  intro hmem
  obtain ⟨p, hp, rfl⟩ := List.mem_map.mp hmem
  simpa using List.lookup_eq_none_iff.mp h p hp

/-- A version is part of the export where its table is not empty. -/
theorem exists_of_mem_table {e : ℕ × Block κ} (h : e ∈ s.table cowVersion) :
    ∃ c, cowVersion = some c := by
  cases cowVersion with
  | none => simp [table] at h
  | some c => exact ⟨c, rfl⟩

namespace ShowsTo

theorem mono {m : ℕ} (h : s.ShowsTo v cowVersion n d) (hm : n ≤ m) : s.ShowsTo v cowVersion m d :=
  { h with
    le := h.le.trans hm
    copies := fun c hc =>
      { h.copies c hc with lt := fun idx b hb => ((h.copies c hc).lt idx b hb).trans_le hm } }

/-- The bytes of a block that is not written to. -/
theorem data (h : s.ShowsTo v cowVersion n d) (hk : idx ∉ (s.table cowVersion).map Prod.fst)
    {data : Bytes} (hd : blockData s.world.objects v.storage.id
      (s.world.db.blocks.getBlockByIdx v idx) = some data) {len : ℕ}
    (hn : off + len ≤ gridSize v idx) :
    slice data off len = window d (idx * v.blockSize + off) len := by
  by_cases hidx : idx < v.blocksCount
  · have he := end_le_size hidx hn h.blockSize_pos
    have hsl := h.untouched idx hidx hk
    rw [gridSize_of_lt hidx] at hn
    rw [hd, Option.some.injEq] at hsl
    rw [hsl, slice_slice hn, window_eq_slice (by rw [h.length]; exact he)]
  · have hrow := h.rows idx (not_lt.mp hidx)
    rw [BlockTable.getBlockByIdx_of_none hrow] at hd
    rw [gridSize_of_le (not_lt.mp hidx)] at hn
    simp only [blockData, createSparseBlock_uid, createSparseBlock_size, Option.some.injEq] at hd
    have hle := Version.size_le_blocksCount_mul h.blockSize_pos
    have hmul := Nat.mul_le_mul_right v.blockSize (not_lt.mp hidx)
    rw [window_of_length_le (by rw [h.length]; omega), ← hd, slice_zeros]
    congr 1
    omega

theorem cacheBlock (h : s.ShowsTo v cowVersion n d) (culled : ℕ → BlockUid → Bool) {uid : BlockUid}
    {data : Bytes} (hu : (s.world.db.blocks.getBlockByIdx v idx).uid = some uid)
    (hd : blockData s.world.objects v.storage.id (s.world.db.blocks.getBlockByIdx v idx) =
      some data) : (s.cacheBlock culled uid data).ShowsTo v cowVersion n d where
  blockSize_pos := h.blockSize_pos
  le := h.le
  length := h.length
  sized := h.sized
  rows := h.rows
  readable := h.readable
  cache := by
    intro i u cached hi hc
    simp only [Store.cacheBlock] at hi hc ⊢
    split_ifs at hc with hcull hsame
    · rw [hsame] at hi
      have heq : blockData s.world.objects v.storage.id (s.world.db.blocks.getBlockByIdx v i) =
          blockData s.world.objects v.storage.id (s.world.db.blocks.getBlockByIdx v idx) := by
        unfold blockData
        rw [hi, hu]
      rw [heq, hd, hc]
    · exact h.cache i u cached hi hc
  untouched := h.untouched
  opened := h.opened
  clone := h.clone
  copies := fun c hc => ⟨(h.copies c hc).nodup, (h.copies c hc).lt, (h.copies c hc).block,
    (h.copies c hc).present, (h.copies c hc).file⟩

/-- Behind the last block there are no rows, and the file of a block there is a block of zeros. -/
theorem behind (h : s.ShowsTo v cowVersion n d) {c : Version} (hc : cowVersion = some c)
    (hidx : v.blocksCount ≤ idx) : v.size ≤ idx * v.blockSize ∧ v.blockSizeAt idx = 0 ∧
      (s.world.db.blocks.getBlockByIdx c idx).uid = none := by
  have hle := (Version.size_le_blocksCount_mul h.blockSize_pos).trans
    (Nat.mul_le_mul_right v.blockSize hidx)
  refine ⟨hle, ?_, ?_⟩
  · rw [Version.blockSizeAt]
    omega
  · rw [((h.clone c hc).blocks idx).1, BlockTable.getBlockByIdx_of_none (h.rows idx hidx)]
    rfl

/-- The bytes of a block that is written to. -/
theorem slice_file (h : s.ShowsTo v cowVersion n d) {c : Version} (hc : cowVersion = some c)
    {len : ℕ} (hn : off + len ≤ gridSize v idx) :
    slice (slice d (idx * v.blockSize) (v.blockSizeAt idx) ++
      zeros (fileLength v (s.world.db.blocks.getBlockByIdx c idx) - v.blockSizeAt idx)) off len =
        window d (idx * v.blockSize + off) len := by
  by_cases hidx : idx < v.blocksCount
  · have he := end_le_size hidx hn h.blockSize_pos
    rw [gridSize_of_lt hidx] at hn
    have hlen : (slice d (idx * v.blockSize) (v.blockSizeAt idx)).length = v.blockSizeAt idx := by
      rw [length_slice, h.length]
      rw [Version.blockSizeAt]
      omega
    rw [window_eq_slice (by rw [h.length]; exact he), ← slice_slice hn,
      ← slice_take (m := v.blockSizeAt idx) hn, List.take_left' hlen]
  · obtain ⟨hsize, hzero, hu⟩ := h.behind hc (not_lt.mp hidx)
    rw [gridSize_of_le (not_lt.mp hidx)] at hn
    rw [window_of_length_le (by rw [h.length]; omega), hzero, fileLength, if_pos hu, slice_zero,
      List.nil_append, slice_zeros]
    congr 1
    omega

/-- Any chunk can be read; one that stays inside its block reads its bytes. -/
theorem readChunk (h : s.ShowsTo v cowVersion n d) (culled : ℕ → BlockUid → Bool) (idx off : ℕ)
    (length : ℤ) : ∃ data t,
      (Store.readChunk culled v (s.table cowVersion)
        (some (s.world.db.blocks.getBlockByIdx v idx), off, length)).Returns s data t ∧
      t.ShowsTo v cowVersion n d ∧ t.world = s.world ∧ t.cow = s.cow ∧
      ∀ len : ℕ, length = len → off + len ≤ gridSize v idx →
        data = window d (idx * v.blockSize + off) len := by
  cases hl : (s.table cowVersion).lookup idx with
  | some b =>
    have hmem := mem_of_lookup hl
    obtain ⟨c, hc⟩ := exists_of_mem_table hmem
    have hcopy := h.copies c hc
    have hb := hcopy.block idx b hmem
    obtain ⟨file, hf, hfile⟩ := hcopy.file idx b hmem
    have hpres := hcopy.present idx b hmem
    refine ⟨fileRead file off length, s, ?_, h, rfl, rfl, ?_⟩
    · simp [Proc.Returns, Store.readChunk, hl, BlockStore.present, BlockStore.read, hb, hpres, hf,
        ofExcept]
    · rintro len rfl hn
      rw [fileRead_nat, hfile]
      exact h.slice_file hc hn
  | none =>
    have hk := not_mem_of_lookup hl
    cases hu : (s.world.db.blocks.getBlockByIdx v idx).uid with
    | none =>
      refine ⟨zeros length.toNat, s, ?_, h, rfl, rfl, ?_⟩
      · simp [Proc.Returns, Store.readChunk, hl, hu]
      · rintro len rfl hn
        have hd : blockData s.world.objects v.storage.id (s.world.db.blocks.getBlockByIdx v idx) =
            some (zeros (gridSize v idx)) := by
          rw [blockData, hu, h.sized idx]
        rw [← h.data hk hd hn, slice_zeros, Int.toNat_natCast]
        congr 1
        omega
    | some uid =>
      cases hcache : s.blockCache uid with
      | some data =>
        refine ⟨fileRead data off length, s, ?_, h, rfl, rfl, ?_⟩
        · simp [Proc.Returns, Store.readChunk, hl, hu, hcache]
        · rintro len rfl hn
          rw [fileRead_nat, h.data hk (h.cache idx uid data hu hcache) hn]
      | none =>
        obtain ⟨data, m, hread, hlen⟩ := h.readable idx (by rw [hu]; rfl)
        have hd := blockData_of_readObject hu hread
        refine ⟨pySlice data off (off + length), s.cacheBlock culled uid data, ?_,
          h.cacheBlock culled hu hd, rfl, rfl, ?_⟩
        · simp [Proc.Returns, Store.readChunk, hl, hu, hcache, hread]
        · rintro len rfl hn
          rw [pySlice_nat, h.data hk hd hn]

/-- What follows a block that is read up to its end. -/
theorem window_next (h : s.ShowsTo v cowVersion n d) {m : ℕ} (hm : off + m = gridSize v idx)
    (len : ℕ) : window d (idx * v.blockSize + off + m) len =
      window d ((idx + 1) * v.blockSize) len := by
  cases next_block h.blockSize_pos hm with
  | inl he => rw [he]
  | inr he =>
    have hle := Version.size_le_blocksCount_mul h.blockSize_pos
    have hmul := Nat.mul_le_mul_right v.blockSize he.2
    rw [window_of_length_le (by rw [h.length]; omega),
      window_of_length_le (by rw [h.length]; omega)]

/-- The induction is on the chunks; each leaves the export as it was. -/
theorem readChunks {blocks : BlockTable κ} {len : ℕ} {chunks : List (Chunk κ)}
    (hc : Chunks blocks v idx off len chunks) (culled : ℕ → BlockUid → Bool)
    (h : s.ShowsTo v cowVersion n d) (hblocks : s.world.db.blocks = blocks) : ∃ t,
      (Store.readChunks culled v (s.table cowVersion) chunks).Returns s
        (window d (idx * v.blockSize + off) len) t ∧ t.ShowsTo v cowVersion n d ∧
      t.world = s.world := by
  induction hc generalizing s with
  | @last idx off len hle =>
    subst hblocks
    obtain ⟨data, t, hr, ht, hw, -, hdata⟩ := h.readChunk culled idx off len
    refine ⟨t, ?_, ht, hw⟩
    rw [← hdata len rfl hle]
    simp only [Store.readChunks, Proc.returns_bind, Proc.returns_pure]
    exact ⟨data, t, hr, [], t, ⟨rfl, rfl⟩, List.append_nil data, rfl⟩
  | @more idx off m len chunks hm _ _ ih =>
    subst hblocks
    obtain ⟨data, t, hr, ht, hw, hcow, hdata⟩ := h.readChunk culled idx off m
    obtain ⟨u, hu, hus, huw⟩ := ih ht (by rw [hw])
    have htable : t.table cowVersion = s.table cowVersion := by rw [Store.table, hcow, Store.table]
    refine ⟨u, ?_, hus, huw.trans hw⟩
    rw [htable, Nat.add_zero, ← h.window_next hm] at hu
    rw [window_add, ← hdata m rfl (le_of_eq hm)]
    simp only [Store.readChunks, Proc.returns_bind, Proc.returns_pure]
    exact ⟨data, t, hr, _, u, hu, rfl, rfl⟩

/-- The first chunk of a request that starts behind the end of its block adds bytes of its own. -/
theorem readChunks_behind {len : ℕ} {length : ℤ} {chunks : List (Chunk κ)}
    (culled : ℕ → BlockUid → Bool) (h : s.ShowsTo v cowVersion n d)
    (hc : Chunks s.world.db.blocks v (idx + 1) 0 len chunks) : ∃ data t,
      (Store.readChunks culled v (s.table cowVersion)
        ((some (s.world.db.blocks.getBlockByIdx v idx), off, length) :: chunks)).Returns s data t ∧
      t.ShowsTo v cowVersion n d ∧ t.world = s.world ∧ len ≤ data.length := by
  obtain ⟨data, t, hr, ht, hw, hcow, -⟩ := h.readChunk culled idx off length
  obtain ⟨u, hu, hus, huw⟩ := readChunks hc culled ht (by rw [hw])
  have htable : t.table cowVersion = s.table cowVersion := by rw [Store.table, hcow, Store.table]
  rw [htable] at hu
  refine ⟨data ++ window d ((idx + 1) * v.blockSize + 0) len, u, ?_, hus, huw.trans hw, ?_⟩
  · simp only [Store.readChunks, Proc.returns_bind, Proc.returns_pure]
    exact ⟨data, t, hr, _, u, hu, rfl, rfl⟩
  · rw [List.length_append, length_window]
    omega

theorem cowOf (h : s.ShowsTo v cowVersion n d) {c : Version} (hc : cowVersion = some c) :
    (Store.cowOf c).Returns s (s.table cowVersion) s := by
  obtain ⟨table, ht⟩ := Option.isSome_iff_exists.mp (h.opened c hc)
  simp [Proc.Returns, Store.cowOf, Store.table, hc, ht]

/-- How `read` goes: the table, the list of chunks, the chunks. -/
theorem read_eq (h : s.ShowsTo v cowVersion n d) (culled : ℕ → BlockUid → Bool) (off len : ℕ) :
    Store.read culled v cowVersion off len s =
      (chunksOf v off len >>= Store.readChunks culled v (s.table cowVersion)) s := by
  cases hc : cowVersion with
  | none => rfl
  | some c =>
    have hr := h.cowOf hc
    rw [hc] at hr
    exact Proc.Returns.bind_eq hr

theorem chunksOf_returns {len : ℕ} {chunks : List (Chunk κ)}
    (hl : blockList s.world.db.blocks v (len + v.blockSize + 2) (off / v.blockSize)
      (off % v.blockSize) len = some (.ok chunks)) : (chunksOf v off len).Returns s chunks s := by
  simp [Proc.Returns, chunksOf, hl]

/-- A read that starts inside the version or behind its last block returns the bytes there. -/
theorem read (h : s.ShowsTo v cowVersion n d) (culled : ℕ → BlockUid → Bool) {off : ℕ} (len : ℕ)
    (ho : off % v.blockSize ≤ gridSize v (off / v.blockSize)) : ∃ t,
      (Store.read culled v cowVersion off len).Returns s (window d off len) t ∧
      t.ShowsTo v cowVersion n d ∧ t.world = s.world := by
  obtain ⟨chunks, hl, hchunks⟩ := blockList_chunks h.blockSize_pos h.sized
    (len + v.blockSize + 2) len ho (.inl (by omega))
  obtain ⟨t, ht, hts⟩ := readChunks hchunks culled h rfl
  refine ⟨t, ?_, hts⟩
  have hoff : off / v.blockSize * v.blockSize + off % v.blockSize = off := by
    rw [Nat.mul_comm]
    exact Nat.div_add_mod off v.blockSize
  rw [hoff] at ht
  rw [Proc.Returns, h.read_eq, Proc.Returns.bind_eq (chunksOf_returns hl)]
  exact ht

/-- A read between the end of the version and that of its last block returns too many bytes. -/
theorem read_behind (h : s.ShowsTo v cowVersion n d) (culled : ℕ → BlockUid → Bool) {off : ℕ}
    (len : ℕ)
    (ho : gridSize v (off / v.blockSize) < off % v.blockSize) : ∃ data t,
      (Store.read culled v cowVersion off len).Returns s data t ∧ t.ShowsTo v cowVersion n d ∧
      t.world = s.world ∧ len < data.length := by
  have hmod := Nat.mod_lt off h.blockSize_pos
  obtain ⟨chunks, hl, hchunks⟩ := blockList_behind h.blockSize_pos h.sized
    (len + v.blockSize + 2) len ho (by omega)
  obtain ⟨data, t, ht, hts, hw, hlen⟩ := h.readChunks_behind culled hchunks
  refine ⟨data, t, ?_, hts, hw, by omega⟩
  rw [Proc.Returns, h.read_eq, Proc.Returns.bind_eq (chunksOf_returns hl)]
  exact ht

/-- A write inside one block does not reach another one. -/
theorem disjoint_blocks {data : Bytes} {i : ℕ} (hn : off + data.length ≤ gridSize v idx)
    (hi : i ≠ idx) :
    i * v.blockSize + v.blockSizeAt i ≤ idx * v.blockSize + off ∨
      idx * v.blockSize + off + data.length ≤ i * v.blockSize := by
  have hle := gridSize_le v idx
  have hli := v.blockSizeAt_le i
  cases Nat.lt_or_gt_of_ne hi with
  | inl hlt =>
    left
    have hmul := Nat.mul_le_mul_right v.blockSize (Nat.succ_le_of_lt hlt)
    rw [Nat.succ_mul] at hmul
    omega
  | inr hlt =>
    right
    have hmul := Nat.mul_le_mul_right v.blockSize (Nat.succ_le_of_lt hlt)
    rw [Nat.succ_mul] at hmul
    omega

theorem block_le (h : s.ShowsTo v cowVersion n d) (hidx : idx < v.blocksCount) :
    idx * v.blockSize + v.blockSizeAt idx ≤ d.length := by
  have hlt := (Version.lt_blocksCount h.blockSize_pos).mp hidx
  rw [h.length, Version.blockSizeAt]
  omega

variable {c : Version} {data file : Bytes}

/-- The block as the table of written blocks has it. -/
def copyOf (t : BlockTable κ) (c : Version) (idx : ℕ) : Block κ :=
  { t.getBlockByIdx c idx with uid := some ⟨c.id, idx + 1⟩, checksum := none }

/-- Writing to the file of one block, be it new or not, is writing to the bytes of the export;
nothing is written to a block behind the last one. -/
theorem writeFile (h : s.ShowsTo v (some c) n d) (table : CowTable κ) (file : Bytes)
    (hidx : idx < n) (hin : idx < v.blocksCount ∨ data = [])
    (hn : off + data.length ≤ gridSize v idx) (hw : t.world = s.world)
    (hcache : t.blockCache = s.blockCache) (hcow : t.cow c.uid = some table)
    (hnodup : (table.map Prod.fst).Nodup)
    (hkeys : ∀ i, i ∈ table.map Prod.fst ↔ i ∈ (s.table (some c)).map Prod.fst ∨ i = idx)
    (hentries : ∀ i b, (i, b) ∈ table →
      (i, b) ∈ s.table (some c) ∨ i = idx ∧ b = copyOf s.world.db.blocks c idx)
    (hpresent : ∀ i, i ∈ table.map Prod.fst → t.cowStore.blockPresent ⟨c.id, i + 1⟩ = true)
    (hfiles : ∀ u, t.cowStore.files u =
      if u = ⟨c.id, idx + 1⟩ then some (overwrite file off data) else s.cowStore.files u)
    (hfile : file = slice d (idx * v.blockSize) (v.blockSizeAt idx) ++
      zeros (fileLength v (s.world.db.blocks.getBlockByIdx c idx) - v.blockSizeAt idx)) :
    t.ShowsTo v (some c) n (overwrite d (idx * v.blockSize + off) data) := by
  have htable : t.table (some c) = table := by rw [Store.table, Option.bind_some, hcow]; rfl
  have hlength : (overwrite d (idx * v.blockSize + off) data).length = v.size := by
    cases hin with
    | inl hin =>
      have hend := end_le_size hin hn h.blockSize_pos
      rw [length_overwrite_of_le (by rw [h.length]; exact hend), h.length]
    | inr hnil => rw [hnil, overwrite_nil, h.length]
  have hother (i : ℕ) (hne : i ≠ idx) :
      slice (overwrite d (idx * v.blockSize + off) data) (i * v.blockSize) (v.blockSizeAt i) =
        slice d (i * v.blockSize) (v.blockSizeAt i) := by
    by_cases hi : i < v.blocksCount
    · exact slice_overwrite_of_disjoint (h.block_le hi) (disjoint_blocks hn hne)
    · rw [(h.behind rfl (not_lt.mp hi)).2.1, slice_zero, slice_zero]
  have hsame : overwrite file off data = slice (overwrite d (idx * v.blockSize + off) data)
      (idx * v.blockSize) (v.blockSizeAt idx) ++
        zeros (fileLength v (s.world.db.blocks.getBlockByIdx c idx) - v.blockSizeAt idx) := by
    cases hin with
    | inl hin =>
      rw [gridSize_of_lt hin] at hn
      have hle := h.block_le hin
      have hlen : (slice d (idx * v.blockSize) (v.blockSizeAt idx)).length =
          v.blockSizeAt idx := by
        rw [length_slice]
        omega
      rw [slice_overwrite_within hle (by omega) (by omega), Nat.add_sub_cancel_left, hfile,
        overwrite_append_left (by rw [hlen]; exact hn)]
    | inr hnil => rw [hnil, overwrite_nil, overwrite_nil, hfile]
  refine ⟨h.blockSize_pos, h.le, hlength, hw ▸ h.sized, hw ▸ h.rows, hw ▸ h.readable, ?_, ?_, ?_,
    ?_, ?_⟩
  · intro i u cached hi hc
    rw [hw] at hi ⊢
    rw [hcache] at hc
    exact h.cache i u cached hi hc
  · intro i hi hk
    rw [htable, hkeys, not_or] at hk
    rw [hw, hother i hk.2]
    exact h.untouched i hi hk.1
  · rintro _ ⟨⟩
    rw [hcow]
    rfl
  · rintro _ ⟨⟩
    rw [hw]
    exact h.clone c rfl
  · rintro _ ⟨⟩
    have hcopy := h.copies c rfl
    rw [htable]
    refine ⟨hnodup, ?_, ?_, ?_, ?_⟩
    · intro i b hmem
      cases hentries i b hmem with
      | inl hold => exact hcopy.lt i b hold
      | inr hnew => rw [hnew.1]; exact hidx
    · intro i b hmem
      rw [hw]
      cases hentries i b hmem with
      | inl hold => exact hcopy.block i b hold
      | inr hnew => rw [hnew.1, hnew.2]; rfl
    · intro i b hmem
      exact hpresent i (List.mem_map_of_mem hmem)
    · intro i b hmem
      rw [hw]
      by_cases hi : i = idx
      · subst hi
        exact ⟨overwrite file off data, by rw [hfiles, if_pos rfl], hsame⟩
      · have hold : (i, b) ∈ s.table (some c) := by
          cases hentries i b hmem with
          | inl hold => exact hold
          | inr hnew => exact absurd hnew.1 hi
        obtain ⟨f, hf, hfeq⟩ := hcopy.file i b hold
        have hne : (⟨c.id, i + 1⟩ : BlockUid) ≠ ⟨c.id, idx + 1⟩ := by
          intro he
          have := (BlockUid.mk.inj he).2
          omega
        refine ⟨f, by rw [hfiles, if_neg hne, hf], ?_⟩
        rw [hother i hi]
        exact hfeq

/-- What is copied when a block is written to the first time. -/
theorem originalData (h : s.ShowsTo v (some c) n d)
    (hk : idx ∉ (s.table (some c)).map Prod.fst) :
    (Store.originalData c (s.world.db.blocks.getBlockByIdx c idx)).Returns s
      (slice d (idx * v.blockSize) (v.blockSizeAt idx) ++
        zeros (fileLength v (s.world.db.blocks.getBlockByIdx c idx) - v.blockSizeAt idx)) s := by
  obtain ⟨-, hbs, hst, hblocks⟩ := h.clone c rfl
  by_cases hidx : idx < v.blocksCount
  case neg =>
    obtain ⟨-, hzero, hnone⟩ := h.behind rfl (not_lt.mp hidx)
    rw [hzero, fileLength, if_pos hnone, slice_zero, List.nil_append, Nat.sub_zero]
    simp [Proc.Returns, Store.originalData, hnone, hbs]
  obtain ⟨hu, hs⟩ := hblocks idx
  have hsized := h.sized idx
  rw [gridSize_of_lt hidx] at hsized
  have hdata := h.untouched idx hidx hk
  cases huc : (s.world.db.blocks.getBlockByIdx c idx).uid with
  | none =>
    rw [huc] at hu
    rw [blockData, ← hu, Option.some.injEq, hsized] at hdata
    have hle := v.blockSizeAt_le idx
    have hsplit : v.blockSizeAt idx + (v.blockSize - v.blockSizeAt idx) = v.blockSize := by omega
    rw [fileLength, if_pos huc, ← hdata, ← zeros_add, hsplit]
    simp [Proc.Returns, Store.originalData, huc, hbs]
  | some uid =>
    rw [huc] at hu
    obtain ⟨data, m, hread, hlen⟩ := h.readable idx (by rw [← hu]; rfl)
    have hd := blockData_of_readObject hu.symm hread
    rw [hdata, Option.some.injEq] at hd
    have hsame : readObject s.world.objects c.storage.id
        (s.world.db.blocks.getBlockByIdx c idx) = .ok (data, m) := by
      rw [hst, readObject_congr (huc.trans hu) (by simp), hread]
    have hne : (s.world.db.blocks.getBlockByIdx c idx).uid ≠ none := by simp [huc]
    rw [fileLength, if_neg hne, hs, hsized, Nat.sub_self, zeros_zero, List.append_nil, hd]
    simp [Proc.Returns, Store.originalData, huc, hsame, Except.map]

/-- Writing inside a block of the version writes to the bytes of the export. -/
theorem writeChunk (h : s.ShowsTo v (some c) n d) (off : ℕ) (data : Bytes)
    (hidx : idx < n) (hin : idx < v.blocksCount ∨ data = [])
    (hn : off + data.length ≤ gridSize v idx) : ∃ t,
      (Store.writeChunk c (s.world.db.blocks.getBlockByIdx c idx) off data).Returns s () t ∧
      t.ShowsTo v (some c) n (overwrite d (idx * v.blockSize + off) data) ∧ t.world = s.world := by
  have hopen := h.cowOf rfl
  have hcopy := h.copies c rfl
  have hpres : ∀ i, i ∈ (s.table (some c)).map Prod.fst →
      s.cowStore.blockPresent ⟨c.id, i + 1⟩ = true := by
    intro i hi
    obtain ⟨⟨j, b⟩, hmem, rfl⟩ := List.mem_map.mp hi
    exact hcopy.present j b hmem
  cases hl : (s.table (some c)).lookup idx with
  | some b =>
    have hmem := mem_of_lookup hl
    obtain ⟨file, hf, hfile⟩ := hcopy.file idx b hmem
    have hkey : idx ∈ (s.table (some c)).map Prod.fst := List.mem_map_of_mem hmem
    refine ⟨{ s with cowStore := { s.cowStore with
      files := fun u => if u = ⟨c.id, idx + 1⟩ then some (overwrite file off data)
        else s.cowStore.files u } }, ?_, ?_, rfl⟩
    · have hb : b.uid = some ⟨c.id, idx + 1⟩ := by rw [hcopy.block idx b hmem]
      rw [Proc.Returns, Store.writeChunk, hopen.bind_eq]
      simp only [BlockTable.getBlockByIdx_idx, hl, BlockStore.update, hb]
      have hg : (Proc.get : Store.Action κ (Store κ)).Returns s s s := rfl
      rw [hg.bind_eq]
      simp only [hf]
      rfl
    · refine h.writeFile (s.table (some c)) file hidx hin hn rfl rfl ?_ hcopy.nodup
        ?_ (fun i b hmem => .inl hmem) hpres (fun u => rfl) hfile
      · obtain ⟨tab, ht⟩ := Option.isSome_iff_exists.mp (h.opened c rfl)
        simp [Store.table, ht]
      · intro i
        constructor
        · exact .inl
        · rintro (hi | rfl)
          · exact hi
          · exact hkey
  | none =>
    have hk := not_mem_of_lookup hl
    have horig := h.originalData hk
    have hrun : ∃ t, (Store.writeChunk c (s.world.db.blocks.getBlockByIdx c idx) off data).Returns
        s () t ∧ t = setCow c (s.table (some c) ++ [(idx, copyOf s.world.db.blocks c idx)])
          { s with cowStore := s.cowStore.write ⟨c.id, idx + 1⟩ (overwrite
            (slice d (idx * v.blockSize) (v.blockSizeAt idx) ++
              zeros (fileLength v (s.world.db.blocks.getBlockByIdx c idx) - v.blockSizeAt idx))
            off data) } := by
      refine ⟨_, ?_, rfl⟩
      rw [Proc.Returns, Store.writeChunk, hopen.bind_eq]
      simp only [BlockTable.getBlockByIdx_idx, hl]
      rw [horig.bind_eq]
      simp only [copyOf, BlockTable.getBlockByIdx_idx]
      rfl
    obtain ⟨t, hrun, rfl⟩ := hrun
    refine ⟨_, hrun, ?_, rfl⟩
    refine h.writeFile (s.table (some c) ++ [(idx, copyOf s.world.db.blocks c idx)]) _
      hidx hin hn rfl rfl (by simp [setCow]) ?_ ?_ ?_ ?_ (fun u => rfl) rfl
    · rw [List.map_append, List.nodup_append]
      refine ⟨hcopy.nodup, List.nodup_singleton _, ?_⟩
      intro i hi j hj
      rw [List.map_singleton, List.mem_singleton] at hj
      rw [hj]
      rintro rfl
      exact hk hi
    · intro i
      simp
    · intro i b hmem
      simpa using hmem
    · intro i hi
      simp only [List.map_append, List.map_singleton, List.mem_append, List.mem_singleton] at hi
      simp only [setCow, BlockStore.write, Bool.or_eq_true, decide_eq_true_eq]
      cases hi with
      | inl hi => exact .inr (hpres i hi)
      | inr hi => exact .inl (by rw [hi])

/-- The induction is on the chunks; the rest of the data is written from the next block on. -/
theorem writeChunks (position : ℕ) (data : Bytes) {blocks : BlockTable κ} {len : ℕ}
    {chunks : List (Chunk κ)}
    (hc : Chunks blocks c idx off len chunks) (h : s.ShowsTo v (some c) n d)
    (hblocks : s.world.db.blocks = blocks) (hidx : idx < n)
    (hin : idx < v.blocksCount ∨ len = 0) (hend : idx * v.blockSize + off + len ≤ v.size)
    (hdata : position + len ≤ data.length) : ∃ t,
      (Store.writeChunks c data position chunks).Returns s () t ∧
      t.ShowsTo v (some c) n (overwrite d (idx * v.blockSize + off) (slice data position len)) ∧
      t.world = s.world := by
  induction hc generalizing s d position with
  | @last idx off len hle =>
    subst hblocks
    obtain ⟨hsize, hbs, -, -⟩ := h.clone c rfl
    have hgrid := gridSize_congr hsize hbs idx
    have hlen : (slice data position len).length = len := by
      rw [length_slice]
      omega
    obtain ⟨t, ht, hts⟩ := h.writeChunk off (slice data position len) hidx
      (hin.imp_right fun hzero => by rw [hzero, slice_zero]) (by rw [hlen, ← hgrid]; exact hle)
    refine ⟨t, ?_, hts⟩
    simp only [Store.writeChunks, pySlice_nat, Proc.returns_bind, Proc.returns_pure]
    exact ⟨(), t, ht, trivial, rfl⟩
  | @more idx off m len chunks hm hpos _ ih =>
    subst hblocks
    obtain ⟨hsize, hbs, -, -⟩ := h.clone c rfl
    have hgrid := gridSize_congr hsize hbs idx
    have hlen : (slice data position m).length = m := by
      rw [length_slice]
      omega
    rw [hgrid] at hm
    have hin : idx < v.blocksCount := hin.resolve_right (by omega)
    obtain ⟨t, ht, hts, hw⟩ := h.writeChunk off (slice data position m) hidx (.inl hin)
      (by rw [hlen]; exact le_of_eq hm)
    have hnext : idx * v.blockSize + off + m = (idx + 1) * v.blockSize := by
      cases next_block h.blockSize_pos hm with
      | inl he => exact he
      | inr he => omega
    have hidx' : idx + 1 < v.blocksCount :=
      (Version.lt_blocksCount h.blockSize_pos).mpr (by omega)
    obtain ⟨u, hu, hus, huw⟩ := @ih t _ (position + m) hts (by rw [hw])
      (hidx'.trans_le h.le) (.inl hidx') (by omega) (by omega)
    refine ⟨u, ?_, ?_, huw.trans hw⟩
    · simp only [Store.writeChunks, pySlice_nat, Proc.returns_bind]
      exact ⟨(), t, ht, hu⟩
    · have hsplit : slice data position (m + len) =
          slice data position m ++ slice data (position + m) len := by
        simp only [slice, List.take_add, List.drop_drop]
      have happ := overwrite_append d (slice data position m) (slice data (position + m) len)
        (idx * v.blockSize + off)
      rw [hlen, hnext] at happ
      rw [hsplit, ← happ]
      exact hus

theorem sized_clone (h : s.ShowsTo v (some c) n d) : Sized s.world.db.blocks c := by
  obtain ⟨hsize, hbs, -, hblocks⟩ := h.clone c rfl
  intro i
  rw [(hblocks i).2, h.sized i, gridSize_congr hsize hbs]

/-- A write inside the version writes to its bytes; at its very end it may need one more block. -/
theorem write (h : s.ShowsTo v (some c) n d)
    (ho : off < v.blocksCount * v.blockSize ∨ v.blocksCount < n)
    (hend : off + data.length ≤ v.size) : ∃ t,
      (Store.write c off data).Returns s () t ∧ t.ShowsTo v (some c) n (overwrite d off data) ∧
      t.world = s.world := by
  obtain ⟨hsize, hbs, -, -⟩ := h.clone c rfl
  have hb := h.blockSize_pos
  have hgrid : off % c.blockSize ≤ gridSize c (off / c.blockSize) := by
    have hiff := gridSize_lt_iff hb off
    rw [gridSize_congr hsize hbs, hbs]
    by_contra hlt
    have := hiff.mp (not_le.mp hlt)
    omega
  have hoff : off / v.blockSize * v.blockSize + off % v.blockSize = off := by
    rw [Nat.mul_comm]
    exact Nat.div_add_mod off v.blockSize
  have hidx : off / v.blockSize < n ∧ (off / v.blockSize < v.blocksCount ∨ data.length = 0) := by
    by_cases hlt : off < v.blocksCount * v.blockSize
    · have hidx := (Nat.div_lt_iff_lt_mul hb).mpr hlt
      exact ⟨hidx.trans_le h.le, .inl hidx⟩
    · have hsize := Version.size_le_blocksCount_mul hb
      have hdiv : off / v.blockSize = v.blocksCount := by
        rw [show off = v.blocksCount * v.blockSize by omega, Nat.mul_div_cancel _ hb]
      exact ⟨hdiv ▸ ho.resolve_left hlt, .inr (by omega)⟩
  obtain ⟨chunks, hl, hchunks⟩ := blockList_chunks (hbs ▸ hb) h.sized_clone
    (data.length + c.blockSize + 2) data.length hgrid (.inl (by omega))
  rw [hbs] at hchunks
  obtain ⟨t, ht, hts⟩ := writeChunks 0 data hchunks h rfl hidx.1 hidx.2
    (by rw [hoff]; exact hend) (by omega)
  rw [hoff, slice_eq_self le_rfl] at hts
  refine ⟨t, ?_, hts⟩
  rw [Proc.Returns, Store.write, (h.cowOf rfl).bind_eq, Proc.Returns.bind_eq (chunksOf_returns hl)]
  exact ht

end ShowsTo

section Keys
variable {c : Version} {data : Bytes} {block : Block κ}

/-- A block that is written to is in the table, as is every block that was there before. -/
theorem writeChunk_keys (h : (writeChunk c block off data).Returns s () t) :
    block.idx ∈ (t.table (some c)).map Prod.fst ∧
      (∀ i ∈ (s.table (some c)).map Prod.fst, i ∈ (t.table (some c)).map Prod.fst) ∧
      t.world = s.world := by
  simp only [writeChunk, Proc.returns_bind, returns_cowOf] at h
  obtain ⟨cow, s', ⟨hcow, rfl⟩, h⟩ := h
  have htable : s.table (some c) = cow := by rw [table, Option.bind_some, hcow]; rfl
  cases hl : cow.lookup block.idx with
  | some b =>
    simp only [hl, Proc.returns_bind, Proc.returns_get, returns_ofExcept, Proc.returns_modify] at h
    obtain ⟨_, _, ⟨rfl, rfl⟩, _, _, ⟨-, rfl⟩, rfl⟩ := h
    have hnew (cs : BlockStore) : ({ s with cowStore := cs } : Store κ).table (some c) = cow :=
      htable
    rw [hnew, htable]
    exact ⟨List.mem_map_of_mem (mem_of_lookup hl), fun _ hi => hi, rfl⟩
  | none =>
    simp only [hl, Proc.returns_bind, Proc.returns_modify] at h
    obtain ⟨original, s'', hs, rfl⟩ := h
    have hsame : s'' = s := by
      unfold originalData Proc.Returns at hs
      cases hu : block.uid <;> simp_all
    subst hsame
    have hnew : ∀ e, (setCow c (cow ++ [(block.idx, e)]) { s'' with
        cowStore := s''.cowStore.write ⟨c.id, block.idx + 1⟩ (overwrite original off data) }).table
          (some c) = cow ++ [(block.idx, e)] := by
      intro e
      simp [table, setCow]
    rw [hnew, htable]
    refine ⟨by simp, ?_, rfl⟩
    intro i hi
    rw [List.map_append]
    exact List.mem_append_left _ hi

/-- What a write may raise: never that the request is out of range. -/
theorem writeChunk_raises {e : Error} (h : (writeChunk c block off data).Raises s e t)
    (hr : block.uid.isSome → ∃ r, readObject s.world.objects c.storage.id block = .ok r) :
    e ≠ eio := by
  simp only [writeChunk, Proc.raises_bind, returns_cowOf, raises_cowOf] at h
  rcases h with ⟨-, rfl, -⟩ | ⟨cow, s', ⟨-, rfl⟩, h⟩
  · simp [eio]
  · cases hl : cow.lookup block.idx with
    | some b =>
      simp only [hl, Proc.raises_bind, Proc.raises_get, Proc.returns_get, raises_ofExcept,
        Proc.raises_modify, and_false, exists_false, or_false, false_or] at h
      obtain ⟨_, _, ⟨rfl, rfl⟩, hup, -⟩ := h
      unfold BlockStore.update at hup
      split at hup
      · obtain rfl := Except.error.inj hup
        simp [eio]
      · split at hup
        · obtain rfl := Except.error.inj hup
          simp [eio]
        · cases hup
    | none =>
      simp only [hl, Proc.raises_bind, Proc.raises_modify, and_false, exists_false,
        or_false] at h
      unfold originalData Proc.Raises at h
      cases hu : block.uid with
      | none => simp [hu] at h
      | some uid =>
        obtain ⟨r, hread⟩ := hr (by rw [hu]; rfl)
        simp [hu, hread, Except.map] at h

/-- The blocks of all chunks end up in the table. -/
theorem writeChunks_keys {t₀ : BlockTable κ} {chunks : List (Chunk κ)} {position : ℤ}
    (hc : ∀ chunk ∈ chunks, ∃ i o n, chunk = (some (t₀.getBlockByIdx c i), o, n))
    (h : (writeChunks c data position chunks).Returns s () t) :
    (∀ i o n, (some (t₀.getBlockByIdx c i), o, n) ∈ chunks →
      i ∈ (t.table (some c)).map Prod.fst) ∧
    ∀ i ∈ (s.table (some c)).map Prod.fst, i ∈ (t.table (some c)).map Prod.fst := by
  induction chunks generalizing s position with
  | nil =>
    simp only [writeChunks, Proc.returns_pure, true_and] at h
    subst h
    exact ⟨fun _ _ _ hmem => absurd hmem List.not_mem_nil, fun _ hi => hi⟩
  | cons chunk chunks ih =>
    obtain ⟨i, o, n, rfl⟩ := hc chunk (List.mem_cons_self ..)
    simp only [writeChunks, Proc.returns_bind] at h
    obtain ⟨_, u, hu, hrest⟩ := h
    obtain ⟨hi, hold, -⟩ := writeChunk_keys hu
    obtain ⟨hnew, hkeep⟩ := ih (fun x hx => hc x (List.mem_cons_of_mem _ hx)) hrest
    constructor
    · intro j o' n' hmem
      cases List.mem_cons.mp hmem with
      | inl he =>
        have hblock := (Prod.mk.inj he).1
        have hidx := congrArg (Option.map Block.idx) hblock
        simp only [Option.map_some, BlockTable.getBlockByIdx_idx, Option.some.injEq] at hidx
        rw [BlockTable.getBlockByIdx_idx] at hi
        rw [hidx]
        exact hkeep i hi
      | inr he => exact hnew j o' n' he
    · intro j hj
      exact hkeep j (hold j hj)

theorem writeChunks_raises {t₀ : BlockTable κ} {chunks : List (Chunk κ)} {position : ℤ}
    {e : Error} (hc : ∀ chunk ∈ chunks, ∃ i o n, chunk = (some (t₀.getBlockByIdx c i), o, n))
    (h : (writeChunks c data position chunks).Raises s e t)
    (hr : ∀ i, (t₀.getBlockByIdx c i).uid.isSome → ∃ r,
      readObject s.world.objects c.storage.id (t₀.getBlockByIdx c i) = .ok r) : e ≠ eio := by
  induction chunks generalizing s position with
  | nil => simp [writeChunks] at h
  | cons chunk chunks ih =>
    obtain ⟨i, o, n, rfl⟩ := hc chunk (List.mem_cons_self ..)
    simp only [writeChunks, Proc.raises_bind] at h
    rcases h with h | ⟨_, u, hu, hrest⟩
    · exact writeChunk_raises h (hr i)
    · obtain ⟨-, -, hw⟩ := writeChunk_keys hu
      exact ih (fun x hx => hc x (List.mem_cons_of_mem _ hx)) hrest (by rw [hw]; exact hr)

end Keys

end Store

end Benji.Nbd
