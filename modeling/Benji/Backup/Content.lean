import Benji.Backup.Run

/-! What a version reads back as after a backup returned: the source for the blocks that were
read, and for the others what `update_version` left in their place. -/
namespace Benji
open Lib

variable {κ : Type}

/-- A version that no backup has worked on, under an id that was never used before. -/
structure Fresh (version : Version) (w : World κ) : Prop where
  row : w.db.versions.find? version.id = some version
  noRows : ∀ b ∈ w.db.blocks, b.versionId ≠ version.id
  noUids : ∀ b ∈ w.db.blocks, ∀ uid, b.uid = some uid → uid.left ≠ version.id

/-- The valid rows of a storage agree with its objects. -/
def RowsIntact (hash : Bytes → κ) (storage : ℕ) (w : World κ) : Prop :=
  ∀ b ∈ w.db.blocks, b.valid = true → w.db.inStorage storage b = true →
    Intact hash w.objects storage b

section OldBlocks
variable {S : Settings κ} {db : Database κ} {base : Option String} {storage : ℕ}

/-- A block of a version is one of its rows or synthesized. -/
theorem BlockTable.getBlockByIdx_cases (t : BlockTable κ) (v : Version) (idx : ℕ) :
    (t.getBlockByIdx v idx ∈ t ∧ (t.getBlockByIdx v idx).versionId = v.id) ∨
      t.getBlockByIdx v idx = createSparseBlock v idx := by
  cases hr : t.row? v idx with
  | none => exact .inr (getBlockByIdx_of_none hr)
  | some b =>
    rw [getBlockByIdx_of_row? hr]
    exact .inl ⟨(row?_eq_some.mp hr).1, (row?_eq_some.mp hr).2.1⟩

/-- The blocks of the base version are rows of its storage, or have no object. -/
theorem oldBlocks_cases (hp : 0 < S.blocksPerCall)
    (hbase : ∀ u ∈ base, ∀ b, db.getByUid u = some b → b.storage.id = storage)
    {b : Block κ} (h : b ∈ oldBlocks S db base) :
    (b ∈ db.blocks ∧ db.inStorage storage b = true) ∨ (b.uid = none ∧ b.checksum = none) := by
  cases base with
  | none => simp [oldBlocks] at h
  | some u =>
    rw [oldBlocks] at h
    cases hv : db.getByUid u with
    | none => simp [hv] at h
    | some v =>
      simp only [hv] at h
      rw [BlockTable.blocks_eq hp, List.mem_map] at h
      obtain ⟨idx, -, rfl⟩ := h
      rcases db.blocks.getBlockByIdx_cases v idx with ⟨hmem, hid⟩ | hs
      · refine .inl ⟨hmem, ?_⟩
        have hrow := Table.find?_of_mem (Database.getByUid_spec hv).1
        rw [← hbase u rfl v hv]
        exact Database.inStorage_of_row hrow hid
      · rw [hs]
        exact .inr ⟨rfl, rfl⟩

end OldBlocks

section Cloned
variable {hash : Bytes → κ} {v : Version} {old : List (Block κ)} {t t' : BlockTable κ} {idx : ℕ}

/-- A cloned row has the uid, checksum and size of a base block, or no object. -/
theorem clonedBlock_cases (v : Version) (idx : ℕ) (o : Option (Block κ)) :
    (∃ b ∈ o, clonedBlock v idx o = ⟨v.id, idx, b.uid, b.checksum, b.size, b.valid⟩) ∨
      ((clonedBlock v idx o).uid = none ∧ (clonedBlock v idx o).checksum = none) := by
  cases o with
  | none =>
    by_cases h : v.blockSize = v.blockSizeAt idx
    · rw [clonedBlock_none_of_eq h]
      exact .inr ⟨rfl, rfl⟩
    · rw [clonedBlock_none_of_ne h]
      exact .inr ⟨rfl, rfl⟩
  | some b =>
    by_cases h : b.size = v.blockSizeAt idx
    · exact .inl ⟨b, rfl, clonedBlock_of_size_eq h⟩
    · rw [clonedBlock_of_size_ne h]
      exact .inr ⟨rfl, rfl⟩

theorem mem_clonedBlocks {b : Block κ} : b ∈ clonedBlocks v old ↔
    ∃ idx < v.blocksCount, clonedBlock v idx old[idx]? = b := by
  simp [clonedBlocks]

/-- A row after `update_version` was there before, or is a clone that is not fully sparse. -/
theorem mem_cloned (h : t.createBlocks v (clonedBlocks v old) = some t') {b : Block κ} :
    b ∈ t' ↔ (∃ idx < v.blocksCount, clonedBlock v idx old[idx]? = b ∧
      (b.uid.isSome ∨ b.size ≠ v.blockSize)) ∨ b ∈ t := by
  rw [BlockTable.mem_createBlocks h]
  apply or_congr_left
  constructor
  · rintro ⟨c, hc, hk, rfl⟩
    obtain ⟨idx, hlt, rfl⟩ := mem_clonedBlocks.mp hc
    refine ⟨idx, hlt, ?_, hk⟩
    rw [← clonedBlock_versionId v idx old[idx]?]
  · rintro ⟨idx, hlt, rfl, hk⟩
    refine ⟨_, mem_clonedBlocks.mpr ⟨idx, hlt, rfl⟩, hk, ?_⟩
    rw [← clonedBlock_versionId v idx old[idx]?]

/-- What a new version's block is before its backup has looked at it. -/
theorem getBlockByIdx_cloned (h : t.createBlocks v (clonedBlocks v old) = some t')
    (hno : ∀ b ∈ t, b.versionId ≠ v.id) (hlt : idx < v.blocksCount) :
    t'.getBlockByIdx v idx =
      if (clonedBlock v idx old[idx]?).uid.isSome ∨ v.blockSizeAt idx ≠ v.blockSize then
        clonedBlock v idx old[idx]?
      else createSparseBlock v idx := by
  have hsz := clonedBlock_size v idx old[idx]?
  split_ifs with hk
  · apply BlockTable.getBlockByIdx_of_row?
    rw [BlockTable.row?_eq_some]
    refine ⟨(mem_cloned h).mpr (.inl ⟨idx, hlt, rfl, ?_⟩), clonedBlock_versionId v idx _,
      clonedBlock_idx v idx _⟩
    rw [hsz]
    exact hk
  · apply BlockTable.getBlockByIdx_of_none
    cases hr : t'.row? v idx with
    | none => rfl
    | some b =>
      obtain ⟨hmem, hv, hi⟩ := BlockTable.row?_eq_some.mp hr
      rcases (mem_cloned h).mp hmem with ⟨j, -, rfl, hkj⟩ | hmem
      · obtain rfl : j = idx := by simpa using hi
        rw [hsz] at hkj
        exact absurd hkj hk
      · exact absurd hv (hno b hmem)

theorem size_getBlockByIdx_cloned (h : t.createBlocks v (clonedBlocks v old) = some t')
    (hno : ∀ b ∈ t, b.versionId ≠ v.id) (hlt : idx < v.blocksCount) :
    (t'.getBlockByIdx v idx).size = v.blockSizeAt idx := by
  rw [getBlockByIdx_cloned h hno hlt]
  split_ifs with hk
  · exact clonedBlock_size v idx _
  · rw [not_or, not_not] at hk
    exact hk.2.symm

end Cloned

section Start
variable {S : Settings κ} {version : Version} {w : World κ} {base : Option String}
  {blockSize size : Option ℕ} {n m : ℕ} {t : BlockTable κ} {want : ℕ → Bytes}

/-- The base version is in the storage of the new one. -/
theorem storage_base
    (hc : (checkBase version blockSize size true base).Returns w (n, m) w) :
    ∀ u ∈ base, ∀ b, (w.db.setSize version.id n m).getByUid u = some b →
      b.storage.id = version.storage.id := by
  intro u hu b hb
  obtain rfl : base = some u := hu
  obtain ⟨-, b0, hb0, -, hst, -⟩ := returns_checkBase_some hc
  rw [Database.getByUid_setSize, hb0, Option.map_some, Option.some.injEq] at hb
  subst hb
  split
  · exact congrArg Storage.id hst
  · exact congrArg Storage.id hst

theorem size_of_checkBase {size : ℕ}
    (hc : (checkBase version blockSize (some size) true base).Returns w (n, m) w) : n = size := by
  cases base with
  | none => exact (Option.some.inj (returns_checkBase_none.mp hc).1).symm
  | some u =>
    obtain ⟨-, b, -, -, -, -, hr⟩ := returns_checkBase_some hc
    exact (Prod.mk.inj hr).1

/-- Before the queueing loop every block of the version is outstanding. -/
theorem tableInv_start (hp : 0 < S.blocksPerCall) (hfresh : Fresh version w)
    (hrows : RowsIntact S.dataHexdigest version.storage.id w)
    (hc : (checkBase version blockSize size true base).Returns w (n, m) w)
    (ht : w.db.blocks.createBlocks { version with size := n, blockSize := m }
      (clonedBlocks { version with size := n, blockSize := m }
        (oldBlocks S (w.db.setSize version.id n m) base)) = some t)
    {u : World κ}
    (hu : ((w.mapDb fun db => db.setSize version.id n m).setBlocks t).UpToLocks u) :
    TableInv S.dataHexdigest { version with size := n, blockSize := m } want u
      (List.range ({ version with size := n, blockSize := m } : Version).blocksCount) := by
  have hblocks : u.db.blocks = t := hu.blocks
  have hobj : u.objects = w.objects := hu.objects
  have hst : ∀ b, u.db.inStorage version.storage.id b = w.db.inStorage version.storage.id b :=
    Database.inStorage_setSize hu.versions
  have hst' : ∀ b, (w.db.setSize version.id n m).inStorage version.storage.id b =
      w.db.inStorage version.storage.id b := Database.inStorage_setSize rfl
  have hold : ∀ idx : ℕ, ∀ b ∈ (oldBlocks S (w.db.setSize version.id n m) base)[idx]?,
      (b ∈ w.db.blocks ∧ w.db.inStorage version.storage.id b = true) ∨
        (b.uid = none ∧ b.checksum = none) := by
    intro idx b hb
    rcases oldBlocks_cases hp (storage_base hc) (List.mem_of_getElem? hb) with ⟨h1, h2⟩ | h
    · exact .inl ⟨h1, hst' b ▸ h2⟩
    · exact .inr h
  refine ⟨?_, ?_, ?_, ?_, ?_, ?_⟩
  · rw [hu.versions]
    exact Database.find?_setSize hfresh.row
  · intro b hb hv
    rw [hblocks] at hb
    rcases (mem_cloned ht).mp hb with ⟨idx, hlt, rfl, -⟩ | hb
    · rw [clonedBlock_idx]
      exact hlt
    · exact absurd hv (hfresh.noRows b hb)
  · intro i hi
    exact List.mem_range.mp hi
  · intro b hb hv hs
    rw [hblocks] at hb
    rw [hobj]
    rcases (mem_cloned ht).mp hb with ⟨idx, hlt, rfl, -⟩ | hb
    · rcases clonedBlock_cases (κ := κ) { version with size := n, blockSize := m } idx
        (oldBlocks S (w.db.setSize version.id n m) base)[idx]? with ⟨o, ho, he⟩ | ⟨he, hk⟩
      · rw [he] at hv ⊢
        rcases hold idx o ho with ⟨h1, h2⟩ | ⟨h1, h2⟩
        · exact hrows o h1 hv h2
        · rw [h1, h2]
          rfl
      · rw [Intact, he]
        exact hk
    · exact hrows b hb hv (hst b ▸ hs)
  · intro b hb hs i hi
    rw [hblocks] at hb
    rcases (mem_cloned ht).mp hb with ⟨idx, hlt, rfl, -⟩ | hb
    · rcases clonedBlock_cases (κ := κ) { version with size := n, blockSize := m } idx
        (oldBlocks S (w.db.setSize version.id n m) base)[idx]? with ⟨o, ho, he⟩ | ⟨he, hk⟩
      · rw [he]
        rcases hold idx o ho with ⟨h1, h2⟩ | ⟨h1, h2⟩
        · intro hx
          exact hfresh.noUids o h1 _ hx rfl
        · rw [h1]
          simp
      · rw [he]
        simp
    · intro hx
      exact hfresh.noUids b hb _ hx rfl
  · intro i hi hn
    exact absurd (List.mem_range.mpr hi) hn

end Start

section Content
variable [DecidableEq κ] {S : Settings κ} {v : Version} {io : Source} {want : ℕ → Bytes}
  {w : World κ} {out sparseBlocks readBlocks : List ℕ} {sched : Schedule} {L : Loop κ}

omit [DecidableEq κ] in
/-- A valid block has its data. -/
theorem TableInv.readable (h : TableInv S.dataHexdigest v want w out) {idx : ℕ}
    (hv : (w.db.blocks.getBlockByIdx v idx).valid = true) :
    ∃ d, blockData w.objects v.storage.id (w.db.blocks.getBlockByIdx v idx) = some d := by
  rcases w.db.blocks.getBlockByIdx_cases v idx with ⟨hmem, hid⟩ | hs
  · have hint := h.intact _ hmem hv (Database.inStorage_of_row h.row hid)
    obtain ⟨d, hd, -⟩ := hint.data
    exact ⟨d, hd⟩
  · rw [hs]
    exact ⟨_, rfl⟩

/-- The content block `idx` should get: that of the source, zeros, or what it has. -/
def wanted (v : Version) (io : Source) (sparseBlocks readBlocks : List ℕ) (w : World κ)
    (idx : ℕ) : Bytes :=
  if Loop.ToRead readBlocks (w.db.blocks.getBlockByIdx v idx) then v.sourceBlock io idx
  else (Loop.KeptAs sparseBlocks w.objects v.storage.id (w.db.blocks.getBlockByIdx v idx)).getD []

omit [DecidableEq κ] in
theorem queueInv_start
    (htab : TableInv S.dataHexdigest v (wanted v io sparseBlocks readBlocks w) w
      (List.range v.blocksCount))
    (hsize : ∀ idx < v.blocksCount,
      (w.db.blocks.getBlockByIdx v idx).size = v.blockSizeAt idx) :
    Loop.QueueInv S.dataHexdigest v (wanted v io sparseBlocks readBlocks w) sparseBlocks readBlocks
      ((List.range v.blocksCount).map (w.db.blocks.getBlockByIdx v)) { world := w } := by
  have hidx : ((List.range v.blocksCount).map (w.db.blocks.getBlockByIdx v)).map Block.idx =
      List.range v.blocksCount := by
    rw [List.map_map]
    conv_rhs => rw [← List.map_id (List.range v.blocksCount)]
    apply List.map_congr_left
    intro i _
    exact BlockTable.getBlockByIdx_idx _ _ _
  refine ⟨?_, ?_, ?_, ?_, ?_⟩
  · rw [hidx]
    exact htab
  · rw [hidx]
    exact List.nodup_range
  · intro b hb
    obtain ⟨i, -, rfl⟩ := List.mem_map.mp hb
    rw [BlockTable.getBlockByIdx_idx]
  · intro b hb
    obtain ⟨i, hi, rfl⟩ := List.mem_map.mp hb
    rw [BlockTable.getBlockByIdx_idx]
    exact hsize i (List.mem_range.mp hi)
  · intro b hb hr
    obtain ⟨i, hi, rfl⟩ := List.mem_map.mp hb
    rw [BlockTable.getBlockByIdx_idx, wanted, if_neg hr]
    have hv : (w.db.blocks.getBlockByIdx v i).valid = true := by
      simpa [Loop.ToRead] using fun hx => hr (.inr hx)
    obtain ⟨d, hd⟩ := htab.readable hv
    unfold Loop.KeptAs
    split_ifs
    · rfl
    · rw [hd]
      rfl

/-- What the block loop leaves behind when it is through. -/
structure LoopDone (hash : Bytes → κ) (v : Version) (want : ℕ → Bytes) (blocks : List (Block κ))
    (sparseBlocks readBlocks : List ℕ) (L : Loop κ) : Prop where
  tables : TableInv hash v want L.world []
  bytesRead : L.stats.bytesRead =
    ((blocks.filter fun b => Loop.ToRead readBlocks b).map Block.size).sum
  bytesTotal : L.stats.bytesWritten + L.stats.bytesDeduplicated + L.stats.bytesSparse =
    ((blocks.filter fun b => Loop.ToRead readBlocks b).map Block.size).sum +
      ((blocks.filter fun b => ¬ Loop.ToRead readBlocks b ∧ b.idx ∈ sparseBlocks).map
        Block.size).sum

/-- Whatever order reads and writes complete in, every block ends up as it should. -/
theorem loop_run (hp : 0 < S.blocksPerCall) (hinj : Function.Injective S.dataHexdigest)
    (hlen : io.data.length = v.size)
    (htab : TableInv S.dataHexdigest v (wanted v io sparseBlocks readBlocks w) w
      (List.range v.blocksCount))
    (hsize : ∀ idx < v.blocksCount,
      (w.db.blocks.getBlockByIdx v idx).size = v.blockSizeAt idx)
    (h : (Loop.run S v io sparseBlocks readBlocks sched).Returns { world := w } () L) :
    LoopDone S.dataHexdigest v (wanted v io sparseBlocks readBlocks w)
      ((List.range v.blocksCount).map (w.db.blocks.getBlockByIdx v)) sparseBlocks readBlocks L := by
  simp only [Loop.run, Proc.returns_bind, Proc.returns_get] at h
  obtain ⟨_, _, ⟨rfl, rfl⟩, _, L1, hq, _, L2, he, hw⟩ := h
  rw [BlockTable.blocks_eq hp] at hq
  have hstart := queueInv_start htab hsize
  have hqueue := Loop.queue_run hstart hq
  have hframe := Loop.queue_frame hq
  have hreads : L1.reads =
      ((List.range v.blocksCount).map (w.db.blocks.getBlockByIdx v)).filter
        fun b => Loop.ToRead readBlocks b := by
    rw [hframe.reads]
    rfl
  have hout : L1.outstanding = L1.reads.map Block.idx := by
    rw [Loop.outstanding, hframe.queued, hframe.written]
    simp
  have hbytes : Loop.bytesOf v (L1.reads.map Block.idx) = (L1.reads.map Block.size).sum := by
    rw [Loop.bytesOf, List.map_map]
    congr 1
    apply List.map_congr_left
    intro b hb
    rw [hreads] at hb
    exact (hstart.size b (List.mem_of_mem_filter hb)).symm
  have hinv : Loop.Inv S.dataHexdigest v io (wanted v io sparseBlocks readBlocks w)
      (L1.reads.map Block.size).sum ((L1.reads.map Block.size).sum + L1.stats.bytesSparse) L1 := by
    refine ⟨?_, ?_, ?_, ?_, ?_, ?_, ?_, ?_, ?_, ?_⟩
    · simpa [hout] using hqueue.tables
    · simpa [hout] using hqueue.nodup
    · intro i hi
      rw [hout, hreads] at hi
      obtain ⟨b, hb, rfl⟩ := List.mem_map.mp hi
      obtain ⟨hb, hr⟩ := List.mem_filter.mp hb
      obtain ⟨j, -, rfl⟩ := List.mem_map.mp hb
      rw [BlockTable.getBlockByIdx_idx, wanted, if_pos (by simpa using hr)]
    · intro b hb
      rw [hreads] at hb
      have hb := List.mem_of_mem_filter hb
      refine ⟨?_, hstart.size b hb⟩
      obtain ⟨j, -, rfl⟩ := List.mem_map.mp hb
      rcases w.db.blocks.getBlockByIdx_cases v j with ⟨-, hid⟩ | hs
      · exact hid
      · rw [hs]
        rfl
    · rw [hframe.queued]
      simp
    · rw [hframe.written]
      simp
    · rw [hframe.readJobs, hframe.doneReadJobs, hreads]
    · rw [hframe.writeJobs, hframe.doneWriteJobs, hframe.queued, hframe.written]
      rfl
    · rw [hbytes, hframe.stats]
      simp
    · rw [hout, hbytes, hframe.stats]
      simp only [Nat.zero_add]
      omega
  have hdone := Proc.forEach_invariant he hinv fun _ hI hs => Loop.step_inv hinj hlen hI hs
  unfold Proc.Returns Loop.waitForAll at hw
  split_ifs at hw with hempty
  · obtain rfl := (Prod.mk.inj (Option.some.inj hw)).2
    obtain ⟨h1, h2, h3⟩ := hempty
    have hnil : L2.outstanding = [] := by
      rw [Loop.outstanding, h1, h2, h3]
      rfl
    have hr := hdone.bytesRead
    have ht := hdone.bytesTotal
    rw [h1] at hr
    rw [hnil] at ht
    refine ⟨hnil ▸ hdone.tables, ?_, ?_⟩
    · rw [← hreads]
      simpa [Loop.bytesOf] using hr
    · rw [← hreads]
      have hsp := congrArg Stats.bytesSparse hframe.stats
      simp only [Nat.zero_add] at hsp
      rw [← hsp]
      simpa [Loop.bytesOf] using ht

/-- A backup that returned: `v` is the version with its new size, `start` the world after
`update_version`, and `L` the block loop when it was through. -/
structure BackupReturned (S : Settings κ) (version : Version) (io : Source)
    (hints : Option (List Hint)) (base : Option String) (w : World κ) (v : Version)
    (start : World κ) (sets : List ℕ × List ℕ) (L : Loop κ) (u : World κ) : Prop where
  check : (checkBase version (some (if version.blockSize ≠ 0 then version.blockSize
    else S.blockSize)) (some io.data.length) true base).Returns w (v.size, v.blockSize) w
  resized : v = { version with size := v.size, blockSize := v.blockSize }
  size : v.size = io.data.length
  otherBase : base ≠ some version.uid
  clone : w.db.blocks.createBlocks v (clonedBlocks v
    (oldBlocks S (w.db.setSize version.id v.size v.blockSize) base)) = some start.db.blocks
  objects : start.objects = w.objects
  toCopy : (blocksToCopy v io.data.length hints).Returns start sets start
  row : u.db.versions.find? version.id = some { v with status := .valid, stats := some L.stats }
  settled : ∀ idx < v.blocksCount, Settled v u.objects idx
    (wanted v io sets.1 sets.2 start idx) (u.db.blocks.getBlockByIdx v idx)
  rows : ∀ b ∈ u.db.blocks, b.versionId = v.id → b.idx < v.blocksCount
  bytesRead : L.stats.bytesRead =
    ((((List.range v.blocksCount).map (start.db.blocks.getBlockByIdx v)).filter
      fun b => Loop.ToRead sets.2 b).map Block.size).sum
  bytesTotal : L.stats.bytesWritten + L.stats.bytesDeduplicated + L.stats.bytesSparse =
    ((((List.range v.blocksCount).map (start.db.blocks.getBlockByIdx v)).filter
      fun b => Loop.ToRead sets.2 b).map Block.size).sum +
    ((((List.range v.blocksCount).map (start.db.blocks.getBlockByIdx v)).filter
      fun b => ¬ Loop.ToRead sets.2 b ∧ b.idx ∈ sets.1).map Block.size).sum

theorem backup_returned {version : Version} {source : Option Source} {hints : Option (List Hint)}
    {base : Option String} {v' : Version} {u : World κ} (hp : 0 < S.blocksPerCall)
    (hinj : Function.Injective S.dataHexdigest) (hfresh : Fresh version w)
    (hrows : RowsIntact S.dataHexdigest version.storage.id w)
    (h : (backup S version source hints base sched).Returns w v' u) :
    ∃ io v start sets L, source = some io ∧
      v' = { v with status := .valid, stats := some L.stats } ∧
      BackupReturned S version io hints base w v start sets L u := by
  obtain ⟨io, v, sets, w1, start, L, hio, hupd, hsets, hup, hrun, hv', hdone⟩ := backup_spec h
  obtain ⟨n, m, t, hc, rfl, hne, ht, hu⟩ := updateVersion_spec hupd
  have hstart := hu.trans hup
  have hn := size_of_checkBase hc
  have htab : TableInv S.dataHexdigest _ (wanted { version with size := n, blockSize := m } io
      sets.1 sets.2 start) start _ := tableInv_start hp hfresh hrows hc ht hstart
  have ht' : w.db.blocks.createBlocks { version with size := n, blockSize := m }
      (clonedBlocks { version with size := n, blockSize := m }
        (oldBlocks S (w.db.setSize version.id n m) base)) = some start.db.blocks := by
    rw [hstart.blocks]
    exact ht
  have hloop := loop_run hp hinj hn.symm htab
    (fun idx hi => size_getBlockByIdx_cloned ht' hfresh.noRows hi) hrun
  refine ⟨io, _, start, sets, L, hio, hv', hc, rfl, hn, hne rfl, ht', hstart.objects, hsets,
    ?_, ?_, ?_, hloop.bytesRead, hloop.bytesTotal⟩
  · have hrow : L.world.db.versions.find? version.id =
        some { version with size := n, blockSize := m } := hloop.tables.row
    rw [hdone.versions, Database.setStats, Database.mapVersions, Table.find?_update,
      Database.setStatus, Database.mapStatus, Database.mapVersions, Table.find?_update]
    rw [hrow]
    simp
  · intro idx hi
    rw [hdone.objects, hdone.blocks]
    exact hloop.tables.wanted idx hi (by simp)
  · intro b hb hv
    rw [hdone.blocks] at hb
    exact hloop.tables.rows b hb hv

end Content

end Benji
