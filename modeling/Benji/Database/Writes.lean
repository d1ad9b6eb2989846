import Benji.Database.Blocks

/-! The writes to the block and version tables, and the lookup of a block by its checksum. -/
namespace Benji
open Lib

variable {κ : Type}

namespace BlockTable

/-- `None` when a row's key is taken (`IntegrityError`). Full blocks without a uid are not
stored, whatever their valid flag says. -/
def createBlocks (t : BlockTable κ) (v : Version) (blocks : List (Block κ)) :
    Option (BlockTable κ) :=
  t.insertAll? ((blocks.filter fun b => b.uid.isSome ∨ b.size ≠ v.blockSize).map
    fun b => { b with versionId := v.id })

def setBlock (t : BlockTable κ) (v : Version) (idx : ℕ) (blockUid : Option BlockUid)
    (checksum : Option κ) (size : ℕ) (valid : Bool) : BlockTable κ :=
  match t.row? v idx, decide (blockUid = none ∧ size = v.blockSize) with
  | none, true => t
  | some _, true => t.erase (v.id, idx)
  | none, false => t.put ⟨v.id, idx, blockUid, checksum, size, valid⟩
  | some b, false => t.put
      { b with uid := blockUid, checksum := checksum, size := size, valid := valid }

section SetBlock
variable {t : BlockTable κ} {v w : Version} {idx j : ℕ} {blockUid : Option BlockUid}
  {checksum : Option κ} {size : ℕ} {valid : Bool}

theorem setBlock_eq : t.setBlock v idx blockUid checksum size valid =
    if blockUid = none ∧ size = v.blockSize then t.erase (v.id, idx)
    else t.put ⟨v.id, idx, blockUid, checksum, size, valid⟩ := by
  unfold setBlock
  cases hr : t.row? v idx with
  | none =>
    have he := Table.erase_of_find?_none hr
    by_cases hs : blockUid = none ∧ size = v.blockSize <;> simp [hs, he]
  | some b =>
    obtain ⟨-, hv, hi⟩ := row?_eq_some.mp hr
    subst hi
    by_cases hs : blockUid = none ∧ size = v.blockSize <;> simp [hs, hv]

/-- A row after `set_block` is the row written, or one that was there before. -/
theorem mem_setBlock {b : Block κ} : b ∈ t.setBlock v idx blockUid checksum size valid ↔
    (¬ (blockUid = none ∧ size = v.blockSize) ∧ b = ⟨v.id, idx, blockUid, checksum, size, valid⟩) ∨
      (b ∈ t ∧ b.key ≠ (v.id, idx)) := by
  rw [setBlock_eq]
  split_ifs with hs
  · simp [hs]
  · simp [hs, Block.key]

theorem row?_setBlock_of_ne (h : (w.id, j) ≠ (v.id, idx)) :
    (t.setBlock v idx blockUid checksum size valid).row? w j = t.row? w j := by
  rw [setBlock_eq]
  split_ifs
  · exact Table.find?_erase_of_ne h
  · exact Table.find?_put_of_ne h

theorem getBlockByIdx_setBlock_of_ne (h : j ≠ idx) :
    (t.setBlock v idx blockUid checksum size valid).getBlockByIdx v j = t.getBlockByIdx v j := by
  rw [getBlockByIdx, row?_setBlock_of_ne (by simpa using h), getBlockByIdx]

/-- Writing a full block without data leaves no row behind, so it reads as synthesized. -/
theorem getBlockByIdx_setBlock_sparse :
    (t.setBlock v idx none checksum v.blockSize valid).getBlockByIdx v idx =
      createSparseBlock v idx := by
  have h : (t.setBlock v idx none checksum v.blockSize valid).row? v idx = none := by
    rw [setBlock_eq, if_pos ⟨rfl, rfl⟩]
    exact Table.find?_erase_self
  exact getBlockByIdx_of_none h

theorem getBlockByIdx_setBlock (h : ¬ (blockUid = none ∧ size = v.blockSize)) :
    (t.setBlock v idx blockUid checksum size valid).getBlockByIdx v idx =
      ⟨v.id, idx, blockUid, checksum, size, valid⟩ := by
  have hr : (t.setBlock v idx blockUid checksum size valid).row? v idx =
      some ⟨v.id, idx, blockUid, checksum, size, valid⟩ := by
    rw [setBlock_eq, if_neg h]
    exact Table.find?_put_self
  exact getBlockByIdx_of_row? hr

/-- `set_block` sets the four fields a reader sees, with data or without. -/
theorem setBlock_fields (hsparse : blockUid = none → checksum = none ∧ valid = true) :
    (t.setBlock v idx blockUid checksum size valid).getBlockByIdx v idx =
      ⟨v.id, idx, blockUid, checksum, size, valid⟩ := by
  by_cases hs : blockUid = none ∧ size = v.blockSize
  · obtain ⟨rfl, rfl⟩ := hs
    obtain ⟨rfl, rfl⟩ := hsparse rfl
    exact getBlockByIdx_setBlock_sparse
  · exact getBlockByIdx_setBlock hs

end SetBlock

section CreateBlocks
variable {t u : BlockTable κ} {v : Version} {blocks : List (Block κ)}

theorem createBlocks_append {more : List (Block κ)} :
    t.createBlocks v (blocks ++ more) = some u ↔
      ∃ t', t.createBlocks v blocks = some t' ∧ t'.createBlocks v more = some u := by
  simp only [createBlocks, List.filter_append, List.map_append]
  exact Table.insertAll?_append

theorem mem_createBlocks (h : t.createBlocks v blocks = some u) {b : Block κ} :
    b ∈ u ↔ (∃ c ∈ blocks, (c.uid.isSome ∨ c.size ≠ v.blockSize) ∧
      { c with versionId := v.id } = b) ∨ b ∈ t := by
  rw [Table.mem_insertAll? h]
  simp only [List.mem_map, List.mem_filter, decide_eq_true_eq, and_assoc]

end CreateBlocks

end BlockTable

/-- `Query.first()` without `ORDER BY`: the database may return any of the rows. -/
def anyRow {α : Type} (pick : ℕ) (rows : List α) : Option α := rows[pick % rows.length]?

theorem mem_of_anyRow {α : Type} {pick : ℕ} {rows : List α} {a : α}
    (h : anyRow pick rows = some a) : a ∈ rows := List.mem_of_getElem? h

namespace Database

/-- The join of a block row with its version, as far as the storage is concerned. -/
def inStorage (db : Database κ) (storage : ℕ) (b : Block κ) : Bool :=
  match db.versions.find? b.versionId with
  | some w => w.storage.id = storage
  | none => false

def blocksByChecksum [DecidableEq κ] (db : Database κ) (v : Version) (checksum : κ) :
    List (Block κ) :=
  db.blocks.rows.filter fun b =>
    b.checksum = some checksum ∧ b.valid = true ∧ db.inStorage v.storage.id b = true

def getBlockByChecksum [DecidableEq κ] (db : Database κ) (v : Version) (checksum : κ)
    (pick : ℕ) : Option (Block κ) :=
  anyRow pick (db.blocksByChecksum v checksum)

theorem getBlockByChecksum_spec [DecidableEq κ] {db : Database κ} {v : Version} {checksum : κ}
    {pick : ℕ} {b : Block κ} (h : db.getBlockByChecksum v checksum pick = some b) :
    b ∈ db.blocks ∧ b.checksum = some checksum ∧ b.valid = true ∧
      db.inStorage v.storage.id b = true := by
  have hm := List.mem_filter.mp (mem_of_anyRow h)
  exact ⟨hm.1, by simpa using hm.2⟩

/-- Write columns of the versions that satisfy `p`. -/
def mapVersions (t : Table Version.id) (p : Version → Prop) [DecidablePred p]
    (f : Version → Version) (hf : ∀ w, (f w).id = w.id) : Table Version.id :=
  t.update (fun w => if p w then f w else w) (fun w => by
    split
    · exact hf w
    · rfl)

def mapStatus (t : Table Version.id) (p : Version → Prop) [DecidablePred p]
    (status : VersionStatus) : Table Version.id :=
  mapVersions t p (fun w => { w with status := status }) fun _ => rfl

def setStatus (db : Database κ) (id : ℕ) (status : VersionStatus) : Database κ :=
  { db with versions := mapStatus db.versions (fun w => w.id = id) status }

theorem mem_setStatus {db : Database κ} {id : ℕ} {status : VersionStatus} {w : Version} :
    w ∈ (db.setStatus id status).versions ↔
      ∃ v ∈ db.versions, (if v.id = id then { v with status := status } else v) = w := by
  simp only [setStatus, mapStatus, mapVersions, Table.mem_update]

/-- The status a version has after `set` is the one set, or its own. -/
theorem of_mem_setStatus {db : Database κ} {id : ℕ} {status : VersionStatus} {w : Version}
    (h : w ∈ (db.setStatus id status).versions) :
    (w.id = id ∧ w.status = status ∧ ∃ v ∈ db.versions, v.id = id) ∨
      w.id ≠ id ∧ w ∈ db.versions := by
  obtain ⟨v, hv, rfl⟩ := mem_setStatus.mp h
  by_cases he : v.id = id
  · rw [if_pos he]
    exact .inl ⟨he, rfl, v, hv, he⟩
  · rw [if_neg he]
    exact .inr ⟨he, hv⟩

/-- Where a write keeps each version's storage, the blocks of a storage stay the same. -/
theorem inStorage_mapVersions {db db' : Database κ} {p : Version → Prop} [DecidablePred p]
    {f : Version → Version} (hf : ∀ w, (f w).id = w.id) (hs : ∀ w, (f w).storage = w.storage)
    (hdb : db'.versions = mapVersions db.versions p f hf) {storage : ℕ} {b : Block κ} :
    db'.inStorage storage b = db.inStorage storage b := by
  unfold inStorage
  rw [hdb, mapVersions, Table.find?_update]
  cases db.versions.find? b.versionId with
  | none => rfl
  | some w =>
    simp only [Option.map_some]
    split
    · rw [hs]
    · rfl

def affectedVersions (db : Database κ) (blockUid : Option BlockUid) : List Version :=
  db.versions.rows.filter fun w =>
    db.blocks.rows.any fun b => b.versionId = w.id && b.uid = blockUid

def markBlocks (t : BlockTable κ) (blockUid : Option BlockUid) (valid : Bool) : BlockTable κ :=
  t.update (fun b => if b.uid = blockUid then { b with valid := valid } else b)
    (fun b => by split <;> rfl)

/-- `set_block_valid`: all rows with the uid, and on `False` the versions they belong to. -/
def setBlockValid (db : Database κ) (blockUid : Option BlockUid) (valid : Bool) : Database κ where
  versions := if valid then db.versions else
    mapStatus db.versions (fun w => w ∈ db.affectedVersions blockUid) .invalid
  blocks := markBlocks db.blocks blockUid valid
  deletedBlocks := db.deletedBlocks
  locks := db.locks

theorem mem_blocks_setBlockValid {db : Database κ} {uid : Option BlockUid} {valid : Bool}
    {b : Block κ} : b ∈ (db.setBlockValid uid valid).blocks ↔
      ∃ c ∈ db.blocks, (if c.uid = uid then { c with valid := valid } else c) = b := by
  simp only [setBlockValid, markBlocks, Table.mem_update]

/-- `set_block_valid` leaves a status alone, or makes it invalid. -/
theorem of_mem_versions_setBlockValid {db : Database κ} {uid : Option BlockUid} {valid : Bool}
    {w : Version} (h : w ∈ (db.setBlockValid uid valid).versions) :
    w ∈ db.versions ∨ w.status = .invalid ∧ ∃ v ∈ db.versions, v.id = w.id := by
  cases valid with
  | true => exact .inl h
  | false =>
    simp only [setBlockValid, mapStatus, mapVersions, Bool.false_eq_true, if_false,
      Table.mem_update] at h
    obtain ⟨v, hv, rfl⟩ := h
    split
    · exact .inr ⟨rfl, v, hv, rfl⟩
    · exact .inl hv

/-- A version that stays valid when a block is marked invalid has no row with its uid. -/
theorem mem_versions_setBlockValid_false {db : Database κ} {uid : Option BlockUid} {w : Version}
    (h : w ∈ (db.setBlockValid uid false).versions) (hst : w.status = .valid) :
    w ∈ db.versions ∧ ∀ b ∈ db.blocks, b.versionId = w.id → b.uid ≠ uid := by
  simp only [setBlockValid, mapStatus, mapVersions, Bool.false_eq_true, if_false,
    Table.mem_update] at h
  obtain ⟨v, hv, rfl⟩ := h
  by_cases ha : v ∈ db.affectedVersions uid
  · rw [if_pos ha] at hst
    cases hst
  · rw [if_neg ha] at hst ⊢
    refine ⟨hv, ?_⟩
    intro b hb hvid hu
    apply ha
    refine List.mem_filter.mpr ⟨hv, List.any_eq_true.mpr ⟨b, hb, ?_⟩⟩
    simp [hvid, hu]

/-- The autoincremented primary key of the next `deleted_blocks` row. -/
def nextDeletedId (t : Table DeletedBlock.id) : ℕ :=
  (t.rows.map DeletedBlock.id).foldr max 0 + 1

theorem id_lt_nextDeletedId {t : Table DeletedBlock.id} {d : DeletedBlock} (h : d ∈ t) :
    d.id < nextDeletedId t := by
  have hle : ∀ l : List DeletedBlock, d ∈ l → d.id ≤ (l.map DeletedBlock.id).foldr max 0 := by
    intro l hl
    induction l with
    | nil => simp at hl
    | cons a l ih =>
      rw [List.map_cons, List.foldr_cons]
      rcases List.mem_cons.mp hl with rfl | hl
      · exact le_max_left _ _
      · exact le_trans (ih hl) (le_max_right _ _)
  exact Nat.lt_succ_of_le (hle t.rows h)

def addDeleted (t : Table DeletedBlock.id) (storageId : ℕ) (uid : BlockUid) (date : ℕ) :
    Table DeletedBlock.id :=
  t.put ⟨nextDeletedId t, storageId, uid, date⟩

theorem mem_addDeleted {t : Table DeletedBlock.id} {storageId date : ℕ} {uid : BlockUid}
    {d : DeletedBlock} : d ∈ addDeleted t storageId uid date ↔
      d = ⟨nextDeletedId t, storageId, uid, date⟩ ∨ d ∈ t := by
  rw [addDeleted, Table.mem_put]
  constructor
  · intro h
    exact h.imp_right And.left
  · intro h
    refine h.imp_right fun hd => ⟨hd, ?_⟩
    have := id_lt_nextDeletedId hd
    exact Nat.ne_of_lt this

/-- One round of the loop in `Version.remove`. -/
def addDeletedBlock (v : Version) (date : ℕ → ℕ) (t : Table DeletedBlock.id) (b : Block κ) :
    Table DeletedBlock.id :=
  match b.uid with
  | some uid => addDeleted t v.storage.id uid (date b.idx)
  | none => t

/-- `Version.remove`: one `deleted_blocks` row for each block with an object, dated by the
clock as it stands at that block, and the version with its blocks. -/
def removeVersion (db : Database κ) (v : Version) (date : ℕ → ℕ) : Database κ where
  versions := db.versions.erase v.id
  blocks := db.blocks.filter fun b => b.versionId ≠ v.id
  deletedBlocks := (db.blocks.rows.filter fun b => b.versionId = v.id).foldl
    (addDeletedBlock v date) db.deletedBlocks
  locks := db.locks

section RemoveVersion
variable {v : Version} {date : ℕ → ℕ} {t : Table DeletedBlock.id} {bs : List (Block κ)}
  {d : DeletedBlock}

private theorem mem_foldl_of_mem (h : d ∈ t) : d ∈ bs.foldl (addDeletedBlock v date) t := by
  induction bs generalizing t with
  | nil => exact h
  | cons b bs ih =>
    apply ih
    unfold addDeletedBlock
    cases b.uid with
    | none => exact h
    | some uid => exact mem_addDeleted.mpr (.inr h)

private theorem of_mem_foldl (h : d ∈ bs.foldl (addDeletedBlock v date) t) :
    d ∈ t ∨ ∃ b ∈ bs, b.uid = some d.uid ∧ d.storageId = v.storage.id ∧ d.date = date b.idx := by
  induction bs generalizing t with
  | nil => exact .inl h
  | cons b bs ih =>
    rcases ih h with h | ⟨c, hc, hd⟩
    · unfold addDeletedBlock at h
      cases hu : b.uid with
      | none =>
        rw [hu] at h
        exact .inl h
      | some uid =>
        rw [hu] at h
        rcases mem_addDeleted.mp h with rfl | h
        · exact .inr ⟨b, List.mem_cons_self, hu, rfl, rfl⟩
        · exact .inl h
    · exact .inr ⟨c, List.mem_cons_of_mem _ hc, hd⟩

private theorem exists_mem_foldl {b : Block κ} {uid : BlockUid} (hb : b ∈ bs)
    (hu : b.uid = some uid) : ∃ d ∈ bs.foldl (addDeletedBlock v date) t, d.uid = uid ∧
      d.storageId = v.storage.id ∧ d.date = date b.idx ∧ ∀ d' ∈ t, d'.id < d.id := by
  induction bs generalizing t with
  | nil => simp at hb
  | cons c bs ih =>
    rcases List.mem_cons.mp hb with rfl | hb
    · have hnew : (⟨nextDeletedId t, v.storage.id, uid, date b.idx⟩ : DeletedBlock) ∈
          addDeletedBlock v date t b := by
        unfold addDeletedBlock
        rw [hu]
        exact mem_addDeleted.mpr (.inl rfl)
      have hmem : (⟨nextDeletedId t, v.storage.id, uid, date b.idx⟩ : DeletedBlock) ∈
          bs.foldl (addDeletedBlock v date) (addDeletedBlock v date t b) := mem_foldl_of_mem hnew
      exact ⟨_, hmem, rfl, rfl, rfl, fun d' hd' => id_lt_nextDeletedId hd'⟩
    · obtain ⟨d, hd, h1, h2, h3, hlt⟩ := ih (t := addDeletedBlock v date t c) hb
      refine ⟨d, hd, h1, h2, h3, ?_⟩
      intro d' hd'
      have hkeep : d' ∈ [c].foldl (addDeletedBlock v date) t := mem_foldl_of_mem hd'
      exact hlt d' hkeep

theorem mem_blocks_removeVersion {db : Database κ} {b : Block κ} :
    b ∈ (db.removeVersion v date).blocks ↔ b ∈ db.blocks ∧ b.versionId ≠ v.id := by
  simp [removeVersion]

theorem mem_versions_removeVersion {db : Database κ} {w : Version} :
    w ∈ (db.removeVersion v date).versions ↔ w ∈ db.versions ∧ w.id ≠ v.id :=
  Table.mem_erase

theorem mem_deletedBlocks_removeVersion {db : Database κ} (h : d ∈ db.deletedBlocks) :
    d ∈ (db.removeVersion v date).deletedBlocks := mem_foldl_of_mem h

theorem of_mem_deletedBlocks_removeVersion {db : Database κ}
    (h : d ∈ (db.removeVersion v date).deletedBlocks) : d ∈ db.deletedBlocks ∨
      ∃ b ∈ db.blocks, b.versionId = v.id ∧ b.uid = some d.uid ∧ d.storageId = v.storage.id ∧
        d.date = date b.idx := by
  rcases of_mem_foldl h with h | ⟨b, hb, hd⟩
  · exact .inl h
  · obtain ⟨hb, hv⟩ := List.mem_filter.mp hb
    exact .inr ⟨b, hb, by simpa using hv, hd⟩

/-- The object of each block removed gets a new row of `deleted_blocks`. -/
theorem exists_deletedBlock_of_removed {db : Database κ} {b : Block κ} {uid : BlockUid}
    (date : ℕ → ℕ) (hb : b ∈ db.blocks) (hv : b.versionId = v.id) (hu : b.uid = some uid) :
    ∃ d ∈ (db.removeVersion v date).deletedBlocks, d.uid = uid ∧ d.storageId = v.storage.id ∧
      d.date = date b.idx ∧ ∀ d' ∈ db.deletedBlocks, d'.id < d.id :=
  exists_mem_foldl (List.mem_filter.mpr ⟨hb, by simpa using hv⟩) hu

end RemoveVersion

end Database
end Benji
