import Benji.Backup.Full

/-! A differential backup with correct hints: which blocks it gets right, and the one kind of
block whose content it loses. -/
namespace Benji
open Lib

variable {κ : Type}

def Source.byteAt (io : Source) (i : ℕ) : UInt8 := io.data[i]?.getD 0

def baseVersion (w : World κ) (base : Option String) : Option Version := base.bind w.db.getByUid

def baseByte (w : World κ) (base : Option String) (i : ℕ) : UInt8 :=
  match baseVersion w base with
  | some b => versionByte w b i
  | none => 0

/-- All blocks of the base version are valid and have the sizes they should have. -/
def BaseIntact (w : World κ) (base : Option String) : Prop :=
  ∀ b, baseVersion w base = some b → ∀ idx < b.blocksCount,
    (w.db.blocks.getBlockByIdx b idx).valid = true ∧
      (w.db.blocks.getBlockByIdx b idx).size = b.blockSizeAt idx

/-- The hints tell the truth about the source relative to the base version. -/
structure CorrectHints (w : World κ) (base : Option String) (io : Source) (hints : List Hint) :
    Prop where
  inside : ∀ h ∈ hints, h.offset + h.length ≤ io.data.length
  uncovered : ∀ i < io.data.length, (∀ h ∈ hints, ¬ h.Covers i) →
    io.byteAt i = baseByte w base i
  sparse : ∀ i < io.data.length, (∃ h ∈ hints, h.Covers i) →
    (∀ h ∈ hints, h.existing = true → ¬ h.Covers i) → io.byteAt i = 0

/-- The last block of the base version is partial, the source reaches beyond its end, no hint
reaches it, and it is not all zeros. -/
def LosesLastBlock (w : World κ) (base : Option String) (io : Source) (hints : List Hint) : Prop :=
  ∃ b, baseVersion w base = some b ∧ b.size % b.blockSize ≠ 0 ∧
    b.blocksCount * b.blockSize ≤ io.data.length ∧
    (∀ h ∈ hints, b.blocksCount - 1 ∉ h.blockRange b.blockSize) ∧
    ∃ i, (b.blocksCount - 1) * b.blockSize ≤ i ∧ i < b.size ∧ versionByte w b i ≠ 0

section Bytes
variable {v : Version} {io : Source} {idx : ℕ}

theorem getElem?_sourceBlock {j : ℕ} (hj : j < v.blockSizeAt idx) :
    (v.sourceBlock io idx)[j]? = io.data[idx * v.blockSize + j]? := by
  rw [Version.sourceBlock, getElem?_slice, if_pos hj]

/-- A block of the right length is the block of the source when it agrees byte by byte. -/
theorem eq_sourceBlock_iff (hlen : io.data.length = v.size) {d : Bytes}
    (hd : d.length = v.blockSizeAt idx) : d = v.sourceBlock io idx ↔
      ∀ j < v.blockSizeAt idx, d[j]?.getD 0 = io.byteAt (idx * v.blockSize + j) := by
  constructor
  · rintro rfl j hj
    rw [getElem?_sourceBlock hj, Source.byteAt]
  · intro h
    apply List.ext_getElem?
    intro j
    by_cases hj : j < v.blockSizeAt idx
    · have hb := h j hj
      have hlt := (Version.lt_size_of_lt_blockSizeAt hj).1
      rw [getElem?_sourceBlock hj]
      rw [Source.byteAt, List.getElem?_eq_getElem (by omega : j < d.length),
        List.getElem?_eq_getElem (by omega : idx * v.blockSize + j < io.data.length)] at hb
      rw [List.getElem?_eq_getElem (by omega : j < d.length),
        List.getElem?_eq_getElem (by omega : idx * v.blockSize + j < io.data.length)]
      exact congrArg some hb
    · rw [List.getElem?_eq_none (by omega),
        List.getElem?_eq_none (by rw [Version.length_sourceBlock hlen]; omega)]

theorem zeros_eq_sourceBlock_iff (hlen : io.data.length = v.size) :
    zeros (v.blockSizeAt idx) = v.sourceBlock io idx ↔
      ∀ j < v.blockSizeAt idx, io.byteAt (idx * v.blockSize + j) = 0 := by
  rw [eq_sourceBlock_iff hlen (length_zeros _)]
  apply forall_congr'
  intro j
  apply imp_congr_right
  intro hj
  rw [getElem?_zeros, if_pos hj, Option.getD_some, eq_comm]

end Bytes

section Base
variable {S : Settings κ} {version v b : Version} {io : Source} {hints : List Hint}
  {base : Option String} {w u start : World κ} {sets : List ℕ × List ℕ} {L : Loop κ} {idx : ℕ}

theorem baseVersion_eq_some (h : baseVersion w base = some b) :
    ∃ uid, base = some uid ∧ w.db.getByUid uid = some b := by
  unfold baseVersion at h
  cases base with
  | none => simp at h
  | some uid => exact ⟨uid, rfl, h⟩

/-- The base version has the block size and the storage of the new version. -/
theorem BackupReturned.base_spec
    (hr : BackupReturned S version io (some hints) base w v start sets L u)
    (hfresh : Fresh version w) (h : baseVersion w base = some b) :
    b.blockSize = v.blockSize ∧ b.storage = v.storage ∧ b ∈ w.db.versions ∧ b.id ≠ version.id := by
  obtain ⟨uid, rfl, hb⟩ := baseVersion_eq_some h
  obtain ⟨-, b', hb', -, hst, -, hsz⟩ := returns_checkBase_some hr.check
  obtain rfl : b' = b := Option.some.inj (hb'.symm.trans hb)
  obtain ⟨hmem, huid⟩ := Database.getByUid_spec hb
  refine ⟨(Prod.mk.inj hsz).2.symm, ?_, hmem, ?_⟩
  · rw [hst, hr.resized]
  · intro he
    have hrow := Table.find?_of_mem hmem
    rw [he, hfresh.row] at hrow
    obtain rfl := Option.some.inj hrow
    exact hr.otherBase (by rw [huid])

theorem getElem?_oldBlocks (hp : 0 < S.blocksPerCall) (h : baseVersion w base = some b)
    {id n m : ℕ} (hne : b.id ≠ id) : (oldBlocks S (w.db.setSize id n m) base)[idx]? =
      if idx < b.blocksCount then some (w.db.blocks.getBlockByIdx b idx) else none := by
  obtain ⟨uid, rfl, hb⟩ := baseVersion_eq_some h
  have hget : (w.db.setSize id n m).getByUid uid = some b := by
    rw [Database.getByUid_setSize, hb, Option.map_some, if_neg hne]
  have hblocks : (w.db.setSize id n m).blocks = w.db.blocks := rfl
  rw [oldBlocks, hget]
  simp only [hblocks]
  rw [BlockTable.blocks_eq hp, List.getElem?_map]
  by_cases hlt : idx < b.blocksCount
  · rw [List.getElem?_range hlt, Option.map_some, if_pos hlt]
  · rw [List.getElem?_eq_none (by simpa using not_lt.mp hlt), Option.map_none, if_neg hlt]

theorem getElem?_oldBlocks_none
    (hr : BackupReturned S version io (some hints) base w v start sets L u)
    (h : baseVersion w base = none) {id n m : ℕ} :
    (oldBlocks S (w.db.setSize id n m) base)[idx]? = none := by
  cases base with
  | none => rfl
  | some uid =>
    obtain ⟨-, b', hb', -⟩ := returns_checkBase_some hr.check
    rw [baseVersion, Option.bind_some, hb'] at h
    simp at h

/-- A block that has no counterpart in the base version. -/
def PastBase (w : World κ) (base : Option String) (idx : ℕ) : Prop :=
  ∀ b, baseVersion w base = some b → b.blocksCount ≤ idx

/-- What `update_version` leaves for block `idx`: the base's block, an empty one, one that has to
be read again, or nothing at all for a base block that became a full one. -/
inductive StartBlock (w : World κ) (base : Option String) (v : Version) (idx : ℕ)
    (B : Block κ) : Prop
  | cloned (b : Version) (hb : baseVersion w base = some b) (hlt : idx < b.blocksCount)
      (hsize : b.blockSizeAt idx = v.blockSizeAt idx) (hv : B.valid = true)
      (hdata : blockData w.objects v.storage.id B =
        blockData w.objects v.storage.id (w.db.blocks.getBlockByIdx b idx))
  | past (hpast : PastBase w base idx) (hB : B = createSparseBlock v idx)
  | reread (hv : B.valid = false) (hpart : v.blockSizeAt idx ≠ v.blockSize)
  | lost (b : Version) (hb : baseVersion w base = some b) (hlt : idx < b.blocksCount)
      (hne : b.blockSizeAt idx ≠ v.blockSizeAt idx) (hfull : v.blockSizeAt idx = v.blockSize)
      (hB : B = createSparseBlock v idx)

theorem startBlock (hp : 0 < S.blocksPerCall)
    (hr : BackupReturned S version io (some hints) base w v start sets L u)
    (hfresh : Fresh version w) (hbase : BaseIntact w base) (hi : idx < v.blocksCount) :
    StartBlock w base v idx (start.db.blocks.getBlockByIdx v idx) := by
  have hno : ∀ c ∈ w.db.blocks, c.versionId ≠ v.id := by
    rw [hr.resized]
    exact hfresh.noRows
  rw [getBlockByIdx_cloned hr.clone hno hi]
  by_cases hin : ∃ b, baseVersion w base = some b ∧ idx < b.blocksCount
  · obtain ⟨b, hb, hlt⟩ := hin
    obtain ⟨-, -, -, hne⟩ := hr.base_spec hfresh hb
    obtain ⟨hvalid, hsize⟩ := hbase b hb idx hlt
    rw [getElem?_oldBlocks hp hb hne, if_pos hlt]
    by_cases heq : b.blockSizeAt idx = v.blockSizeAt idx
    · rw [clonedBlock_of_size_eq (hsize.trans heq)]
      refine .cloned b hb hlt heq ?_ ?_
      · split_ifs
        · exact hvalid
        · rfl
      · split_ifs with hk
        · exact blockData_of_uid_eq rfl rfl
        · rw [not_or, not_not] at hk
          have hu : (w.db.blocks.getBlockByIdx b idx).uid = none := by simpa using hk.1
          refine blockData_of_uid_eq hu.symm ?_
          rw [createSparseBlock_size, hsize, heq, hk.2]
    · rw [clonedBlock_of_size_ne (by rw [hsize]; exact heq)]
      split_ifs with hk
      · exact .reread rfl (by simpa using hk)
      · exact .lost b hb hlt heq (by simpa using hk) rfl
  · have hpast : PastBase w base idx := by
      intro b hb
      by_contra hlt
      exact hin ⟨b, hb, not_le.mp hlt⟩
    have hnone : (oldBlocks S (w.db.setSize version.id v.size v.blockSize) base)[idx]? = none := by
      cases hb : baseVersion w base with
      | none => exact getElem?_oldBlocks_none hr hb
      | some b =>
        obtain ⟨-, -, -, hne⟩ := hr.base_spec hfresh hb
        rw [getElem?_oldBlocks hp hb hne, if_neg (not_lt.mpr (hpast b hb))]
    rw [hnone]
    by_cases hfull : v.blockSize = v.blockSizeAt idx
    · rw [clonedBlock_none_of_eq hfull, ite_self]
      exact .past hpast rfl
    · rw [clonedBlock_none_of_ne hfull, if_pos (.inr (Ne.symm hfull))]
      exact .reread rfl (Ne.symm hfull)

/-- The blocks of an intact base have their data, in the right length. -/
theorem base_block (hr : BackupReturned S version io (some hints) base w v start sets L u)
    (hfresh : Fresh version w) (hrows : RowsIntact S.dataHexdigest version.storage.id w)
    (hbase : BaseIntact w base) (hb : baseVersion w base = some b) (hlt : idx < b.blocksCount) :
    ∃ d, blockData w.objects b.storage.id (w.db.blocks.getBlockByIdx b idx) = some d ∧
      d.length = b.blockSizeAt idx := by
  obtain ⟨-, hst, hmem, -⟩ := hr.base_spec hfresh hb
  obtain ⟨hvalid, hsize⟩ := hbase b hb idx hlt
  rw [← hsize]
  rcases w.db.blocks.getBlockByIdx_cases b idx with ⟨hin, hid⟩ | hs
  · have hst' : version.storage = b.storage := by rw [hst, hr.resized]
    have hint := hrows _ hin hvalid (by
      rw [hst']
      exact Database.inStorage_of_row (Table.find?_of_mem hmem) hid)
    rw [hst'] at hint
    exact hint.data
  · rw [hs]
    exact ⟨_, rfl, length_zeros _⟩

/-- A block before the last one is full, so a partial block is the last one. -/
theorem last_of_partial (hpos : 0 < b.blockSize) (hlt : idx < b.blocksCount)
    (hne : b.blockSizeAt idx ≠ b.blockSize) :
    idx + 1 = b.blocksCount ∧ b.size % b.blockSize ≠ 0 := by
  have hlast : idx + 1 = b.blocksCount := by
    by_contra h
    exact hne (Version.blockSizeAt_of_succ_lt hpos (by omega))
  refine ⟨hlast, ?_⟩
  intro h0
  obtain ⟨c, hc⟩ := Nat.dvd_of_mod_eq_zero h0
  have hin := (Version.lt_blocksCount hpos).mp hlt
  have hcount : b.size ≤ b.blocksCount * b.blockSize := Version.size_le_blocksCount_mul hpos
  rw [← hlast, Nat.add_one_mul] at hcount
  have hlow : idx < c := by
    by_contra hle
    have := Nat.mul_le_mul_left b.blockSize (Nat.le_of_not_lt hle)
    rw [Nat.mul_comm b.blockSize idx] at this
    omega
  have hmul := Nat.mul_le_mul_left b.blockSize (Nat.succ_le_of_lt hlow)
  rw [Nat.succ_eq_add_one, Nat.mul_comm b.blockSize (idx + 1), Nat.add_one_mul] at hmul
  apply hne
  rw [Version.blockSizeAt]
  omega

/-- Conversely the last block of a version with a remainder is partial. -/
theorem partial_of_last (hpos : 0 < b.blockSize) (hlast : idx + 1 = b.blocksCount)
    (hmod : b.size % b.blockSize ≠ 0) : b.blockSizeAt idx ≠ b.blockSize := by
  intro hfull
  have hcount : b.size ≤ b.blocksCount * b.blockSize := Version.size_le_blocksCount_mul hpos
  rw [← hlast, Nat.add_one_mul] at hcount
  have hsz : b.size = (idx + 1) * b.blockSize := by
    rw [Version.blockSizeAt] at hfull
    rw [Nat.add_one_mul]
    omega
  rw [hsz, Nat.mul_mod_left] at hmod
  exact hmod rfl

/-- `LosesLastBlock` for the block with index `idx`. -/
def LosesBlock (w : World κ) (base : Option String) (io : Source) (hints : List Hint)
    (idx : ℕ) : Prop :=
  ∃ b, baseVersion w base = some b ∧ idx + 1 = b.blocksCount ∧ b.size % b.blockSize ≠ 0 ∧
    b.blocksCount * b.blockSize ≤ io.data.length ∧
    (∀ h ∈ hints, idx ∉ h.blockRange b.blockSize) ∧
    ∃ i, idx * b.blockSize ≤ i ∧ i < b.size ∧ versionByte w b i ≠ 0

theorem losesLastBlock_iff (hpos : ∀ b, baseVersion w base = some b → 0 < b.blockSize) :
    LosesLastBlock w base io hints ↔ ∃ idx, LosesBlock w base io hints idx := by
  constructor
  · rintro ⟨b, hb, hmod, hle, hno, hi⟩
    have hcount : 0 < b.blocksCount := by
      rw [Version.lt_blocksCount (hpos b hb), Nat.zero_mul]
      by_contra h0
      rw [Nat.eq_zero_of_not_pos h0, Nat.zero_mod] at hmod
      exact hmod rfl
    exact ⟨b.blocksCount - 1, b, hb, by omega, hmod, hle, hno, hi⟩
  · rintro ⟨idx, b, hb, hlast, hmod, hle, hno, hi⟩
    have he : b.blocksCount - 1 = idx := by omega
    refine ⟨b, hb, hmod, hle, ?_, ?_⟩
    · rw [he]
      exact hno
    · rw [he]
      exact hi

/-- A block the backup loses is a full block of the new version and no hint reaches it. -/
theorem LosesBlock.spec (h : LosesBlock w base io hints idx)
    (hr : BackupReturned S version io (some hints) base w v start sets L u)
    (hfresh : Fresh version w) (hpos : 0 < v.blockSize) :
    idx < v.blocksCount ∧ v.blockSizeAt idx = v.blockSize ∧
      ∀ h ∈ hints, idx ∉ h.blockRange v.blockSize := by
  obtain ⟨b, hb, hlast, -, hle, hno, -⟩ := h
  have hbs := (hr.base_spec hfresh hb).1
  rw [hbs, ← hlast, Nat.add_one_mul, ← hr.size] at hle
  refine ⟨(Version.lt_blocksCount hpos).mpr (by omega), ?_, ?_⟩
  · rw [Version.blockSizeAt]
    omega
  · rw [← hbs]
    exact hno

theorem sets_eq (hr : BackupReturned S version io (some hints) base w v start sets L u) :
    sets = blocksFromHints hints v.blockSize := by
  have hc := hr.toCopy
  cases hints with
  | nil => exact (Proc.returns_pure.mp hc).1.symm
  | cons h hints =>
    obtain ⟨_, _, -, h2⟩ := Proc.returns_bind.mp hc
    exact (Proc.returns_pure.mp h2).1.symm

/-- The bytes of a block lie inside the source. -/
theorem byte_inside (hr : BackupReturned S version io (some hints) base w v start sets L u)
    {j : ℕ} (hj : j < v.blockSizeAt idx) :
    idx * v.blockSize ≤ idx * v.blockSize + j ∧
      idx * v.blockSize + j < (idx + 1) * v.blockSize ∧
      idx * v.blockSize + j < io.data.length := by
  have hsize := hr.size
  obtain ⟨h1, h2⟩ := Version.lt_size_of_lt_blockSizeAt hj
  rw [Nat.add_one_mul]
  omega

/-- The source has the base's bytes in the block with index `idx`. -/
def SameAsBase (w : World κ) (base : Option String) (io : Source) (v : Version) (idx : ℕ) :
    Prop :=
  ∀ j < v.blockSizeAt idx,
    io.byteAt (idx * v.blockSize + j) = baseByte w base (idx * v.blockSize + j)

theorem sameAsBase (hpos : 0 < v.blockSize)
    (hr : BackupReturned S version io (some hints) base w v start sets L u)
    (hhints : CorrectHints w base io hints)
    (hs : idx ∉ (blocksFromHints hints v.blockSize).1)
    (hn : idx ∉ (blocksFromHints hints v.blockSize).2) : SameAsBase w base io v idx := by
  intro j hj
  obtain ⟨h1, h2, h3⟩ := byte_inside hr hj
  exact hhints.uncovered _ h3 fun h hmem => not_covers_of_not_mem hpos hs hn hmem h1 h2

/-- A block that is read is not the lost one: the lost one is valid and no hint reaches it. -/
theorem not_losesBlock_of_toRead {B : Block κ} (hpos : 0 < v.blockSize)
    (hr : BackupReturned S version io (some hints) base w v start sets L u)
    (hfresh : Fresh version w) (hcase : StartBlock w base v idx B) (hidx : B.idx = idx)
    (hread : Loop.ToRead (blocksFromHints hints v.blockSize).2 B) :
    ¬ LosesBlock w base io hints idx := by
  intro hlose
  obtain ⟨-, hfull, hunhinted⟩ := hlose.spec hr hfresh hpos
  have hnot := ((not_mem_blocksFromHints hpos).mpr hunhinted).2
  rcases hread with hmem | hinv
  · rw [hidx] at hmem
    exact hnot hmem
  · cases hcase with
    | cloned b hb hlt hsize hv hdata => simp [hv] at hinv
    | past hpast hsp => simp [hsp] at hinv
    | reread hv hpart => exact hpart hfull
    | lost b hb hlt hne hfull hsp => simp [hsp] at hinv

/-- A block the hints call sparse, and that is not read for another hint, is zero. -/
theorem zeros_eq_sourceBlock_of_sparse (hpos : 0 < v.blockSize)
    (hr : BackupReturned S version io (some hints) base w v start sets L u)
    (hhints : CorrectHints w base io hints)
    (hs : idx ∈ (blocksFromHints hints v.blockSize).1)
    (hn : idx ∉ (blocksFromHints hints v.blockSize).2) :
    zeros (v.blockSizeAt idx) = v.sourceBlock io idx := by
  rw [zeros_eq_sourceBlock_iff hr.size.symm]
  intro j hj
  obtain ⟨h1, h2, h3⟩ := byte_inside hr hj
  obtain ⟨hc, hne⟩ := sparse_not_read hpos hs hn h1 h2
  exact hhints.sparse _ h3 hc hne

/-- A block of the base that is kept is the source's. -/
theorem baseBlock_eq_sourceBlock {d : Bytes}
    (hr : BackupReturned S version io (some hints) base w v start sets L u)
    (hfresh : Fresh version w) (hsame : SameAsBase w base io v idx)
    (hb : baseVersion w base = some b) (hsize : b.blockSizeAt idx = v.blockSizeAt idx)
    (hd : blockData w.objects b.storage.id (w.db.blocks.getBlockByIdx b idx) = some d)
    (hdl : d.length = b.blockSizeAt idx) : d = v.sourceBlock io idx := by
  have hbs := (hr.base_spec hfresh hb).1
  rw [eq_sourceBlock_iff hr.size.symm (hdl.trans hsize)]
  intro j hj
  rw [hsame j hj, baseByte, hb, ← hbs]
  exact (versionByte_of_block (hsize ▸ hj) hd).symm

/-- A block of the size it has in the base is not the lost one: that one was partial. -/
theorem not_losesBlock_of_size_eq (hpos : 0 < v.blockSize)
    (hr : BackupReturned S version io (some hints) base w v start sets L u)
    (hfresh : Fresh version w) (hb : baseVersion w base = some b)
    (hsize : b.blockSizeAt idx = v.blockSizeAt idx) : ¬ LosesBlock w base io hints idx := by
  intro hlose
  have hfull := (hlose.spec hr hfresh hpos).2.1
  obtain ⟨b', hb', hlast, hmod, -⟩ := hlose
  obtain rfl : b = b' := Option.some.inj (hb.symm.trans hb')
  have hbs := (hr.base_spec hfresh hb).1
  apply partial_of_last (hbs ▸ hpos) hlast hmod
  rw [hsize, hfull, hbs]

/-- Behind the base the source is zero. -/
theorem zeros_eq_sourceBlock_of_pastBase (hpos : 0 < v.blockSize)
    (hr : BackupReturned S version io (some hints) base w v start sets L u)
    (hfresh : Fresh version w) (hsame : SameAsBase w base io v idx)
    (hpast : PastBase w base idx) : zeros (v.blockSizeAt idx) = v.sourceBlock io idx := by
  rw [zeros_eq_sourceBlock_iff hr.size.symm]
  intro j hj
  rw [hsame j hj, baseByte]
  cases hb : baseVersion w base with
  | none => rfl
  | some b =>
    have hbs := (hr.base_spec hfresh hb).1
    have hcount : b.size ≤ b.blocksCount * b.blockSize :=
      Version.size_le_blocksCount_mul (hbs ▸ hpos)
    have hmul := Nat.mul_le_mul_right v.blockSize (hpast b hb)
    rw [hbs] at hcount
    exact if_neg (by omega)

theorem not_losesBlock_of_pastBase (hpast : PastBase w base idx) :
    ¬ LosesBlock w base io hints idx := by
  rintro ⟨b, hb, hlast, -⟩
  have := hpast b hb
  omega

/-- The grown last block of the base is left sparse, which is wrong exactly where the base had
a byte other than zero. -/
theorem zeros_eq_sourceBlock_iff_not_losesBlock (hpos : 0 < v.blockSize)
    (hr : BackupReturned S version io (some hints) base w v start sets L u)
    (hfresh : Fresh version w) (hsame : SameAsBase w base io v idx)
    (hunhinted : ∀ h ∈ hints, idx ∉ h.blockRange v.blockSize)
    (hb : baseVersion w base = some b) (hlt : idx < b.blocksCount)
    (hne : b.blockSizeAt idx ≠ v.blockSizeAt idx) (hfull : v.blockSizeAt idx = v.blockSize) :
    zeros (v.blockSizeAt idx) = v.sourceBlock io idx ↔ ¬ LosesBlock w base io hints idx := by
  have hbs := (hr.base_spec hfresh hb).1
  have hbpos : 0 < b.blockSize := hbs ▸ hpos
  obtain ⟨hlast, hmod⟩ := last_of_partial hbpos hlt (by rw [hbs, ← hfull]; exact hne)
  rw [zeros_eq_sourceBlock_iff hr.size.symm]
  constructor
  · rintro hzero ⟨b', hb', -, -, -, -, i, h1, h2, hnz⟩
    obtain rfl : b = b' := Option.some.inj (hb.symm.trans hb')
    have hsz : b.size ≤ b.blocksCount * b.blockSize := Version.size_le_blocksCount_mul hbpos
    rw [← hlast, Nat.add_one_mul] at hsz
    have hj : i - idx * b.blockSize < v.blockSizeAt idx := by omega
    have hz := hzero _ hj
    rw [hsame _ hj, baseByte, hb, ← hbs, Nat.add_sub_cancel' h1] at hz
    exact hnz hz
  · intro hnl j hj
    rw [hsame j hj, baseByte, hb]
    by_contra hnz
    apply hnl
    have hle : b.blocksCount * b.blockSize ≤ io.data.length := by
      rw [← hlast, hbs, Nat.add_one_mul, ← hr.size]
      rw [Version.blockSizeAt] at hfull
      omega
    refine ⟨b, hb, hlast, hmod, hle, ?_, idx * b.blockSize + j, by omega, ?_, ?_⟩
    · rw [hbs]
      exact hunhinted
    · by_contra hge
      apply hnz
      rw [← hbs]
      exact if_neg hge
    · rw [hbs]
      exact hnz

/-- The data of the row a sparse block is made as. -/
theorem blockData_createSparseBlock (objects : Objects κ) (st : ℕ)
    (hfull : v.blockSizeAt idx = v.blockSize) :
    blockData objects st (createSparseBlock v idx) = some (zeros (v.blockSizeAt idx)) := by
  rw [hfull]
  rfl

/-- The block the backup means to leave at `idx` is the source's block, unless it is the one
block that is lost. -/
theorem wanted_eq_iff (hp : 0 < S.blocksPerCall) (hpos : 0 < v.blockSize)
    (hr : BackupReturned S version io (some hints) base w v start sets L u)
    (hfresh : Fresh version w) (hrows : RowsIntact S.dataHexdigest version.storage.id w)
    (hbase : BaseIntact w base) (hhints : CorrectHints w base io hints)
    (hi : idx < v.blocksCount) :
    wanted v io sets.1 sets.2 start idx = v.sourceBlock io idx ↔
      ¬ LosesBlock w base io hints idx := by
  have hno : ∀ c ∈ w.db.blocks, c.versionId ≠ v.id := by
    rw [hr.resized]
    exact hfresh.noRows
  have hBsize := size_getBlockByIdx_cloned hr.clone hno hi
  have hcase := startBlock hp hr hfresh hbase hi
  have hBidx := BlockTable.getBlockByIdx_idx start.db.blocks v idx
  generalize hB : start.db.blocks.getBlockByIdx v idx = B at hBsize hcase hBidx
  rw [sets_eq hr, wanted, hB]
  by_cases hread : Loop.ToRead (blocksFromHints hints v.blockSize).2 B
  · rw [if_pos hread]
    exact iff_of_true rfl (not_losesBlock_of_toRead hpos hr hfresh hcase hBidx hread)
  have hnr : idx ∉ (blocksFromHints hints v.blockSize).2 := by
    intro hmem
    exact hread (.inl (hBidx.symm ▸ hmem))
  rw [if_neg hread, Loop.KeptAs, hBidx]
  by_cases hsparse : idx ∈ (blocksFromHints hints v.blockSize).1
  · rw [if_pos hsparse, Option.getD_some, hBsize]
    refine iff_of_true (zeros_eq_sourceBlock_of_sparse hpos hr hhints hsparse hnr) ?_
    intro hlose
    obtain ⟨-, -, hunhinted⟩ := hlose.spec hr hfresh hpos
    exact ((not_mem_blocksFromHints hpos).mpr hunhinted).1 hsparse
  rw [if_neg hsparse]
  have hunhinted := (not_mem_blocksFromHints hpos).mp ⟨hsparse, hnr⟩
  have hsame := sameAsBase hpos hr hhints hsparse hnr
  cases hcase with
  | cloned b hb hlt hsize hv hdata =>
    have hst := (hr.base_spec hfresh hb).2.1
    obtain ⟨d, hd, hdl⟩ := base_block hr hfresh hrows hbase hb hlt
    have hkept : blockData start.objects v.storage.id B = some d := by
      rw [hr.objects, hdata, ← hst]
      exact hd
    rw [hkept, Option.getD_some]
    exact iff_of_true (baseBlock_eq_sourceBlock hr hfresh hsame hb hsize hd hdl)
      (not_losesBlock_of_size_eq hpos hr hfresh hb hsize)
  | past hpast hsp =>
    have hfull : v.blockSizeAt idx = v.blockSize := by
      rw [← hBsize, hsp, createSparseBlock_size]
    rw [hsp, blockData_createSparseBlock _ _ hfull, Option.getD_some]
    exact iff_of_true (zeros_eq_sourceBlock_of_pastBase hpos hr hfresh hsame hpast)
      (not_losesBlock_of_pastBase hpast)
  | reread hv hpart => exact absurd (.inr hv) hread
  | lost b hb hlt hne hfull hsp =>
    rw [hsp, blockData_createSparseBlock _ _ hfull, Option.getD_some]
    exact zeros_eq_sourceBlock_iff_not_losesBlock hpos hr hfresh hsame hunhinted hb hlt hne hfull

end Base

section Differential
variable [DecidableEq κ] {S : Settings κ} {version v' : Version} {io : Source}
  {hints : List Hint} {base : Option String} {sched : Schedule} {w u : World κ}

/-- Every block of the version is the source's block, in its right size. -/
def ReadsAsSource (io : Source) (v : Version) (u : World κ) : Prop :=
  ∀ idx < v.blocksCount,
    blockData u.objects v.storage.id (u.db.blocks.getBlockByIdx v idx) =
      some (slice io.data (idx * v.blockSize) (u.db.blocks.getBlockByIdx v idx).size) ∧
    (u.db.blocks.getBlockByIdx v idx).size =
      min v.blockSize (io.data.length - idx * v.blockSize)

theorem differential_backup_iff (hp : 0 < S.blocksPerCall) (hb : 0 < S.blockSize)
    (hinj : Function.Injective S.dataHexdigest) (hfresh : Fresh version w)
    (hrows : RowsIntact S.dataHexdigest version.storage.id w) (hbase : BaseIntact w base)
    (hhints : CorrectHints w base io hints)
    (h : (backup S version (some io) (some hints) base sched).Returns w v' u) :
    v'.size = io.data.length ∧ (ReadsAsSource io v' u ↔ ¬ LosesLastBlock w base io hints) := by
  obtain ⟨_, v, start, sets, L, hio, rfl, hr⟩ := backup_returned hp hinj hfresh hrows h
  obtain rfl := Option.some.inj hio
  have hpos := hr.blockSize_pos hb
  refine ⟨hr.size, ?_⟩
  have hblock : ∀ idx < v.blocksCount,
      (blockData u.objects v.storage.id (u.db.blocks.getBlockByIdx v idx) =
          some (slice io.data (idx * v.blockSize) (u.db.blocks.getBlockByIdx v idx).size) ∧
        (u.db.blocks.getBlockByIdx v idx).size =
          min v.blockSize (io.data.length - idx * v.blockSize)) ↔
      ¬ LosesBlock w base io hints idx := by
    intro idx hi
    have hs := hr.settled idx hi
    rw [← wanted_eq_iff hp hpos hr hfresh hrows hbase hhints hi, hs.data, hs.size, ← hr.size,
      Option.some_inj]
    exact and_iff_left rfl
  have hloses : LosesLastBlock w base io hints ↔ ∃ idx, LosesBlock w base io hints idx := by
    apply losesLastBlock_iff
    intro b hbase
    rw [(hr.base_spec hfresh hbase).1]
    exact hpos
  rw [hloses, not_exists]
  constructor
  · intro hall idx hlose
    have hi := (hlose.spec hr hfresh hpos).1
    exact (hblock idx hi).mp (hall idx hi) hlose
  · intro hno idx hi
    exact (hblock idx hi).mpr (hno idx)

end Differential

section Example

/-- The base's three bytes and a zero that nobody hints at, since the base's content is
followed by zeros anyway. -/
def grownSource : Source := ⟨"file:/source", [1, 2, 5, 0]⟩

def grownHints : List Hint := [⟨0, 2, true⟩]

theorem example_baseIntact : BaseIntact exampleWorld (some "v3") := by
  intro b hb
  obtain rfl : exampleBase = b := Option.some.inj hb
  decide

theorem example_correctHints :
    CorrectHints exampleWorld (some "v3") grownSource grownHints := by
  refine ⟨by decide, ?_, ?_⟩
  · decide +kernel
  · decide +kernel

/-- The last block of the base is lost when the source grows over its end. -/
theorem differential_backup_loses : Fresh exampleVersion exampleWorld ∧
    RowsIntact exampleSettings.dataHexdigest exampleVersion.storage.id exampleWorld ∧
    BaseIntact exampleWorld (some "v3") ∧
    CorrectHints exampleWorld (some "v3") grownSource grownHints ∧
    ∃ v' u, (backup exampleSettings exampleVersion (some grownSource) (some grownHints)
        (some "v3") (exampleSchedule [.read 0 0 false])).Returns exampleWorld v' u ∧
      blockData u.objects v'.storage.id (u.db.blocks.getBlockByIdx v' 1) = some [0, 0] ∧
      slice grownSource.data 2 2 = [5, 0] ∧ ¬ ReadsAsSource grownSource v' u := by
  refine ⟨example_fresh, example_rowsIntact, example_baseIntact, example_correctHints, ?_⟩
  obtain ⟨v', u, h, hf⟩ := Proc.returns_of_outcome
    (f := fun v' u => 1 < v'.blocksCount ∧ v'.blockSize = 2 ∧
      (u.db.blocks.getBlockByIdx v' 1).size = 2 ∧
      blockData u.objects v'.storage.id (u.db.blocks.getBlockByIdx v' 1) = some [0, 0])
    (p := backup exampleSettings exampleVersion (some grownSource) (some grownHints) (some "v3")
      (exampleSchedule [.read 0 0 false])) (s := exampleWorld) (by decide +kernel)
  obtain ⟨hlt, hbs, hsize, hdata⟩ := of_decide_eq_true hf
  refine ⟨v', u, h, hdata, rfl, ?_⟩
  intro hreads
  have hblock := (hreads 1 hlt).1
  rw [hdata, hsize, hbs] at hblock
  exact absurd hblock (by decide)

theorem differential_backup_example : ∃ v' u,
    (backup exampleSettings exampleVersion (some grownSource) (some grownHints) (some "v3")
      (exampleSchedule [.read 0 0 false])).Returns exampleWorld v' u ∧
    (ReadsAsSource grownSource v' u ↔
      ¬ LosesLastBlock exampleWorld (some "v3") grownSource grownHints) := by
  obtain ⟨v', u, h, -⟩ := Proc.returns_of_outcome (f := fun _ _ => true)
    (p := backup exampleSettings exampleVersion (some grownSource) (some grownHints) (some "v3")
      (exampleSchedule [.read 0 0 false])) (s := exampleWorld) (by decide +kernel)
  exact ⟨v', u, h, (differential_backup_iff (by decide) (by decide) Function.injective_id
    example_fresh example_rowsIntact example_baseIntact example_correctHints h).2⟩

end Example

end Benji
