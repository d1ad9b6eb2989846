import Benji.Lib.Table
import Benji.Lib.ByteFile

/-! The database tables that backups, restores, scrubs and the garbage collection share. -/
namespace Benji
open Lib

/-- The two columns of a block uid are both set or both NULL; `none` is `SparseBlockUid`. -/
structure BlockUid where
  left : ℕ
  right : ℕ
  deriving DecidableEq, Repr

def sparseBlockUid : Option BlockUid := none

inductive VersionStatus where
  | incomplete
  | valid
  | invalid
  deriving DecidableEq, Repr

namespace VersionStatus

def isValid (s : VersionStatus) : Bool := s = valid

def isDeepScrubbable (s : VersionStatus) : Bool := s = invalid || s = valid

def isScrubbable (s : VersionStatus) : Bool := s = valid

def isRemovable (s : VersionStatus) : Bool := s ≠ incomplete

end VersionStatus

structure Storage where
  id : ℕ
  name : String
  deriving DecidableEq, Repr

/-- The statistics columns of a version, NULL until `set_stats`. -/
structure Stats where
  bytesRead : ℕ := 0
  bytesWritten : ℕ := 0
  bytesDeduplicated : ℕ := 0
  bytesSparse : ℕ := 0
  deriving DecidableEq, Repr

structure Version where
  id : ℕ
  uid : String
  storage : Storage
  size : ℕ
  blockSize : ℕ
  status : VersionStatus
  stats : Option Stats
  deriving DecidableEq, Repr

/-- A row of `blocks`, or a synthesized or dereferenced block; `κ` are the checksums. -/
structure Block (κ : Type) where
  versionId : ℕ
  idx : ℕ
  uid : Option BlockUid
  checksum : Option κ
  size : ℕ
  valid : Bool
  deriving DecidableEq, Repr

/-- `PrimaryKeyConstraint('version_id', 'idx')`. -/
def Block.key {κ : Type} (b : Block κ) : ℕ × ℕ := (b.versionId, b.idx)

/-- A row of `deleted_blocks`: the object may be removed from the storage later. -/
structure DeletedBlock where
  id : ℕ
  storageId : ℕ
  uid : BlockUid
  date : ℕ
  deriving DecidableEq, Repr

/-- A thread of a server process, as the lock table tells them apart. -/
structure Process where
  host : String
  processId : String
  deriving DecidableEq, Repr

structure Lock where
  lockName : String
  owner : Process
  reason : String
  deriving DecidableEq, Repr

abbrev BlockTable (κ : Type) := Table (Block.key (κ := κ))

structure Database (κ : Type) where
  versions : Table Version.id
  blocks : BlockTable κ
  deletedBlocks : Table DeletedBlock.id
  locks : Table Lock.lockName

namespace Version

/-- `math.ceil(self.size / self.block_size)`; the division is exact here. -/
def blocksCount (v : Version) : ℕ := v.size ⌈/⌉ v.blockSize

/-- The size of block `idx`: only the last block may be shorter than the others. -/
def blockSizeAt (v : Version) (idx : ℕ) : ℕ := min v.blockSize (v.size - idx * v.blockSize)

theorem lt_blocksCount {v : Version} (hb : 0 < v.blockSize) {idx : ℕ} :
    idx < v.blocksCount ↔ idx * v.blockSize < v.size := by
  rw [blocksCount, ← not_le, ceilDiv_le_iff_le_mul hb, not_le, Nat.mul_comm]

theorem blockSizeAt_pos {v : Version} (hb : 0 < v.blockSize) {idx : ℕ}
    (h : idx < v.blocksCount) : 0 < v.blockSizeAt idx := by
  have := (lt_blocksCount hb).mp h
  rw [blockSizeAt]
  omega

theorem blockSizeAt_le (v : Version) (idx : ℕ) : v.blockSizeAt idx ≤ v.blockSize :=
  min_le_left _ _

/-- A block before the last one is full. -/
theorem blockSizeAt_of_succ_lt {v : Version} (hb : 0 < v.blockSize) {idx : ℕ}
    (h : idx + 1 < v.blocksCount) : v.blockSizeAt idx = v.blockSize := by
  have := (lt_blocksCount hb).mp h
  rw [Nat.add_mul, Nat.one_mul] at this
  rw [blockSizeAt]
  omega

theorem lt_size_of_lt_blockSizeAt {v : Version} {idx j : ℕ} (hj : j < v.blockSizeAt idx) :
    idx * v.blockSize + j < v.size ∧ j < v.blockSize := by
  unfold blockSizeAt at hj
  omega

/-- The blocks of a version add up to its size. -/
theorem sum_blockSizeAt (v : Version) (k : ℕ) :
    ((List.range k).map v.blockSizeAt).sum = min (k * v.blockSize) v.size := by
  induction k with
  | zero => simp
  | succ k ih =>
    rw [List.range_succ, List.map_append, List.sum_append, ih, List.map_singleton,
      List.sum_singleton, blockSizeAt, Nat.add_one_mul]
    omega

theorem size_le_blocksCount_mul {v : Version} (hb : 0 < v.blockSize) :
    v.size ≤ v.blocksCount * v.blockSize := by
  by_contra h
  have := (lt_blocksCount hb).mpr (not_le.mp h)
  exact absurd this (lt_irrefl _)

end Version

end Benji
