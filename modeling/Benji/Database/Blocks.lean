import Benji.Database.Tables

/-! The block table of one version: its sparse rows, the blocks they stand for, and the
writes to single blocks. -/
namespace Benji
open Lib

variable {κ : Type}

/-- A block that has no row reads as this one. -/
def createSparseBlock (v : Version) (idx : ℕ) : Block κ where
  versionId := v.id
  idx := idx
  uid := sparseBlockUid
  checksum := none
  size := v.blockSize
  valid := true

@[simp] theorem createSparseBlock_idx (v : Version) (idx : ℕ) :
    (createSparseBlock v idx : Block κ).idx = idx := rfl

@[simp] theorem createSparseBlock_uid (v : Version) (idx : ℕ) :
    (createSparseBlock v idx : Block κ).uid = none := rfl

@[simp] theorem createSparseBlock_size (v : Version) (idx : ℕ) :
    (createSparseBlock v idx : Block κ).size = v.blockSize := rfl

@[simp] theorem createSparseBlock_valid (v : Version) (idx : ℕ) :
    (createSparseBlock v idx : Block κ).valid = true := rfl

@[simp] theorem createSparseBlock_checksum (v : Version) (idx : ℕ) :
    (createSparseBlock v idx : Block κ).checksum = none := rfl

namespace BlockTable

def row? (t : BlockTable κ) (v : Version) (idx : ℕ) : Option (Block κ) := t.find? (v.id, idx)

def getBlockByIdx (t : BlockTable κ) (v : Version) (idx : ℕ) : Block κ :=
  (t.row? v idx).getD (createSparseBlock v idx)

/-- `ORDER BY idx` over a window; the primary key leaves at most one row for each index. -/
def windowRows (t : BlockTable κ) (v : Version) (start stop : ℕ) : List (Block κ) :=
  (List.range' start (stop - start)).filterMap (t.row? v)

/-- The body of a window: the rows with synthesized sparse blocks in the gaps between them. -/
def fillWindow (v : Version) (idx stop : ℕ) : List (Block κ) → List (Block κ)
  | [] => (List.range' idx (stop - idx)).map (createSparseBlock v)
  | b :: rest =>
    (List.range' idx (b.idx - idx)).map (createSparseBlock v) ++
      b :: fillWindow v (b.idx + 1) stop rest

/-- `Version.blocks` from `start` on; `fuel` bounds the number of windows. -/
def blocksFrom (perCall : ℕ) (t : BlockTable κ) (v : Version) : ℕ → ℕ → List (Block κ)
  | 0, _ => []
  | fuel + 1, start =>
    let stop := min (start + perCall) v.blocksCount
    fillWindow v start stop (t.windowRows v start stop) ++
      if stop = v.blocksCount then [] else blocksFrom perCall t v fuel stop

def blocks (perCall : ℕ) (t : BlockTable κ) (v : Version) : List (Block κ) :=
  t.blocksFrom perCall v (v.blocksCount + 1) 0

def nonSparseIdxs (t : BlockTable κ) (v : Version) : List ℕ :=
  (t.rows.filter fun b => b.versionId = v.id ∧ b.uid.isSome).map Block.idx

def sparseBlocksCount (t : BlockTable κ) (v : Version) : ℕ :=
  ((List.range v.blocksCount).filter fun idx => idx ∉ t.nonSparseIdxs v).length

theorem row?_eq_some {t : BlockTable κ} {v : Version} {idx : ℕ} {b : Block κ} :
    t.row? v idx = some b ↔ b ∈ t ∧ b.versionId = v.id ∧ b.idx = idx := by
  rw [row?, Table.find?_eq_some, Block.key, Prod.mk.injEq]

theorem idx_of_row? {t : BlockTable κ} {v : Version} {idx : ℕ} {b : Block κ}
    (h : t.row? v idx = some b) : b.idx = idx := (row?_eq_some.mp h).2.2

@[simp] theorem getBlockByIdx_idx (t : BlockTable κ) (v : Version) (idx : ℕ) :
    (t.getBlockByIdx v idx).idx = idx := by
  cases h : t.row? v idx with
  | none => simp [getBlockByIdx, h]
  | some b => simpa [getBlockByIdx, h] using idx_of_row? h

theorem getBlockByIdx_of_row? {t : BlockTable κ} {v : Version} {idx : ℕ} {b : Block κ}
    (h : t.row? v idx = some b) : t.getBlockByIdx v idx = b := by
  simp [getBlockByIdx, h]

theorem getBlockByIdx_of_none {t : BlockTable κ} {v : Version} {idx : ℕ}
    (h : t.row? v idx = none) : t.getBlockByIdx v idx = createSparseBlock v idx := by
  simp [getBlockByIdx, h]

/-- One window reads the blocks it covers, in order. -/
theorem fillWindow_windowRows (t : BlockTable κ) (v : Version) (n start idx : ℕ)
    (hle : idx ≤ start) (hgap : ∀ i, idx ≤ i → i < start → t.row? v i = none) :
    fillWindow v idx (start + n) ((List.range' start n).filterMap (t.row? v)) =
      (List.range' idx (start + n - idx)).map (t.getBlockByIdx v) := by
  induction n generalizing start idx with
  | zero =>
    simp only [List.range'_zero, List.filterMap_nil, fillWindow, Nat.add_zero]
    apply List.map_congr_left
    intro i hi
    have hr := List.mem_range'_1.mp hi
    exact (getBlockByIdx_of_none (hgap i hr.1 (by omega))).symm
  | succ n ih =>
    have hstop : start + (n + 1) = start + 1 + n := by omega
    rw [List.range'_succ, hstop]
    cases hrow : t.row? v start with
    | none =>
      rw [List.filterMap_cons_none hrow]
      apply ih (start + 1) idx (by omega)
      intro i hi hlt
      by_cases he : i = start
      · rw [he, hrow]
      · exact hgap i hi (by omega)
    | some b =>
      have hb : b.idx = start := idx_of_row? hrow
      have hrest := ih (start + 1) (start + 1) le_rfl (fun i _ _ => by omega)
      have hsplit : List.range' idx (start + 1 + n - idx) =
          List.range' idx (start - idx) ++ start :: List.range' (start + 1) n := by
        have h1 : start + 1 + n - idx = (start - idx) + (n + 1) := by omega
        have h2 : idx + 1 * (start - idx) = start := by omega
        rw [h1, ← List.range'_append, h2, List.range'_succ]
      have hfill : (List.range' idx (start - idx)).map (createSparseBlock v) =
          (List.range' idx (start - idx)).map (t.getBlockByIdx v) := by
        apply List.map_congr_left
        intro i hi
        have hr := List.mem_range'_1.mp hi
        exact (getBlockByIdx_of_none (hgap i hr.1 (by omega))).symm
      have hcount : start + 1 + n - (start + 1) = n := by omega
      rw [hcount] at hrest
      rw [List.filterMap_cons_some hrow, fillWindow, hb, hrest, hsplit, List.map_append,
        List.map_cons, hfill, getBlockByIdx_of_row? hrow]

theorem blocksFrom_eq {perCall : ℕ} (hp : 0 < perCall) (t : BlockTable κ) (v : Version)
    (fuel start : ℕ) (hs : start ≤ v.blocksCount) (hf : v.blocksCount - start < fuel) :
    t.blocksFrom perCall v fuel start =
      (List.range' start (v.blocksCount - start)).map (t.getBlockByIdx v) := by
  induction fuel generalizing start with
  | zero => omega
  | succ fuel ih =>
    have hstop : min (start + perCall) v.blocksCount =
        start + (min (start + perCall) v.blocksCount - start) := by omega
    have hwin := fillWindow_windowRows t v (min (start + perCall) v.blocksCount - start) start
      start le_rfl (fun i _ _ => by omega)
    rw [← hstop] at hwin
    simp only [blocksFrom, windowRows]
    rw [hwin]
    split_ifs with he
    · rw [he, List.append_nil]
    · rw [ih _ (min_le_right _ _) (by omega), ← List.map_append]
      congr 1
      have hcount : v.blocksCount - start =
          (min (start + perCall) v.blocksCount - start) +
            (v.blocksCount - min (start + perCall) v.blocksCount) := by omega
      have hnext : min (start + perCall) v.blocksCount =
          start + 1 * (min (start + perCall) v.blocksCount - start) := by omega
      rw [hcount, ← List.range'_append, ← hnext]

/-- Whatever the window size, `blocks` yields every block once and in order. -/
theorem blocks_eq {perCall : ℕ} (hp : 0 < perCall) (t : BlockTable κ) (v : Version) :
    t.blocks perCall v = (List.range v.blocksCount).map (t.getBlockByIdx v) := by
  rw [blocks, blocksFrom_eq hp t v _ 0 (Nat.zero_le _) (by omega), Nat.sub_zero,
    List.range_eq_range']

end BlockTable
end Benji
