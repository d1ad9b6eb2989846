import Mathlib.Data.Nat.Init
import Mathlib.Algebra.Order.Floor.Div

/-! `Benji._blocks_from_hints`: byte ranges rounded to the blocks that have to be read and
the blocks that may be taken as sparse. -/
namespace Benji

/-- A tuple `(offset, length, exists)`. -/
structure Hint where
  offset : ℕ
  length : ℕ
  existing : Bool
  deriving DecidableEq, Repr

namespace Hint

def Covers (h : Hint) (i : ℕ) : Prop := h.offset ≤ i ∧ i < h.offset + h.length

instance (h : Hint) (i : ℕ) : Decidable (h.Covers i) := inferInstanceAs (Decidable (_ ∧ _))

def startBlock (h : Hint) (blockSize : ℕ) : ℕ := h.offset / blockSize

/-- Of an empty hint at offset 0 this is the block before the first one. -/
def endBlock (h : Hint) (blockSize : ℕ) : ℤ := ((h.offset + h.length : ℕ) - 1 : ℤ) / blockSize

/-- `range(start_block, end_block + 1)`. -/
def blockRange (h : Hint) (blockSize : ℕ) : List ℕ :=
  List.range' (h.startBlock blockSize)
    (h.endBlock blockSize + 1 - h.startBlock blockSize).toNat

/-- The blocks that a hint adds to `read_blocks`. -/
def readBlocks (h : Hint) (blockSize : ℕ) : List ℕ :=
  if h.existing then h.blockRange blockSize
  else
    -- A start or end block that is only partially sparse is read.
    (if h.offset % blockSize > 0 then [h.startBlock blockSize] else []) ++
      if (h.offset + h.length) % blockSize > 0 then [(h.endBlock blockSize).toNat] else []

def sparseBlocks (h : Hint) (blockSize : ℕ) : List ℕ :=
  if h.existing then [] else h.blockRange blockSize

end Hint

/-- The sets `(sparse_blocks, read_blocks)`. -/
def blocksFromHints (hints : List Hint) (blockSize : ℕ) : List ℕ × List ℕ :=
  hints.foldl (fun sets h => (sets.1 ++ h.sparseBlocks blockSize, sets.2 ++ h.readBlocks blockSize))
    ([], [])

section Hints
variable {hints : List Hint} {h : Hint} {blockSize idx i : ℕ}

private theorem foldl_hints (sets : List ℕ × List ℕ) :
    hints.foldl
        (fun sets h => (sets.1 ++ h.sparseBlocks blockSize, sets.2 ++ h.readBlocks blockSize))
        sets =
      (sets.1 ++ hints.flatMap fun h => h.sparseBlocks blockSize,
        sets.2 ++ hints.flatMap fun h => h.readBlocks blockSize) := by
  induction hints generalizing sets with
  | nil => simp
  | cons h hints ih => simp [ih, List.append_assoc]

theorem mem_sparse_blocksFromHints :
    idx ∈ (blocksFromHints hints blockSize).1 ↔ ∃ h ∈ hints, idx ∈ h.sparseBlocks blockSize := by
  simp [blocksFromHints, foldl_hints]

theorem mem_read_blocksFromHints :
    idx ∈ (blocksFromHints hints blockSize).2 ↔ ∃ h ∈ hints, idx ∈ h.readBlocks blockSize := by
  simp [blocksFromHints, foldl_hints]

/-- A hint reaches the blocks that it shares a byte with, and no others unless it is empty. -/
theorem mem_blockRange (hb : 0 < blockSize) : idx ∈ h.blockRange blockSize ↔
    h.offset < (idx + 1) * blockSize ∧ idx * blockSize < h.offset + h.length := by
  have hbz : (0 : ℤ) < blockSize := by exact_mod_cast hb
  have hstart : h.startBlock blockSize ≤ idx ↔ h.offset < (idx + 1) * blockSize := by
    rw [Hint.startBlock, ← Nat.lt_succ_iff, Nat.div_lt_iff_lt_mul hb]
  have hend : (idx : ℤ) ≤ h.endBlock blockSize ↔ idx * blockSize < h.offset + h.length := by
    rw [Hint.endBlock, Int.le_ediv_iff_mul_le hbz, Int.le_sub_one_iff]
    exact_mod_cast Iff.rfl
  rw [← hstart, ← hend, Hint.blockRange, List.mem_range'_1]
  omega

theorem mem_blockRange_of_covers (hb : 0 < blockSize) (hc : h.Covers i)
    (hlo : idx * blockSize ≤ i) (hhi : i < (idx + 1) * blockSize) :
    idx ∈ h.blockRange blockSize := by
  obtain ⟨h1, h2⟩ := hc
  exact (mem_blockRange hb).mpr ⟨by omega, by omega⟩

/-- A block is in neither set exactly when no hint reaches it. -/
theorem not_mem_blocksFromHints (hb : 0 < blockSize) :
    (idx ∉ (blocksFromHints hints blockSize).1 ∧ idx ∉ (blocksFromHints hints blockSize).2) ↔
      ∀ h ∈ hints, idx ∉ h.blockRange blockSize := by
  have hread : ∀ h : Hint, idx ∈ h.readBlocks blockSize → idx ∈ h.blockRange blockSize := by
    intro h hr
    cases he : h.existing with
    | true => simpa [Hint.readBlocks, he] using hr
    | false =>
      rw [mem_blockRange hb]
      simp only [Hint.readBlocks, he, Bool.false_eq_true, if_false, List.mem_append] at hr
      rcases hr with hr | hr
      · split_ifs at hr with hm
        · obtain rfl := List.mem_singleton.mp hr
          have hmod := Nat.div_add_mod' h.offset blockSize
          have hlt := Nat.mod_lt h.offset hb
          rw [Hint.startBlock, Nat.add_one_mul]
          omega
        · simp at hr
      · split_ifs at hr with hm
        · obtain rfl := List.mem_singleton.mp hr
          have hpos : 0 < h.offset + h.length := by
            rcases Nat.eq_zero_or_pos (h.offset + h.length) with h0 | h0
            · rw [h0, Nat.zero_mod] at hm
              omega
            · exact h0
          have hnat : ((h.offset + h.length : ℕ) - 1 : ℤ) =
              ((h.offset + h.length - 1 : ℕ) : ℤ) := by omega
          have hend : (h.endBlock blockSize).toNat = (h.offset + h.length - 1) / blockSize := by
            rw [Hint.endBlock, hnat, ← Int.natCast_ediv, Int.toNat_natCast]
          have hmod := Nat.div_add_mod' (h.offset + h.length - 1) blockSize
          have hlt := Nat.mod_lt (h.offset + h.length - 1) hb
          have hlast : (h.offset + h.length - 1) % blockSize + 1 < blockSize := by
            by_contra hge
            have hmul : h.offset + h.length =
                blockSize * ((h.offset + h.length - 1) / blockSize + 1) := by
              rw [Nat.mul_comm, Nat.add_one_mul]
              omega
            rw [hmul, Nat.mul_mod_right] at hm
            omega
          rw [hend, Nat.add_one_mul]
          omega
        · simp at hr
  rw [mem_sparse_blocksFromHints, mem_read_blocksFromHints]
  constructor
  · rintro ⟨hs, hr⟩ h hmem hx
    cases he : h.existing with
    | true => exact hr ⟨h, hmem, by rwa [Hint.readBlocks, if_pos he]⟩
    | false =>
      refine hs ⟨h, hmem, ?_⟩
      rw [Hint.sparseBlocks, he]
      exact hx
  · intro hn
    constructor
    · rintro ⟨h, hmem, hx⟩
      refine hn h hmem ?_
      cases he : h.existing with
      | true => simp [Hint.sparseBlocks, he] at hx
      | false => simpa [Hint.sparseBlocks, he] using hx
    · rintro ⟨h, hmem, hx⟩
      exact hn h hmem (hread h hx)

/-- Every block with a byte of an existing hint is read. -/
theorem mem_read_of_existing (hb : 0 < blockSize) (hmem : h ∈ hints) (he : h.existing = true)
    (hc : h.Covers i) (hlo : idx * blockSize ≤ i) (hhi : i < (idx + 1) * blockSize) :
    idx ∈ (blocksFromHints hints blockSize).2 := by
  refine mem_read_blocksFromHints.mpr ⟨h, hmem, ?_⟩
  rw [Hint.readBlocks, if_pos he]
  exact mem_blockRange_of_covers hb hc hlo hhi

/-- A block in neither set has no byte that a hint covers. -/
theorem not_covers_of_not_mem (hb : 0 < blockSize)
    (hs : idx ∉ (blocksFromHints hints blockSize).1)
    (hr : idx ∉ (blocksFromHints hints blockSize).2) (hmem : h ∈ hints)
    (hlo : idx * blockSize ≤ i) (hhi : i < (idx + 1) * blockSize) : ¬ h.Covers i := by
  intro hc
  cases he : h.existing with
  | true => exact hr (mem_read_of_existing hb hmem he hc hlo hhi)
  | false =>
    apply hs
    refine mem_sparse_blocksFromHints.mpr ⟨h, hmem, ?_⟩
    rw [Hint.sparseBlocks, he]
    exact mem_blockRange_of_covers hb hc hlo hhi

/-- A sparse hint covers the blocks it reaches but does not have read. -/
theorem covers_of_sparse (hb : 0 < blockSize) (hs : idx ∈ h.sparseBlocks blockSize)
    (hr : idx ∉ h.readBlocks blockSize) (hlo : idx * blockSize ≤ i)
    (hhi : i < (idx + 1) * blockSize) : h.Covers i := by
  cases he : h.existing with
  | true => simp [Hint.sparseBlocks, he] at hs
  | false =>
    simp only [Hint.sparseBlocks, he, Bool.false_eq_true, if_false] at hs
    obtain ⟨h1, h2⟩ := (mem_blockRange hb).mp hs
    simp only [Hint.readBlocks, he, Bool.false_eq_true, if_false, List.mem_append, not_or] at hr
    obtain ⟨hr1, hr2⟩ := hr
    rw [Nat.add_one_mul] at h1 hhi
    constructor
    · -- The block is not a partial start block, so the hint starts at or before it.
      by_contra hlt
      have hdiv : h.startBlock blockSize = idx := by
        rw [Hint.startBlock, Nat.div_eq_iff hb]
        constructor <;> omega
      have hmod : h.offset % blockSize > 0 := by
        by_contra h0
        have h0 : h.offset % blockSize = 0 := by omega
        have hmul := Nat.div_add_mod h.offset blockSize
        rw [h0, show h.offset / blockSize = idx from hdiv, Nat.mul_comm] at hmul
        omega
      rw [if_pos hmod, hdiv] at hr1
      exact hr1 (List.mem_singleton.mpr rfl)
    · by_contra hge
      have hpos : 0 < h.offset + h.length := by omega
      have hend : (h.endBlock blockSize).toNat = idx := by
        have hnat : ((h.offset + h.length : ℕ) - 1 : ℤ) = ((h.offset + h.length - 1 : ℕ) : ℤ) := by
          omega
        rw [Hint.endBlock, hnat, ← Int.natCast_ediv, Int.toNat_natCast, Nat.div_eq_iff hb]
        constructor <;> omega
      have hmod : (h.offset + h.length) % blockSize > 0 := by
        by_contra h0
        have h0 : (h.offset + h.length) % blockSize = 0 := by omega
        obtain ⟨c, hc⟩ := Nat.dvd_of_mod_eq_zero h0
        have hlow : idx < c := by
          by_contra hle
          have := Nat.mul_le_mul_left blockSize (Nat.le_of_not_lt hle)
          rw [Nat.mul_comm blockSize idx] at this
          omega
        have := Nat.mul_le_mul_left blockSize (Nat.succ_le_of_lt hlow)
        rw [Nat.mul_comm blockSize, Nat.succ_eq_add_one, Nat.add_one_mul] at this
        omega
      rw [if_pos hmod, hend] at hr2
      exact hr2 (List.mem_singleton.mpr rfl)

/-- A block taken as sparse without being read lies within one sparse hint, and no existing
hint covers a byte of it. -/
theorem sparse_not_read (hb : 0 < blockSize) (hs : idx ∈ (blocksFromHints hints blockSize).1)
    (hr : idx ∉ (blocksFromHints hints blockSize).2) (hlo : idx * blockSize ≤ i)
    (hhi : i < (idx + 1) * blockSize) :
    (∃ h ∈ hints, h.Covers i) ∧ ∀ h ∈ hints, h.existing = true → ¬ h.Covers i := by
  constructor
  · obtain ⟨h, hmem, hh⟩ := mem_sparse_blocksFromHints.mp hs
    have hn : idx ∉ h.readBlocks blockSize := fun hx =>
      hr (mem_read_blocksFromHints.mpr ⟨h, hmem, hx⟩)
    exact ⟨h, hmem, covers_of_sparse hb hh hn hlo hhi⟩
  · intro h hmem he hc
    exact hr (mem_read_of_existing hb hmem he hc hlo hhi)

/-- A hint that has bytes covers one of every block it reaches. -/
theorem exists_covered (hb : 0 < blockSize) (hl : 1 ≤ h.length)
    (hr : idx ∈ h.blockRange blockSize) :
    ∃ i, idx * blockSize ≤ i ∧ i < (idx + 1) * blockSize ∧ h.Covers i := by
  obtain ⟨h1, h2⟩ := (mem_blockRange hb).mp hr
  have hblock : idx * blockSize < (idx + 1) * blockSize := by
    rw [Nat.add_one_mul]
    omega
  exact ⟨max h.offset (idx * blockSize), by omega, by omega, by omega, by omega⟩

/-- Blocks with a byte of an existing hint are read, blocks that are taken as sparse lie in one
sparse hint and clear of the existing ones, and blocks without a hint are in neither set. -/
theorem blocksFromHints_safe (blockSize : ℕ) (hb : 1 ≤ blockSize) (hints : List Hint)
    (hl : ∀ h ∈ hints, 1 ≤ h.length) :
    (∀ h ∈ hints, h.existing = true → ∀ i, h.Covers i →
      i / blockSize ∈ (blocksFromHints hints blockSize).2) ∧
    (∀ idx ∈ (blocksFromHints hints blockSize).1, idx ∉ (blocksFromHints hints blockSize).2 →
      (∃ h ∈ hints, h.existing = false ∧ ∀ i, i / blockSize = idx → h.Covers i) ∧
      ∀ h ∈ hints, h.existing = true → ∀ i, i / blockSize = idx → ¬ h.Covers i) ∧
    ∀ idx, (∀ h ∈ hints, ∀ i, i / blockSize = idx → ¬ h.Covers i) →
      idx ∉ (blocksFromHints hints blockSize).1 ∧ idx ∉ (blocksFromHints hints blockSize).2 := by
  have hblock (i idx : ℕ) : i / blockSize = idx ↔
      idx * blockSize ≤ i ∧ i < (idx + 1) * blockSize := by
    rw [Nat.div_eq_iff hb, Nat.add_one_mul]
    omega
  refine ⟨?_, ?_, ?_⟩
  · intro h hmem he i hc
    obtain ⟨hlo, hhi⟩ := (hblock i _).mp rfl
    exact mem_read_of_existing hb hmem he hc hlo hhi
  · intro idx hs hr
    constructor
    · obtain ⟨h, hmem, hh⟩ := mem_sparse_blocksFromHints.mp hs
      have hn : idx ∉ h.readBlocks blockSize := fun hx =>
        hr (mem_read_blocksFromHints.mpr ⟨h, hmem, hx⟩)
      have he : h.existing = false := by
        rw [Bool.eq_false_iff]
        intro he
        rw [Hint.sparseBlocks, if_pos he] at hh
        exact List.not_mem_nil hh
      refine ⟨h, hmem, he, ?_⟩
      intro i hi
      obtain ⟨hlo, hhi⟩ := (hblock i idx).mp hi
      exact covers_of_sparse hb hh hn hlo hhi
    · intro h hmem he i hi hc
      obtain ⟨hlo, hhi⟩ := (hblock i idx).mp hi
      exact hr (mem_read_of_existing hb hmem he hc hlo hhi)
  · intro idx hn
    rw [not_mem_blocksFromHints hb]
    intro h hmem hx
    obtain ⟨i, hlo, hhi, hc⟩ := exists_covered hb (hl h hmem) hx
    exact hn h hmem i ((hblock i idx).mpr ⟨hlo, hhi⟩) hc

/-- The first block is sparse in part only, and one byte of the second exists. -/
def exampleHints : List Hint := [⟨2, 14, false⟩, ⟨5, 1, true⟩]

theorem blocksFromHints_safe_example :
    blocksFromHints exampleHints 4 = ([0, 1, 2, 3], [0, 1]) ∧
      (∃ h ∈ exampleHints, h.existing = false ∧ ∀ i, i / 4 = 2 → h.Covers i) ∧
      ∀ h ∈ exampleHints, h.existing = true → ∀ i, i / 4 = 2 → ¬ h.Covers i := by
  have hsafe := (blocksFromHints_safe 4 (by decide) exampleHints (by decide)).2.1
  exact ⟨by decide, hsafe 2 (by decide) (by decide)⟩

end Hints
end Benji
