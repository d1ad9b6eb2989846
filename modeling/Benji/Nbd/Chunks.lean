import Benji.Nbd.Store

/-! The chunks that `_block_list` cuts a request into, on an export whose blocks have the sizes
that a complete version gives them. -/
namespace Benji.Nbd
open Lib

variable {κ : Type}

/-- The size a block is served with; behind the last block every block is full. -/
def gridSize (v : Version) (idx : ℕ) : ℕ :=
  if idx < v.blocksCount then v.blockSizeAt idx else v.blockSize

/-- Every block has the size it is served with. -/
def Sized (t : BlockTable κ) (v : Version) : Prop :=
  ∀ idx, (t.getBlockByIdx v idx).size = gridSize v idx

/-- `chunks` covers `len` bytes from offset `off` in block `idx` on. -/
inductive Chunks (t : BlockTable κ) (v : Version) : ℕ → ℕ → ℕ → List (Chunk κ) → Prop
  | last {idx off len : ℕ} : off + len ≤ gridSize v idx →
      Chunks t v idx off len [(some (t.getBlockByIdx v idx), off, len)]
  | more {idx off m len : ℕ} {chunks : List (Chunk κ)} : off + m = gridSize v idx → 0 < len →
      Chunks t v (idx + 1) 0 len chunks →
      Chunks t v idx off (m + len) ((some (t.getBlockByIdx v idx), off, m) :: chunks)

variable {t : BlockTable κ} {v : Version} {idx off len fuel : ℕ}

theorem gridSize_of_le (h : v.blocksCount ≤ idx) : gridSize v idx = v.blockSize := by
  rw [gridSize, if_neg (by omega)]

theorem gridSize_of_lt (h : idx < v.blocksCount) : gridSize v idx = v.blockSizeAt idx := by
  rw [gridSize, if_pos h]

theorem gridSize_pos (hb : 0 < v.blockSize) (idx : ℕ) : 0 < gridSize v idx := by
  unfold gridSize
  split
  · exact Version.blockSizeAt_pos hb ‹_›
  · exact hb

theorem gridSize_le (v : Version) (idx : ℕ) : gridSize v idx ≤ v.blockSize := by
  unfold gridSize
  split
  · exact v.blockSizeAt_le idx
  · exact le_rfl

theorem gridSize_congr {c : Version} (hs : c.size = v.size) (hb : c.blockSize = v.blockSize)
    (idx : ℕ) : gridSize c idx = gridSize v idx := by
  have hn : c.blocksCount = v.blocksCount := by
    rw [Version.blocksCount, hs, hb, Version.blocksCount]
  have hz : c.blockSizeAt idx = v.blockSizeAt idx := by
    rw [Version.blockSizeAt, hs, hb, Version.blockSizeAt]
  rw [gridSize, hn, hz, hb, gridSize]

/-- Only a request into the space behind the end of a short last block starts behind its
block. -/
theorem gridSize_lt_iff (hb : 0 < v.blockSize) (off : ℕ) :
    gridSize v (off / v.blockSize) < off % v.blockSize ↔
      v.size < off ∧ off < v.blocksCount * v.blockSize := by
  have hdiv := Nat.div_add_mod off v.blockSize
  have hmod := Nat.mod_lt off hb
  rw [Nat.mul_comm] at hdiv
  have hlt : off / v.blockSize < v.blocksCount ↔ off / v.blockSize * v.blockSize < v.size :=
    Version.lt_blocksCount hb
  have hoff : off / v.blockSize < v.blocksCount ↔ off < v.blocksCount * v.blockSize :=
    Nat.div_lt_iff_lt_mul hb
  unfold gridSize
  split
  · rw [Version.blockSizeAt]
    omega
  · omega

/-- What an offset in a block and an end there say about the version. -/
theorem end_le_size (hidx : idx < v.blocksCount) (h : off + len ≤ gridSize v idx)
    (hb : 0 < v.blockSize) : idx * v.blockSize + off + len ≤ v.size := by
  have hlt := (Version.lt_blocksCount hb).mp hidx
  rw [gridSize_of_lt hidx, Version.blockSizeAt] at h
  omega

/-- The first block behind a block that is served up to its end. -/
theorem next_block (hb : 0 < v.blockSize) (h : off + len = gridSize v idx) :
    idx * v.blockSize + off + len = (idx + 1) * v.blockSize ∨
      (v.size = idx * v.blockSize + off + len ∧ v.blocksCount ≤ idx + 1) := by
  by_cases hidx : idx < v.blocksCount
  · have hlt := (Version.lt_blocksCount hb).mp hidx
    rw [gridSize_of_lt hidx] at h
    by_cases hs : idx + 1 < v.blocksCount
    · rw [Version.blockSizeAt_of_succ_lt hb hs] at h
      rw [Nat.add_one_mul]
      omega
    · rw [Version.blockSizeAt] at h
      rw [Nat.add_one_mul]
      omega
  · rw [gridSize_of_le (by omega)] at h
    rw [Nat.add_one_mul]
    omega

/-- A request that starts inside its block or at its end is cut into chunks that cover it. -/
theorem blockList_chunks (hb : 0 < v.blockSize) (hs : Sized t v) (fuel len : ℕ)
    (ho : off ≤ gridSize v idx)
    (hf : len + 1 < fuel ∨ off < gridSize v idx ∧ len < fuel) :
    ∃ chunks, blockList t v fuel idx off len = some (.ok chunks) ∧
      Chunks t v idx off len chunks := by
  induction fuel generalizing idx off len with
  | zero => omega
  | succ fuel ih =>
    by_cases hle : off + len ≤ gridSize v idx
    · refine ⟨_, ?_, .last hle⟩
      have hmin : min (((t.getBlockByIdx v idx).size : ℤ) - off) len = len := by
        rw [hs idx]
        omega
      simp only [blockList, getBlock, hmin, sub_self, lt_irrefl, if_false, if_true]
    · obtain ⟨m, hm⟩ := Nat.exists_eq_add_of_le ho
      obtain ⟨rest, rfl⟩ := Nat.exists_eq_add_of_le (m := m) (n := len) (by omega)
      have hpos := gridSize_pos hb (idx + 1)
      have hrest : rest + 1 < fuel ∨ 0 < gridSize v (idx + 1) ∧ rest < fuel := by omega
      obtain ⟨chunks, hc, hchunks⟩ := ih rest (Nat.zero_le _) hrest
      refine ⟨_, ?_, .more hm.symm (by omega) hchunks⟩
      have hmin : min (((t.getBlockByIdx v idx).size : ℤ) - off) ((m + rest : ℕ) : ℤ) = m := by
        rw [hs idx]
        omega
      have hsub : ((m + rest : ℕ) : ℤ) - m = (rest : ℕ) := by omega
      have hneg : ¬ ((rest : ℕ) : ℤ) < 0 := by omega
      have hne : ¬ ((rest : ℕ) : ℤ) = 0 := by omega
      simp only [blockList, getBlock, hmin, hsub, hneg, hne, if_false, hc, Option.map_some,
        Except.map]

/-- A request that starts behind the end of its block is made longer by what it missed. -/
theorem blockList_behind (hb : 0 < v.blockSize) (hs : Sized t v) (fuel len : ℕ)
    (ho : gridSize v idx < off)
    (hf : len + (off - gridSize v idx) + 1 < fuel) :
    ∃ chunks, blockList t v fuel idx off len =
        some (.ok ((some (t.getBlockByIdx v idx), off, (gridSize v idx : ℤ) - off) :: chunks)) ∧
      Chunks t v (idx + 1) 0 (len + (off - gridSize v idx)) chunks := by
  cases fuel with
  | zero => omega
  | succ fuel =>
    have hpos := gridSize_pos hb (idx + 1)
    obtain ⟨chunks, hc, hchunks⟩ := blockList_chunks hb hs fuel
      (len + (off - gridSize v idx)) (Nat.zero_le _) (.inr ⟨hpos, by omega⟩)
    refine ⟨chunks, ?_, hchunks⟩
    have hmin : min (((t.getBlockByIdx v idx).size : ℤ) - off) len =
        (gridSize v idx : ℤ) - off := by
      rw [hs idx]
      omega
    have hsub : (len : ℤ) - ((gridSize v idx : ℤ) - off) =
        ((len + (off - gridSize v idx) : ℕ) : ℤ) := by omega
    have hneg : ¬ ((len + (off - gridSize v idx) : ℕ) : ℤ) < 0 := by omega
    have hne : ¬ ((len + (off - gridSize v idx) : ℕ) : ℤ) = 0 := by omega
    simp only [blockList, getBlock, hmin, hsub, hneg, hne, if_false, hc, Option.map_some,
      Except.map]

/-- A request that is not over at the end of the version has a chunk behind the last block. -/
theorem Chunks.exists_behind {chunks : List (Chunk κ)} (hb : 0 < v.blockSize)
    (h : Chunks t v idx off len chunks)
    (hend : v.blocksCount ≤ idx ∨ v.size < idx * v.blockSize + off + len) :
    ∃ i, v.blocksCount ≤ i ∧ ∃ off len, (some (t.getBlockByIdx v i), off, len) ∈ chunks := by
  induction h with
  | @last idx off len hle =>
    refine ⟨idx, ?_, off, len, List.mem_cons_self ..⟩
    by_contra hidx
    have := end_le_size (not_le.mp hidx) hle hb
    omega
  | @more idx off m len chunks hm _ _ ih =>
    by_cases hidx : v.blocksCount ≤ idx
    · exact ⟨idx, hidx, off, m, List.mem_cons_self ..⟩
    · have hnext := next_block hb hm
      obtain ⟨i, hi, o, l, hmem⟩ := ih (by omega)
      exact ⟨i, hi, o, l, List.mem_cons_of_mem _ hmem⟩

theorem mem_blockList {length : ℤ} {chunks : List (Chunk κ)}
    (h : blockList t v fuel idx off length = some (.ok chunks)) :
    ∀ chunk ∈ chunks, ∃ i o n, chunk = (some (t.getBlockByIdx v i), o, n) := by
  induction fuel generalizing idx off length chunks with
  | zero => simp [blockList] at h
  | succ fuel ih =>
    simp only [blockList, getBlock] at h
    split_ifs at h
    · simp at h
    · simp only [Option.some.injEq, Except.ok.injEq] at h
      subst h
      intro chunk hmem
      exact ⟨idx, off, _, List.mem_singleton.mp hmem⟩
    · obtain ⟨r, hr, he⟩ := Option.map_eq_some_iff.mp h
      cases r with
      | error e => simp [Except.map] at he
      | ok rest =>
        rw [Except.map, Except.ok.injEq] at he
        subst he
        intro chunk hmem
        cases List.mem_cons.mp hmem with
        | inl hc => exact ⟨idx, off, _, hc⟩
        | inr hc => exact ih hr chunk hc

theorem blockList_error {length : ℤ} {e : Error}
    (h : blockList t v fuel idx off length = some (.error e)) : e = .assertionError := by
  induction fuel generalizing idx off length with
  | zero => simp [blockList] at h
  | succ fuel ih =>
    simp only [blockList, getBlock] at h
    split_ifs at h
    · simpa using h.symm
    · simp at h
    · obtain ⟨r, hr, he⟩ := Option.map_eq_some_iff.mp h
      cases r with
      | error e' =>
        rw [Except.map, Except.error.injEq] at he
        exact ih (he ▸ hr)
      | ok chunks => simp [Except.map] at he

end Benji.Nbd
