import Benji.Backup.Loop

/-! The invariant of the block loop. While block `idx` is outstanding nothing is known of its
row; once it is settled the row reads back as the block it should be. -/
namespace Benji
open Lib

variable {κ : Type}

namespace Version

/-- Block `idx` of the source. -/
def sourceBlock (v : Version) (io : Source) (idx : ℕ) : Bytes :=
  slice io.data (idx * v.blockSize) (v.blockSizeAt idx)

theorem length_sourceBlock {v : Version} {io : Source} (h : io.data.length = v.size) (idx : ℕ) :
    (v.sourceBlock io idx).length = v.blockSizeAt idx := by
  rw [sourceBlock, length_slice, h, blockSizeAt]
  omega

end Version

/-- A settled block: its size and valid flag, and the bytes it stands for. -/
structure Settled (v : Version) (objects : Objects κ) (idx : ℕ) (d : Bytes) (b : Block κ) :
    Prop where
  size : b.size = v.blockSizeAt idx
  valid : b.valid = true
  data : blockData objects v.storage.id b = some d

/-- The tables and objects while the blocks in `out` are outstanding. -/
structure TableInv (hash : Bytes → κ) (v : Version) (want : ℕ → Bytes) (w : World κ)
    (out : List ℕ) : Prop where
  row : w.db.versions.find? v.id = some v
  rows : ∀ b ∈ w.db.blocks, b.versionId = v.id → b.idx < v.blocksCount
  inRange : ∀ idx ∈ out, idx < v.blocksCount
  intact : ∀ b ∈ w.db.blocks, b.valid = true → w.db.inStorage v.storage.id b = true →
    Intact hash w.objects v.storage.id b
  /-- The uids that outstanding blocks will be written under are not in use. -/
  fresh : ∀ b ∈ w.db.blocks, w.db.inStorage v.storage.id b = true → ∀ idx ∈ out,
    b.uid ≠ some ⟨v.id, idx + 1⟩
  wanted : ∀ idx < v.blocksCount, idx ∉ out →
    Settled v w.objects idx (want idx) (w.db.blocks.getBlockByIdx v idx)

section TableInv
variable {hash : Bytes → κ} {v : Version} {want : ℕ → Bytes} {w : World κ} {out out' : List ℕ}

theorem Database.inStorage_of_row {db : Database κ} {b : Block κ}
    (h : db.versions.find? v.id = some v) (hb : b.versionId = v.id) :
    db.inStorage v.storage.id b = true := by
  rw [inStorage, hb, h]
  exact decide_eq_true rfl

theorem Settled.sparse {objects : Objects κ} {idx : ℕ} (h : v.blockSizeAt idx = v.blockSize) :
    Settled v objects idx (zeros v.blockSize) (createSparseBlock (κ := κ) v idx) :=
  ⟨h.symm, rfl, rfl⟩

/-- The row of a version that no other block's row is: the block read by its index. -/
theorem uid_getBlockByIdx {t : BlockTable κ} {idx : ℕ} {uid : BlockUid}
    (h : (t.getBlockByIdx v idx).uid = some uid) :
    t.getBlockByIdx v idx ∈ t ∧ (t.getBlockByIdx v idx).versionId = v.id := by
  cases hr : t.row? v idx with
  | none =>
    rw [BlockTable.getBlockByIdx_of_none hr] at h
    simp at h
  | some b =>
    rw [BlockTable.getBlockByIdx_of_row? hr]
    exact ⟨(BlockTable.row?_eq_some.mp hr).1, (BlockTable.row?_eq_some.mp hr).2.1⟩

namespace TableInv

theorem congr_out (h : TableInv hash v want w out) (he : ∀ i, i ∈ out' ↔ i ∈ out) :
    TableInv hash v want w out' where
  row := h.row
  rows := h.rows
  inRange := fun idx hi => h.inRange idx ((he idx).mp hi)
  intact := h.intact
  fresh := fun b hb hs idx hi => h.fresh b hb hs idx ((he idx).mp hi)
  wanted := fun idx hlt hn => h.wanted idx hlt fun hi => hn ((he idx).mpr hi)

/-- Writing the object of an outstanding block. -/
theorem write (h : TableInv hash v want w out) {idx : ℕ} (hi : idx ∈ out)
    (o : Option (StoredObject κ)) :
    TableInv hash v want
      { w with objects := w.objects.put v.storage.id ⟨v.id, idx + 1⟩ o } out where
  row := h.row
  rows := h.rows
  inRange := h.inRange
  intact := fun b hb hv hs => (h.intact b hb hv hs).put (h.fresh b hb hs idx hi)
  fresh := h.fresh
  wanted := by
    intro j hj hn
    have hset := h.wanted j hj hn
    refine ⟨hset.size, hset.valid, ?_⟩
    rw [← hset.data]
    apply blockData_put
    intro hu
    obtain ⟨hmem, hv⟩ := uid_getBlockByIdx hu
    exact h.fresh _ hmem (Database.inStorage_of_row h.row hv) idx hi hu

/-- Setting the row of an outstanding block to what the block should be. -/
theorem settle (h : TableInv hash v want w out) {idx : ℕ} (hidx : idx ∈ out) {uid : Option BlockUid}
    {checksum : Option κ} {size : ℕ} {w' : World κ}
    (hb : w'.db.blocks = w.db.blocks.setBlock v idx uid checksum size true)
    (hv : w'.db.versions = w.db.versions) (ho : w'.objects = w.objects)
    (hout : ∀ i, i ∈ out' ↔ i ∈ out ∧ i ≠ idx)
    (hs : Settled v w.objects idx (want idx) ⟨v.id, idx, uid, checksum, size, true⟩)
    (hint : Intact hash w.objects v.storage.id ⟨v.id, idx, uid, checksum, size, true⟩)
    (hfresh : ∀ i ∈ out, i ≠ idx → uid ≠ some ⟨v.id, i + 1⟩) :
    TableInv hash v want w' out' := by
  have hst : ∀ b, w'.db.inStorage v.storage.id b = w.db.inStorage v.storage.id b := by
    intro b
    rw [Database.inStorage, Database.inStorage, hv]
  have hsp : uid = none → checksum = none ∧ true = true := by
    rintro rfl
    exact ⟨hint, rfl⟩
  refine ⟨hv ▸ h.row, ?_, fun i hi => h.inRange i ((hout i).mp hi).1, ?_, ?_, ?_⟩
  · intro b hmem hbv
    rw [hb, BlockTable.mem_setBlock] at hmem
    rcases hmem with ⟨-, rfl⟩ | ⟨hmem, -⟩
    · exact h.inRange idx hidx
    · exact h.rows b hmem hbv
  · intro b hmem hbv hbs
    rw [hb, BlockTable.mem_setBlock] at hmem
    rw [ho]
    rcases hmem with ⟨-, rfl⟩ | ⟨hmem, -⟩
    · exact hint
    · exact h.intact b hmem hbv (hst b ▸ hbs)
  · intro b hmem hbs i hi
    obtain ⟨hi, hne⟩ := (hout i).mp hi
    rw [hb, BlockTable.mem_setBlock] at hmem
    rcases hmem with ⟨-, rfl⟩ | ⟨hmem, -⟩
    · exact hfresh i hi hne
    · exact h.fresh b hmem (hst b ▸ hbs) i hi
  · intro j hj hn
    rw [hb, ho]
    by_cases hji : j = idx
    · subst hji
      rw [BlockTable.setBlock_fields hsp]
      exact hs
    · rw [BlockTable.getBlockByIdx_setBlock_of_ne hji]
      exact h.wanted j hj fun hmem => hn ((hout j).mpr ⟨hmem, hji⟩)

end TableInv
end TableInv

end Benji
