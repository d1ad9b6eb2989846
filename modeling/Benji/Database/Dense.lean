import Benji.Database.Writes

/-! The sparse block table of a version stands for a dense array of blocks. -/
namespace Benji
open Lib

variable {κ : Type}

namespace BlockTable

/-- `Version.blocks` with a bound on its windows; `none` when they do not suffice. -/
def blocksWithin (perCall : ℕ) (t : BlockTable κ) (v : Version) :
    ℕ → ℕ → Option (List (Block κ))
  | 0, _ => none
  | windows + 1, start =>
    let stop := min (start + perCall) v.blocksCount
    let window := fillWindow v start stop (t.windowRows v start stop)
    if stop = v.blocksCount then some window
    else (blocksWithin perCall t v windows stop).map (window ++ ·)

/-- Each window but the last one takes at least one block. -/
theorem blocksWithin_eq {perCall : ℕ} (hp : 0 < perCall) (t : BlockTable κ) (v : Version)
    {windows start : ℕ} (hs : start ≤ v.blocksCount) (hw : v.blocksCount - start < windows) :
    t.blocksWithin perCall v windows start = some (t.blocksFrom perCall v windows start) := by
  induction windows generalizing start with
  | zero => omega
  | succ windows ih =>
    unfold blocksWithin blocksFrom
    dsimp only
    split_ifs with hstop
    · rw [List.append_nil]
    · rw [ih (min_le_right _ _) (by omega)]
      rfl

theorem mem_nonSparseIdxs {t : BlockTable κ} {v : Version} {idx : ℕ} :
    idx ∈ t.nonSparseIdxs v ↔ (t.getBlockByIdx v idx).uid.isSome = true := by
  unfold nonSparseIdxs
  constructor
  · intro h
    obtain ⟨b, hb, rfl⟩ := List.mem_map.mp h
    obtain ⟨hb, hv⟩ := List.mem_filter.mp hb
    have hv : b.versionId = v.id ∧ b.uid.isSome = true := of_decide_eq_true hv
    rw [getBlockByIdx_of_row? (row?_eq_some.mpr ⟨hb, hv.1, rfl⟩)]
    exact hv.2
  · intro h
    cases hrow : t.row? v idx with
    | none =>
      rw [getBlockByIdx_of_none hrow] at h
      cases h
    | some b =>
      rw [getBlockByIdx_of_row? hrow] at h
      obtain ⟨hb, hv, hi⟩ := row?_eq_some.mp hrow
      exact List.mem_map.mpr ⟨b, List.mem_filter.mpr ⟨hb, decide_eq_true ⟨hv, h⟩⟩, hi⟩

theorem sparseBlocksCount_eq (t : BlockTable κ) (v : Version) :
    t.sparseBlocksCount v =
      ((List.range v.blocksCount).filter fun idx => (t.getBlockByIdx v idx).uid.isNone).length := by
  unfold sparseBlocksCount
  congr 1
  refine List.filter_congr fun idx _ => ?_
  have hmem := @mem_nonSparseIdxs _ t v idx
  cases huid : (t.getBlockByIdx v idx).uid with
  | none => simpa [huid] using hmem
  | some uid => simpa [huid] using hmem

end BlockTable

/-- What is written to the blocks of a version. -/
inductive BlockCall (κ : Type) where
  | createBlocks (blocks : List (Block κ))
  | setBlock (idx : ℕ) (blockUid : Option BlockUid) (checksum : Option κ) (size : ℕ) (valid : Bool)

namespace BlockCall
variable {v : Version} {t u : BlockTable κ}

/-- On the sparse table; `none` is the `IntegrityError`. -/
def run (v : Version) (t : BlockTable κ) : BlockCall κ → Option (BlockTable κ)
  | createBlocks blocks => t.createBlocks v blocks
  | setBlock idx blockUid checksum size valid =>
    some (t.setBlock v idx blockUid checksum size valid)

/-- On the dense array. -/
def apply (v : Version) (d : ℕ → Block κ) : BlockCall κ → ℕ → Block κ
  | createBlocks blocks =>
    blocks.foldl (fun d b => Function.update d b.idx { b with versionId := v.id }) d
  | setBlock idx blockUid checksum size valid =>
    Function.update d idx ⟨v.id, idx, blockUid, checksum, size, valid⟩

/-- A full block without a uid has no checksum and is valid. -/
def Canonical (v : Version) (b : Block κ) : Prop :=
  b.uid = none → b.size = v.blockSize → b.checksum = none ∧ b.valid = true

def Allowed (v : Version) (t : BlockTable κ) : BlockCall κ → Prop
  | createBlocks blocks => (blocks.map Block.idx).Nodup ∧
      ∀ b ∈ blocks, b.idx < v.blocksCount ∧ t.row? v b.idx = none ∧ Canonical v b
  | setBlock idx blockUid checksum size valid =>
    idx < v.blocksCount ∧ Canonical v ⟨v.id, idx, blockUid, checksum, size, valid⟩

def runAll (v : Version) (t : BlockTable κ) (calls : List (BlockCall κ)) :
    Option (BlockTable κ) := calls.foldlM (run v) t

def AllAllowed (v : Version) : BlockTable κ → List (BlockCall κ) → Prop
  | _, [] => True
  | t, call :: calls => call.Allowed v t ∧ ∀ u, call.run v t = some u → AllAllowed v u calls

section CreateBlocks
variable {blocks : List (Block κ)} {d : ℕ → Block κ} {j : ℕ}

theorem apply_createBlocks_cons {b : Block κ} :
    (createBlocks (b :: blocks)).apply v d = (createBlocks blocks).apply v
      (Function.update d b.idx { b with versionId := v.id }) := rfl

theorem apply_createBlocks_of_notMem (h : ∀ b ∈ blocks, b.idx ≠ j) :
    (createBlocks blocks).apply v d j = d j := by
  induction blocks generalizing d with
  | nil => rfl
  | cons b blocks ih =>
    rw [apply_createBlocks_cons, ih fun c hc => h c (List.mem_cons_of_mem _ hc)]
    exact Function.update_of_ne (h b List.mem_cons_self).symm _ _

theorem apply_createBlocks_of_mem (hn : (blocks.map Block.idx).Nodup) {b : Block κ}
    (hb : b ∈ blocks) : (createBlocks blocks).apply v d b.idx = { b with versionId := v.id } := by
  induction blocks generalizing d with
  | nil => cases hb
  | cons c blocks ih =>
    obtain ⟨hc, hn⟩ := List.nodup_cons.mp hn
    rw [apply_createBlocks_cons]
    cases List.mem_cons.mp hb with
    | inl heq =>
      subst heq
      rw [apply_createBlocks_of_notMem fun e he heq => hc (List.mem_map.mpr ⟨e, he, heq⟩)]
      exact Function.update_self ..
    | inr hb => exact ih hn hb

/-- The rows that `create_blocks` inserts. -/
def stored (v : Version) (blocks : List (Block κ)) : List (Block κ) :=
  (blocks.filter fun b => b.uid.isSome ∨ b.size ≠ v.blockSize).map
    fun b => { b with versionId := v.id }

theorem mem_stored {c : Block κ} : c ∈ stored v blocks ↔
    ∃ b ∈ blocks, (b.uid.isSome ∨ b.size ≠ v.blockSize) ∧ { b with versionId := v.id } = c := by
  unfold stored
  rw [List.mem_map]
  simp only [List.mem_filter, decide_eq_true_eq, and_assoc]

theorem createBlocks_isSome (h : (createBlocks blocks).Allowed v t) :
    ∃ u, t.createBlocks v blocks = some u := by
  obtain ⟨hn, hall⟩ := h
  refine Option.isSome_iff_exists.mp (Table.insertAll?_isSome.mpr ⟨?_, ?_⟩)
  · have hkeys : ((stored v blocks).map Block.key) =
        ((blocks.filter fun b => b.uid.isSome ∨ b.size ≠ v.blockSize).map Block.idx).map
          fun idx => (v.id, idx) := by
      unfold stored
      rw [List.map_map, List.map_map]
      rfl
    have hsub : ((blocks.filter fun b => b.uid.isSome ∨ b.size ≠ v.blockSize).map
        Block.idx).Nodup := hn.sublist (List.filter_sublist.map _)
    have hnodup : ((stored v blocks).map Block.key).Nodup := by
      rw [hkeys]
      exact hsub.map fun _ _ heq => (Prod.mk.inj heq).2
    exact hnodup
  · intro c hc
    obtain ⟨b, hb, -, rfl⟩ := mem_stored.mp hc
    exact (hall b hb).2.1

theorem row?_createBlocks_of_ne (hu : t.createBlocks v blocks = some u)
    (h : ∀ b ∈ blocks, (b.uid.isSome ∨ b.size ≠ v.blockSize) → b.idx ≠ j) :
    u.row? v j = t.row? v j := by
  refine Table.find?_insertAll?_of_notMem hu fun c hc heq => ?_
  obtain ⟨b, hb, hstored, rfl⟩ := mem_stored.mp hc
  exact h b hb hstored (Prod.mk.inj heq).2

theorem getBlockByIdx_createBlocks (h : (createBlocks blocks).Allowed v t)
    (hu : t.createBlocks v blocks = some u) (j : ℕ) :
    u.getBlockByIdx v j = (createBlocks blocks).apply v (t.getBlockByIdx v) j := by
  obtain ⟨hn, hall⟩ := h
  by_cases hj : ∃ b ∈ blocks, b.idx = j
  · obtain ⟨b, hb, rfl⟩ := hj
    rw [apply_createBlocks_of_mem hn hb]
    by_cases hstored : b.uid.isSome ∨ b.size ≠ v.blockSize
    · exact BlockTable.getBlockByIdx_of_row?
        (Table.find?_insertAll?_of_mem hu (mem_stored.mpr ⟨b, hb, hstored, rfl⟩))
    · have hrow : u.row? v b.idx = none := by
        rw [row?_createBlocks_of_ne hu]
        · exact (hall b hb).2.1
        · intro c hc hstored' heq
          rw [List.inj_on_of_nodup_map hn hc hb heq] at hstored'
          exact hstored hstored'
      rw [not_or, Bool.not_eq_true, Option.isSome_eq_false_iff, Option.isNone_iff_eq_none,
        not_not] at hstored
      obtain ⟨hchecksum, hvalid⟩ := (hall b hb).2.2 hstored.1 hstored.2
      rw [BlockTable.getBlockByIdx_of_none hrow]
      obtain ⟨versionId, idx, uid, checksum, size, valid⟩ := b
      dsimp only at hstored hchecksum hvalid ⊢
      rw [hstored.1, hstored.2, hchecksum, hvalid]
      rfl
  · have hne : ∀ b ∈ blocks, b.idx ≠ j := fun b hb heq => hj ⟨b, hb, heq⟩
    rw [apply_createBlocks_of_notMem hne]
    unfold BlockTable.getBlockByIdx
    rw [row?_createBlocks_of_ne hu fun b hb _ => hne b hb]

end CreateBlocks

theorem getBlockByIdx_setBlock {idx : ℕ} {blockUid : Option BlockUid} {checksum : Option κ}
    {size : ℕ} {valid : Bool}
    (h : Canonical v ⟨v.id, idx, blockUid, checksum, size, valid⟩) (j : ℕ) :
    (t.setBlock v idx blockUid checksum size valid).getBlockByIdx v j =
      (setBlock idx blockUid checksum size valid).apply v (t.getBlockByIdx v) j := by
  have happly : (setBlock idx blockUid checksum size valid).apply v (t.getBlockByIdx v) =
      Function.update (t.getBlockByIdx v) idx ⟨v.id, idx, blockUid, checksum, size, valid⟩ := rfl
  rw [happly]
  by_cases hj : j = idx
  · subst hj
    rw [Function.update_self]
    by_cases hs : blockUid = none ∧ size = v.blockSize
    · obtain ⟨rfl, rfl⟩ := hs
      obtain ⟨hchecksum, hvalid⟩ := h rfl rfl
      have hchecksum : checksum = none := hchecksum
      have hvalid : valid = true := hvalid
      rw [BlockTable.getBlockByIdx_setBlock_sparse, hchecksum, hvalid]
      rfl
    · exact BlockTable.getBlockByIdx_setBlock hs
  · rw [Function.update_of_ne hj]
    exact BlockTable.getBlockByIdx_setBlock_of_ne hj

/-- Each call does to the table what it does to the array. -/
theorem run_refines {call : BlockCall κ} (h : call.Allowed v t) :
    ∃ u, call.run v t = some u ∧ u.getBlockByIdx v = call.apply v (t.getBlockByIdx v) := by
  cases call with
  | createBlocks blocks =>
    obtain ⟨u, hu⟩ := createBlocks_isSome h
    exact ⟨u, hu, funext (getBlockByIdx_createBlocks h hu)⟩
  | setBlock idx blockUid checksum size valid =>
    exact ⟨_, rfl, funext (getBlockByIdx_setBlock h.2)⟩

theorem runAll_refines {calls : List (BlockCall κ)} (h : AllAllowed v t calls) :
    ∃ u, runAll v t calls = some u ∧
      u.getBlockByIdx v = calls.foldl (apply v) (t.getBlockByIdx v) := by
  induction calls generalizing t with
  | nil => exact ⟨t, rfl, rfl⟩
  | cons call calls ih =>
    obtain ⟨u, hu, heq⟩ := run_refines h.1
    obtain ⟨x, hx, heq'⟩ := ih (h.2 u hu)
    refine ⟨x, ?_, ?_⟩
    · unfold runAll at hx ⊢
      rw [List.foldlM_cons, hu]
      exact hx
    · rw [heq', heq]
      rfl

/-- The block table of a new version, whatever is written to it, reads as the array does. -/
theorem table_refines_array {perCall : ℕ} (hp : 1 ≤ perCall)
    (hnew : ∀ b ∈ t, b.versionId ≠ v.id) {calls : List (BlockCall κ)}
    (hcalls : AllAllowed v t calls) :
    ∃ u, runAll v t calls = some u ∧ ∃ d : ℕ → Block κ,
      d = calls.foldl (apply v) (createSparseBlock v) ∧
      (∀ windows > v.blocksCount, u.blocksWithin perCall v windows 0 =
        some ((List.range v.blocksCount).map d)) ∧
      (∀ idx, (d idx).idx = idx ∧ u.getBlockByIdx v idx = d idx) ∧
      u.sparseBlocksCount v =
        ((List.range v.blocksCount).filter fun idx => (d idx).uid.isNone).length ∧
      ∀ idx blockUid checksum size valid j, j ≠ idx →
        (u.setBlock v idx blockUid checksum size valid).getBlockByIdx v j = d j := by
  have hsparse : t.getBlockByIdx v = createSparseBlock v := by
    funext idx
    refine BlockTable.getBlockByIdx_of_none ?_
    rw [Option.eq_none_iff_forall_ne_some]
    intro b hrow
    obtain ⟨hmem, hv, -⟩ := BlockTable.row?_eq_some.mp hrow
    exact hnew b hmem hv
  obtain ⟨u, hu, heq⟩ := runAll_refines hcalls
  rw [hsparse] at heq
  refine ⟨u, hu, u.getBlockByIdx v, heq, ?_, ?_, ?_, ?_⟩
  · intro windows hw
    rw [BlockTable.blocksWithin_eq hp u v (Nat.zero_le _) (by omega),
      BlockTable.blocksFrom_eq hp u v windows 0 (Nat.zero_le _) (by omega), Nat.sub_zero,
      List.range_eq_range']
  · intro idx
    exact ⟨BlockTable.getBlockByIdx_idx u v idx, rfl⟩
  · exact BlockTable.sparseBlocksCount_eq u v
  · intro idx blockUid checksum size valid j hj
    exact BlockTable.getBlockByIdx_setBlock_of_ne hj

/-- Three blocks of two bytes, the last one shorter. -/
def shortTailVersion : Version := ⟨1, "V1", ⟨1, "file"⟩, 5, 2, .incomplete, none⟩

def shortTailCalls : List (BlockCall Unit) :=
  [createBlocks [⟨1, 0, some ⟨1, 1⟩, some (), 2, true⟩, ⟨1, 1, none, none, 2, true⟩],
    setBlock 2 none none 1 true, setBlock 0 none none 2 true]

theorem table_refines_array_example :
    ∃ u, runAll shortTailVersion .empty shortTailCalls = some u ∧
      u.blocksWithin 2 shortTailVersion 4 0 = some [⟨1, 0, none, none, 2, true⟩,
        ⟨1, 1, none, none, 2, true⟩, ⟨1, 2, none, none, 1, true⟩] := by
  have hcalls : AllAllowed shortTailVersion .empty shortTailCalls := by
    refine ⟨⟨by decide, ?_⟩, fun _ _ => ⟨⟨by decide, ?_⟩, fun _ _ => ⟨⟨by decide, ?_⟩,
      fun _ _ => trivial⟩⟩⟩
    · intro b hb
      rw [List.mem_pair] at hb
      cases hb with
      | inl h =>
        rw [h]
        exact ⟨by decide, rfl, fun huid => nomatch huid⟩
      | inr h =>
        rw [h]
        exact ⟨by decide, rfl, fun _ _ => ⟨rfl, rfl⟩⟩
    · exact fun _ _ => ⟨rfl, rfl⟩
    · exact fun _ _ => ⟨rfl, rfl⟩
  obtain ⟨u, hu, d, hd, hblocks, -⟩ := table_refines_array (show 1 ≤ 2 by decide)
    (fun b hb => absurd hb Table.not_mem_empty) hcalls
  refine ⟨u, hu, ?_⟩
  rw [hblocks 4 (by decide), hd]
  rfl

end BlockCall

end Benji
