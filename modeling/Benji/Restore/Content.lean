import Benji.Restore.Target

/-! What a restore leaves in the target file, and when it keeps to the bytes of the version. -/
namespace Benji
open Lib

variable {κ : Type}

namespace Restore
variable {v : Version} {R R' : Restore κ} {url : String} {force sparse : Bool}

/-- The file that `open_w` finds, or the one of zeros that it creates. -/
def openedFile (size : ℕ) : Option Bytes → Bytes
  | some file => file
  | none => zeros size

theorem openW_spec {size : ℕ} (h : (openW url size force).Returns R () R') :
    R' = { R with target := some (openedFile size R.target) } ∧
      size ≤ (openedFile size R.target).length := by
  unfold Proc.Returns openW at h
  cases ht : R.target with
  | some file =>
    simp only [ht] at h
    split_ifs at h with hf hlt
    · simp at h
    · simp at h
    · obtain rfl := (Prod.mk.inj (Option.some.inj h)).2
      exact ⟨by rw [openedFile, ← ht], not_lt.mp hlt⟩
  | none =>
    simp only [ht] at h
    split_ifs at h with h0
    · simp at h
    · obtain rfl := (Prod.mk.inj (Option.some.inj h)).2
      have hz : overwrite [] (size - 1) [0] = zeros size := by
        have hsize : size = size - 1 + 1 := by omega
        conv_rhs => rw [hsize, zeros_add]
        simp [overwrite, zeros]
      exact ⟨by rw [hz]; rfl, by simp [openedFile]⟩

theorem onWorld_spec {α : Type} {p : Action κ α} {a : α} (h : (onWorld p).Returns R a R') :
    ∃ w, p.Returns R.world a w ∧ R' = { R with world := w } := by
  obtain ⟨w, hp, rfl⟩ := Proc.returns_onPart.mp h
  exact ⟨w, hp, rfl⟩

theorem waitForAll_spec {reads : Bool} (h : (waitForAll reads).Returns R () R') :
    R = R' ∧ R.blocks = [] ∧ R.queued = [] ∧ R.written = [] ∧ (reads = true → R.reads = []) := by
  unfold Proc.Returns waitForAll at h
  split_ifs at h with hc
  · exact ⟨(Prod.mk.inj (Option.some.inj h)).2, hc⟩

/-- Every block's bytes are in place when the loops are through. -/
theorem restoreBlocks_spec [DecidableEq κ] {S : Settings κ} {sched : Schedule}
    (hp : 0 < S.blocksPerCall) (hb : 0 < v.blockSize) {opened : Bytes}
    (hopened : R.target = some opened) (hlen : v.size ≤ opened.length)
    (hempty : R.reads = [] ∧ R.queued = [])
    (hok : ∀ idx < v.blocksCount,
      Sound S.dataHexdigest R.world.objects v.storage.id (R.world.db.blocks.getBlockByIdx v idx))
    (hsize : ∀ idx < v.blocksCount,
      (R.world.db.blocks.getBlockByIdx v idx).size = v.blockSizeAt idx)
    (h : (restoreBlocks S v sparse sched).Returns R () R') :
    ∃ file, R'.target = some file ∧ TargetInv v (fun idx => putData v sparse R.world.objects
      (R.world.db.blocks.getBlockByIdx v idx)) opened [] file := by
  have hput : ∀ idx < v.blocksCount, (putData v sparse R.world.objects
      (R.world.db.blocks.getBlockByIdx v idx)).length ≤ v.blockSize := by
    intro idx hi
    unfold putData
    cases hu : (R.world.db.blocks.getBlockByIdx v idx).uid with
    | none =>
      cases sparse with
      | true => exact Nat.zero_le _
      | false => exact le_of_eq (length_zeros _)
    | some uid =>
      obtain ⟨d, m, -, hd, -, -, hdl, -⟩ := (hok idx hi).readObject (by simp [hu])
      simp only [hd, Option.getD_some]
      rw [hdl, hsize idx hi]
      exact v.blockSizeAt_le idx
  simp only [restoreBlocks, Proc.returns_bind, Proc.returns_modify, Proc.returns_get,
    Proc.returns_raiseIf] at h
  obtain ⟨_, R1, rfl, _, R2, h2, _, R3, h3, R4, _, ⟨rfl, rfl⟩, _, _, ⟨-, rfl⟩, _, R5, rfl, _, R6,
    h6, h7⟩ := h
  have hblocks : (R.world.db.blocks.blocks S.blocksPerCall v).map Block.idx =
      List.range v.blocksCount := by
    rw [BlockTable.blocks_eq hp, List.map_map]
    conv_rhs => rw [← List.map_id (List.range v.blocksCount)]
    apply List.map_congr_left
    intro i _
    exact BlockTable.getBlockByIdx_idx _ _ _
  have hpend : ({ R with blocks := R.world.db.blocks.blocks S.blocksPerCall v } :
      Restore κ).pending = List.range v.blocksCount := by
    rw [pending, hempty.1, hempty.2, hblocks]
    simp
  have hstart : Inv v sparse R.world.objects (fun idx => R.world.db.blocks.getBlockByIdx v idx)
      opened { R with blocks := R.world.db.blocks.blocks S.blocksPerCall v } := by
    refine ⟨rfl, ⟨opened, hopened, .start hlen ?_⟩, ?_, ?_, ?_, ?_⟩
    · intro idx hi
      rw [hpend]
      exact List.mem_range.mpr hi
    · rw [hpend]
      exact List.nodup_range
    · intro b hmem
      change b ∈ R.world.db.blocks.blocks S.blocksPerCall v at hmem
      rw [BlockTable.blocks_eq hp] at hmem
      obtain ⟨i, hi, rfl⟩ := List.mem_map.mp hmem
      rw [BlockTable.getBlockByIdx_idx]
      exact ⟨rfl, List.mem_range.mp hi⟩
    · rw [hempty.1]
      simp
    · rw [hempty.2]
      simp
  have hfirst := Proc.forEach_invariant h2 hstart fun _ hI hs => sparseStep_inv hb hput hI hs
  obtain ⟨rfl, -⟩ := waitForAll_spec h3
  have hmid : Inv v sparse R.world.objects (fun idx => R.world.db.blocks.getBlockByIdx v idx)
      opened { R2 with doneReadJobs := 0, writeJobs := 0, doneWriteJobs := 0 } :=
    hfirst.congr rfl rfl rfl rfl rfl
  have hlast := Proc.forEach_invariant h6 hmid fun _ hI hs => dataStep_inv hb hput hok hI hs
  obtain ⟨rfl, hnb, hnq, -, hnr⟩ := waitForAll_spec h7
  obtain ⟨file, hfile, htarget⟩ := hlast.target
  have hnil : R6.pending = [] := by
    rw [pending, hnb, hnr rfl, hnq]
    rfl
  rw [hnil] at htarget
  exact ⟨file, hfile, htarget⟩

section Bytes
variable {hash : Bytes → κ} {w : World κ} {opened file : Bytes} {i : ℕ}

/-- The bytes below the version's size are those of the version. -/
theorem getElem?_of_lt_size (hb : 0 < v.blockSize)
    (hok : ∀ idx < v.blocksCount,
      Sound hash w.objects v.storage.id (w.db.blocks.getBlockByIdx v idx))
    (hsize : ∀ idx < v.blocksCount, (w.db.blocks.getBlockByIdx v idx).size = v.blockSizeAt idx)
    (hsparse : sparse = true → opened = zeros v.size)
    (h : TargetInv v (fun idx => putData v sparse w.objects (w.db.blocks.getBlockByIdx v idx))
      opened [] file) (hi : i < v.size) : file[i]? = some (versionByte w v i) := by
  have hmod := Nat.div_add_mod' i v.blockSize
  have hjb := Nat.mod_lt i hb
  have hidx : i / v.blockSize < v.blocksCount := (Version.lt_blocksCount hb).mpr (by omega)
  have hj : i % v.blockSize < v.blockSizeAt (i / v.blockSize) := by
    rw [Version.blockSizeAt]
    omega
  have hbyte : ∀ {d}, blockData w.objects v.storage.id
      (w.db.blocks.getBlockByIdx v (i / v.blockSize)) = some d →
        versionByte w v i = d[i % v.blockSize]?.getD 0 := by
    intro d hd
    have hbd := versionByte_of_block hj hd
    rwa [hmod] at hbd
  rw [h.bytes i]
  unfold putData
  cases hu : (w.db.blocks.getBlockByIdx v (i / v.blockSize)).uid with
  | some uid =>
    obtain ⟨d, m, -, hd, -, -, hdl, -⟩ := (hok _ hidx).readObject (by simp [hu])
    rw [hsize _ hidx] at hdl
    simp only [hd, Option.getD_some, List.not_mem_nil, not_false_eq_true, true_and]
    rw [if_pos ⟨hidx, by omega⟩, hbyte hd, List.getElem?_eq_getElem (by omega), Option.getD_some]
  | none =>
    have hzero : versionByte w v i = 0 := by
      have hd : blockData w.objects v.storage.id
          (w.db.blocks.getBlockByIdx v (i / v.blockSize)) =
            some (zeros (v.blockSizeAt (i / v.blockSize))) := by
        rw [blockData, hu, ← hsize _ hidx]
      rw [hbyte hd, getElem?_zeros, if_pos hj, Option.getD_some]
    rw [hzero]
    cases sparse with
    | true =>
      simp only [if_true, List.length_nil, Nat.not_lt_zero, and_false, if_false]
      rw [hsparse rfl, getElem?_zeros, if_pos hi]
    | false =>
      simp only [Bool.false_eq_true, if_false, length_zeros, List.not_mem_nil, not_false_eq_true,
        true_and]
      rw [if_pos ⟨hidx, hjb⟩, getElem?_zeros, if_pos hjb]

/-- Behind the version's size only the zeros of a partial sparse block are written. -/
theorem getElem?_of_size_le (hb : 0 < v.blockSize)
    (hok : ∀ idx < v.blocksCount,
      Sound hash w.objects v.storage.id (w.db.blocks.getBlockByIdx v idx))
    (hsize : ∀ idx < v.blocksCount, (w.db.blocks.getBlockByIdx v idx).size = v.blockSizeAt idx)
    (h : TargetInv v (fun idx => putData v sparse w.objects (w.db.blocks.getBlockByIdx v idx))
      opened [] file) (hi : v.size ≤ i) :
    file[i]? = if i < v.blocksCount * v.blockSize ∧ sparse = false ∧
      (w.db.blocks.getBlockByIdx v (v.blocksCount - 1)).uid = none then some 0 else opened[i]? := by
  have hmod := Nat.div_add_mod' i v.blockSize
  have hjb := Nat.mod_lt i hb
  rw [h.bytes i]
  by_cases hidx : i / v.blockSize < v.blocksCount
  · have hin := (Version.lt_blocksCount hb).mp hidx
    have hlast : i / v.blockSize = v.blocksCount - 1 := by
      by_contra hne
      have hsucc : i / v.blockSize + 1 ≠ v.blocksCount := by
        intro he
        exact hne (by rw [← he, Nat.add_sub_cancel])
      have hnext := (Version.lt_blocksCount hb).mp (lt_of_le_of_ne hidx hsucc)
      rw [Nat.succ_eq_add_one, Nat.add_one_mul] at hnext
      omega
    have hin' : i < v.blocksCount * v.blockSize := (Nat.div_lt_iff_lt_mul hb).mp hidx
    have hj : v.blockSizeAt (i / v.blockSize) ≤ i % v.blockSize := by
      rw [Version.blockSizeAt]
      omega
    rw [← hlast]
    unfold putData
    cases hu : (w.db.blocks.getBlockByIdx v (i / v.blockSize)).uid with
    | some uid =>
      obtain ⟨d, m, -, hd, -, -, hdl, -⟩ := (hok _ hidx).readObject (by simp [hu])
      rw [hsize _ hidx] at hdl
      simp only [hd, Option.getD_some]
      rw [if_neg (by omega), if_neg (by simp)]
    | none =>
      cases sparse with
      | true => simp
      | false =>
        simp only [Bool.false_eq_true, if_false, length_zeros, List.not_mem_nil,
          not_false_eq_true, true_and]
        rw [if_pos ⟨hidx, hjb⟩, if_pos ⟨hin', trivial⟩, getElem?_zeros, if_pos hjb]
  · rw [if_neg (fun hx => hidx hx.1), if_neg]
    rintro ⟨hlt, -⟩
    exact hidx ((Nat.div_lt_iff_lt_mul hb).mpr hlt)

end Bytes
end Restore

/-- The writes of a restore end where the version ends: there is no partial block to be written
as zeros, or the target has these zeros already. -/
def KeepsTail (w : World κ) (v : Version) (sparse : Bool) (target : Option Bytes) : Prop :=
  sparse = true ∨ v.size % v.blockSize = 0 ∨
    (w.db.blocks.getBlockByIdx v (v.blocksCount - 1)).uid.isSome ∨
    ∀ i, v.size ≤ i → i < v.blocksCount * v.blockSize → (target.getD [])[i]? = some 0

theorem restore_spec [DecidableEq κ] {S : Settings κ} {versionUid url : String}
    {sparse force : Bool} {sched : Restore.Schedule} {v : Version} {w : World κ}
    {target : Option Bytes} {R' : Restore κ} (hp : 0 < S.blocksPerCall) (hb : 0 < v.blockSize)
    (hv : w.db.getByUid versionUid = some v)
    (hok : ∀ idx < v.blocksCount,
      Sound S.dataHexdigest w.objects v.storage.id (w.db.blocks.getBlockByIdx v idx))
    (hsize : ∀ idx < v.blocksCount, (w.db.blocks.getBlockByIdx v idx).size = v.blockSizeAt idx)
    (h : (restore S versionUid url sparse force sched).Returns
      { world := w, target := target } () R') :
    ∃ file, R'.target = some file ∧
      TargetInv v (fun idx => putData v sparse w.objects (w.db.blocks.getBlockByIdx v idx))
        (Restore.openedFile v.size target) [] file := by
  simp only [restore, Proc.returns_bind, Proc.returns_tryExcept, Proc.returns_tryFinally,
    Proc.returns_raise, Proc.returns_get, Proc.returns_raiseIf] at h
  obtain ⟨_, R1, h1, v', R2, hprep, _, R3, ⟨R4, hrun, hunlock⟩, _, R5, ⟨rfl, rfl⟩, _, R6, ⟨-, rfl⟩,
    -, rfl⟩ := h
  obtain ⟨w1, hlock, rfl⟩ := Restore.onWorld_spec h1
  have hup := World.UpToLocks.of_lockVersion hlock
  rcases hprep with hprep | ⟨e, x, -, _, y, -, hf⟩
  · simp only [Restore.prepare, Proc.returns_bind, Proc.returns_get, Proc.returns_ofOption,
      Proc.returns_pure] at hprep
    obtain ⟨_, _, ⟨rfl, rfl⟩, v'', _, ⟨hv', rfl⟩, _, R7, hopen, rfl, rfl⟩ := hprep
    have hsame : w1.db.getByUid versionUid = some v := by
      rw [Database.getByUid, hup.versions]
      exact hv
    obtain rfl : v = v'' := Option.some.inj (hsame.symm.trans hv')
    obtain ⟨rfl, hlen⟩ := Restore.openW_spec hopen
    obtain ⟨file, hfile, htarget⟩ := Restore.restoreBlocks_spec hp hb rfl hlen ⟨rfl, rfl⟩
      (by rw [hup.objects, hup.blocks]; exact hok) (by rw [hup.blocks]; exact hsize) hrun
    obtain ⟨w2, -, rfl⟩ := Restore.onWorld_spec hunlock
    refine ⟨file, hfile, ?_⟩
    have hobj : w1.objects = w.objects := hup.objects
    have hblk : w1.db.blocks = w.db.blocks := hup.blocks
    simp only [hobj, hblk] at htarget
    exact htarget
  · exact absurd hf id

theorem restore_iff [DecidableEq κ] {S : Settings κ} {versionUid url : String}
    {sparse force : Bool} {sched : Restore.Schedule} {v : Version} {w : World κ}
    {target : Option Bytes} {R' : Restore κ} (hp : 0 < S.blocksPerCall) (hb : 0 < v.blockSize)
    (hv : w.db.getByUid versionUid = some v)
    (hok : ∀ idx < v.blocksCount,
      Sound S.dataHexdigest w.objects v.storage.id (w.db.blocks.getBlockByIdx v idx))
    (hsize : ∀ idx < v.blocksCount, (w.db.blocks.getBlockByIdx v idx).size = v.blockSizeAt idx)
    (hfresh : sparse = true → target = none)
    (h : (restore S versionUid url sparse force sched).Returns
      { world := w, target := target } () R') :
    ∃ file, R'.target = some file ∧
      (((∀ i < v.size, file[i]? = some (versionByte w v i)) ∧
        ∀ i, v.size ≤ i → file[i]? = (target.getD [])[i]?) ↔ KeepsTail w v sparse target) := by
  obtain ⟨file, hfile, htarget⟩ := restore_spec hp hb hv hok hsize h
  refine ⟨file, hfile, ?_⟩
  have hinside : ∀ i < v.size, file[i]? = some (versionByte w v i) := by
    intro i hi
    refine Restore.getElem?_of_lt_size hb hok hsize ?_ htarget hi
    intro hs
    rw [hfresh hs]
    rfl
  have hopened : ∀ i, v.size ≤ i →
      (Restore.openedFile v.size target)[i]? = (target.getD [])[i]? := by
    intro i hi
    cases target with
    | some file => rfl
    | none =>
      rw [Restore.openedFile, getElem?_zeros, if_neg (not_lt.mpr hi)]
      rfl
  have htail := fun i hi => Restore.getElem?_of_size_le (i := i) hb hok hsize htarget hi
  constructor
  · rintro ⟨-, hframe⟩
    by_cases hs : sparse = true
    · exact .inl hs
    refine .inr ?_
    by_cases hdvd : v.size % v.blockSize = 0
    · exact .inl hdvd
    refine .inr ?_
    cases hu : (w.db.blocks.getBlockByIdx v (v.blocksCount - 1)).uid with
    | some uid => exact .inl rfl
    | none =>
      refine .inr ?_
      intro i hi hlt
      rw [← hframe i hi, htail i hi, if_pos ⟨hlt, by simpa using hs, hu⟩]
  · intro hkeeps
    refine ⟨hinside, ?_⟩
    intro i hi
    rw [htail i hi, ← hopened i hi]
    split_ifs with hc
    · obtain ⟨hlt, hs, hu⟩ := hc
      rcases hkeeps with hk | hk | hk | hk
      · rw [hs] at hk
        exact Bool.noConfusion hk
      · obtain ⟨c, hc⟩ := Nat.dvd_of_mod_eq_zero hk
        have hcount : v.blocksCount = c := by
          rw [Version.blocksCount, hc, Nat.ceilDiv_eq_add_pred_div]
          rw [Nat.add_sub_assoc hb, Nat.mul_add_div hb, Nat.div_eq_of_lt (by omega), Nat.add_zero]
        rw [hcount, Nat.mul_comm, ← hc] at hlt
        omega
      · simp [hu] at hk
      · rw [hopened i hi]
        exact (hk i hi hlt).symm
    · rfl

section Example

def sparseTailSettings : Settings Bytes := ⟨⟨"host", "1"⟩, 2, id, 3, 2⟩

/-- Three bytes in blocks of two: the second block is partial and sparse. -/
def sparseTailVersion : Version := ⟨4, "v4", ⟨1, "file"⟩, 3, 2, .valid, none⟩

def sparseTailDatabase : Database Bytes where
  versions := ⟨[sparseTailVersion], by decide⟩
  blocks := ⟨[⟨4, 0, some ⟨4, 1⟩, some [1, 2], 2, true⟩, ⟨4, 1, none, none, 1, true⟩], by decide⟩
  deletedBlocks := .empty
  locks := .empty

def sparseTailWorld : World Bytes where
  db := sparseTailDatabase
  committed := sparseTailDatabase
  objects := fun storage uid =>
    if storage = 1 ∧ uid = ⟨4, 1⟩ then some ⟨2, .ok [1, 2], .decoded ⟨2, 2, some [1, 2]⟩⟩ else none
  versionObjects := fun _ _ => none

def sparseTailSchedule : Restore.Schedule where
  sparseEvents := [.next, .next, .write 1, .collect 1]
  dataEvents := [.read 0, .write 0, .collect 0]

/-- A target that is longer than the version and has other content. -/
def usedTarget : Bytes := [9, 9, 9, 9, 9]

theorem sparseTail_sound : ∀ idx < sparseTailVersion.blocksCount,
    Sound sparseTailSettings.dataHexdigest sparseTailWorld.objects sparseTailVersion.storage.id
      (sparseTailWorld.db.blocks.getBlockByIdx sparseTailVersion idx) := by
  intro idx hi uid hu
  have hcount : sparseTailVersion.blocksCount = 2 := by decide
  rw [hcount] at hi
  have hidx : idx = 0 ∨ idx = 1 := by omega
  obtain rfl | rfl := hidx
  · obtain rfl : (⟨4, 1⟩ : BlockUid) = uid := Option.some.inj hu
    exact ⟨_, _, _, rfl, rfl, rfl, rfl, rfl, rfl, rfl, rfl⟩
  · have hnone : (sparseTailWorld.db.blocks.getBlockByIdx sparseTailVersion 1).uid = none := by
      decide
    rw [hnone] at hu
    cases hu

theorem sparseTail_sizes : ∀ idx < sparseTailVersion.blocksCount,
    (sparseTailWorld.db.blocks.getBlockByIdx sparseTailVersion idx).size =
      sparseTailVersion.blockSizeAt idx := by
  decide

/-- The byte behind the version's end is overwritten with a zero. -/
theorem restore_overwrites_tail : ∃ R' file,
    (restore sparseTailSettings "v4" "file:/target" false true sparseTailSchedule).Returns
      { world := sparseTailWorld, target := some usedTarget } () R' ∧
    R'.target = some file ∧ sparseTailVersion.size = 3 ∧ file[3]? = some 0 ∧
    usedTarget[3]? = some 9 := by
  obtain ⟨_, R', h, hf⟩ := Proc.returns_of_outcome
    (f := fun _ R' => R'.target = some [1, 2, 0, 0, 9])
    (p := restore sparseTailSettings "v4" "file:/target" false true sparseTailSchedule)
    (s := { world := sparseTailWorld, target := some usedTarget }) (by decide +kernel)
  exact ⟨R', [1, 2, 0, 0, 9], h, of_decide_eq_true hf, rfl, rfl, rfl⟩

theorem restore_example : ∃ R' file,
    (restore sparseTailSettings "v4" "file:/target" true false
        { sparseTailSchedule with sparseEvents := [.next, .next] }).Returns
      { world := sparseTailWorld, target := none } () R' ∧ R'.target = some file ∧
    (((∀ i < sparseTailVersion.size,
        file[i]? = some (versionByte sparseTailWorld sparseTailVersion i)) ∧
      ∀ i, sparseTailVersion.size ≤ i → file[i]? = (Option.getD none ([] : Bytes))[i]?) ↔
        KeepsTail sparseTailWorld sparseTailVersion true none) := by
  obtain ⟨_, R', h, -⟩ := Proc.returns_of_outcome (f := fun _ _ => true)
    (p := restore sparseTailSettings "v4" "file:/target" true false
      { sparseTailSchedule with sparseEvents := [.next, .next] })
    (s := { world := sparseTailWorld, target := none }) (by decide +kernel)
  obtain ⟨file, hfile, hiff⟩ := restore_iff (by decide) (by decide) rfl sparseTail_sound
    sparseTail_sizes (fun _ => rfl) h
  exact ⟨R', file, h, hfile, hiff⟩

end Example

end Benji
