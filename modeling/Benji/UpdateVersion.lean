import Benji.World

/-! `Benji.update_version`: the rows a version starts its backup with, cloned from a base
version where there is one, with blocks whose size changed marked for reading. -/
namespace Benji
open Lib

variable {κ : Type}

/-- The settings of a server process and the two work package constants. -/
structure Settings (κ : Type) where
  me : Process
  blockSize : ℕ
  dataHexdigest : Bytes → κ
  blocksPerCall : ℕ
  blocksCreateWorkPackage : ℕ

namespace Database

def getByUid (db : Database κ) (versionUid : String) : Option Version :=
  db.versions.rows.find? fun w => w.uid = versionUid

/-- `version.size = ..; version.block_size = ..` on the row of version `id`. -/
def setSize (db : Database κ) (id size blockSize : ℕ) : Database κ :=
  { db with versions := mapVersions db.versions (fun w => w.id = id)
                          (fun w => { w with size := size, blockSize := blockSize })
                          fun _ => rfl }

theorem getByUid_spec {db : Database κ} {versionUid : String} {v : Version}
    (h : db.getByUid versionUid = some v) : v ∈ db.versions ∧ v.uid = versionUid :=
  ⟨List.mem_of_find?_eq_some h, by simpa using List.find?_some h⟩

theorem of_mem_setSize {db : Database κ} {id size blockSize : ℕ} {w : Version}
    (h : w ∈ (db.setSize id size blockSize).versions) :
    ∃ v ∈ db.versions, v.id = w.id ∧ v.status = w.status := by
  simp only [setSize, mapVersions, Table.mem_update] at h
  obtain ⟨v, hv, rfl⟩ := h
  refine ⟨v, hv, ?_⟩
  split
  · exact ⟨rfl, rfl⟩
  · exact ⟨rfl, rfl⟩

theorem inStorage_setSize {db db' : Database κ} {id size blockSize storage : ℕ}
    (h : db'.versions = (db.setSize id size blockSize).versions) (b : Block κ) :
    db'.inStorage storage b = db.inStorage storage b := by
  refine inStorage_mapVersions ?_ ?_ h
  · exact fun _ => rfl
  · exact fun _ => rfl

theorem find?_setSize {db : Database κ} {v : Version} {size blockSize : ℕ}
    (h : db.versions.find? v.id = some v) :
    (db.setSize v.id size blockSize).versions.find? v.id =
      some { v with size := size, blockSize := blockSize } := by
  rw [setSize, mapVersions, Table.find?_update, h, Option.map_some, if_pos rfl]

theorem getByUid_setSize {db : Database κ} {id size blockSize : ℕ} {versionUid : String} :
    (db.setSize id size blockSize).getByUid versionUid = (db.getByUid versionUid).map fun w =>
      if w.id = id then { w with size := size, blockSize := blockSize } else w := by
  unfold getByUid setSize mapVersions Table.update
  rw [List.find?_map]
  congr 2
  funext w
  simp only [Function.comp_apply]
  split <;> rfl

end Database

/-- A block whose size changed between the base version and the new version. -/
def resizedBlock (version : Version) (idx : ℕ) (b : Block κ) : Block κ :=
  if b.size ≠ min version.blockSize (version.size - idx * version.blockSize) then
    { b with
      size := min version.blockSize (version.size - idx * version.blockSize)
      uid := none
      checksum := none
      -- Forces reread.
      valid := false }
  else b

/-- The row prepared for block `idx` from the base's block, if the base still has one. -/
def clonedBlock (version : Version) (idx : ℕ) : Option (Block κ) → Block κ
  | some old => resizedBlock version idx { old with versionId := version.id, idx := idx }
  | none => resizedBlock version idx (createSparseBlock version idx)

@[simp] theorem resizedBlock_idx (version : Version) (idx : ℕ) (b : Block κ) :
    (resizedBlock version idx b).idx = b.idx := by
  unfold resizedBlock
  split <;> rfl

@[simp] theorem resizedBlock_versionId (version : Version) (idx : ℕ) (b : Block κ) :
    (resizedBlock version idx b).versionId = b.versionId := by
  unfold resizedBlock
  split <;> rfl

theorem resizedBlock_size (version : Version) (idx : ℕ) (b : Block κ) :
    (resizedBlock version idx b).size = version.blockSizeAt idx := by
  unfold resizedBlock Version.blockSizeAt
  split_ifs with h
  · rfl
  · exact not_not.mp h

@[simp] theorem clonedBlock_idx (version : Version) (idx : ℕ) (oldBlock : Option (Block κ)) :
    (clonedBlock version idx oldBlock).idx = idx := by
  cases oldBlock <;> simp [clonedBlock]

@[simp] theorem clonedBlock_versionId (version : Version) (idx : ℕ)
    (oldBlock : Option (Block κ)) : (clonedBlock version idx oldBlock).versionId = version.id := by
  cases oldBlock <;> simp [clonedBlock, createSparseBlock]

theorem clonedBlock_size (version : Version) (idx : ℕ) (oldBlock : Option (Block κ)) :
    (clonedBlock version idx oldBlock).size = version.blockSizeAt idx := by
  cases oldBlock <;> exact resizedBlock_size version idx _

/-- A base block that fits is cloned field by field. -/
theorem clonedBlock_of_size_eq {version : Version} {idx : ℕ} {old : Block κ}
    (h : old.size = version.blockSizeAt idx) : clonedBlock version idx (some old) =
      ⟨version.id, idx, old.uid, old.checksum, old.size, old.valid⟩ :=
  if_neg (not_not.mpr h)

/-- A base block that changed its size is to be read again, if its row is kept at all. -/
theorem clonedBlock_of_size_ne {version : Version} {idx : ℕ} {old : Block κ}
    (h : old.size ≠ version.blockSizeAt idx) : clonedBlock version idx (some old) =
      ⟨version.id, idx, none, none, version.blockSizeAt idx, false⟩ :=
  if_pos h

theorem clonedBlock_none_of_eq {version : Version} {idx : ℕ}
    (h : version.blockSize = version.blockSizeAt idx) :
    clonedBlock (κ := κ) version idx none = createSparseBlock version idx :=
  if_neg (not_not.mpr h)

theorem clonedBlock_none_of_ne {version : Version} {idx : ℕ}
    (h : version.blockSize ≠ version.blockSizeAt idx) :
    clonedBlock (κ := κ) version idx none =
      ⟨version.id, idx, none, none, version.blockSizeAt idx, false⟩ :=
  if_pos h

def clonedBlocks (version : Version) (oldBlocks : List (Block κ)) : List (Block κ) :=
  (List.range version.blocksCount).map fun idx => clonedBlock version idx oldBlocks[idx]?

def createBlocks (version : Version) (blocks : List (Block κ)) (due : Bool) :
    Action κ Unit := fun w =>
  match w.db.blocks.createBlocks version blocks with
  | none => Locking.rollbackAndRaise .integrityError w
  | some t => Proc.modify (fun w => (w.setBlocks t).timedCommit due) w

/-- The loop over the block indexes, with the rows not yet handed to `create_blocks`. -/
def prepareBlocks (S : Settings κ) (version : Version) (due : ℕ → Bool) :
    List ℕ → List (Block κ) → List (Block κ) → Action κ Unit
  | [], _, blocks => createBlocks version blocks (due version.blocksCount)
  | idx :: rest, oldBlocks, blocks => do
    Proc.raiseIf (∃ old ∈ oldBlocks.head?, old.idx ≠ idx) .assertionError
    let blocks := blocks ++ [clonedBlock version idx oldBlocks.head?]
    if blocks.length = S.blocksCreateWorkPackage then
      createBlocks version blocks (due idx)
      prepareBlocks S version due rest oldBlocks.tail []
    else prepareBlocks S version due rest oldBlocks.tail blocks

def unlockIfLocked (me : Process) (versionUid : String) : Action κ Unit := fun w =>
  if Locking.isVersionLocked versionUid w then Locking.unlockVersion me versionUid w
  else Proc.modify id w

/-- The checks on the base version, and the size and block size the new version gets. -/
def checkBase (version : Version) (blockSize size : Option ℕ) (baseVersionLocking : Bool) :
    Option String → Action κ (ℕ × ℕ)
  | none => do
    let newSize ← Proc.ofOption size
      (.internalError "Size needs to be specified if there is no base version.")
    let newBlockSize ← Proc.ofOption blockSize
      (.internalError "Block size needs to be specified if there is no base version.")
    pure (newSize, newBlockSize)
  | some baseVersionUid => do
    let w ← Proc.get
    Proc.raiseIf (baseVersionLocking = false ∧ Locking.isVersionLocked baseVersionUid w = false)
      (.internalError "Base version is not locked.")
    let oldVersion ← Proc.ofOption (w.db.getByUid baseVersionUid)
      (.keyError s!"Version {baseVersionUid} not found.")
    Proc.raiseIf (¬ oldVersion.status.isValid)
      (.usageError "You can only base a new version on a valid old version.")
    Proc.raiseIf (∃ n ∈ blockSize, oldVersion.blockSize ≠ n)
      (.usageError "You cannot base a new version on an old version with a different block size.")
    Proc.raiseIf (oldVersion.storage ≠ version.storage)
      (.usageError ("Base version and new version have to be in the same storage" ++
        s!" ({oldVersion.storage.name} != {version.storage.name})."))
    pure (size.getD oldVersion.size, oldVersion.blockSize)

def oldBlocks (S : Settings κ) (db : Database κ) : Option String → List (Block κ)
  | none => []
  | some baseVersionUid =>
    match db.getByUid baseVersionUid with
    | some base => db.blocks.blocks S.blocksPerCall base
    | none => []

def lockBase (me : Process) : Bool → Option String → Action κ Unit
  | true, some baseVersionUid => Locking.lockVersion me baseVersionUid "Base version cloning"
  | _, _ => pure ()

def unlockBase (me : Process) : Bool → Option String → Action κ Unit
  | true, some baseVersionUid => unlockIfLocked me baseVersionUid
  | _, _ => pure ()

/-- The body of the `try`, with the new size and block size already set. -/
def cloneBase (S : Settings κ) (version : Version) (baseVersionUid : Option String)
    (baseVersionLocking : Bool) (due : ℕ → Bool) : Action κ Unit := do
  lockBase S.me baseVersionLocking baseVersionUid
  Locking.lockVersion S.me version.uid "Preparing version"
  let w ← Proc.get
  prepareBlocks S version due (List.range version.blocksCount)
    (oldBlocks S w.db baseVersionUid) []
  Proc.modify World.commit

/-- `due` tells at which calls of `create_blocks` the commit interval has run out. -/
def updateVersion (S : Settings κ) (version : Version) (blockSize size : Option ℕ)
    (baseVersionUid : Option String) (baseVersionLocking : Bool) (due : ℕ → Bool) :
    Action κ Version := do
  let sizes ← checkBase version blockSize size baseVersionLocking baseVersionUid
  Proc.modify fun w => w.mapDb fun db => db.setSize version.id sizes.1 sizes.2
  Proc.tryFinally
    (Proc.tryExcept
      (cloneBase S { version with size := sizes.1, blockSize := sizes.2 } baseVersionUid
        baseVersionLocking due)
      fun e => do
        unlockIfLocked S.me version.uid
        Proc.raise e)
    (unlockBase S.me baseVersionLocking baseVersionUid)
  pure { version with size := sizes.1, blockSize := sizes.2 }

section Spec
variable {S : Settings κ} {version : Version} {w u : World κ} {due : ℕ → Bool}

theorem returns_createBlocks {blocks : List (Block κ)} {b : Bool} :
    (createBlocks version blocks b).Returns w () u ↔
      ∃ t, w.db.blocks.createBlocks version blocks = some t ∧
        (w.setBlocks t).timedCommit b = u := by
  have hr := Locking.returns_rollbackAndRaise (w := w) (u := u) (a := ()) (e := .integrityError)
  unfold Proc.Returns at hr ⊢
  unfold createBlocks
  cases w.db.blocks.createBlocks version blocks with
  | none => simp [hr]
  | some t => simp [Proc.modify]

/-- The rows the loop prepares from index `start` on. -/
private def clonedFrom (version : Version) (start n : ℕ) (old : List (Block κ)) :
    List (Block κ) :=
  (List.range' start n).map fun idx => clonedBlock version idx old[idx - start]?

private theorem clonedFrom_succ (version : Version) (start n : ℕ) (old : List (Block κ)) :
    clonedFrom version start (n + 1) old =
      clonedBlock version start old.head? :: clonedFrom version (start + 1) n old.tail := by
  unfold clonedFrom
  rw [List.range'_succ, List.map_cons, Nat.sub_self, List.head?_eq_getElem?]
  congr 1
  apply List.map_congr_left
  intro idx hidx
  have hle := (List.mem_range'_1.mp hidx).1
  have he : idx - start = idx - (start + 1) + 1 := by omega
  rw [he, List.getElem?_tail]

/-- However the rows are packaged, one `create_blocks` of all of them has the same effect. -/
theorem prepareBlocks_spec {start n : ℕ} {old pending : List (Block κ)}
    (h : (prepareBlocks S version due (List.range' start n) old pending).Returns w () u) :
    ∃ t, w.db.blocks.createBlocks version (pending ++ clonedFrom version start n old) = some t ∧
      (w.setBlocks t).UpToLocks u := by
  induction n generalizing start w old pending with
  | zero =>
    obtain ⟨t, ht, rfl⟩ := returns_createBlocks.mp h
    refine ⟨t, ?_, .of_timedCommit _ _⟩
    rw [clonedFrom, List.range'_zero, List.map_nil, List.append_nil]
    exact ht
  | succ n ih =>
    rw [List.range'_succ, prepareBlocks] at h
    obtain ⟨_, w', h1, h⟩ := Proc.returns_bind.mp h
    obtain ⟨-, rfl⟩ := Proc.returns_raiseIf.mp h1
    rw [clonedFrom_succ, ← List.singleton_append, ← List.append_assoc]
    dsimp only at h
    split at h
    · obtain ⟨_, x, hx, h⟩ := Proc.returns_bind.mp h
      obtain ⟨t, ht, rfl⟩ := returns_createBlocks.mp hx
      obtain ⟨t', ht', hu⟩ := ih h
      rw [World.timedCommit_db] at ht'
      exact ⟨t', BlockTable.createBlocks_append.mpr ⟨t, ht, ht'⟩,
        (World.UpToLocks.setBlocks_timedCommit _ _ _ _).trans hu⟩
    · exact ih h

private theorem clonedFrom_zero (version : Version) (old : List (Block κ)) :
    clonedFrom version 0 version.blocksCount old = clonedBlocks version old := by
  rw [clonedFrom, clonedBlocks, List.range_eq_range']
  rfl

theorem unlockIfLocked_spec {versionUid : String}
    (h : (unlockIfLocked S.me versionUid).Returns w () u) : w.UpToLocks u := by
  unfold Proc.Returns unlockIfLocked at h
  split at h
  · exact .of_unlockVersion h
  · obtain rfl := Proc.returns_modify.mp h
    exact .refl w

theorem lockBase_spec {locking : Bool} {base : Option String}
    (h : (lockBase S.me locking base).Returns w () u) : w.UpToLocks u := by
  unfold lockBase at h
  split at h
  · exact .of_lockVersion h
  · obtain ⟨-, rfl⟩ := Proc.returns_pure.mp h
    exact .refl w

theorem unlockBase_spec {locking : Bool} {base : Option String}
    (h : (unlockBase S.me locking base).Returns w () u) : w.UpToLocks u := by
  unfold unlockBase at h
  split at h
  · exact unlockIfLocked_spec h
  · obtain ⟨-, rfl⟩ := Proc.returns_pure.mp h
    exact .refl w

theorem returns_checkBase_none {blockSize size : Option ℕ} {locking : Bool} {r : ℕ × ℕ} :
    (checkBase version blockSize size locking none).Returns w r u ↔
      size = some r.1 ∧ blockSize = some r.2 ∧ w = u := by
  obtain ⟨n, m⟩ := r
  simp only [checkBase, Proc.returns_bind, Proc.returns_ofOption, Proc.returns_pure,
    Prod.mk.injEq]
  constructor
  · rintro ⟨_, _, ⟨h1, rfl⟩, _, _, ⟨h2, rfl⟩, ⟨rfl, rfl⟩, rfl⟩
    exact ⟨h1, h2, rfl⟩
  · rintro ⟨h1, h2, rfl⟩
    exact ⟨n, w, ⟨h1, rfl⟩, m, w, ⟨h2, rfl⟩, ⟨rfl, rfl⟩, rfl⟩

/-- A base version is valid, in the same storage, and fixes the block size. -/
theorem returns_checkBase_some {blockSize size : Option ℕ} {locking : Bool}
    {baseVersionUid : String} {r : ℕ × ℕ}
    (h : (checkBase version blockSize size locking (some baseVersionUid)).Returns w r u) :
    w = u ∧ ∃ base, w.db.getByUid baseVersionUid = some base ∧ base.status = .valid ∧
      base.storage = version.storage ∧ (∀ n ∈ blockSize, base.blockSize = n) ∧
      r = (size.getD base.size, base.blockSize) := by
  simp only [checkBase, Proc.returns_bind, Proc.returns_get, Proc.returns_raiseIf,
    Proc.returns_ofOption, Proc.returns_pure] at h
  obtain ⟨_, _, ⟨rfl, rfl⟩, _, _, ⟨-, rfl⟩, base, _, ⟨hb, rfl⟩, _, _, ⟨hv, rfl⟩, _, _, ⟨hn, rfl⟩,
    _, _, ⟨hs, rfl⟩, hr, rfl⟩ := h
  refine ⟨rfl, base, hb, ?_, not_not.mp hs, ?_, hr.symm⟩
  · simpa [VersionStatus.isValid] using hv
  · intro n hmem
    by_contra hne
    exact hn ⟨n, hmem, hne⟩

theorem oldBlocks_congr (hv : u.db.versions = w.db.versions) (hb : u.db.blocks = w.db.blocks)
    (base : Option String) : oldBlocks S u.db base = oldBlocks S w.db base := by
  cases base with
  | none => rfl
  | some baseVersionUid => rw [oldBlocks, oldBlocks, Database.getByUid, Database.getByUid, hv, hb]

theorem cloneBase_spec {base : Option String} {locking : Bool}
    (h : (cloneBase S version base locking due).Returns w () u) :
    (locking = true → base ≠ some version.uid) ∧
    ∃ t, w.db.blocks.createBlocks version (clonedBlocks version (oldBlocks S w.db base)) = some t ∧
      (w.setBlocks t).UpToLocks u := by
  simp only [cloneBase, Proc.returns_bind, Proc.returns_get, Proc.returns_modify] at h
  obtain ⟨_, w1, h1, _, w2, h2, _, w3, ⟨rfl, rfl⟩, _, w4, h4, rfl⟩ := h
  have hlock := (lockBase_spec h1).trans (.of_lockVersion h2)
  rw [List.range_eq_range'] at h4
  obtain ⟨t, ht, hu⟩ := prepareBlocks_spec h4
  rw [List.nil_append, clonedFrom_zero, oldBlocks_congr hlock.versions hlock.blocks,
    hlock.blocks] at ht
  refine ⟨?_, t, ht, ?_⟩
  · -- The base version is locked first, so the version cannot be its own base.
    rintro rfl rfl
    obtain ⟨-, -, rfl⟩ := Locking.returns_lock.mp h1
    have hheld := (Locking.returns_lock.mp h2).1
    rw [Locking.heldBy_putLock] at hheld
    exact Bool.noConfusion hheld
  have hset : (w.setBlocks t).UpToLocks (w2.setBlocks t) :=
    ⟨hlock.versions, rfl, hlock.deletedBlocks, hlock.objects, hlock.versionObjects⟩
  exact (hset.trans hu).trans (.of_commit _)

/-- What a returning `update_version` has done: the checks passed, and the cloned rows are in
the table. -/
theorem updateVersion_spec {blockSize size : Option ℕ} {base : Option String} {locking : Bool}
    {v' : Version}
    (h : (updateVersion S version blockSize size base locking due).Returns w v' u) :
    ∃ n m t, (checkBase version blockSize size locking base).Returns w (n, m) w ∧
      v' = { version with size := n, blockSize := m } ∧
      (locking = true → base ≠ some version.uid) ∧
      w.db.blocks.createBlocks v'
        (clonedBlocks v' (oldBlocks S (w.db.setSize version.id n m) base)) = some t ∧
      ((w.mapDb fun db => db.setSize version.id n m).setBlocks t).UpToLocks u := by
  simp only [updateVersion, Proc.returns_bind, Proc.returns_modify, Proc.returns_pure,
    Proc.returns_tryFinally, Proc.returns_tryExcept, Proc.returns_raise] at h
  obtain ⟨⟨n, m⟩, w0, hc, _, w1, rfl, _, w2, ⟨w3, hbody, hfin⟩, rfl, rfl⟩ := h
  obtain rfl : w = w0 := by
    cases base with
    | none => exact (returns_checkBase_none.mp hc).2.2
    | some baseVersionUid => exact (returns_checkBase_some hc).1
  rcases hbody with hbody | ⟨e, x, -, _, y, -, hf⟩
  · obtain ⟨hne, t, ht, hu⟩ := cloneBase_spec hbody
    exact ⟨n, m, t, hc, rfl, hne, ht, hu.trans (unlockBase_spec hfin)⟩
  · exact absurd hf id

end Spec

end Benji
