import Benji.World

/-! Reading and writing block objects, for data that no transform changes, and what it means for
a row to agree with its object. -/
namespace Benji
open Lib

variable {κ : Type}

/-- `StorageBase._write`. -/
def writeObject (objects : Objects κ) (storage : ℕ) (b : Block κ) (data : Bytes) : Objects κ :=
  match b.uid with
  | some uid => objects.put storage uid (some
    ⟨data.length, .ok data, .decoded ⟨data.length, b.size, b.checksum⟩⟩)
  | none => objects

def BlockUid.toHex (uid : BlockUid) : String :=
  String.ofList (Nat.toDigits 16 uid.left) ++ "-" ++ String.ofList (Nat.toDigits 16 uid.right)

/-- `StorageBase._read` with the data; a missing or damaged object names the block. -/
def readObject (objects : Objects κ) (storage : ℕ) (b : Block κ) :
    Except Error (Bytes × Metadata κ) :=
  let uid := b.uid.getD ⟨0, 0⟩
  let invalid (message : String) : Except Error (Bytes × Metadata κ) :=
    .error (.invalidBlock message b.idx b.uid)
  match objects storage uid with
  | none => invalid s!"Object metadata or data of block {b.idx} (UID {uid.toHex}) not found."
  | some o => match o.metadata with
    | .missing =>
      invalid s!"Object metadata or data of block {b.idx} (UID {uid.toHex}) not found."
    | .invalid => invalid s!"Object metadata of block {b.idx} (UID {uid.toHex}) is invalid."
    | .decoded m =>
      if o.length ≠ m.objectSize then
        invalid s!"Object metadata of block {b.idx} (UID {uid.toHex}) is invalid."
      else if m.checksum = none then
        invalid (s!"Required object metadata key checksum is missing for block {b.idx} " ++
          s!"(UID {uid.toHex}).")
      else o.data.map fun data => (data, m)

/-- `check_block_metadata`; `none` when it finds nothing wrong. -/
def checkBlockMetadata [DecidableEq κ] (b : Block κ) (dataLength : Option ℕ) (m : Metadata κ) :
    Option Error :=
  let uid := b.uid.getD ⟨0, 0⟩
  if m.size ≠ b.size then some (.valueError
    ("Mismatch between recorded block size and data length in object metadata for block " ++
      s!"{b.idx} (UID {uid.toHex}). Expected: {b.size}, got: {m.size}."))
  else if ∃ n ∈ dataLength, n ≠ 0 ∧ n ≠ b.size then some (.valueError
    (s!"Mismatch between recorded block size and actual data length for block {b.idx} " ++
      s!"(UID {uid.toHex}). Expected: {b.size}, got: {dataLength.getD 0}."))
  else if b.checksum ≠ m.checksum then
    -- The message takes slices of both checksums.
    if b.checksum = none ∨ m.checksum = none then some .typeError
    else some (.valueError
      ("Mismatch between recorded block checksum and checksum in object metadata for block " ++
        s!"{b.idx} (UID {uid.toHex})."))
  else none

/-- The bytes a block stands for: those of its object, or zeros when it has no uid. -/
def blockData (objects : Objects κ) (storage : ℕ) (b : Block κ) : Option Bytes :=
  match b.uid with
  | none => some (zeros b.size)
  | some uid => (objects storage uid).bind fun o => o.data.toOption

/-- Uid, size and checksum of a row agree with the stored object. -/
def Intact (hash : Bytes → κ) (objects : Objects κ) (storage : ℕ) (b : Block κ) : Prop :=
  match b.uid with
  | none => b.checksum = none
  | some uid => ∃ o d, objects storage uid = some o ∧ o.data = .ok d ∧ d.length = b.size ∧
      b.checksum = some (hash d)

theorem blockData_of_uid_eq {objects : Objects κ} {storage : ℕ} {b c : Block κ}
    (hu : c.uid = b.uid) (hs : c.size = b.size) :
    blockData objects storage c = blockData objects storage b := by
  unfold blockData
  rw [hu, hs]

theorem blockData_of_object {objects : Objects κ} {storage : ℕ} {b : Block κ} {uid : BlockUid}
    {o : StoredObject κ} {d : Bytes} (hu : b.uid = some uid) (ho : objects storage uid = some o)
    (hd : o.data = .ok d) : blockData objects storage b = some d := by
  rw [blockData, hu]
  simp only [ho, Option.bind_some, hd, Except.toOption]

/-- What is read is the data of the block. -/
theorem blockData_of_readObject {objects : Objects κ} {storage : ℕ} {b : Block κ} {uid : BlockUid}
    {d : Bytes} {m : Metadata κ} (hu : b.uid = some uid)
    (h : Benji.readObject objects storage b = .ok (d, m)) :
    blockData objects storage b = some d := by
  unfold Benji.readObject at h
  simp only [hu, Option.getD_some] at h
  cases ho : objects storage uid with
  | none => simp [ho] at h
  | some o =>
    simp only [ho] at h
    split at h
    · simp at h
    · simp at h
    · split_ifs at h
      cases hd : o.data with
      | error e => simp [hd, Except.map] at h
      | ok data =>
        simp only [hd, Except.map, Except.ok.injEq, Prod.mk.injEq] at h
        exact blockData_of_object hu ho (h.1 ▸ hd)

/-- Only the uid of a block says which object is read. -/
theorem readObject_congr {objects : Objects κ} {storage : ℕ} {b c : Block κ}
    (hu : c.uid = b.uid) (hi : c.idx = b.idx) :
    Benji.readObject objects storage c = Benji.readObject objects storage b := by
  unfold Benji.readObject
  rw [hu, hi]

section Intact
variable {hash : Bytes → κ} {objects : Objects κ} {storage : ℕ} {b : Block κ}

/-- An intact block has its data; its length is known when it has an object. -/
theorem Intact.data (h : Intact hash objects storage b) :
    ∃ d, blockData objects storage b = some d ∧ d.length = b.size := by
  unfold Intact at h
  cases hu : b.uid with
  | none =>
    refine ⟨zeros b.size, ?_, length_zeros _⟩
    rw [blockData, hu]
  | some uid =>
    rw [hu] at h
    obtain ⟨o, d, ho, hd, hl, -⟩ := h
    exact ⟨d, blockData_of_object hu ho hd, hl⟩

/-- A row with a checksum has an object, and its bytes have that checksum. -/
theorem Intact.data_of_checksum {c : κ} (h : Intact hash objects storage b)
    (hc : b.checksum = some c) :
    ∃ d, blockData objects storage b = some d ∧ hash d = c := by
  unfold Intact at h
  cases hu : b.uid with
  | none =>
    rw [hu] at h
    simp [hc] at h
  | some uid =>
    rw [hu] at h
    obtain ⟨o, d, ho, hd, -, hk⟩ := h
    refine ⟨d, blockData_of_object hu ho hd, ?_⟩
    rw [hc] at hk
    exact (Option.some.inj hk).symm

private theorem put_of_uid_ne {uid u : BlockUid} {o : Option (StoredObject κ)}
    (hu : b.uid = some u) (h : b.uid ≠ some uid) :
    objects.put storage uid o storage u = objects storage u := by
  have hne : (storage, u) ≠ (storage, uid) := by
    intro he
    apply h
    rw [hu, (Prod.mk.inj he).2]
  exact Objects.put_of_ne hne

/-- An object that no row refers to may be written without touching any block. -/
theorem blockData_put {uid : BlockUid} {o : Option (StoredObject κ)} (h : b.uid ≠ some uid) :
    blockData (objects.put storage uid o) storage b = blockData objects storage b := by
  unfold blockData
  cases hu : b.uid with
  | none => rfl
  | some u => simp only [put_of_uid_ne hu h]

theorem Intact.put {uid : BlockUid} {o : Option (StoredObject κ)}
    (hi : Intact hash objects storage b) (h : b.uid ≠ some uid) :
    Intact hash (objects.put storage uid o) storage b := by
  unfold Intact at hi ⊢
  cases hu : b.uid with
  | none => simpa [hu] using hi
  | some u =>
    rw [hu] at hi
    simp only [put_of_uid_ne hu h]
    exact hi

end Intact

/-- The object of a block exists, its metadata agrees with the row, and its data has the row's
size and checksum. Blocks without uid have no object. -/
def Sound (hash : Bytes → κ) (objects : Objects κ) (storage : ℕ) (b : Block κ) : Prop :=
  ∀ uid, b.uid = some uid → ∃ o d m, objects storage uid = some o ∧ o.metadata = .decoded m ∧
    o.length = m.objectSize ∧ o.data = .ok d ∧ m.size = b.size ∧ m.checksum = b.checksum ∧
    d.length = b.size ∧ b.checksum = some (hash d)

theorem Sound.readObject {hash : Bytes → κ} {objects : Objects κ} {storage : ℕ} {b : Block κ}
    (h : Sound hash objects storage b) (hu : b.uid.isSome) :
    ∃ d m, Benji.readObject objects storage b = .ok (d, m) ∧
      blockData objects storage b = some d ∧ m.size = b.size ∧ m.checksum = b.checksum ∧
      d.length = b.size ∧ b.checksum = some (hash d) := by
  obtain ⟨uid, hu⟩ := Option.isSome_iff_exists.mp hu
  obtain ⟨o, d, m, ho, hm, hl, hd, hs, hc, hdl, hk⟩ := h uid hu
  refine ⟨d, m, ?_, blockData_of_object hu ho hd, hs, hc, hdl, hk⟩
  have hck : m.checksum ≠ none := by
    rw [hc, hk]
    simp
  simp only [Benji.readObject, hu, Option.getD_some, ho, hm, hl, ne_eq, not_true_eq_false,
    if_false, hck, hd, Except.map]

/-- Byte `i` of a version; zero behind its end. -/
def versionByte (w : World κ) (v : Version) (i : ℕ) : UInt8 :=
  if i < v.size then
    ((blockData w.objects v.storage.id
      (w.db.blocks.getBlockByIdx v (i / v.blockSize))).getD [])[i % v.blockSize]?.getD 0
  else 0

/-- Byte `j` of block `idx` is byte `idx * blockSize + j` of the version. -/
theorem versionByte_of_block {w : World κ} {v : Version} {idx j : ℕ}
    (hj : j < v.blockSizeAt idx) {d : Bytes}
    (hd : blockData w.objects v.storage.id (w.db.blocks.getBlockByIdx v idx) = some d) :
    versionByte w v (idx * v.blockSize + j) = d[j]?.getD 0 := by
  obtain ⟨hlt, hjb⟩ := Version.lt_size_of_lt_blockSizeAt hj
  have hdiv : (idx * v.blockSize + j) / v.blockSize = idx := by
    rw [Nat.mul_comm, Nat.mul_add_div (by omega), Nat.div_eq_of_lt hjb, Nat.add_zero]
  have hmod : (idx * v.blockSize + j) % v.blockSize = j := by
    rw [Nat.mul_comm, Nat.mul_add_mod, Nat.mod_eq_of_lt hjb]
  rw [versionByte, if_pos hlt, hdiv, hmod, hd, Option.getD_some]

end Benji
