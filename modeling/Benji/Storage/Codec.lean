import Benji.InputValidation
import Benji.Storage.DictHmac
import Benji.Storage.Keys

/-! The object codec of `StorageBase`: the metadata companion, the chain of transforms, and
reading and writing blocks and version metadata through them. -/
namespace Benji
open Lib

namespace Codec

/-- The exceptions on the way; the messages are those of the innermost one. -/
inductive CodecError where
  | hmac (error : HmacError)
  | keyError (message : String)
  | valueError (message : String)
  | typeError
  | configurationError (message : String)
  | fileNotFound (key : Text)
  | fileExists (message : String)
  | assertionError
  | invalidBlock (message : String)
  | transform (message : String)

/-- A transform instance. `encapsulate` gets the position in the chain, so that it may draw
different random material each time; no data stands for `None`. -/
structure Transform where
  name : String
  module : String
  encapsulate : ℕ → Bytes → Option Bytes × Json
  decapsulate : Bytes → Json → Except CodecError Bytes

/-- What a storage is configured with. `mac` is HMAC-SHA256, `getByName` the factory, and
`floatEquals` whether a float equals an integer. -/
structure Config where
  activeTransforms : List Transform
  getByName : String → Option Transform
  hmacKey : Option Bytes
  mac : Bytes → Bytes → Bytes
  versions : SemanticVersion
  floatEquals : String → ℤ → Bool
  consistencyCheckWrites : Bool

def Config.dictHmac (cfg : Config) : Option DictHmac := cfg.hmacKey.map fun key => ⟨"hmac", key⟩

abbrev Files := Text → Option Bytes

def Files.put (files : Files) (key : Text) (data : Bytes) : Files := fun k =>
  if k = key then some data else files k

/-! Metadata -/

/-- `VERSIONS.object_metadata.current`. -/
def currentVersion : String := "2.0.0"

/-- `VERSIONS.object_metadata.supported`, `SimpleSpec('>=1,<3')`. -/
def supported (cfg : Config) (v : FormatVersion) : Bool := cfg.versions.contains 1 3 v

/-- `_build_metadata` before the digest. -/
def metadataItems (now : String) (size objectSize : ℕ) (transforms : List Json)
    (checksum : Option String) : List (String × Json) :=
  [("created", .str now), ("metadata_version", .str currentVersion), ("modified", .str now),
    ("object_size", .int objectSize), ("size", .int size)] ++
  (match checksum with
    | some c => if c = "" then [] else [("checksum", .str c)]
    | none => []) ++
  if transforms = [] then [] else [("transforms", .list transforms)]

def buildMetadata (cfg : Config) (now : String) (size objectSize : ℕ) (transforms : List Json)
    (checksum : Option String) : Except CodecError (Json × Bytes) := do
  let metadata := Json.dict (metadataItems now size objectSize transforms checksum)
  let metadata ← match cfg.dictHmac with
    | some h => (DictHmac.addDigest cfg.mac h metadata).mapError .hmac
    | none => .ok metadata
  return (metadata, encodeUtf8 (Json.dumps metadata))

/-- `value == n`. -/
def equals (cfg : Config) (n : ℤ) : Json → Bool
  | .int i => i = n
  | .bool b => b.toInt = n
  | .float repr => cfg.floatEquals repr n
  | _ => false

def requiredKeys : List String := ["created", "modified", "object_size", "size"]

def missingKey (required : String) (key : Text) : CodecError :=
  .keyError s!"Required object metadata key {required} is missing for object {String.ofList key}."

/-- What becomes of metadata that are no dict. `in` looks into a list or a text as well. -/
def notADict (key : Text) : Json → CodecError
  | .list xs =>
    if xs.any fun x => !DictHmac.differs x "metadata_version" then .typeError
    else missingKey "metadata_version" key
  | .str s =>
    if "metadata_version".toList <:+: s.toList then .typeError
    else missingKey "metadata_version" key
  | _ => .typeError

def ofVersionError : VersionError → CodecError
  | .valueError message => .valueError message
  | .typeError => .typeError

def decodeMetadata (cfg : Config) (metadataJson : Bytes) (key : Text) (dataLength : ℕ) :
    Except CodecError (List (String × Json)) := do
  let some text := decodeUtf8 metadataJson | .error (.valueError "invalid UTF-8")
  let some metadata := Json.loads text | .error (.valueError "invalid JSON")
  let metadata ← match cfg.dictHmac with
    | some h => (DictHmac.verifyDigest cfg.mac h metadata).mapError .hmac
    | none => .ok metadata
  let .dict items := metadata | .error (notADict key metadata)
  let some version := items.lookup "metadata_version" | .error (missingKey "metadata_version" key)
  let v ← (cfg.versions.version version).mapError ofVersionError
  if !supported cfg v then
    .error (.valueError s!"Unsupported object metadata version: \"{v.str}\".")
  else
    match requiredKeys.find? fun k => (items.lookup k).isNone with
    | some k => .error (missingKey k key)
    | none =>
      let objectSize := (items.lookup "object_size").getD .null
      if equals cfg dataLength objectSize then .ok items
      else .error (.valueError (s!"Length mismatch for object {String.ofList key}. " ++
        s!"Expected: {objectSize.shown}, got: {dataLength}."))

/-! Transforms -/

def element (t : Transform) (materials : Json) : Json :=
  .dict [("name", .str t.name), ("module", .str t.module), ("materials", materials)]

/-- One round of the loop of `_encapsulate`. Empty data counts as none. -/
def encapsulateStep (s : ℕ × Bytes × List Json) (t : Transform) : ℕ × Bytes × List Json :=
  match t.encapsulate s.1 s.2.1 with
  | (some (b :: bs), materials) => (s.1 + 1, b :: bs, s.2.2 ++ [element t materials])
  | _ => (s.1 + 1, s.2.1, s.2.2)

def encapsulate (ts : List Transform) (data : Bytes) : Bytes × List Json :=
  (ts.foldl encapsulateStep (0, data, [])).2

/-- One round of the loop of `_decapsulate`. -/
def undo (cfg : Config) (data : Bytes) : Json → Except CodecError Bytes
  | .dict items => do
    let some name := items.lookup "name" | .error (.keyError "name")
    let some module := items.lookup "module" | .error (.keyError "module")
    let .str name := name | .error .typeError
    let some t := cfg.getByName name
      | .error (.configurationError s!"Transform name {name} is undefined.")
    if DictHmac.differs module t.module then
      .error (.configurationError
        s!"Mismatch between object transform module and configured module for {name}")
    else
      let some materials := items.lookup "materials" | .error (.keyError "materials")
      t.decapsulate data materials
  | _ => .error .typeError

def decapsulate (cfg : Config) (data : Bytes) : Json → Except CodecError Bytes
  | .list elements => elements.reverse.foldlM (undo cfg) data
  | _ => .error .typeError

/-- `_decapsulate` where the metadata have a list of transforms. -/
def decapsulateRecorded (cfg : Config) (data : Bytes) (metadata : List (String × Json)) :
    Except CodecError Bytes :=
  match metadata.lookup "transforms" with
  | some transforms => decapsulate cfg data transforms
  | none => .ok data

/-! Blocks -/

/-- `str(block.uid)`. -/
def uidText (b : Block String) : String :=
  let hex (n : ℕ) : String := String.ofList (Nat.toDigits 16 n)
  match b.uid with
  | some uid => s!"{hex uid.left}-{hex uid.right}"
  | none => "0-0"

/-- `block.uid.storage_object_to_path()`; a sparse uid has none. -/
def blockKey (b : Block String) : Except CodecError Text :=
  match b.uid with
  | some uid => .ok (Keys.StorageObject.block uid).storageObjectToPath
  | none => .error .assertionError

def readObject (files : Files) (key : Text) : Except CodecError Bytes :=
  match files key with
  | some data => .ok data
  | none => .error (.fileNotFound key)

/-- `_check_write`. -/
def checkWrite (cfg : Config) (files : Files) (key : Text) (expected : Bytes) :
    Except CodecError Unit := do
  let actual ← readObject files key
  let metadataJson ← readObject files (key ++ Keys.metaSuffix)
  let _ ← decodeMetadata cfg metadataJson key actual.length
  if expected ≠ actual then
    .error (.valueError s!"Written and read data of {String.ofList key} differ.")
  else .ok ()

/-- `except (KeyError, ValueError)`; the digest errors but one are `ValueError`s. -/
def asInvalidBlock (message : String) : CodecError → CodecError
  | .keyError _ | .valueError _ => .invalidBlock message
  | .hmac .notADict => .hmac .notADict
  | .hmac _ => .invalidBlock message
  | e => e

/-- `StorageBase._write`, where the two objects can be written. -/
def write (cfg : Config) (now : String) (b : Block String) (data : Bytes) (files : Files) :
    Except CodecError Files := do
  let (data, transforms) := encapsulate cfg.activeTransforms data
  let (_, metadataJson) ← buildMetadata cfg now b.size data.length transforms b.checksum
  let key ← blockKey b
  let files := (files.put key data).put (key ++ Keys.metaSuffix) metadataJson
  if cfg.consistencyCheckWrites then
    (checkWrite cfg files key data).mapError
      (asInvalidBlock s!"Check write of block {b.idx} (UID {uidText b}) failed.")
  return files

/-- `StorageBase._read`. -/
def read (cfg : Config) (b : Block String) (metadataOnly : Bool) (files : Files) :
    Except CodecError (Option Bytes × List (String × Json)) := do
  let key ← blockKey b
  let notFound := CodecError.invalidBlock
    s!"Object metadata or data of block {b.idx} (UID {uidText b}) not found."
  let some data := files key | .error notFound
  let some metadataJson := files (key ++ Keys.metaSuffix) | .error notFound
  let metadata ← (decodeMetadata cfg metadataJson key data.length).mapError
    (asInvalidBlock s!"Object metadata of block {b.idx} (UID {uidText b}) is invalid.")
  if (metadata.lookup "checksum").isNone then
    .error (.invalidBlock ("Required object metadata key checksum is missing for block " ++
      s!"{b.idx} (UID {uidText b})."))
  else if metadataOnly then .ok (none, metadata)
  else return (some (← decapsulateRecorded cfg data metadata), metadata)

/-- `value[:16]`; `none` is a `TypeError`. -/
def firstSixteen : Json → Option String
  | .str s => some (String.ofList (s.toList.take 16))
  | .list xs => some (Json.list (xs.take 16)).shown
  | _ => none

/-- The exception for a checksum that is another. The message shows both, cut short. -/
def checksumMismatch (b : Block String) (checksum : Json) : CodecError :=
  match b.checksum, firstSixteen checksum with
  | some c, some actual => .valueError
      ("Mismatch between recorded block checksum and checksum in object metadata for block " ++
        s!"{b.idx} (UID {uidText b}). Expected: {String.ofList (c.toList.take 16)}, got: {actual}.")
  | _, _ => .typeError

/-- `check_block_metadata`. -/
def checkBlockMetadata (cfg : Config) (b : Block String) (dataLength : Option ℕ)
    (metadata : List (String × Json)) : Except CodecError Unit :=
  match metadata.lookup "size" with
  | none => .error (.keyError "size")
  | some size =>
    if !equals cfg b.size size then .error (.valueError
      ("Mismatch between recorded block size and data length in object metadata for block " ++
        s!"{b.idx} (UID {uidText b}). Expected: {b.size}, got: {size.shown}."))
    else match dataLength.filter fun n => n ≠ 0 ∧ n ≠ b.size with
      | some n => .error (.valueError
          ("Mismatch between recorded block size and actual data length for block " ++
            s!"{b.idx} (UID {uidText b}). Expected: {b.size}, got: {n}."))
      | none => match metadata.lookup "checksum" with
        | none => .error (.keyError "checksum")
        | some checksum =>
          let same := match b.checksum, checksum with
            | some c, checksum => !DictHmac.differs checksum c
            | none, .null => true
            | none, _ => false
          if same then .ok () else .error (checksumMismatch b checksum)

/-! Versions -/

def versionKey (uid : VersionUid) : Text := (Keys.StorageObject.version uid).storageObjectToPath

def writeVersion (cfg : Config) (now : String) (uid : VersionUid) (data : String)
    (overwrite : Bool) (files : Files) : Except CodecError Files := do
  let key := versionKey uid
  if !overwrite && (files key).isSome then
    .error (.fileExists s!"Version {String.ofList uid.text} already exists in storage.")
  else
    let bytes := encodeUtf8 data
    let (encapsulated, transforms) := encapsulate cfg.activeTransforms bytes
    let (_, metadataJson) ← buildMetadata cfg now bytes.length encapsulated.length transforms none
    let files := (files.put key encapsulated).put (key ++ Keys.metaSuffix) metadataJson
    if cfg.consistencyCheckWrites then
      checkWrite cfg files key encapsulated
    return files

def readVersion (cfg : Config) (uid : VersionUid) (files : Files) : Except CodecError String := do
  let key := versionKey uid
  let data ← readObject files key
  let metadataJson ← readObject files (key ++ Keys.metaSuffix)
  let metadata ← decodeMetadata cfg metadataJson key data.length
  let data ← decapsulateRecorded cfg data metadata
  let some size := metadata.lookup "size" | .error (.keyError "size")
  if !equals cfg data.length size then
    .error (.valueError (s!"Length mismatch of original data for object {String.ofList key}. " ++
      s!"Expected: {size.shown}, got: {data.length}."))
  else match decodeUtf8 data with
    | some text => .ok text
    | none => .error (.valueError "invalid UTF-8")

/-- What is assumed: the active transforms come from the factory, and where one returns data it can
undo that with materials that are JSON. The version that is written is one that is supported. -/
structure Config.Sound (cfg : Config) : Prop where
  current : cfg.versions.Reads currentVersion ⟨2, 0, 0, [], []⟩ 1 3
  registered : ∀ t ∈ cfg.activeTransforms, cfg.getByName t.name = some t
  inverse : ∀ t ∈ cfg.activeTransforms, ∀ n data b bs materials,
    t.encapsulate n data = (some (b :: bs), materials) →
      materials.WF ∧ t.decapsulate (b :: bs) materials = .ok data

section
variable {cfg : Config}

theorem undo_element {t : Transform} (ht : cfg.getByName t.name = some t) (data : Bytes)
    (materials : Json) : undo cfg data (element t materials) = t.decapsulate data materials := by
  simp [undo, element, List.lookup_cons, ht, DictHmac.differs]

/-- The transforms recorded are those applied: undoing them from the last gives the data. -/
theorem foldl_encapsulateStep (ts : List Transform)
    (hr : ∀ t ∈ ts, cfg.getByName t.name = some t)
    (hi : ∀ t ∈ ts, ∀ n data b bs materials, t.encapsulate n data = (some (b :: bs), materials) →
      materials.WF ∧ t.decapsulate (b :: bs) materials = .ok data)
    (n : ℕ) (data : Bytes) (acc : List Json) :
    ∃ added, (ts.foldl encapsulateStep (n, data, acc)).2.2 = acc ++ added ∧ Json.WFList added ∧
      added.reverse.foldlM (undo cfg) (ts.foldl encapsulateStep (n, data, acc)).2.1 =
        .ok data := by
  induction ts generalizing n data acc with
  | nil => exact ⟨[], (List.append_nil _).symm, trivial, rfl⟩
  | cons t ts ih =>
    have hr' : ∀ t ∈ ts, cfg.getByName t.name = some t := fun t ht =>
      hr t (List.mem_cons_of_mem _ ht)
    have ih := ih hr' fun t ht => hi t (List.mem_cons_of_mem _ ht)
    have hkeep (materials : Json) (o : Option Bytes) (ho : ∀ b bs, o ≠ some (b :: bs))
        (he : t.encapsulate n data = (o, materials)) :
        encapsulateStep (n, data, acc) t = (n + 1, data, acc) := by
      unfold encapsulateStep
      simp only [he]
      split
      · rename_i h
        exact absurd (congrArg Prod.fst h) (ho _ _)
      · rfl
    rw [List.foldl_cons]
    match he : t.encapsulate n data with
    | (some (b :: bs), materials) =>
      have hs : encapsulateStep (n, data, acc) t =
          (n + 1, b :: bs, acc ++ [element t materials]) := by
        unfold encapsulateStep
        simp only [he]
      obtain ⟨hw, hd⟩ := hi t (List.mem_cons_self ..) n data b bs materials he
      obtain ⟨added, hadd, hwf, hundo⟩ := ih (n + 1) (b :: bs) (acc ++ [element t materials])
      rw [hs]
      refine ⟨element t materials :: added, ?_, ?_, ?_⟩
      · rw [hadd, List.append_assoc]
        rfl
      · refine ⟨?_, hwf⟩
        simp [element, Json.WF, Json.WFItems, hw]
      · rw [List.reverse_cons, List.foldlM_append, hundo]
        show (undo cfg (b :: bs) (element t materials) >>= fun d => .ok d) = .ok data
        rw [undo_element (hr t (List.mem_cons_self ..)), hd]
        rfl
    | (none, materials) =>
      rw [hkeep materials none (by simp) he]
      exact ih (n + 1) data acc
    | (some [], materials) =>
      rw [hkeep materials (some []) (by simp) he]
      exact ih (n + 1) data acc

theorem decapsulate_encapsulate (hc : cfg.Sound) (data : Bytes) :
    Json.WFList (encapsulate cfg.activeTransforms data).2 ∧
      decapsulate cfg (encapsulate cfg.activeTransforms data).1
        (.list (encapsulate cfg.activeTransforms data).2) = .ok data := by
  obtain ⟨added, hadd, hwf, hundo⟩ :=
    foldl_encapsulateStep cfg.activeTransforms hc.registered hc.inverse 0 data []
  rw [List.nil_append] at hadd
  unfold encapsulate decapsulate
  rw [hadd]
  exact ⟨hwf, hundo⟩

/-! Metadata read back -/

section Items
variable (now : String) (size objectSize : ℕ) (transforms : List Json) (checksum : Option String)

theorem metadataItems_keys : ((metadataItems now size objectSize transforms checksum).map
    Prod.fst).Nodup ∧
    "hmac" ∉ (metadataItems now size objectSize transforms checksum).map Prod.fst := by
  unfold metadataItems
  cases checksum with
  | none => by_cases ht : transforms = [] <;> simp [ht]
  | some c => by_cases hc : c = "" <;> by_cases ht : transforms = [] <;> simp [hc, ht]

theorem metadataItems_wf (hw : Json.WFList transforms) :
    (Json.dict (metadataItems now size objectSize transforms checksum)).WF := by
  rw [Json.WF]
  refine ⟨(metadataItems_keys ..).1, ?_⟩
  unfold metadataItems
  cases checksum with
  | none => by_cases ht : transforms = [] <;> simp [ht, Json.WFItems, Json.WF, hw]
  | some c =>
    by_cases hc : c = "" <;> by_cases ht : transforms = [] <;>
      simp [hc, ht, Json.WFItems, Json.WF, hw]

theorem lookup_required {k : String} (hk : k ∈ requiredKeys) :
    ((metadataItems now size objectSize transforms checksum).lookup k).isSome := by
  simp only [requiredKeys, List.mem_cons, List.not_mem_nil, or_false] at hk
  rcases hk with rfl | rfl | rfl | rfl <;> simp [metadataItems, List.lookup_cons]

theorem lookup_metadataVersion :
    (metadataItems now size objectSize transforms checksum).lookup "metadata_version" =
      some (.str currentVersion) := by
  simp [metadataItems, List.lookup_cons]

theorem lookup_objectSize :
    (metadataItems now size objectSize transforms checksum).lookup "object_size" =
      some (.int objectSize) := by
  simp [metadataItems, List.lookup_cons]

theorem lookup_size :
    (metadataItems now size objectSize transforms checksum).lookup "size" = some (.int size) := by
  simp [metadataItems, List.lookup_cons]

theorem lookup_checksum {c : String} (hc : c ≠ "") :
    (metadataItems now size objectSize transforms (some c)).lookup "checksum" =
      some (.str c) := by
  simp [metadataItems, List.lookup_cons, hc]

theorem lookup_transforms :
    (metadataItems now size objectSize transforms checksum).lookup "transforms" =
      if transforms = [] then none else some (.list transforms) := by
  unfold metadataItems
  cases checksum with
  | none => by_cases ht : transforms = [] <;> simp [ht, List.lookup_cons]
  | some c =>
    by_cases hc : c = "" <;> by_cases ht : transforms = [] <;> simp [hc, ht, List.lookup_cons]

/-- The metadata come back as they were before the digest was added. -/
theorem decodeMetadata_buildMetadata {cfg : Config} (hc : cfg.Sound) (key : Text)
    (hw : Json.WFList transforms) :
    ∃ metadata js, buildMetadata cfg now size objectSize transforms checksum = .ok (metadata, js) ∧
      decodeMetadata cfg js key objectSize =
        .ok (metadataItems now size objectSize transforms checksum) := by
  have hwf := metadataItems_wf now size objectSize transforms checksum hw
  have hreq : (requiredKeys.find? fun k =>
      ((metadataItems now size objectSize transforms checksum).lookup k).isNone) = none := by
    rw [List.find?_eq_none]
    intro k hk
    have := lookup_required now size objectSize transforms checksum hk
    simpa using Option.isSome_iff_ne_none.mp this
  have hv := hc.current.version
  have hs : supported cfg ⟨2, 0, 0, [], []⟩ = true := hc.current.contains
  have hmv := lookup_metadataVersion now size objectSize transforms checksum
  have hos := lookup_objectSize now size objectSize transforms checksum
  cases hk : cfg.hmacKey with
  | none =>
    have hd : cfg.dictHmac = none := by rw [Config.dictHmac, hk, Option.map_none]
    refine ⟨_, _, by rw [buildMetadata, hd]; rfl, ?_⟩
    simp only [decodeMetadata, decodeUtf8_encodeUtf8, Json.loads_dumps hwf, hd, bind, Except.bind,
      Except.mapError, hmv, hv, hs, hreq, hos]
    simp [equals]
  | some secret =>
    have hd : cfg.dictHmac = some ⟨"hmac", secret⟩ := by rw [Config.dictHmac, hk, Option.map_some]
    have hn := (metadataItems_keys now size objectSize transforms checksum).2
    obtain ⟨hws, hver⟩ := @DictHmac.verifyDigest_addDigest cfg.mac ⟨"hmac", secret⟩ _ hwf hn
    have hadd := @DictHmac.addDigest_eq cfg.mac ⟨"hmac", secret⟩ _ hn
    refine ⟨_, _, by rw [buildMetadata, hd]; simp only [hadd]; rfl, ?_⟩
    simp only [decodeMetadata, decodeUtf8_encodeUtf8, Json.loads_dumps hws, hd, hver, bind,
      Except.bind, Except.mapError, hmv, hv, hs, hreq, hos]
    simp [equals]

end Items

theorem Files.put_self (files : Files) (key : Text) (data : Bytes) :
    (files.put key data) key = some data := if_pos rfl

theorem metaKey_ne (key : Text) : key ≠ key ++ Keys.metaSuffix := by
  intro h
  have := congrArg List.length h
  simp [Keys.metaSuffix] at this

/-- An object and its companion, written one after the other. -/
theorem put_put (files : Files) (key : Text) (data metadata : Bytes) :
    ((files.put key data).put (key ++ Keys.metaSuffix) metadata) key = some data ∧
      ((files.put key data).put (key ++ Keys.metaSuffix) metadata) (key ++ Keys.metaSuffix) =
        some metadata := by
  constructor
  · rw [Files.put, if_neg (metaKey_ne key), Files.put_self]
  · rw [Files.put_self]

/-- What a successful write leaves under a key. -/
structure Stored (cfg : Config) (files : Files) (key : Text) (bytes : Bytes)
    (items : List (String × Json)) : Prop where
  data : files key = some bytes
  metadata : ∃ js, files (key ++ Keys.metaSuffix) = some js ∧
    decodeMetadata cfg js key bytes.length = .ok items

theorem checkWrite_of_stored {files : Files} {key : Text} {bytes : Bytes}
    {items : List (String × Json)} (h : Stored cfg files key bytes items) :
    checkWrite cfg files key bytes = .ok () := by
  obtain ⟨js, hm, hdec⟩ := h.metadata
  simp [checkWrite, readObject, h.data, hm, hdec, bind, Except.bind]

section
variable {data encapsulated : Bytes} {transforms : List Json}

/-- Undoing the recorded transforms on what was stored. -/
theorem undo_stored (hc : cfg.Sound)
    (he : encapsulate cfg.activeTransforms data = (encapsulated, transforms)) (now : String)
    (size : ℕ) (checksum : Option String) :
    decapsulateRecorded cfg encapsulated
      (metadataItems now size encapsulated.length transforms checksum) = .ok data := by
  obtain ⟨-, hd⟩ := decapsulate_encapsulate hc data
  rw [he] at hd
  rw [decapsulateRecorded, lookup_transforms]
  by_cases ht : transforms = []
  · rw [if_pos ht]
    rw [ht] at hd
    exact hd
  · rw [if_neg ht]
    exact hd

theorem stored_of_write (hc : cfg.Sound)
    (he : encapsulate cfg.activeTransforms data = (encapsulated, transforms)) (now : String)
    (size : ℕ) (checksum : Option String) (key : Text) (files : Files) :
    ∃ metadata js, buildMetadata cfg now size encapsulated.length transforms checksum =
        .ok (metadata, js) ∧
      Stored cfg ((files.put key encapsulated).put (key ++ Keys.metaSuffix) js) key encapsulated
        (metadataItems now size encapsulated.length transforms checksum) := by
  obtain ⟨hw, -⟩ := decapsulate_encapsulate hc data
  rw [he] at hw
  obtain ⟨metadata, js, hb, hdec⟩ := decodeMetadata_buildMetadata now size encapsulated.length
    transforms checksum hc key hw
  obtain ⟨h1, h2⟩ := put_put files key encapsulated js
  exact ⟨metadata, js, hb, h1, js, h2, hdec⟩

theorem checkBlockMetadata_ok {b : Block String} {c : String} {n : Option ℕ}
    {items : List (String × Json)} (hs : items.lookup "size" = some (.int b.size))
    (hk : items.lookup "checksum" = some (.str c)) (hc : b.checksum = some c)
    (hn : ∀ m ∈ n, m = b.size) : checkBlockMetadata cfg b n items = .ok () := by
  have hlen : n.filter (fun m => m ≠ 0 ∧ m ≠ b.size) = none := by
    rw [Option.filter_eq_none_iff]
    intro m hm
    simp [hn m hm]
  have hsize : equals cfg b.size (.int b.size) = true := decide_eq_true rfl
  simp only [checkBlockMetadata, hs, hsize, hlen, hk, hc]
  simp [DictHmac.differs]

theorem read_write (hc : cfg.Sound) (now : String) {b : Block String} {uid : BlockUid}
    {c : String} (files : Files) (hu : b.uid = some uid) (hk : b.checksum = some c) (hne : c ≠ "")
    (hlen : data.length = b.size) :
    ∃ files', write cfg now b data files = .ok files' ∧
      ∃ metadata, read cfg b false files' = .ok (some data, metadata) ∧
        checkBlockMetadata cfg b (some data.length) metadata = .ok () ∧
        read cfg b true files' = .ok (none, metadata) ∧
        checkBlockMetadata cfg b none metadata = .ok () := by
  rcases hp : encapsulate cfg.activeTransforms data with ⟨encapsulated, transforms⟩
  have hkey : blockKey b = .ok (Keys.StorageObject.block uid).storageObjectToPath := by
    rw [blockKey, hu]
  generalize hkk : (Keys.StorageObject.block uid).storageObjectToPath = key at hkey
  obtain ⟨metadata, js, hb, hst⟩ := stored_of_write hc hp now b.size (some c) key files
  have hundo := undo_stored hc hp now b.size (some c)
  have hcheck := checkWrite_of_stored hst
  obtain ⟨js', hm, hdec⟩ := hst.metadata
  have hcs := lookup_checksum now b.size encapsulated.length transforms hne
  have hsz := lookup_size now b.size encapsulated.length transforms (some c)
  refine ⟨(files.put key encapsulated).put (key ++ Keys.metaSuffix) js, ?_, _, ?_,
    checkBlockMetadata_ok hsz hcs hk (by simp [hlen]), ?_,
    checkBlockMetadata_ok hsz hcs hk (by simp)⟩
  · simp only [write, hp, hk, hb, hkey, bind, Except.bind]
    rw [hcheck]
    cases cfg.consistencyCheckWrites <;> rfl
  · simp only [read, hkey, bind, Except.bind, hst.data, hm, hdec, Except.mapError, hcs,
      Option.isNone_some, Bool.false_eq_true, if_false]
    rw [hundo]
    rfl
  · simp only [read, hkey, bind, Except.bind, hst.data, hm, hdec, Except.mapError, hcs]
    rfl

theorem readVersion_writeVersion (hc : cfg.Sound) (now : String) (uid : VersionUid) (s : String)
    {overwrite : Bool} {files : Files}
    (ho : overwrite = true ∨ files (versionKey uid) = none) :
    ∃ files', writeVersion cfg now uid s overwrite files = .ok files' ∧
      readVersion cfg uid files' = .ok s := by
  rcases hp : encapsulate cfg.activeTransforms (encodeUtf8 s) with ⟨encapsulated, transforms⟩
  generalize hkk : versionKey uid = key at ho
  obtain ⟨metadata, js, hb, hst⟩ := stored_of_write hc hp now (encodeUtf8 s).length none key files
  have hundo := undo_stored hc hp now (encodeUtf8 s).length none
  have hcheck := checkWrite_of_stored hst
  obtain ⟨js', hm, hdec⟩ := hst.metadata
  have hsz := lookup_size now (encodeUtf8 s).length encapsulated.length transforms none
  have hexists : (!overwrite && (files key).isSome) = false := by
    rcases ho with rfl | hn
    · rfl
    · rw [hn, Option.isSome_none, Bool.and_false]
  refine ⟨(files.put key encapsulated).put (key ++ Keys.metaSuffix) js, ?_, ?_⟩
  · simp only [writeVersion, hkk, hexists, Bool.false_eq_true, if_false, hp, hb, bind, Except.bind]
    rw [hcheck]
    cases cfg.consistencyCheckWrites <;> rfl
  · simp only [readVersion, hkk, readObject, hst.data, hm, bind, Except.bind, hdec]
    rw [hundo]
    simp [hsz, equals, decodeUtf8_encodeUtf8]

end

/-- Blocks come back as written, with and without the data; so do the texts of versions. -/
theorem codec_round_trip (cfg : Config) (hc : cfg.Sound) :
    (∀ (now : String) (b : Block String) (uid : BlockUid) (c : String) (data : Bytes)
      (files : Files), b.uid = some uid → b.checksum = some c → c ≠ "" →
      data.length = b.size → ∃ files', write cfg now b data files = .ok files' ∧
        ∃ metadata, read cfg b false files' = .ok (some data, metadata) ∧
          checkBlockMetadata cfg b (some data.length) metadata = .ok () ∧
          read cfg b true files' = .ok (none, metadata) ∧
          checkBlockMetadata cfg b none metadata = .ok ()) ∧
    ∀ (now : String) (uid : VersionUid) (s : String) (overwrite : Bool) (files : Files),
      overwrite = true ∨ files (versionKey uid) = none →
      ∃ files', writeVersion cfg now uid s overwrite files = .ok files' ∧
        readVersion cfg uid files' = .ok s :=
  ⟨fun now _ _ _ _ files hu hk hne hlen => read_write hc now files hu hk hne hlen,
    fun now uid s _ _ ho => readVersion_writeVersion hc now uid s ho⟩

/-- A transform that puts a byte in front, and one that only takes data of an even length. -/
def exampleTransforms : List Transform :=
  [⟨"mark", "mark", fun n data => (some (n.toUInt8 :: data), .dict [("size", .int data.length),
      ("ratio", .float "1e-05")]), fun data _ => .ok data.tail⟩,
    ⟨"even", "turn", fun _ data => (if data.length % 2 = 0 then some data.reverse else none, .null),
      fun data _ => .ok data.reverse⟩]

def exampleConfig : Config where
  activeTransforms := exampleTransforms
  getByName name := exampleTransforms.find? fun t => t.name = name
  hmacKey := some [1, 2, 3]
  mac key bytes := key ++ bytes
  versions := .plain
  floatEquals repr n := repr.toList = Json.dumpInt n ++ ['.', '0']
  consistencyCheckWrites := true

theorem exampleConfig_sound : exampleConfig.Sound where
  current := ⟨rfl, rfl⟩
  registered t ht := by
    simp only [exampleConfig, exampleTransforms, List.mem_cons, List.not_mem_nil, or_false] at ht
    rcases ht with rfl | rfl <;> simp [exampleConfig, exampleTransforms]
  inverse t ht n data b bs materials h := by
    simp only [exampleConfig, exampleTransforms, List.mem_cons, List.not_mem_nil, or_false] at ht
    rcases ht with rfl | rfl
    · simp only [Prod.mk.injEq, Option.some.injEq, List.cons.injEq] at h
      obtain ⟨⟨-, rfl⟩, rfl⟩ := h
      have hfloat : Json.IsFloat "1e-05" := .number (n := 1) (.inl rfl) (.inl rfl)
        (.inr ⟨'e', ['-'], '0', ['5'], rfl, .inl rfl, .inr (.inr rfl), rfl⟩) (by simp)
      exact ⟨by simp [Json.WF, Json.WFItems, hfloat], rfl⟩
    · simp only [Prod.mk.injEq, Option.ite_none_right_eq_some, Option.some.injEq] at h
      obtain ⟨⟨-, hr⟩, rfl⟩ := h
      refine ⟨trivial, ?_⟩
      show Except.ok (b :: bs).reverse = Except.ok data
      rw [← hr, List.reverse_reverse]

theorem codec_round_trip_example :
    (∃ files', write exampleConfig "2021-01-01T00:00:00.000000Z"
        ⟨1, 0, some ⟨1, 2⟩, some "ab12", 3, true⟩ [7, 8, 9] (fun _ => none) = .ok files' ∧
      ∃ metadata, read exampleConfig ⟨1, 0, some ⟨1, 2⟩, some "ab12", 3, true⟩ false files' =
          .ok (some [7, 8, 9], metadata) ∧
        checkBlockMetadata exampleConfig ⟨1, 0, some ⟨1, 2⟩, some "ab12", 3, true⟩ (some 3)
          metadata = .ok () ∧
        read exampleConfig ⟨1, 0, some ⟨1, 2⟩, some "ab12", 3, true⟩ true files' =
          .ok (none, metadata) ∧
        checkBlockMetadata exampleConfig ⟨1, 0, some ⟨1, 2⟩, some "ab12", 3, true⟩ none metadata =
          .ok ()) ∧
    ∃ files', writeVersion exampleConfig "2021-01-01T00:00:00.000000Z" ⟨"v1".toList, by decide⟩
        "\x7b\x7d" false (fun _ => none) = .ok files' ∧
      readVersion exampleConfig ⟨"v1".toList, by decide⟩ files' = .ok "\x7b\x7d" :=
  ⟨(codec_round_trip exampleConfig exampleConfig_sound).1 _ _ ⟨1, 2⟩ "ab12" [7, 8, 9] _ rfl rfl
      (by decide) rfl,
    (codec_round_trip exampleConfig exampleConfig_sound).2 _ _ _ _ _ (.inr rfl)⟩

end

end Codec
end Benji
