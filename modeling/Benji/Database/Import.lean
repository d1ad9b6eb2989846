import Benji.Database.Export
import Benji.Lib.PyInt
import Benji.Storage.DictHmac
import Benji.World

/-! `import_`, and what becomes of the documents that `export` writes. -/
namespace Benji
open Lib

/-- The database side of an import. -/
structure Archive where
  versions : List VersionRecord
  blocks : BlockTable String
  storages : List Storage
  /-- What a query for a storage finds whose name equals a number, a list or a dict. That is up to
  the database and its driver, which may refuse to compare them. -/
  storageByValue : Json → Option (Option Storage)

namespace Import

/-- `value[key]` on a value that may not be a dict. -/
def getItem (v : Json) (key : String) : Except Error Json :=
  match v with
  | .dict items => match items.lookup key with
    | some x => .ok x
    | none => .error (.keyError key)
  | _ => .error .typeError

def asText : Json → Except Error Text
  | .str s => .ok s.toList
  | _ => .error .typeError

def requireItem (items : List (String × Json)) (message key : String) : Except Error Unit :=
  if (items.lookup key).isSome then .ok () else .error (.inputDataError message)

def attributesToCheck : List String :=
  ["date", "volume", "snapshot", "size", "storage", "block_size", "status", "protected", "blocks",
    "labels", "bytes_read", "bytes_written", "bytes_deduplicated", "bytes_sparse", "duration"]

/-- `VersionUid(value)`. -/
def toVersionUid : Json → Except Error VersionUid
  | .str s =>
    if h : InputValidation.isVersionUid s.toList then .ok ⟨s.toList, h⟩
    else .error (.inputDataError s!"Version name {s} is invalid.")
  | _ => .error (.internalError "Unexpected type in constructor.")

def checkLabel (uid : String) (e : String × Json) : Except Error Unit := do
  match InputValidation.isLabelName e.1.toList with
  | none => .error (.valueError "too many values to unpack (expected 2)")
  | some false =>
    .error (.inputDataError s!"Label name {e.1} in version {uid} is invalid.")
  | some true =>
    let value ← asText e.2
    if InputValidation.isLabelValue value then .ok ()
    else .error (.inputDataError
      s!"Label value {String.ofList value} in version {uid} is invalid.")

def checkBlock (uid : String) : Json → Except Error Unit
  | .dict items => ["uid", "size", "valid", "checksum"].forM fun key =>
      requireItem items s!"Missing attribute {key} in block list in version {uid}." key
  | _ => .error (.inputDataError s!"Wrong data type for block list element in version {uid}.")

def getDict (items : List (String × Json)) (message key : String) :
    Except Error (List (String × Json)) := do
  match ← getItem (.dict items) key with
  | .dict d => .ok d
  | _ => .error (.inputDataError message)

def getList (items : List (String × Json)) (message key : String) : Except Error (List Json) := do
  match ← getItem (.dict items) key with
  | .list xs => .ok xs
  | _ => .error (.inputDataError message)

/-- The message looks the volume up under a name that the format does not have. -/
def checkVolume (items : List (String × Json)) (uid : String) : Except Error Unit := do
  let volume ← asText (← getItem (.dict items) "volume")
  if InputValidation.isVolumeName volume then .ok ()
  else do
    let name ← getItem (.dict items) "name"
    .error (.inputDataError s!"Volume name {name.shown} in version {uid} is invalid.")

def checkSnapshot (items : List (String × Json)) (uid : String) : Except Error Unit := do
  let snapshot ← asText (← getItem (.dict items) "snapshot")
  if InputValidation.isSnapshotName snapshot then .ok ()
  else .error (.inputDataError
    s!"Snapshot name {String.ofList snapshot} in version {uid} is invalid.")

/-- The storage with that name; no name is NULL. -/
def findStorage (db : Archive) : Json → Except Error (Option Storage)
  | .str name => .ok (db.storages.find? fun s => s.name = name)
  | .null => .ok none
  | value => match db.storageByValue value with
    | some storage => .ok storage
    | none => .error (.other "ProgrammingError")

def checkStorage (db : Archive) (items : List (String × Json)) : Except Error Unit := do
  let value ← getItem (.dict items) "storage"
  match ← findStorage db value with
  | some _ => .ok ()
  | none => .error (.inputDataError
      s!"Storage {value.shown} is not defined in the configuration.")

def checkNew (db : Archive) (uid : VersionUid) : Except Error Unit :=
  if db.versions.any fun r => r.uid.text = uid.text then
    .error (.fileExistsError
      s!"Version {String.ofList uid.text} already exists and so cannot be imported.")
  else .ok ()

/-- The body of the loop of `import_v3`. -/
def importVersion (db : Archive) : Json → Except Error VersionUid
  | .dict items => do
    requireItem items "Missing attribute uid in version." "uid"
    let uid ← toVersionUid (← getItem (.dict items) "uid")
    let name := String.ofList uid.text
    attributesToCheck.forM fun key =>
      requireItem items s!"Missing attribute {key} in version {name}." key
    checkVolume items name
    checkSnapshot items name
    let labels ← getDict items s!"Wrong data type for labels in version {name}." "labels"
    let blocks ← getList items s!"Wrong data type for blocks in version {name}." "blocks"
    labels.forM (checkLabel name)
    blocks.forM (checkBlock name)
    checkStorage db items
    checkNew db uid
    -- `Version(date=…)`: the mapped class has no attribute of that name. (An argument that cannot
    -- be evaluated raises another exception before.)
    .error .typeError
  | _ => .error (.inputDataError "Wrong data type for versions list element.")

/-- `for x in value`. -/
def iterate : Json → Except Error (List Json)
  | .list xs => .ok xs
  | .dict items => .ok (items.map fun e => .str e.1)
  | .str s => .ok (s.toList.map fun c => .str (String.singleton c))
  | _ => .error .typeError

/-- `import_v3`; it leaves the database alone where it returns. -/
def importV3 (db : Archive) (json : Json) : Except Error (List VersionUid × Archive) := do
  let versions ← iterate (← getItem json "versions")
  return (← versions.mapM (importVersion db), db)

/-- The methods by their names; the second format is read as the third. -/
def importMethod
    (importV1 : FormatVersion → Archive → Json → Except Error (List VersionUid × Archive)) :
    ℕ → Option (FormatVersion → Archive → Json → Except Error (List VersionUid × Archive))
  | 1 => some importV1
  | 2 => some fun _ => importV3
  | 3 => some fun _ => importV3
  | _ => none

/-- A character that `\d` matches. -/
def isDecimal (U : UnicodeData) (c : Char) : Bool :=
  if c.toNat < 127 then c.isDigit else (U.decimal c).isSome

/-- A full match of `_METADATA_VERSION_REGEX`. -/
def matchesRegex (U : UnicodeData) (s : String) : Bool :=
  match s.toList.splitOn '.' with
  | [a, b, c] => [a, b, c].all fun t => t ≠ [] && t.all (isDecimal U)
  | _ => false

/-- `VERSIONS.database_metadata.supported`, `SimpleSpec('>=1,<4')`. -/
def supported (S : SemanticVersion) (v : FormatVersion) : Bool := S.contains 1 4 v

def ofVersionError : VersionError → Error
  | .valueError message => .valueError message
  | .typeError => .typeError

def missingVersion : Error :=
  .inputDataError "Import file is missing required key \"metadata_version\"."

/-- `import_` behind `json.load`; `none` stands for a text that is no JSON. -/
def importJson (U : UnicodeData) (S : SemanticVersion)
    (importV1 : FormatVersion → Archive → Json → Except Error (List VersionUid × Archive))
    (db : Archive) (json : Option Json) : Except Error (List VersionUid × Archive) := do
  let some json := json | .error (.inputDataError "Import file is invalid.")
  match json with
  | .null => .error (.inputDataError "Import file is empty.")
  | .dict items =>
    let some version := items.lookup "metadata_version" | .error missingVersion
    let .str version := version | .error .typeError
    if !matchesRegex U version then
      .error (.inputDataError s!"Import file has an invalid vesion of \"{version}\".")
    let v ← (S.version (.str version)).mapError ofVersionError
    if !supported S v then
      .error (.inputDataError s!"Unsupported metadata version (1): \"{v.str}\".")
    match importMethod importV1 v.major with
    | none => .error (.inputDataError s!"Unsupported metadata version (2): \"{version}\".")
    | some method => method v db (.dict items)
  | .list xs =>
    if xs.any fun x => !DictHmac.differs x "metadata_version" then .error .typeError
    else .error missingVersion
  | .str s =>
    if Export.isPart "metadata_version".toList s.toList then .error .typeError
    else .error missingVersion
  | _ => .error .typeError

/-- `import_` on the text of a file. -/
def import_ (U : UnicodeData) (S : SemanticVersion)
    (importV1 : FormatVersion → Archive → Json → Except Error (List VersionUid × Archive))
    (db : Archive) (text : String) : Except Error (List VersionUid × Archive) :=
  importJson U S importV1 db (Json.loads text)

/-- The version is there with everything that the format lists. -/
def Recreates (target : Archive) (t : BlockTable String) (r : VersionRecord) : Prop :=
  ∃ r' ∈ target.versions, r'.uid = r.uid ∧ r'.volume = r.volume ∧ r'.snapshot = r.snapshot ∧
    r'.size = r.size ∧ r'.blockSize = r.blockSize ∧ r'.storage.name = r.storage.name ∧
    r'.status = r.status ∧ r'.isProtected = r.isProtected ∧ r'.bytesRead = r.bytesRead ∧
    r'.bytesWritten = r.bytesWritten ∧ r'.bytesDeduplicated = r.bytesDeduplicated ∧
    r'.bytesSparse = r.bytesSparse ∧ r'.duration = r.duration ∧ r'.createdAt = r.createdAt ∧
    (∀ name, r'.labels.lookup name = r.labels.lookup name) ∧
    ∀ idx < r.version.blocksCount,
      (target.blocks.getBlockByIdx r'.version idx).uid = (t.getBlockByIdx r.version idx).uid ∧
      (target.blocks.getBlockByIdx r'.version idx).checksum =
        (t.getBlockByIdx r.version idx).checksum ∧
      (target.blocks.getBlockByIdx r'.version idx).size = (t.getBlockByIdx r.version idx).size ∧
      (target.blocks.getBlockByIdx r'.version idx).valid = (t.getBlockByIdx r.version idx).valid

section
variable {U : UnicodeData} {S : SemanticVersion} {perCall : ℕ} {t : BlockTable String}
  {importV1 : FormatVersion → Archive → Json → Except Error (List VersionUid × Archive)}

/-- No column of a version is called `date` any more. -/
theorem importVersion_ofVersion (db : Archive) (r : VersionRecord) :
    importVersion db (Export.ofVersion perCall t r) =
      .error (.inputDataError
        s!"Missing attribute date in version {String.ofList r.uid.text}.") := by
  have hu : toVersionUid (.str (String.ofList r.uid.text)) = .ok r.uid := by
    have ha : InputValidation.isVersionUid (String.ofList r.uid.text).toList = true := by
      rw [String.toList_ofList]
      exact r.uid.accepted
    rw [toVersionUid, dif_pos ha]
    congr 1
    exact VersionUid.ext (String.toList_ofList)
  rw [Export.ofVersion_eq]
  simp [importVersion, requireItem, getItem, List.lookup_cons, hu, attributesToCheck, bind,
    Except.bind]
  rfl

theorem importV3_document (db : Archive) (records : List VersionRecord) :
    importV3 db (Export.document perCall t records) =
      match records with
      | [] => .ok ([], db)
      | r :: _ => .error (.inputDataError
          s!"Missing attribute date in version {String.ofList r.uid.text}.") := by
  have hg : getItem (Export.document perCall t records) "versions" =
      .ok (.list (records.map (Export.ofVersion perCall t))) := rfl
  rw [importV3, hg]
  cases records with
  | nil => rfl
  | cons r records =>
    show ((importVersion db (Export.ofVersion perCall t r) >>= fun _ => _) >>= _) = _
    rw [importVersion_ofVersion]
    rfl

theorem matchesRegex_currentVersion : matchesRegex U Export.currentVersion = true := by
  have hsplit : Export.currentVersion.toList.splitOn '.' = [['3'], ['0'], ['0']] := by decide
  rw [matchesRegex, hsplit]
  rfl

theorem import_document (hs : S.Reads Export.currentVersion ⟨3, 0, 0, [], []⟩ 1 4) (db : Archive)
    (records : List VersionRecord) :
    import_ U S importV1 db (Json.dumps (Export.document perCall t records)) =
      importV3 db (Export.document perCall t records) := by
  have hload := Json.loads_dumps (Export.wf_document perCall t records)
  have hm := @matchesRegex_currentVersion U
  have hsupported : supported S ⟨3, 0, 0, [], []⟩ = true := hs.contains
  rw [Export.document] at hload
  simp only [import_, importJson, Export.document, hload, bind, Except.bind, List.lookup_cons,
    beq_self_eq_true, hm, hs.version, Except.mapError, hsupported, importMethod, Bool.not_true,
    Bool.false_eq_true, if_false]

theorem mapM_cons_ne_nil {α β ε : Type} {f : α → Except ε β} {a : α} {l : List α} :
    (a :: l).mapM f ≠ .ok [] := by
  rw [List.mapM_cons]
  cases f a with
  | error e => exact fun h => by cases h
  | ok b =>
    cases l.mapM f with
    | error e =>
      intro h
      simp [bind, Except.bind] at h
    | ok bs =>
      intro h
      simp [bind, Except.bind, pure, Except.pure] at h

/-- The importer asks every version for its `date`, which the encoder writes for none. -/
theorem import_export_iff {source target : Archive} {uids : List VersionUid} {text : String}
    (hs : S.Reads Export.currentVersion ⟨3, 0, 0, [], []⟩ 1 4)
    (h : Export.exportText perCall source.blocks source.versions uids = .ok text) :
    (∃ imported target', import_ U S importV1 target text = .ok (imported, target') ∧
      ∀ uid ∈ uids, ∃ r ∈ source.versions, r.uid = uid ∧ Recreates target' source.blocks r) ↔
    uids = [] := by
  cases hr : uids.mapM (Export.getByUid source.versions) with
  | error e =>
    rw [Export.exportText, hr] at h
    cases h
  | ok records =>
    have ht : text = Json.dumps (Export.document perCall source.blocks records) := by
      rw [Export.exportText, hr] at h
      exact (Except.ok.inj h).symm
    rw [ht, import_document hs, importV3_document]
    constructor
    · rintro ⟨imported, target', hi, -⟩
      cases uids with
      | nil => rfl
      | cons uid uids =>
        cases records with
        | nil => exact absurd hr mapM_cons_ne_nil
        | cons r records => cases hi
    · rintro rfl
      obtain rfl : ([] : List VersionRecord) = records := Except.ok.inj hr
      exact ⟨[], target, rfl, fun _ hu => by cases hu⟩

def exampleRecord : VersionRecord where
  id := 1
  uid := ⟨"V0000000001".toList, by decide⟩
  volume := "vm-1"
  volumeName := none
  jobName := none
  snapshot := "2021-01-01"
  size := 6000
  blockSize := 4096
  storage := ⟨1, "file"⟩
  status := .valid
  isProtected := false
  bytesRead := some 6000
  bytesWritten := some 4096
  bytesDeduplicated := some 0
  bytesSparse := some 1904
  duration := some 1
  deleted := some false
  createdAt := some ⟨2021, 1, 1, 0, 0, 0, 0⟩
  expiredAt := none
  deletedAt := none
  vm := ⟨1, "vm", none, none, ⟨1, none, "name", "mail", "user", none, "secret", none, "USER"⟩⟩
  labels := [("kind", "test")]
  labels_nodup := by decide

def exampleSource : Archive where
  versions := [exampleRecord]
  blocks := Table.empty
  storages := [⟨1, "file"⟩]
  storageByValue _ := none

def exampleTarget : Archive where
  versions := []
  blocks := Table.empty
  storages := [⟨1, "file"⟩]
  storageByValue _ := none

theorem import_export_iff_example :
    (∃ imported target', import_ .ascii .plain (fun _ _ _ => .error .typeError) exampleTarget
        (Json.dumps (Export.document 10000 exampleSource.blocks [exampleRecord])) =
          .ok (imported, target') ∧
      ∀ uid ∈ [exampleRecord.uid], ∃ r ∈ exampleSource.versions, r.uid = uid ∧
        Recreates target' exampleSource.blocks r) ↔
    [exampleRecord.uid] = [] :=
  import_export_iff ⟨rfl, rfl⟩ (show Export.exportText 10000 exampleSource.blocks
    exampleSource.versions [exampleRecord.uid] = .ok _ from rfl)

/-- One version, imported where its storage exists and no version does. -/
theorem exported_version_rejected :
    ¬ ∀ (source target : Archive) (uids : List VersionUid) (text : String),
      Export.exportText 10000 source.blocks source.versions uids = .ok text →
      source.storages = target.storages → (∀ uid ∈ uids, ∀ r ∈ target.versions, r.uid ≠ uid) →
      ∃ imported target', import_ .ascii .plain (fun _ _ _ => .error .typeError) target text =
          .ok (imported, target') ∧
        ∀ uid ∈ uids, ∃ r ∈ source.versions, r.uid = uid ∧ Recreates target' source.blocks r := by
  intro h
  obtain ⟨imported, target', hi, -⟩ := h exampleSource exampleTarget
    [exampleRecord.uid] _ rfl rfl (fun _ _ _ hr => by cases hr)
  have hd : import_ .ascii .plain (fun _ _ _ => .error .typeError) exampleTarget
      (Json.dumps (Export.document 10000 exampleSource.blocks [exampleRecord])) =
        .ok (imported, target') := hi
  rw [import_document ⟨rfl, rfl⟩, importV3_document] at hd
  cases hd

end

end Import
end Benji
