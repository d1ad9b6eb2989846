import Benji.Database.Blocks
import Benji.InputValidation
import Benji.Lib.Json

/-! `export`: the encoder that walks the mapped classes, and the document it writes. -/
namespace Benji
open Lib

/-- A naive `datetime`. -/
structure DateTime where
  year : ℕ
  month : ℕ
  day : ℕ
  hour : ℕ
  minute : ℕ
  second : ℕ
  microsecond : ℕ
  deriving DecidableEq, Repr

/-- Decimal digits, padded with zeros. -/
def padded (width n : ℕ) : String := String.ofList ((Nat.toDigits 10 n).leftpad width '0')

/-- `isoformat(timespec='microseconds')`. -/
def DateTime.isoformat (d : DateTime) : String :=
  s!"{padded 4 d.year}-{padded 2 d.month}-{padded 2 d.day}T" ++
    s!"{padded 2 d.hour}:{padded 2 d.minute}:{padded 2 d.second}.{padded 6 d.microsecond}"

structure UserRecord where
  id : ℕ
  miqId : Option ℕ
  fullname : String
  email : String
  userName : String
  status : Option Bool
  password : String
  enableTwoFactors : Option Bool
  userRole : String
  deriving DecidableEq, Repr

structure VmRecord where
  id : ℕ
  name : String
  emsRef : Option String
  createdAt : Option DateTime
  user : UserRecord
  deriving DecidableEq, Repr

/-- A row of `versions` with all its columns, its labels and what it refers to. -/
structure VersionRecord where
  id : ℕ
  uid : VersionUid
  volume : String
  volumeName : Option String
  jobName : Option String
  snapshot : String
  size : ℕ
  blockSize : ℕ
  storage : Storage
  status : VersionStatus
  isProtected : Bool
  bytesRead : Option ℕ
  bytesWritten : Option ℕ
  bytesDeduplicated : Option ℕ
  bytesSparse : Option ℕ
  duration : Option ℕ
  deleted : Option Bool
  createdAt : Option DateTime
  expiredAt : Option DateTime
  deletedAt : Option DateTime
  vm : VmRecord
  labels : List (String × String)
  labels_nodup : (labels.map Prod.fst).Nodup

/-- The columns that the block table depends on. -/
def VersionRecord.version (r : VersionRecord) : Version where
  id := r.id
  uid := String.ofList r.uid.text
  storage := r.storage
  size := r.size
  blockSize := r.blockSize
  status := r.status
  stats := none

namespace Export

/-- The mapped classes the encoder walks. -/
inductive Model where
  | version
  | block
  | vm
  | user
  deriving DecidableEq

/-- `key in text` for texts. -/
def isPart (key text : Text) : Bool := text.tails.any fun rest => List.isPrefixOf key rest

/-- `ignore_fields`. The entry for `Version` names its columns by a string, and a key that is
part of that string counts as named. -/
def ignoredField (m : Model) (key : String) : Bool :=
  (m = .block && key = "version_id") ||
  (m = .block && (key = "uid_left" || key = "uid_right")) ||
  (m = .version && isPart key.toList "storage_id".toList)

/-- `ignore_relationships`. -/
def ignoredRelationship (m : Model) (key : String) : Bool := m = .block && key = "version"

/-- `BenjiEncoder.default` on a mapped object: composites, columns, then relationships. -/
def walk (m : Model) (composites columns relationships : List (String × Json)) :
    List (String × Json) :=
  (composites.filter fun e => !ignoredField m e.1) ++
    (columns.filter fun e => !ignoredField m e.1) ++
    relationships.filter fun e => !ignoredRelationship m e.1

def optional {α : Type} (f : α → Json) : Option α → Json
  | some a => f a
  | none => .null

def ofNat (n : ℕ) : Json := .int n

def ofDateTime (d : DateTime) : Json := .str (d.isoformat ++ "Z")

def statusName : VersionStatus → String
  | .incomplete => "incomplete"
  | .valid => "valid"
  | .invalid => "invalid"

def ofUid : Option BlockUid → Json
  | some uid => .dict [("left", ofNat uid.left), ("right", ofNat uid.right)]
  | none => .dict [("left", .null), ("right", .null)]

def ofBlock (b : Block String) : Json := .dict <|
  walk .block [("uid", ofUid b.uid)]
    [("idx", ofNat b.idx), ("uid_right", optional (fun u => ofNat u.right) b.uid),
      ("uid_left", optional (fun u => ofNat u.left) b.uid), ("size", ofNat b.size),
      ("version_id", ofNat b.versionId), ("valid", .bool b.valid),
      ("checksum", optional .str b.checksum)] []

def ofUser (u : UserRecord) : Json := .dict <|
  walk .user []
    [("id", ofNat u.id), ("miq_id", optional ofNat u.miqId), ("fullname", .str u.fullname),
      ("email", .str u.email), ("user_name", .str u.userName),
      ("status", optional .bool u.status), ("password", .str u.password),
      ("enable_two_factors", optional .bool u.enableTwoFactors),
      ("user_role", .str u.userRole)] []

def ofVm (v : VmRecord) : Json := .dict <|
  walk .vm []
    [("id", ofNat v.id), ("name", .str v.name), ("ems_ref", optional .str v.emsRef),
      ("created_at", optional ofDateTime v.createdAt), ("user_id", ofNat v.user.id)]
    [("user", ofUser v.user)]

def columns (r : VersionRecord) : List (String × Json) :=
  [("id", ofNat r.id), ("uid", .str (String.ofList r.uid.text)), ("volume", .str r.volume),
    ("volume_name", optional .str r.volumeName), ("job_name", optional .str r.jobName),
    ("snapshot", .str r.snapshot), ("size", ofNat r.size), ("block_size", ofNat r.blockSize),
    ("storage_id", ofNat r.storage.id), ("status", .str (statusName r.status)),
    ("protected", .bool r.isProtected), ("bytes_read", optional ofNat r.bytesRead),
    ("bytes_written", optional ofNat r.bytesWritten),
    ("bytes_deduplicated", optional ofNat r.bytesDeduplicated),
    ("bytes_sparse", optional ofNat r.bytesSparse), ("duration", optional ofNat r.duration),
    ("deleted", optional .bool r.deleted), ("created_at", optional ofDateTime r.createdAt),
    ("expired_at", optional ofDateTime r.expiredAt),
    ("deleted_at", optional ofDateTime r.deletedAt), ("vm_id", ofNat r.vm.id)]

def ofLabels (r : VersionRecord) : Json := .dict (r.labels.map fun e => (e.1, .str e.2))

/-- The labels are moved behind the other relationships, the blocks come last. -/
def ofVersion (perCall : ℕ) (t : BlockTable String) (r : VersionRecord) : Json :=
  let fields := walk .version [] (columns r)
    [("storage", .str r.storage.name), ("labels", ofLabels r), ("vm", ofVm r.vm)]
  .dict ((fields.filter fun e => e.1 ≠ "labels") ++ (fields.filter fun e => e.1 = "labels") ++
    [("blocks", .list ((t.blocks perCall r.version).map ofBlock))])

/-- `VERSIONS.database_metadata.current`. -/
def currentVersion : String := "3.0.0"

/-- What `export` hands to `json.dump` for the versions found. -/
def document (perCall : ℕ) (t : BlockTable String) (records : List VersionRecord) : Json :=
  .dict [("metadata_version", .str currentVersion),
    ("versions", .list (records.map (ofVersion perCall t)))]

/-- `Version.get_by_uid`. -/
def getByUid (records : List VersionRecord) (uid : VersionUid) : Except String VersionRecord :=
  match records.find? fun r => r.uid.text = uid.text with
  | some r => .ok r
  | none => .error s!"Version {String.ofList uid.text} not found."

/-- `export`: the text for the versions of these uids, or the message of a `KeyError`. -/
def exportText (perCall : ℕ) (t : BlockTable String) (records : List VersionRecord)
    (uids : List VersionUid) : Except String String := do
  return Json.dumps (document perCall t (← uids.mapM (getByUid records)))

/-! The texts parse: no dict has a key twice. -/

theorem ignoredField_version : ∀ key ∈ ["uid", "volume", "volume_name", "job_name", "snapshot",
    "size", "block_size", "status", "protected", "bytes_read", "bytes_written",
    "bytes_deduplicated", "bytes_sparse", "duration", "deleted", "created_at", "expired_at",
    "deleted_at", "vm_id"], ignoredField .version key = false := by decide

theorem ignoredField_id : ignoredField .version "id" = true ∧
    ignoredField .version "storage_id" = true := by decide

/-- The fields of an exported version. -/
theorem ofVersion_eq (perCall : ℕ) (t : BlockTable String) (r : VersionRecord) :
    ofVersion perCall t r = .dict
      [("uid", .str (String.ofList r.uid.text)), ("volume", .str r.volume),
        ("volume_name", optional .str r.volumeName), ("job_name", optional .str r.jobName),
        ("snapshot", .str r.snapshot), ("size", ofNat r.size), ("block_size", ofNat r.blockSize),
        ("status", .str (statusName r.status)), ("protected", .bool r.isProtected),
        ("bytes_read", optional ofNat r.bytesRead),
        ("bytes_written", optional ofNat r.bytesWritten),
        ("bytes_deduplicated", optional ofNat r.bytesDeduplicated),
        ("bytes_sparse", optional ofNat r.bytesSparse), ("duration", optional ofNat r.duration),
        ("deleted", optional .bool r.deleted), ("created_at", optional ofDateTime r.createdAt),
        ("expired_at", optional ofDateTime r.expiredAt),
        ("deleted_at", optional ofDateTime r.deletedAt), ("vm_id", ofNat r.vm.id),
        ("storage", .str r.storage.name), ("vm", ofVm r.vm), ("labels", ofLabels r),
        ("blocks", .list ((t.blocks perCall r.version).map ofBlock))] := by
  have h := ignoredField_version
  simp only [List.forall_mem_cons] at h
  simp [ofVersion, walk, columns, h, ignoredField_id, ignoredRelationship]

theorem wf_optional (o : Option String) (n : Option ℕ) (b : Option Bool) (d : Option DateTime) :
    (optional .str o).WF ∧ (optional ofNat n).WF ∧ (optional .bool b).WF ∧
      (optional ofDateTime d).WF := by
  cases o <;> cases n <;> cases b <;> cases d <;>
    exact ⟨trivial, trivial, trivial, trivial⟩

theorem wf_ofUid (o : Option BlockUid) : (ofUid o).WF := by
  cases o <;> simp [ofUid, Json.WF, Json.WFItems, ofNat]

theorem wf_ofBlock (b : Block String) : (ofBlock b).WF := by
  have h1 : ignoredField .block "uid" = false ∧ ignoredField .block "idx" = false ∧
      ignoredField .block "size" = false ∧ ignoredField .block "valid" = false ∧
      ignoredField .block "checksum" = false ∧ ignoredField .block "uid_right" = true ∧
      ignoredField .block "uid_left" = true ∧ ignoredField .block "version_id" = true := by decide
  have hc := (wf_optional b.checksum none none none).1
  simp [ofBlock, walk, h1, Json.WF, Json.WFItems, ofNat, wf_ofUid, hc]

theorem wf_ofUser (u : UserRecord) : (ofUser u).WF := by
  have h1 (key : String) : ignoredField .user key = false := by simp [ignoredField]
  obtain ⟨-, hn, hs, -⟩ := wf_optional none u.miqId u.status none
  obtain ⟨-, -, ht, -⟩ := wf_optional none none u.enableTwoFactors none
  simp [ofUser, walk, h1, Json.WF, Json.WFItems, ofNat, hn, hs, ht]

theorem wf_ofVm (v : VmRecord) : (ofVm v).WF := by
  have h1 (key : String) : ignoredField .vm key = false := by simp [ignoredField]
  have h2 (key : String) : ignoredRelationship .vm key = false := by simp [ignoredRelationship]
  obtain ⟨he, -, -, hc⟩ := wf_optional v.emsRef none none v.createdAt
  simp [ofVm, walk, h1, h2, Json.WF, Json.WFItems, ofNat, he, hc, wf_ofUser]

theorem wf_ofLabels (r : VersionRecord) : (ofLabels r).WF := by
  rw [ofLabels, Json.WF]
  constructor
  · have hk : (r.labels.map fun e => (e.1, Json.str e.2)).map Prod.fst = r.labels.map Prod.fst := by
      simp
    rw [hk]
    exact r.labels_nodup
  · induction r.labels with
    | nil => trivial
    | cons e l ih => exact ⟨trivial, ih⟩

theorem wf_list {α : Type} {f : α → Json} (hf : ∀ a, (f a).WF) (l : List α) :
    (Json.list (l.map f)).WF := by
  rw [Json.WF]
  induction l with
  | nil => trivial
  | cons a l ih => exact ⟨hf a, ih⟩

theorem wf_ofVersion (perCall : ℕ) (t : BlockTable String) (r : VersionRecord) :
    (ofVersion perCall t r).WF := by
  rw [ofVersion_eq, Json.WF]
  have hs (o : Option String) := (wf_optional o none none none).1
  have hn (n : Option ℕ) := (wf_optional none n none none).2.1
  have hb (b : Option Bool) := (wf_optional none none b none).2.2.1
  have hd (d : Option DateTime) := (wf_optional none none none d).2.2.2
  refine ⟨by simp, ?_⟩
  simp only [Json.WFItems, hs, hn, hb, hd, wf_ofVm, wf_ofLabels, wf_list wf_ofBlock, and_true]
  simp [Json.WF, ofNat]

theorem wf_document (perCall : ℕ) (t : BlockTable String) (records : List VersionRecord) :
    (document perCall t records).WF := by
  have hl := wf_list (wf_ofVersion perCall t) records
  rw [document, Json.WF]
  exact ⟨by simp, trivial, hl, trivial⟩

end Export
end Benji
