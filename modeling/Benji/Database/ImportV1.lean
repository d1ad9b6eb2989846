import Benji.Database.Import

/-! `import_v1`, which rewrites the first format step by step. -/
namespace Benji
open Lib

namespace Import

/-- `f'V{value:010d}'`. -/
def formatUid : Json → Except Error Text
  | .int (.ofNat n) => .ok ('V' :: (Nat.toDigits 10 n).leftpad 10 '0')
  | .int (.negSucc n) => .ok ('V' :: '-' :: (Nat.toDigits 10 (n + 1)).leftpad 9 '0')
  | .bool b => .ok ('V' :: (Nat.toDigits 10 b.toNat).leftpad 10 '0')
  | .float _ => .error (.valueError "Unknown format code 'd' for object of type 'float'")
  | .str _ => .error (.valueError "Unknown format code 'd' for object of type 'str'")
  | _ => .error .typeError

def attributesToCheckV1 : List String := ["labels", "blocks", "date", "storage_id", "name"]

/-- A key of a dict. -/
def isHashable : Json → Bool
  | .list _ => false
  | .dict _ => false
  | _ => true

def convertLabel (uid : String) : Json → Except Error Unit
  | .dict items => do
    ["name", "value"].forM fun key =>
      requireItem items s!"Missing attribute {key} in labels list in version {uid}." key
    let name ← getItem (.dict items) "name"
    if isHashable name then .ok () else .error .typeError
  | _ => .error (.inputDataError s!"Wrong data type for labels list element in version {uid}.")

/-- The type of the element is not checked: `in` looks into a list or a text as well. -/
def convertBlock (uid : String) (block : Json) : Except Error Unit :=
  let missing : Error :=
    .inputDataError s!"Missing id attribute in block list of version {uid}."
  match block with
  | .dict items => if (items.lookup "id").isSome then .ok () else .error missing
  | .list xs => if xs.any fun x => !DictHmac.differs x "id" then .error .typeError
      else .error missing
  | .str s => if Export.isPart "id".toList s.toList then .error .typeError else .error missing
  | _ => .error .typeError

def checkDate (items : List (String × Json)) (uid : String) : Except Error Unit := do
  match ← getItem (.dict items) "date" with
  | .str _ => .ok ()
  | _ => .error (.inputDataError s!"Wrong data type for date in version {uid}.")

/-- Before the minor version 1 there are no statistics. -/
def readDedup (minor : ℕ) (items : List (String × Json)) : Except Error Unit :=
  if minor = 0 then .ok () else discard (getItem (.dict items) "bytes_dedup")

/-- The body of the loop of `import_v1`. -/
def convertVersion (minor : ℕ) : Json → Except Error Json
  | .dict items => do
    requireItem items "Missing attribute uid in version." "uid"
    let text ← formatUid (← getItem (.dict items) "uid")
    let uid ← toVersionUid (.str (String.ofList text))
    let name := String.ofList uid.text
    attributesToCheckV1.forM fun key =>
      requireItem items s!"Missing attribute {key} in version {name}." key
    readDedup minor items
    let labels ← getList items s!"Wrong data type for labels in version {name}." "labels"
    labels.forM (convertLabel name)
    let blocks ← getList items s!"Wrong data type for blocks in version {name}." "blocks"
    blocks.forM (convertBlock name)
    checkDate items name
    -- `Session.get` wants a mapped class beside the id: no version gets past this line.
    .error .typeError
  | _ => .error (.inputDataError "Wrong data type for versions list element.")

def importV1 (v : FormatVersion) (db : Archive) (json : Json) :
    Except Error (List VersionUid × Archive) := do
  let versions ← iterate (← getItem json "versions")
  let converted ← versions.mapM (convertVersion v.minor)
  match json with
  | .dict items => importV3 db (.dict (Json.setItem "versions" (.list converted) items))
  | _ => .error .typeError

/-- What a call returns or raises and the database after it, rolled back on an exception. -/
def importRun (U : UnicodeData) (S : SemanticVersion) (db : Archive) (json : Option Json) :
    Except Error (List VersionUid) × Archive :=
  match importJson U S importV1 db json with
  | .ok (uids, db') => (.ok uids, db')
  | .error e => (.error e, db)

/-- The versions that a document lists. -/
def listed (json : Json) : List Json :=
  match getItem json "versions" >>= iterate with
  | .ok versions => versions
  | .error _ => []

/-- The exceptions of an import that is refused. -/
def Refusal : Error → Prop
  | .inputDataError _ => True
  | .fileExistsError _ => True
  | _ => False

/-- All versions are imported, or none is and the exception says why. -/
def AllOrNothing (U : UnicodeData) (S : SemanticVersion) (db : Archive) (json : Option Json) :
    Prop :=
  match importRun U S db json with
  | (.ok uids, db') => ∃ v, json = some v ∧ uids.length = (listed v).length ∧
      ∀ version ∈ listed v, ∃ uid ∈ uids,
        getItem version "uid" = .ok (.str (String.ofList uid.text)) ∧
          ∃ r ∈ db'.versions, r.uid = uid
  | (.error e, db') => Refusal e ∧ db' = db

end Import
end Benji
