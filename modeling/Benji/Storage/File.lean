import Benji.Lib.FileTree
import Benji.Storage.Codec
import Benji.Storage.Listing

/-! The driver that keeps the objects of a storage as files, and the map from keys to bytes it
stands for. -/
namespace Benji
open Lib

namespace FileStorage

/-- The name of a file or a directory. -/
def isName (n : Text) : Bool := !n.contains '/' && !Path.empty n && n ≠ Path.dotdot

abbrev Name := {n : Text // isName n = true}

/-- A key whose components are all names. -/
structure Key where
  names : List Name
  ne_nil : names ≠ []

def slashed (names : List Name) : Text := ['/'].intercalate (names.map Subtype.val)

def Key.text (k : Key) : Text := slashed k.names

/-- The names in a text, where all its components are. -/
def names? (text : Text) : Option (List Name) :=
  (text.splitOn '/').mapM fun c => if h : isName c = true then some ⟨c, h⟩ else none

def Key.ofText? (text : Text) : Option Key :=
  (names? text).bind fun names => if h : names ≠ [] then some ⟨names, h⟩ else none

abbrev Tree := FileTree Name Bytes

end FileStorage

/-- A configured storage. The names of its directory are what the path resolves to, from the root
or from the working directory. -/
structure FileStorage where
  path : Text
  base : List FileStorage.Name
  ends : path = [] ∨ path.getLast? = some '/'
  resolves : (Path.normpath path).comps = base.map Subtype.val

namespace FileStorage

abbrev Action (α : Type) := Proc OsError Tree α

section Driver
variable (s : FileStorage)

/-- `os.path.join(self.path, key)` -/
def filename (k : Key) : List Name := s.base ++ k.names

/-- `_write_object`. -/
def writeObject (key : Key) (data : Bytes) : Action Unit :=
  Proc.tryExcept (FileTree.openWrite (s.filename key) data) fun e =>
    if e = .fileNotFound then do
      FileTree.makedirs (s.filename key).dropLast
      FileTree.openWrite (s.filename key) data
    else Proc.raise e

/-- `_read_object`. -/
def readObject (key : Key) : Action Bytes := do
  let t ← Proc.get
  Proc.raiseIf (t.pathExists (s.filename key) = false) .fileNotFound
  FileTree.openRead (s.filename key)

/-- What `os.path.getsize` is for a file, and for a directory. -/
def size (dirSize : ℕ) : Option Bytes → ℕ
  | some data => data.length
  | none => dirSize

/-- `_read_object_length`. -/
def readObjectLength (dirSize : ℕ) (key : Key) : Action ℕ := do
  let t ← Proc.get
  Proc.raiseIf (t.pathExists (s.filename key) = false) .fileNotFound
  match t.getsize (size dirSize) (s.filename key) with
  | .ok n => pure n
  | .error e => Proc.raise e

/-- `_rm_object`. -/
def rmObject (key : Key) : Action Unit := do
  let t ← Proc.get
  Proc.raiseIf (t.pathExists (s.filename key) = false) .fileNotFound
  FileTree.unlink (s.filename key)

/-- The directory that `_list_objects` walks. The prefixes in use are a directory and a slash. -/
def listTop : Option Name → Text
  | some top => Path.join s.path (top.val ++ ['/'])
  | none => s.path

/-- The files that `os.walk` comes upon, as a text and as what it resolves to. -/
def walkFiles (t : Tree) (top : Option Name) : List (Text × List Name) :=
  t.filesBelow (fun root n => (Path.join root.1 n.val, root.2 ++ [n])) (t.height + 1)
    (s.listTop top, s.base ++ top.toList) (s.base ++ top.toList)

/-- The keys that `_list_objects` yields. -/
def listObjects (top : Option Name) : Action (List Text) := do
  let t ← Proc.get
  pure ((s.walkFiles t top).map fun file => file.1.drop s.path.length)

/-- `_list_objects` with `include_size`. -/
def listObjectsSizes (dirSize : ℕ) (top : Option Name) : Action (List (Text × ℕ)) := do
  let t ← Proc.get
  pure ((s.walkFiles t top).filterMap fun file =>
    match t.getsize (size dirSize) file.2 with
    | .ok n => some (file.1.drop s.path.length, n)
    | .error _ => none)

/-- `storage_stats`. -/
def storageStats (dirSize : ℕ) : Action (ℕ × ℕ) := do
  let objects ← s.listObjectsSizes dirSize none
  pure (objects.foldl (fun stats object => (stats.1 + 1, stats.2 + object.2)) (0, 0))

end Driver

/-! ### The abstract storage -/

inductive Call where
  | write (key : Key) (data : Bytes)
  | read (key : Key)
  | readLength (key : Key)
  | rm (key : Key)
  | list (top : Option Name)
  | stats

inductive Answer where
  | done
  | data (bytes : Bytes)
  | length (n : ℕ)
  | keys (keys : List Text)
  | stats (count size : ℕ)
  | raised (e : OsError)

/-- What comes back from a method, and the tree it leaves. -/
def answered {α : Type} (f : α → Answer) (p : Action α) (t : Tree) : Option (Answer × Tree) :=
  match p t with
  | none => none
  | some (.ok a, t') => some (f a, t')
  | some (.error e, t') => some (.raised e, t')

def perform (s : FileStorage) (dirSize : ℕ) : Call → Tree → Option (Answer × Tree)
  | .write key data => answered (fun _ => .done) (s.writeObject key data)
  | .read key => answered .data (s.readObject key)
  | .readLength key => answered .length (s.readObjectLength dirSize key)
  | .rm key => answered (fun _ => .done) (s.rmObject key)
  | .list top => answered .keys (s.listObjects top)
  | .stats => answered (fun st => .stats st.1 st.2) (s.storageStats dirSize)

def run (s : FileStorage) (dirSize : ℕ) : List Call → Tree → Option (List Answer × Tree)
  | [], t => some ([], t)
  | c :: calls, t => do
    let (a, u) ← perform s dirSize c t
    let (answers, v) ← run s dirSize calls u
    return (a :: answers, v)

end FileStorage

def Codec.Files.erase (files : Codec.Files) (key : Text) : Codec.Files := fun k =>
  if k = key then none else files k

namespace FileStorage
open Codec

/-- The text that listed keys start with. -/
def topText : Option Name → Text
  | some top => top.val ++ ['/']
  | none => []

/-- The keys of a map, each once. -/
def Enumerates (files : Files) (top : Text) (keys : List Text) : Prop :=
  keys.Nodup ∧ ∀ k, k ∈ keys ↔ (files k).isSome ∧ top <+: k

/-- What a storage of keys and bytes answers, and how it changes. -/
inductive Meets (files : Files) : Call → Answer → Files → Prop
  | write (key : Key) (data : Bytes) : Meets files (.write key data) .done (files.put key.text data)
  | read {key : Key} {data : Bytes} (h : files key.text = some data) :
    Meets files (.read key) (.data data) files
  | readLength {key : Key} {data : Bytes} (h : files key.text = some data) :
    Meets files (.readLength key) (.length data.length) files
  | rm {key : Key} {data : Bytes} (h : files key.text = some data) :
    Meets files (.rm key) .done (files.erase key.text)
  | readMissing {key : Key} (h : files key.text = none) :
    Meets files (.read key) (.raised .fileNotFound) files
  | readLengthMissing {key : Key} (h : files key.text = none) :
    Meets files (.readLength key) (.raised .fileNotFound) files
  | rmMissing {key : Key} (h : files key.text = none) :
    Meets files (.rm key) (.raised .fileNotFound) files
  | list {top : Option Name} {keys : List Text} (h : Enumerates files (topText top) keys) :
    Meets files (.list top) (.keys keys) files
  | stats {keys : List Text} (h : Enumerates files [] keys) :
    Meets files .stats (.stats keys.length
      (keys.map fun k => ((files k).map List.length).getD 0).sum) files

inductive MeetsAll : Files → List Call → List Answer → Files → Prop
  | nil (files : Files) : MeetsAll files [] [] files
  | cons {files files' files'' : Files} {c : Call} {a : Answer} {calls : List Call}
    {answers : List Answer} (h : Meets files c a files')
    (hrest : MeetsAll files' calls answers files'') :
    MeetsAll files (c :: calls) (a :: answers) files''

/-- The bytes of the files below the directory of the storage, by key. -/
def files (s : FileStorage) (t : Tree) : Files := fun text =>
  (Key.ofText? text).bind fun key =>
    match t.node (s.filename key) with
    | some (.file data) => some data
    | _ => none

/-- No key is a directory on the way to another. -/
def Separate (keys : Set Key) : Prop :=
  ∀ k ∈ keys, ∀ l ∈ keys, k.names <+: l.names → k = l

/-- No file is in the way of a key, and no directory in its place. -/
def Clear (s : FileStorage) (keys : Set Key) (t : Tree) : Prop :=
  ∀ k ∈ keys, t.Passable (s.filename k).dropLast ∧ FileTree.isDir (t.node (s.filename k)) = false

def Call.On (keys : Set Key) : Call → Prop
  | .write key _ | .read key | .readLength key | .rm key => key ∈ keys
  | .list _ | .stats => True

end FileStorage
end Benji
