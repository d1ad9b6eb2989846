import Mathlib.Data.List.Basic
import Benji.Lib.Json
import Benji.Lib.Path

/-! The checks of names and values, and of the versions of data formats. -/
namespace Benji
open Lib

namespace InputValidation

/-- A character of `[-a-zA-Z0-9_.:/@+]`. -/
def valueChar (c : Char) : Bool := c.isAlphanum || "-_.:/@+".toList.contains c

/-- What the look-arounds of all patterns say: no dash at either end. -/
def noDashAround (s : Text) : Bool := s.head? ≠ some '-' && s.getLast? ≠ some '-'

/-- A full match of `VALUE_REGEXP`. -/
def isValue (s : Text) : Bool := s ≠ [] && s.all valueChar && noDashAround s

def isVersionUid (name : Text) : Bool := isValue name

def isVolumeName (name : Text) : Bool := isValue name

def isSnapshotName (name : Text) : Bool := name = [] || isValue name

def isLabelValue (value : Text) : Bool := value = [] || isValue value

/-- A full match of `QUALIFIED_NAME_REGEXP`. -/
def isQualifiedName (s : Text) : Bool :=
  1 ≤ s.length && s.length ≤ 63 && (s.all fun c => c.isAlphanum || "-_.".toList.contains c) &&
    noDashAround s

/-- A full match of `DNS1123_LABEL_REGEXP`. -/
def isDns1123Label (s : Text) : Bool :=
  1 ≤ s.length && s.length ≤ 63 && (s.all fun c => c.isLower || c.isDigit || c = '-') &&
    noDashAround s

def isDns1123Subdomain (s : Text) : Bool :=
  s.length ≤ 253 && (s.splitOn '.').all isDns1123Label

/-- `none` where unpacking the parts of the name fails. -/
def isLabelName (name : Text) : Option Bool :=
  match name.splitOn '/' with
  | [name] => some (isQualifiedName name)
  | [subdomain, name] =>
    some (subdomain ≠ [] && name ≠ [] && isDns1123Subdomain subdomain && isQualifiedName name)
  | _ => none

end InputValidation

structure VersionUid where
  text : Text
  accepted : InputValidation.isVersionUid text = true

theorem VersionUid.ext {u v : VersionUid} (h : u.text = v.text) : u = v := by
  cases u
  cases v
  cases h
  rfl

/-- `semantic_version.Version`. -/
structure FormatVersion where
  major : ℕ
  minor : ℕ
  patch : ℕ
  prerelease : List String
  build : List String

/-- `str(version)`. -/
def FormatVersion.str (v : FormatVersion) : String :=
  let part (mark : String) (texts : List String) := if texts = [] then "" else
    mark ++ ".".intercalate texts
  s!"{v.major}.{v.minor}.{v.patch}" ++ part "-" v.prerelease ++ part "+" v.build

inductive VersionError where
  | valueError (message : String)
  | typeError

/-- The module `semantic_version`: `Version(value)`, and whether `SimpleSpec` with a lowest and a
highest major number, which is not included, contains a version. -/
structure SemanticVersion where
  version : Json → Except VersionError FormatVersion
  contains : ℕ → ℕ → FormatVersion → Bool

/-- A text is read as a version that is contained. -/
structure SemanticVersion.Reads (S : SemanticVersion) (text : String) (v : FormatVersion)
    (low high : ℕ) : Prop where
  version : S.version (.str text) = .ok v
  contains : S.contains low high v = true

/-- Versions of three ASCII numbers, as all are that the program writes. -/
def SemanticVersion.plain : SemanticVersion where
  version
    | .str s =>
      let number (t : Text) : Option ℕ :=
        if t ≠ [] ∧ t.all Char.isDigit ∧ (t.head? = some '0' → t.length = 1) then
          some (Nat.ofDigitChars 10 t 0)
        else none
      match (s.toList.splitOn '.').map number with
      | [some major, some minor, some patch] => .ok ⟨major, minor, patch, [], []⟩
      | _ => .error (.valueError s!"Invalid version string: \"{s}\"")
    | _ => .error .typeError
  contains low high v := low ≤ v.major && v.major < high

end Benji
