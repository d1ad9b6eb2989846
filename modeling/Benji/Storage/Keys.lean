import Benji.Lib.Md5
import Benji.InputValidation
import Benji.Lib.Text
import Benji.Database.Tables
import Mathlib.Data.Set.Function

/-! `StorageKeyMixIn` and the file names of the file storage. -/
namespace Benji
open Lib

namespace Keys

/-- `md5(key.encode('ascii')).hexdigest()`. -/
def digest (key : Text) : Text := hexdigest (md5 (key.map fun c => UInt8.ofNat c.toNat))

/-- The first two pairs of digits of the digest. -/
def dirs (key : Text) : Text × Text := ((digest key).take 2, ((digest key).drop 2).take 2)

/-- `_to_path`. -/
def toPath (top key : Text) : Text :=
  top ++ (dirs key).1 ++ '/' :: (dirs key).2 ++ '/' :: key

/-- `'{:016x}'`. -/
def hex16 (n : ℕ) : Text := (Nat.toDigits 16 n).leftpad 16 '0'

/-- The classes that have a key. -/
inductive StorageObject where
  | version (uid : VersionUid)
  | block (uid : BlockUid)

namespace StorageObject

def storagePrefix : StorageObject → Text
  | version _ => "versions/".toList
  | block _ => "blocks/".toList

def storageObjectToKey : StorageObject → Text
  | version uid => uid.text
  | block uid => hex16 uid.left ++ '-' :: hex16 uid.right

def storageObjectToPath (o : StorageObject) : Text := toPath o.storagePrefix o.storageObjectToKey

end StorageObject

def metaSuffix : Text := ".meta".toList

/-- An object in the storage or its companion. -/
structure File where
  object : StorageObject
  companion : Bool

/-- The key with what is appended for the companion. -/
def File.key (f : File) : Text :=
  f.object.storageObjectToPath ++ if f.companion then metaSuffix else []

/-- `Storage.__init__` of the file storage on the configured path. -/
def storagePath (path : Text) : Text :=
  if path.getLast? = some '/' then path else Path.join path []

def File.path (path : Text) (f : File) : Path.Norm :=
  Path.normpath (Path.join (storagePath path) f.key)

/-- The directory of the storage the file belongs in. -/
def File.home (path : Text) (f : File) : Path.Norm :=
  Path.normpath (Path.join (storagePath path) f.object.storagePrefix)

/-- What the user or the database chose of the name, with the suffix. -/
def File.tail (f : File) : Text :=
  f.object.storageObjectToKey ++ if f.companion then metaSuffix else []

def File.dirs (f : File) : Text × Text := Keys.dirs f.object.storageObjectToKey

theorem length_digest (key : Text) : (digest key).length = 32 := by
  have h := length_md5 (key.map fun c => UInt8.ofNat c.toNat)
  simp only [digest, hexdigest, List.length_flatMap, List.length_cons, List.length_nil]
  simp [h]

/-- What two digits in a row are, as a component of a path. -/
theorem mem_digest {key : Text} {c : Char} (hc : c ∈ digest key) : c ≠ '/' ∧ c ≠ '.' := by
  rw [digest, hexdigest, List.mem_flatMap] at hc
  obtain ⟨b, -, hc⟩ := hc
  have hall : ∀ d < 16, Nat.digitChar d ≠ '/' ∧ Nat.digitChar d ≠ '.' := by decide
  have hb : b.toNat < 256 := b.toNat_lt
  simp only [List.mem_cons, List.not_mem_nil, or_false] at hc
  rcases hc with rfl | rfl
  · exact hall _ (by omega)
  · exact hall _ (by omega)

theorem toDigits_induction {P : ℕ → List Char → Prop} (h1 : ∀ n < 16, P n [n.digitChar])
    (h2 : ∀ n, 16 ≤ n → ∀ l, P (n / 16) l → P n (l ++ [Nat.digitChar (n % 16)])) (n : ℕ) :
    P n (Nat.toDigits 16 n) := by
  induction n using Nat.strong_induction_on with
  | _ n ih =>
    by_cases hn : n < 16
    · rw [Nat.toDigits_of_lt_base hn]
      exact h1 n hn
    · have hle : 16 ≤ n := Nat.le_of_not_lt hn
      rw [Nat.toDigits_of_base_le (by decide) hle]
      exact h2 n hle _ (ih (n / 16) (by omega))

theorem mem_hex16 {n : ℕ} {c : Char} (hc : c ∈ hex16 n) : c ≠ '/' ∧ c ≠ '.' ∧ c ≠ '-' := by
  have hall : ∀ d < 16, Nat.digitChar d ≠ '/' ∧ Nat.digitChar d ≠ '.' ∧ Nat.digitChar d ≠ '-' := by
    decide
  have hdigits : ∀ c ∈ Nat.toDigits 16 n, c ≠ '/' ∧ c ≠ '.' ∧ c ≠ '-' := by
    apply toDigits_induction (P := fun _ l => ∀ c ∈ l, c ≠ '/' ∧ c ≠ '.' ∧ c ≠ '-')
    · intro n hn c hc
      rw [List.mem_singleton.mp hc]
      exact hall n hn
    · intro n _ l ih c hc
      rcases List.mem_append.mp hc with hl | hd
      · exact ih c hl
      · rw [List.mem_singleton.mp hd]
        exact hall _ (Nat.mod_lt n (by decide))
  rw [hex16, List.leftpad, List.mem_append] at hc
  rcases hc with hz | hd
  · rw [List.eq_of_mem_replicate hz]
    decide
  · exact hdigits c hd

/-- Reading hexadecimal digits back. -/
def ofHex (l : List Char) : ℕ :=
  l.foldl (fun n c => 16 * n + (List.range 16).findIdx fun d => d.digitChar = c) 0

theorem ofHex_append_digit (l : List Char) {d : ℕ} (hd : d < 16) :
    ofHex (l ++ [d.digitChar]) = 16 * ofHex l + d := by
  have hall : ∀ d < 16, ((List.range 16).findIdx fun e => e.digitChar = d.digitChar) = d := by
    decide
  rw [ofHex, List.foldl_append, List.foldl_cons, List.foldl_nil, hall d hd]
  rfl

theorem ofHex_hex16 (n : ℕ) : ofHex (hex16 n) = n := by
  have hzeros (k : ℕ) (l : List Char) : ofHex (List.replicate k '0' ++ l) = ofHex l := by
    induction k with
    | zero => rfl
    | succ k ih =>
      rw [← ih, List.replicate_succ, List.cons_append]
      rfl
  rw [hex16, List.leftpad, hzeros]
  apply toDigits_induction (P := fun n l => ofHex l = n)
  · intro n hn
    have := ofHex_append_digit [] hn
    simpa [ofHex] using this
  · intro n _ l ih
    rw [ofHex_append_digit l (Nat.mod_lt n (by decide)), ih]
    omega

theorem blockKey_inj {a b : BlockUid} (h : hex16 a.left ++ '-' :: hex16 a.right =
    hex16 b.left ++ '-' :: hex16 b.right) : a = b := by
  have hmem (n : ℕ) : '-' ∉ hex16 n := fun hc => (mem_hex16 hc).2.2 rfl
  have hs := congrArg (List.splitOn '-') h
  rw [List.splitOn_append_cons_self_of_not_mem (hmem _), List.splitOn_eq_singleton (hmem _),
    List.splitOn_append_cons_self_of_not_mem (hmem _), List.splitOn_eq_singleton (hmem _)] at hs
  obtain ⟨hl, hr, -⟩ := List.cons.inj hs |>.imp_right List.cons.inj
  have hl := congrArg ofHex hl
  have hr := congrArg ofHex hr
  rw [ofHex_hex16, ofHex_hex16] at hl hr
  cases a
  cases b
  cases hl
  cases hr
  rfl

section Layout
variable {f g : File} {path : Text}

/-- The first component of every key of the class. -/
def StorageObject.top : StorageObject → Text
  | version _ => "versions".toList
  | block _ => "blocks".toList

theorem storagePrefix_eq (o : StorageObject) : o.storagePrefix = o.top ++ ['/'] := by
  cases o <;> rfl

theorem top_plain (o : StorageObject) : '/' ∉ o.top ∧ Path.empty o.top = false ∧
    o.top ≠ Path.dotdot ∧ o.top.head? ≠ some '/' := by
  cases o with
  | version uid =>
    show '/' ∉ "versions".toList ∧ Path.empty "versions".toList = false ∧
      "versions".toList ≠ Path.dotdot ∧ "versions".toList.head? ≠ some '/'
    decide
  | block uid =>
    show '/' ∉ "blocks".toList ∧ Path.empty "blocks".toList = false ∧
      "blocks".toList ≠ Path.dotdot ∧ "blocks".toList.head? ≠ some '/'
    decide

theorem head_top (o : StorageObject) (rest : Text) : (o.top ++ rest).head? ≠ some '/' := by
  obtain ⟨-, he, -, hk⟩ := top_plain o
  cases ht : o.top with
  | nil =>
    rw [ht] at he
    cases he
  | cons c t =>
    rw [ht] at hk
    exact hk

theorem dirs_plain (key : Text) : ('/' ∉ (dirs key).1 ∧ '.' ∉ (dirs key).1 ∧ (dirs key).1 ≠ []) ∧
    '/' ∉ (dirs key).2 ∧ '.' ∉ (dirs key).2 ∧ (dirs key).2 ≠ [] := by
  have hl := length_digest key
  have h1 : ∀ c ∈ (dirs key).1, c ∈ digest key := fun c hc => List.mem_of_mem_take hc
  have h2 : ∀ c ∈ (dirs key).2, c ∈ digest key := fun c hc =>
    List.mem_of_mem_drop (List.mem_of_mem_take hc)
  have n1 : (dirs key).1.length = 2 := by simp [dirs, hl]
  have n2 : (dirs key).2.length = 2 := by simp [dirs, hl]
  refine ⟨⟨fun hc => (mem_digest (h1 _ hc)).1 rfl, fun hc => (mem_digest (h1 _ hc)).2 rfl, ?_⟩,
    fun hc => (mem_digest (h2 _ hc)).1 rfl, fun hc => (mem_digest (h2 _ hc)).2 rfl, ?_⟩
  · intro h
    rw [h] at n1
    cases n1
  · intro h
    rw [h] at n2
    cases n2

theorem plain_of_no_dot {c : Text} (hd : '.' ∉ c) (hc : c ≠ []) :
    Path.empty c = false ∧ c ≠ Path.dotdot := by
  constructor
  · rw [Path.empty, Bool.or_eq_false_iff, decide_eq_false_iff_not, decide_eq_false_iff_not]
    refine ⟨hc, ?_⟩
    rintro rfl
    exact hd (List.mem_singleton.mpr rfl)
  · rintro rfl
    exact hd (List.mem_cons_self ..)

theorem key_eq (f : File) :
    f.key = f.object.top ++ '/' :: (f.dirs.1 ++ '/' :: (f.dirs.2 ++ '/' :: f.tail)) := by
  simp [File.key, StorageObject.storageObjectToPath, toPath, storagePrefix_eq, File.dirs,
    File.tail]

theorem names_key (f : File) :
    Path.names f.key = [f.object.top, f.dirs.1, f.dirs.2] ++ Path.names f.tail := by
  obtain ⟨⟨h1, d1, n1⟩, h2, d2, n2⟩ := dirs_plain f.object.storageObjectToKey
  obtain ⟨h0, e0, -⟩ := top_plain f.object
  rw [key_eq, Path.names_slash, Path.names_slash, Path.names_slash, Path.names_of_not_mem h0 e0,
    File.dirs, Path.names_of_not_mem h1 (plain_of_no_dot d1 n1).1,
    Path.names_of_not_mem h2 (plain_of_no_dot d2 n2).1]
  rfl

/-- The key chosen by the user or the database never goes up. -/
def StorageObject.Descends (o : StorageObject) : Prop :=
  Path.dotdot ∉ o.storageObjectToKey.splitOn '/'

theorem block_descends (b : BlockUid) : (StorageObject.block b).Descends := by
  have hmem : ∀ c ∈ hex16 b.left ++ '-' :: hex16 b.right, c ≠ '/' ∧ c ≠ '.' := by
    intro c hc
    rcases List.mem_append.mp hc with hl | hc
    · exact ⟨(mem_hex16 hl).1, (mem_hex16 hl).2.1⟩
    rcases List.mem_cons.mp hc with rfl | hr
    · decide
    · exact ⟨(mem_hex16 hr).1, (mem_hex16 hr).2.1⟩
  unfold StorageObject.Descends StorageObject.storageObjectToKey
  rw [List.splitOn_eq_singleton fun hs => (hmem _ hs).1 rfl, List.mem_singleton]
  intro h
  exact (hmem '.' (h ▸ List.mem_cons_self ..)).2 rfl

theorem tail_descends (h : f.object.Descends) : Path.dotdot ∉ f.tail.splitOn '/' := by
  unfold File.tail
  cases f.companion with
  | false =>
    rw [if_neg Bool.false_ne_true, List.append_nil]
    exact h
  | true => exact Path.dotdot_not_mem_append (b := metaSuffix) (by decide) (by decide) h

theorem key_descends (h : f.object.Descends) : Path.dotdot ∉ f.key.splitOn '/' := by
  obtain ⟨⟨h1, d1, n1⟩, h2, d2, n2⟩ := dirs_plain f.object.storageObjectToKey
  obtain ⟨h0, -, t0, -⟩ := top_plain f.object
  rw [key_eq, List.splitOn_append_cons_self_of_not_mem h0, File.dirs,
    List.splitOn_append_cons_self_of_not_mem h1, List.splitOn_append_cons_self_of_not_mem h2]
  simp only [List.mem_cons, not_or]
  exact ⟨Ne.symm t0, (plain_of_no_dot d1 n1).2.symm, (plain_of_no_dot d2 n2).2.symm,
    tail_descends h⟩

theorem storagePath_slash (path : Text) :
    storagePath path = [] ∨ (storagePath path).getLast? = some '/' := by
  unfold storagePath
  split
  · rename_i h
    exact .inr h
  · unfold Path.join
    by_cases hp : path = []
    · exact .inl (by simp [hp])
    · right
      rename_i h
      simp [hp, h]

/-- Where a file of an object that never goes up lies. -/
theorem path_eq (path : Text) (h : f.object.Descends) :
    f.path path = ⟨(Path.normpath (storagePath path)).slashes,
      (Path.normpath (storagePath path)).comps ++
        ([f.object.top, f.dirs.1, f.dirs.2] ++ Path.names f.tail)⟩ := by
  have hk : f.key.head? ≠ some '/' := key_eq f ▸ head_top f.object _
  rw [File.path, Path.normpath_join (storagePath_slash path) hk (key_descends h), names_key]

theorem home_eq (path : Text) (f : File) :
    f.home path = ⟨(Path.normpath (storagePath path)).slashes,
      (Path.normpath (storagePath path)).comps ++ [f.object.top]⟩ := by
  obtain ⟨h0, e0, t0, -⟩ := top_plain f.object
  have hs : f.object.storagePrefix.splitOn '/' = [f.object.top, []] := by
    rw [storagePrefix_eq, List.splitOn_append_cons_self_of_not_mem h0]
    rfl
  have hd : Path.dotdot ∉ f.object.storagePrefix.splitOn '/' := by
    rw [hs]
    simp only [List.mem_cons, List.not_mem_nil, or_false, not_or]
    exact ⟨Ne.symm t0, by decide⟩
  have hk : f.object.storagePrefix.head? ≠ some '/' :=
    storagePrefix_eq f.object ▸ head_top f.object _
  have hn : Path.names f.object.storagePrefix = [f.object.top] := by
    have he : Path.empty [] = true := rfl
    rw [Path.names, hs]
    simp [e0, he]
  rw [File.home, Path.normpath_join (storagePath_slash path) hk hd, hn]

theorem path_below (path : Text) (h : f.object.Descends) :
    (f.path path).Below (f.home path) := by
  rw [path_eq path h, home_eq]
  refine ⟨rfl, [f.dirs.1, f.dirs.2] ++ Path.names f.tail, by simp, ?_⟩
  simp

theorem path_eq_path_iff (path : Text) (hf : f.object.Descends) (hg : g.object.Descends) :
    f.path path = g.path path ↔
      f.object.top = g.object.top ∧ f.dirs = g.dirs ∧ Path.names f.tail = Path.names g.tail := by
  rw [path_eq path hf, path_eq path hg, Path.Norm.mk.injEq]
  simp only [true_and, List.append_cancel_left_eq, List.cons_append, List.nil_append,
    List.cons.injEq, Prod.ext_iff, and_assoc]

end Layout

/-- The files of some versions and some blocks. -/
def files (versions : Set VersionUid) (blocks : Set BlockUid) : Set File := fun f =>
  match f.object with
  | .version uid => uid ∈ versions
  | .block uid => uid ∈ blocks

/-- No two keys of versions with one directory are one path. -/
def Apart (versions : Set VersionUid) : Prop :=
  ∀ u ∈ versions, ∀ v ∈ versions, dirs u.text = dirs v.text →
    (Path.names u.text = Path.names v.text → u = v) ∧
    Path.names u.text ≠ Path.names (v.text ++ metaSuffix) ∧
    (Path.names (u.text ++ metaSuffix) = Path.names (v.text ++ metaSuffix) → u = v)

theorem names_block (b : BlockUid) (t : Bool) :
    Path.names (File.tail ⟨.block b, t⟩) = [File.tail ⟨.block b, t⟩] := by
  have hmem (n : ℕ) : '/' ∉ hex16 n := fun hc => (mem_hex16 hc).1 rfl
  have hs : '/' ∉ metaSuffix := by decide
  have hlen : 1 < (File.tail ⟨.block b, t⟩).length := by
    have hn (n : ℕ) : 16 ≤ (hex16 n).length := by
      simp only [hex16, List.leftpad, List.length_append, List.length_replicate]
      omega
    have := hn b.left
    simp only [File.tail, StorageObject.storageObjectToKey, List.length_append, List.length_cons]
    omega
  apply Path.names_of_not_mem
  · cases t <;> simp [File.tail, StorageObject.storageObjectToKey, hmem, hs]
  · rw [Path.empty, Bool.or_eq_false_iff, decide_eq_false_iff_not, decide_eq_false_iff_not]
    constructor <;> intro h <;> rw [h] at hlen <;> simp at hlen

theorem dot_mem_block_tail (b : BlockUid) (t : Bool) :
    '.' ∈ File.tail ⟨.block b, t⟩ ↔ t = true := by
  have hmem (n : ℕ) : '.' ∉ hex16 n := fun hc => (mem_hex16 hc).2.1 rfl
  have hs : '.' ∈ metaSuffix := by decide
  cases t <;> simp [File.tail, StorageObject.storageObjectToKey, hmem, hs]

theorem block_tail_inj {a b : BlockUid} {s t : Bool}
    (h : Path.names (File.tail ⟨.block a, s⟩) = Path.names (File.tail ⟨.block b, t⟩)) :
    a = b ∧ s = t := by
  rw [names_block, names_block, List.singleton_inj] at h
  have hst : s = t := by
    rw [Bool.eq_iff_iff, ← dot_mem_block_tail a s, h, dot_mem_block_tail]
  subst hst
  exact ⟨blockKey_inj (List.append_cancel_right h), rfl⟩

section Sets
variable {versions : Set VersionUid} {blocks : Set BlockUid} {path : Text}

theorem descends_of_mem (hv : ∀ u ∈ versions, (StorageObject.version u).Descends) {f : File}
    (hf : f ∈ files versions blocks) : f.object.Descends := by
  obtain ⟨o, t⟩ := f
  cases o with
  | version u => exact hv u hf
  | block b => exact block_descends b

theorem tail_version (u : VersionUid) (t : Bool) :
    File.tail ⟨.version u, t⟩ = u.text ++ if t then metaSuffix else [] := rfl

theorem apart_of_injOn (hv : ∀ u ∈ versions, (StorageObject.version u).Descends)
    (h : Set.InjOn (File.path path) (files versions blocks)) : Apart versions := by
  intro u hu v hv' hd
  have key (s t : Bool) (hn : Path.names (File.tail ⟨.version u, s⟩) =
      Path.names (File.tail ⟨.version v, t⟩)) :
      (⟨.version u, s⟩ : File) = ⟨.version v, t⟩ :=
    h (show (⟨.version u, s⟩ : File) ∈ files versions blocks from hu)
      (show (⟨.version v, t⟩ : File) ∈ files versions blocks from hv')
      ((path_eq_path_iff path (hv u hu) (hv v hv')).mpr ⟨rfl, hd, hn⟩)
  refine ⟨fun hn => ?_, fun hn => ?_, fun hn => ?_⟩
  · have := key false false (by rw [tail_version, tail_version]; simpa using hn)
    simpa using this
  · have := key false true (by rw [tail_version, tail_version]; simpa using hn)
    simp at this
  · have := key true true (by rw [tail_version, tail_version]; simpa using hn)
    simpa using this

theorem injOn_of_apart (hv : ∀ u ∈ versions, (StorageObject.version u).Descends)
    (ha : Apart versions) : Set.InjOn (File.path path) (files versions blocks) := by
  rintro ⟨o, s⟩ hf ⟨o', t⟩ hg hp
  obtain ⟨ht, hd, hn⟩ := (path_eq_path_iff path (descends_of_mem hv hf)
    (descends_of_mem hv hg)).mp hp
  cases o with
  | version u =>
    cases o' with
    | version v =>
      obtain ⟨h1, h2, h3⟩ := ha u hf v hg hd
      have h2' := (ha v hg u hf hd.symm).2.1
      rw [tail_version, tail_version] at hn
      cases s <;> cases t
      · rw [h1 (by simpa using hn)]
      · exact absurd (by simpa using hn) h2
      · exact absurd (by simpa using hn.symm) h2'
      · rw [h3 (by simpa using hn)]
    | block b =>
      have hne : "versions".toList ≠ "blocks".toList := by decide
      exact absurd ht hne
  | block a =>
    cases o' with
    | version v =>
      have hne : "blocks".toList ≠ "versions".toList := by decide
      exact absurd ht hne
    | block b =>
      obtain ⟨rfl, rfl⟩ := block_tail_inj hn
      rfl

/-- Keys of versions that never go up, and of blocks, stay in their directory; they are distinct
unless two of the version keys share a digest directory and a normal form. -/
theorem paths_below_and_distinct (path : Text) (versions : Set VersionUid) (blocks : Set BlockUid)
    (hv : ∀ u ∈ versions, Path.dotdot ∉ u.text.splitOn '/') :
    (∀ f ∈ files versions blocks, (f.path path).Below (f.home path)) ∧
      (Set.InjOn (File.path path) (files versions blocks) ↔ Apart versions) :=
  ⟨fun _ hf => path_below path (descends_of_mem hv hf),
    ⟨apart_of_injOn hv, injOn_of_apart hv⟩⟩

def uidA : VersionUid := ⟨"backups/vm-1".toList, by decide⟩

def uidB : VersionUid := ⟨"backups/vm-1/data".toList, by decide⟩

theorem apart_example : Apart {uidA, uidB} := by
  have hnames : Path.names uidA.text ≠ Path.names uidB.text ∧
      Path.names (uidA.text ++ metaSuffix) ≠ Path.names (uidB.text ++ metaSuffix) := by
    decide +kernel
  have hmeta : Path.names uidA.text ≠ Path.names (uidA.text ++ metaSuffix) ∧
      Path.names uidA.text ≠ Path.names (uidB.text ++ metaSuffix) ∧
      Path.names uidB.text ≠ Path.names (uidA.text ++ metaSuffix) ∧
      Path.names uidB.text ≠ Path.names (uidB.text ++ metaSuffix) := by
    decide +kernel
  rintro u (rfl | rfl) v (rfl | rfl) -
  · exact ⟨fun _ => rfl, hmeta.1, fun _ => rfl⟩
  · exact ⟨fun h => absurd h hnames.1, hmeta.2.1, fun h => absurd h hnames.2⟩
  · exact ⟨fun h => absurd h.symm hnames.1, hmeta.2.2.1, fun h => absurd h.symm hnames.2⟩
  · exact ⟨fun _ => rfl, hmeta.2.2.2, fun _ => rfl⟩

theorem paths_below_and_distinct_example :
    (∀ f ∈ files {uidA, uidB} Set.univ,
      (f.path "/var/lib/benji".toList).Below (f.home "/var/lib/benji".toList)) ∧
      Set.InjOn (File.path "/var/lib/benji".toList) (files {uidA, uidB} Set.univ) := by
  have hdots : ∀ u ∈ ({uidA, uidB} : Set VersionUid), Path.dotdot ∉ u.text.splitOn '/' := by
    rintro u (rfl | rfl)
    · decide
    · decide
  obtain ⟨hbelow, hdistinct⟩ := paths_below_and_distinct "/var/lib/benji".toList {uidA, uidB}
    Set.univ hdots
  exact ⟨hbelow, hdistinct.mpr apart_example⟩

/-- A uid that goes up from its own digest directory into the one of another. -/
theorem going_up_collides :
    ¬ ∀ (path : Text) (versions : Set VersionUid) (blocks : Set BlockUid),
      (∀ f ∈ files versions blocks, (f.path path).Below (f.home path)) ∧
        Set.InjOn (File.path path) (files versions blocks) := by
  intro h
  let u : VersionUid := ⟨"a".toList, by decide⟩
  let v : VersionUid := ⟨"../../0c/c1/a".toList, by decide⟩
  have hi := (h "/var/lib/benji".toList {u, v} ∅).2
  have hp : File.path "/var/lib/benji".toList ⟨.version u, false⟩ =
      File.path "/var/lib/benji".toList ⟨.version v, false⟩ := by decide +kernel
  have he := hi (show (⟨.version u, false⟩ : File) ∈ files {u, v} ∅ from .inl rfl)
    (show (⟨.version v, false⟩ : File) ∈ files {u, v} ∅ from .inr rfl) hp
  have hl : u.text.length = v.text.length := by
    have := congrArg (fun f : File => f.object.storageObjectToKey.length) he
    exact this
  exact absurd hl (by decide)

end Sets

end Keys
end Benji
