import Benji.Storage.FileCalls

/-! Objects with their companions in the file storage, and what is listed after any writes and
removals. -/
namespace Benji
open Lib

namespace FileStorage
open Keys

/-- An object whose keys consist of names, with them. -/
structure Place where
  object : StorageObject
  key : Key
  metaKey : Key
  text_key : key.text = object.storageObjectToPath
  text_metaKey : metaKey.text = object.storageObjectToPath ++ metaSuffix

section
variable (s : FileStorage)

/-- The writes of `_write` and `write_version`. -/
def writeObjects (p : Place) (data metadata : Bytes) : Action Unit :=
  Proc.tryExcept (do
    s.writeObject p.key data
    s.writeObject p.metaKey metadata) fun e => do
      Proc.tryExcept (do
        s.rmObject p.key
        s.rmObject p.metaKey) fun f => if f = .fileNotFound then pure () else Proc.raise f
      Proc.raise e

/-- `rm_version`; `_rm_block` raises another exception in place of the first one. -/
def rmObjects (p : Place) : Action Unit :=
  Proc.tryFinally (s.rmObject p.key)
    (Proc.tryExcept (s.rmObject p.metaKey) fun e =>
      if e = .fileNotFound then pure () else Proc.raise e)

/-- A step of the history of a storage; `stray` is a file that somebody else puts there. -/
inductive Op where
  | write (p : Place) (data metadata : Bytes)
  | remove (p : Place)
  | stray (key : Key) (data : Bytes)

def Op.event : Op → Listing.Event
  | .write p _ _ => .write p.object
  | .remove p => .remove p.object
  | .stray key _ => .stray key.text

def Op.On (keys : Set Key) : Op → Prop
  | .write p _ _ | .remove p => p.key ∈ keys ∧ p.metaKey ∈ keys
  | .stray key _ => key ∈ keys

def Op.perform : Op → Action Unit
  | .write p data metadata => s.writeObjects p data metadata
  | .remove p => s.rmObjects p
  | .stray key data => s.writeObject key data

/-- What the step does to the map from keys to bytes. -/
def Op.effect (files : Codec.Files) : Op → Codec.Files
  | .write p data metadata =>
    (files.put p.object.storageObjectToPath data).put
      (p.object.storageObjectToPath ++ metaSuffix) metadata
  | .remove p =>
    (files.erase p.object.storageObjectToPath).erase (p.object.storageObjectToPath ++ metaSuffix)
  | .stray key data => files.put key.text data

/-- The tree after all steps, whether they raised or not. -/
def runOps : List Op → Tree → Option Tree
  | [], t => some t
  | op :: ops, t => (op.perform s t).bind fun outcome => runOps ops outcome.2

end

section
variable {s : FileStorage} {keys : Set Key} {t : Tree} {p : Place} {data metadata : Bytes}
  {text : Text} {top : Option Name}

theorem Clear.writeObjects (hclear : Clear s keys t) (hsep : Separate keys) (hk : p.key ∈ keys)
    (hm : p.metaKey ∈ keys) : ∃ t', (s.writeObjects p data metadata).Returns t () t' ∧
      s.files t' = ((s.files t).put p.key.text data).put p.metaKey.text metadata ∧
      Clear s keys t' := by
  obtain ⟨u, hu, hfiles, hclear, -⟩ := hclear.writeObject data hsep hk
  obtain ⟨t', ht', hfiles', hclear', -⟩ := hclear.writeObject metadata hsep hm
  refine ⟨t', ?_, by rw [hfiles', hfiles], hclear'⟩
  exact Proc.returns_tryExcept.mpr (.inl (Proc.returns_bind.mpr ⟨(), u, hu, ht'⟩))

/-- Both files are gone, whichever of them were there. -/
theorem Clear.rmObjects (hclear : Clear s keys t) (hk : p.key ∈ keys) (hm : p.metaKey ∈ keys) :
    ∃ r t', s.rmObjects p t = some (r, t') ∧
      s.files t' = ((s.files t).erase p.key.text).erase p.metaKey.text ∧ Clear s keys t' := by
  obtain ⟨u, hfirst, hfiles, hclear, -⟩ := hclear.rmObject hk
  obtain ⟨t', hsecond, hfiles', hclear', -⟩ := hclear.rmObject hm
  obtain ⟨r, hr⟩ : ∃ r, s.rmObject p.key t = some (r, u) := by
    rcases hfirst with ⟨-, hraises⟩ | ⟨-, hreturns⟩
    · exact ⟨_, hraises⟩
    · exact ⟨_, hreturns⟩
  have hcleanup : (Proc.tryExcept (s.rmObject p.metaKey) fun e =>
      if e = .fileNotFound then pure () else Proc.raise e).Returns u () t' := by
    rw [Proc.returns_tryExcept]
    rcases hsecond with ⟨-, hraises⟩ | ⟨-, hreturns⟩
    · exact .inr ⟨_, t', hraises, rfl⟩
    · exact .inl hreturns
  refine ⟨r, t', ?_, by rw [hfiles', hfiles], hclear'⟩
  rw [FileStorage.rmObjects, Proc.tryFinally, hr]
  dsimp only
  rw [show Proc.tryExcept (s.rmObject p.metaKey) _ u = _ from hcleanup]

theorem op_files {op : Op} (hsep : Separate keys) (hclear : Clear s keys t) (hon : op.On keys) :
    ∃ r t', op.perform s t = some (r, t') ∧ s.files t' = op.effect (s.files t) ∧
      Clear s keys t' := by
  cases op with
  | write p data metadata =>
    obtain ⟨t', ht', hfiles, hclear'⟩ := hclear.writeObjects hsep hon.1 hon.2
    rw [p.text_key, p.text_metaKey] at hfiles
    exact ⟨_, t', ht', hfiles, hclear'⟩
  | remove p =>
    obtain ⟨r, t', ht', hfiles, hclear'⟩ := hclear.rmObjects hon.1 hon.2
    rw [p.text_key, p.text_metaKey] at hfiles
    exact ⟨r, t', ht', hfiles, hclear'⟩
  | stray key data =>
    obtain ⟨t', ht', hfiles, hclear', -⟩ := hclear.writeObject data hsep hon
    exact ⟨_, t', ht', hfiles, hclear'⟩

theorem runOps_files {ops : List Op} (hsep : Separate keys) (hclear : Clear s keys t)
    (hon : ∀ op ∈ ops, op.On keys) :
    ∃ t', runOps s ops t = some t' ∧ s.files t' = ops.foldl Op.effect (s.files t) := by
  induction ops generalizing t with
  | nil => exact ⟨t, rfl, rfl⟩
  | cons op ops ih =>
    obtain ⟨r, u, hu, hfiles, hclear⟩ := op_files hsep hclear (hon op List.mem_cons_self)
    obtain ⟨t', ht', hrest⟩ := ih hclear fun o ho => hon o (List.mem_cons_of_mem op ho)
    refine ⟨t', ?_, by rw [hrest, hfiles, List.foldl_cons]⟩
    rw [runOps, hu]
    exact ht'

/-- The keys that have bytes. -/
def Holds (files : Codec.Files) (stored : Finset Text) : Prop :=
  ∀ text, (files text).isSome ↔ text ∈ stored

theorem Holds.effect {files : Codec.Files} {stored : Finset Text} (h : Holds files stored)
    (op : Op) : Holds (op.effect files) (Listing.step stored op.event) := by
  intro text
  cases op with
  | write p data metadata =>
    rw [Op.event, Op.effect, Listing.step, Finset.mem_insert, Finset.mem_insert, ← h text]
    unfold Codec.Files.put
    split
    · simp [*]
    · split <;> simp [*]
  | remove p =>
    rw [Op.event, Op.effect, Listing.step, Finset.mem_erase, Finset.mem_erase, ← h text]
    unfold Codec.Files.erase
    split
    · simp [*]
    · split <;> simp [*]
  | stray key data =>
    rw [Op.event, Op.effect, Listing.step, Finset.mem_insert, ← h text]
    unfold Codec.Files.put
    split <;> simp [*]

theorem Holds.effects {files : Codec.Files} {stored : Finset Text} (h : Holds files stored)
    (ops : List Op) :
    Holds (ops.foldl Op.effect files) ((ops.map Op.event).foldl Listing.step stored) := by
  induction ops generalizing files stored with
  | nil => exact h
  | cons op ops ih => exact ih (h.effect op)

/-- The directories of the two classes. -/
def blocksTop : Name := ⟨"blocks".toList, by decide⟩

def versionsTop : Name := ⟨"versions".toList, by decide⟩

theorem listed_of_holds (top : Option Name) {stored : Finset Text} (h : Holds (s.files t) stored) :
    Listing.Listed stored (topText top) (s.listed t top) := by
  obtain ⟨hnodup, hmem⟩ : Enumerates (s.files t) (topText top) (s.listed t top) :=
    enumerates_listed
  refine ⟨hnodup, fun k => ?_⟩
  rw [hmem k, h k]

end

/-! ### The keys of objects -/

theorem isName_iff {n : Text} :
    isName n = true ↔ '/' ∉ n ∧ Path.empty n = false ∧ n ≠ Path.dotdot := by
  simp [isName, and_assoc]

theorem isName_of_no_dot {n : Text} (hslash : '/' ∉ n) (hdot : '.' ∉ n) (hne : n ≠ []) :
    isName n = true :=
  isName_iff.mpr ⟨hslash, plain_of_no_dot hdot hne⟩

theorem isName_top (o : StorageObject) : isName o.top = true := by
  obtain ⟨hslash, hempty, hdotdot, -⟩ := top_plain o
  exact isName_iff.mpr ⟨hslash, hempty, hdotdot⟩

theorem isName_dirs (key : Text) : isName (dirs key).1 = true ∧ isName (dirs key).2 = true := by
  obtain ⟨⟨h1, d1, n1⟩, h2, d2, n2⟩ := dirs_plain key
  exact ⟨isName_of_no_dot h1 d1 n1, isName_of_no_dot h2 d2 n2⟩

/-- The key of an object, or of its companion, whose own name is a single component. -/
def fileKey (f : Keys.File) (h : isName f.tail = true) : Key where
  names := [⟨f.object.top, isName_top f.object⟩, ⟨f.dirs.1, (isName_dirs _).1⟩,
    ⟨f.dirs.2, (isName_dirs _).2⟩, ⟨f.tail, h⟩]
  ne_nil := List.cons_ne_nil _ _

theorem text_fileKey (f : Keys.File) (h : isName f.tail = true) : (fileKey f h).text = f.key := by
  rw [key_eq, Key.text, fileKey, slashed_cons (List.cons_ne_nil _ _),
    slashed_cons (List.cons_ne_nil _ _), slashed_cons (List.cons_ne_nil _ _), slashed,
    List.map_singleton, List.intercalate_singleton]

theorem isName_companion {n : Text} (h : isName n = true) : isName (n ++ metaSuffix) = true := by
  obtain ⟨hslash, -, -⟩ := isName_iff.mp h
  have hlen : 5 ≤ (n ++ metaSuffix).length := by
    rw [List.length_append]
    exact Nat.le_add_left 5 n.length
  refine isName_iff.mpr ⟨?_, ?_, ?_⟩
  · intro hmem
    rcases List.mem_append.mp hmem with hmem | hmem
    · exact hslash hmem
    · exact absurd hmem (by decide)
  · rw [Path.empty, Bool.or_eq_false_iff, decide_eq_false_iff_not, decide_eq_false_iff_not]
    constructor <;> intro heq <;> rw [heq] at hlen <;> simp at hlen
  · intro heq
    rw [heq] at hlen
    exact absurd hlen (by decide)

/-- The place of an object whose own name is a single component. -/
def place (o : StorageObject) (h : isName o.storageObjectToKey = true) : Place where
  object := o
  key := fileKey ⟨o, false⟩ (by simpa [Keys.File.tail] using h)
  metaKey := fileKey ⟨o, true⟩ (isName_companion h)
  text_key := by
    rw [text_fileKey, Keys.File.key]
    exact List.append_nil _
  text_metaKey := text_fileKey _ _

theorem isName_block (b : BlockUid) :
    isName (StorageObject.block b).storageObjectToKey = true := by
  have hmem : ∀ c ∈ hex16 b.left ++ '-' :: hex16 b.right, c ≠ '/' ∧ c ≠ '.' := by
    intro c hc
    rcases List.mem_append.mp hc with hl | hc
    · exact ⟨(mem_hex16 hl).1, (mem_hex16 hl).2.1⟩
    · rcases List.mem_cons.mp hc with rfl | hr
      · decide
      · exact ⟨(mem_hex16 hr).1, (mem_hex16 hr).2.1⟩
  refine isName_of_no_dot (fun h => (hmem _ h).1 rfl) (fun h => (hmem _ h).2 rfl) ?_
  exact List.append_ne_nil_of_right_ne_nil _ (List.cons_ne_nil _ _)

/-- Keys of one depth are never on the way to each other. -/
theorem separate_depth (n : ℕ) : Separate {k | k.names.length = n} := by
  intro k hk l hl hbelow
  have heq : k.names = l.names := hbelow.eq_of_length (hk.trans hl.symm)
  cases k
  cases l
  cases heq
  rfl

section Example

def exampleStorage : FileStorage where
  path := "/backups/".toList
  base := [⟨"backups".toList, by decide⟩]
  ends := .inr (by decide)
  resolves := by decide

def exampleOps : List Op :=
  [.write (place (.block ⟨1, 2⟩) (isName_block _)) [1, 2, 3] [4],
    .write (place (.version ⟨"v3".toList, by decide⟩) (by decide)) [5] [6],
    .remove (place (.block ⟨1, 2⟩) (isName_block _))]

end Example

end FileStorage
end Benji
