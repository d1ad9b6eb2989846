import Benji.Lib.Decode
import Benji.Lib.PyInt
import Benji.Storage.Keys
import Mathlib.Data.Finset.Insert
import Mathlib.Data.Finset.Erase

/-! `list_blocks` and `list_versions`: the keys of a storage read back as uids, among the keys
that others have put there. -/
namespace Benji
open Lib

namespace Listing
open Keys

/-- `InputDataError` is a `RuntimeError`; `ValueError` is raised by `int`. -/
inductive DecodeError where
  | runtimeError (message : String)
  | valueError

def fromPath (top key : Text) : Except DecodeError Text :=
  if ¬ top <+: key then
    .error (.runtimeError
      s!"Invalid key name {String.ofList key}, it doesn't start with \"{String.ofList top}\".")
  else if key.length ≤ top.length + 6 then
    .error (.runtimeError (s!"Key {String.ofList key} has an invalid length, " ++
      s!"expected at least {top.length + 6} characters."))
  else .ok (key.drop (top.length + 6))

/-- `BlockUid._storage_key_to_object`, with the parts of the uid as they are read. -/
def blockOfKey (U : UnicodeData) (key : Text) : Except DecodeError (ℤ × ℤ) :=
  if key.length ≠ 16 + 1 + 16 then
    .error (.runtimeError (s!"Object key {String.ofList key} has an invalid length, " ++
      s!"expected exactly {16 + 1 + 16} characters."))
  else match int16 U (key.take 16), int16 U ((key.drop 17).take 16) with
    | some left, some right => .ok (left, right)
    | _, _ => .error .valueError

/-- `VersionUid._storage_key_to_object`. -/
def versionOfKey (key : Text) : Except DecodeError VersionUid :=
  if h : InputValidation.isVersionUid key = true then .ok ⟨key, h⟩
  else .error (.runtimeError s!"Version name {String.ofList key} is invalid.")

def blocksPrefix : Text := "blocks/".toList

def versionsPrefix : Text := "versions/".toList

/-- `BlockUid.storage_path_to_object`. -/
def blockOfPath (U : UnicodeData) (path : Text) : Except DecodeError (ℤ × ℤ) :=
  fromPath blocksPrefix path >>= blockOfKey U

/-- `VersionUid.storage_path_to_object`. -/
def versionOfPath (path : Text) : Except DecodeError VersionUid :=
  fromPath versionsPrefix path >>= versionOfKey

/-- The loop over the keys found. Both kinds of exceptions are caught. -/
def listObjects {γ : Type} (ofPath : Text → Except DecodeError γ) (keys : List Text) : List γ :=
  keys.filterMap fun key => if metaSuffix <:+ key then none else (ofPath key).toOption

def listBlocks (U : UnicodeData) (keys : List Text) : List (ℤ × ℤ) :=
  listObjects (blockOfPath U) keys

def listVersions (keys : List Text) : List VersionUid := listObjects versionOfPath keys

/-! Histories -/

inductive Event where
  | write (o : StorageObject)
  | remove (o : StorageObject)
  /-- A key is added by others. -/
  | stray (key : Text)

/-- The keys in the storage; each object has its companion. -/
def step (keys : Finset Text) : Event → Finset Text
  | .write o => insert (o.storageObjectToPath ++ metaSuffix) (insert o.storageObjectToPath keys)
  | .remove o => (keys.erase o.storageObjectToPath).erase (o.storageObjectToPath ++ metaSuffix)
  | .stray key => insert key keys

def stored (es : List Event) : Finset Text := es.foldl step ∅

/-- Written and not removed since. -/
def Live (es : List Event) (o : StorageObject) : Prop :=
  ∃ before after, es = before ++ .write o :: after ∧ Event.remove o ∉ after

/-- `_list_objects` returns the keys with the prefix in some order. -/
structure Listed (keys : Finset Text) (top : Text) (listed : List Text) : Prop where
  nodup : listed.Nodup
  mem : ∀ k, k ∈ listed ↔ k ∈ keys ∧ top <+: k

/-- The uids of the blocks and versions written and not removed are listed, each once, and
nothing else is. -/
def ListsExactly (U : UnicodeData) (es : List Event) (blocks versions : List Text) : Prop :=
  Exactly (listBlocks U blocks)
      (fun u => ∃ b : BlockUid, Live es (.block b) ∧ ((b.left : ℤ), (b.right : ℤ)) = u) ∧
    Exactly (listVersions versions) fun v => Live es (.version v)

/-- The digest directories may be any six characters, and the separator any one. -/
def LooksLikeBlock (U : UnicodeData) (k : Text) : Prop :=
  ∃ dirs left separator right, k = blocksPrefix ++ (dirs ++ (left ++ separator :: right)) ∧
    dirs.length = 6 ∧ left.length = 16 ∧ right.length = 16 ∧
    (int16 U left).isSome = true ∧ (int16 U right).isSome = true

def LooksLikeVersion (k : Text) : Prop :=
  ∃ dirs name, k = versionsPrefix ++ (dirs ++ name) ∧ dirs.length = 6 ∧
    InputValidation.isVersionUid name = true

/-- The uids fit their keys, none of them looks like a companion, and no key that was left by
others looks like a uid. -/
structure Plain (U : UnicodeData) (es : List Event) : Prop where
  block : ∀ b, Live es (.block b) → b.left < 16 ^ 16 ∧ b.right < 16 ^ 16
  version : ∀ v, Live es (.version v) → ¬ metaSuffix <:+ v.text
  stray : ∀ k ∈ stored es, ¬ metaSuffix <:+ k → (∀ o, Live es o → o.storageObjectToPath ≠ k) →
    ¬ LooksLikeBlock U k ∧ ¬ LooksLikeVersion k

section
variable {U : UnicodeData} {es : List Event} {o : StorageObject} {k key top : Text}

theorem stored_append (es : List Event) (e : Event) : stored (es ++ [e]) = step (stored es) e := by
  rw [stored, List.foldl_append, List.foldl_cons, List.foldl_nil, stored]

theorem live_append {e : Event} :
    Live (es ++ [e]) o ↔ e = .write o ∨ (Live es o ∧ e ≠ .remove o) := by
  constructor
  · rintro ⟨before, after, heq, hnot⟩
    rcases List.eq_nil_or_concat after with rfl | ⟨rest, last, rfl⟩
    · obtain ⟨-, he⟩ := List.append_inj' heq rfl
      exact .inl (List.singleton_inj.mp he)
    · right
      have hsplit : es ++ [e] = (before ++ .write o :: rest) ++ [last] := by
        rw [heq]
        simp
      obtain ⟨hes, he⟩ := List.append_inj' hsplit rfl
      rw [List.concat_eq_append, List.mem_append, not_or] at hnot
      obtain rfl := List.singleton_inj.mp he
      refine ⟨⟨before, rest, hes, hnot.1⟩, ?_⟩
      intro hr
      exact hnot.2 (hr ▸ List.mem_singleton.mpr rfl)
  · rintro (rfl | ⟨⟨before, after, rfl, hnot⟩, hne⟩)
    · exact ⟨es, [], rfl, List.not_mem_nil⟩
    · refine ⟨before, after ++ [e], by simp, ?_⟩
      rw [List.mem_append, not_or, List.mem_singleton]
      exact ⟨hnot, hne.symm⟩

theorem length_dirs (key : Text) : ((dirs key).1 ++ '/' :: ((dirs key).2 ++ ['/'])).length = 6 := by
  have hl := length_digest key
  simp [dirs, hl]

theorem path_split (o : StorageObject) : ∃ dirs : Text, dirs.length = 6 ∧
    o.storageObjectToPath = o.storagePrefix ++ (dirs ++ o.storageObjectToKey) := by
  refine ⟨_, length_dirs o.storageObjectToKey, ?_⟩
  simp [StorageObject.storageObjectToPath, toPath]

theorem fromPath_eq_ok : fromPath top k = .ok key ↔
    ∃ dirs, k = top ++ (dirs ++ key) ∧ dirs.length = 6 ∧ key ≠ [] := by
  unfold fromPath
  constructor
  · intro h
    split_ifs at h with hp hl
    obtain ⟨rest, rfl⟩ := hp
    rw [List.length_append] at hl
    rw [List.drop_length_add_append] at h
    obtain rfl := Except.ok.inj h
    refine ⟨rest.take 6, ?_, ?_, ?_⟩
    · rw [List.take_append_drop]
    · rw [List.length_take]
      omega
    · intro hnil
      have := List.drop_eq_nil_iff.mp hnil
      omega
  · rintro ⟨dirs, rfl, hd, hne⟩
    have hpos := List.length_pos_of_ne_nil hne
    rw [if_neg (not_not.mpr (List.prefix_append _ _)), if_neg, List.drop_length_add_append,
      List.drop_left' hd]
    simp only [List.length_append]
    omega

theorem bind_ok {α β : Type} {x : Except DecodeError α} {f : α → Except DecodeError β} {b : β} :
    (x >>= f) = .ok b ↔ ∃ a, x = .ok a ∧ f a = .ok b := by
  cases x with
  | error e => simp [bind, Except.bind]
  | ok a => simp [bind, Except.bind]

theorem blockOfPath_eq_ok {u : ℤ × ℤ} : blockOfPath U k = .ok u ↔
    ∃ dirs left separator right, k = blocksPrefix ++ (dirs ++ (left ++ separator :: right)) ∧
      dirs.length = 6 ∧ left.length = 16 ∧ right.length = 16 ∧
      int16 U left = some u.1 ∧ int16 U right = some u.2 := by
  obtain ⟨l, r⟩ := u
  rw [blockOfPath, bind_ok]
  constructor
  · rintro ⟨key, hfrom, hkey⟩
    obtain ⟨dirs, rfl, hd, -⟩ := fromPath_eq_ok.mp hfrom
    unfold blockOfKey at hkey
    split_ifs at hkey with hlen
    have hsplit : key.take 16 ++ key.drop 16 = key := List.take_append_drop 16 key
    cases hrest : key.drop 16 with
    | nil =>
      have := List.drop_eq_nil_iff.mp hrest
      omega
    | cons separator right =>
      have hright : key.drop 17 = right := by
        rw [← List.drop_drop (j := 16) (i := 1), hrest]
        rfl
      have hlr : right.length = 16 := by
        rw [← hright, List.length_drop]
        omega
      rw [hright, List.take_of_length_le (show right.length ≤ 16 by omega)] at hkey
      refine ⟨dirs, key.take 16, separator, right, ?_, hd, ?_, hlr, ?_⟩
      · rw [← hrest, hsplit]
      · rw [List.length_take]
        omega
      · split at hkey
        · rename_i hl hr
          cases hkey
          exact ⟨hl, hr⟩
        · cases hkey
  · rintro ⟨dirs, left, separator, right, rfl, hd, hl, hr, hil, hir⟩
    refine ⟨left ++ separator :: right, fromPath_eq_ok.mpr ⟨dirs, rfl, hd, by simp⟩, ?_⟩
    have hdrop : (left ++ separator :: right).drop 17 = right := by
      rw [← List.drop_drop (j := 16) (i := 1), List.drop_left' hl]
      rfl
    rw [blockOfKey, if_neg (by simp [hl, hr]), List.take_left' hl, hdrop,
      List.take_of_length_le (by omega), hil, hir]

theorem versionOfPath_eq_ok {v : VersionUid} : versionOfPath k = .ok v ↔
    ∃ dirs, k = versionsPrefix ++ (dirs ++ v.text) ∧ dirs.length = 6 := by
  have hof : ∀ key, versionOfKey key = .ok v ↔ key = v.text := by
    intro key
    unfold versionOfKey
    constructor
    · intro h
      split_ifs at h
      cases h
      rfl
    · rintro rfl
      rw [dif_pos v.accepted]
  have hne : v.text ≠ [] := by
    intro hnil
    have hacc := v.accepted
    rw [hnil] at hacc
    cases hacc
  rw [versionOfPath, bind_ok]
  constructor
  · rintro ⟨key, hfrom, hkey⟩
    obtain rfl := (hof key).mp hkey
    obtain ⟨dirs, hk, hd, -⟩ := fromPath_eq_ok.mp hfrom
    exact ⟨dirs, hk, hd⟩
  · rintro ⟨dirs, hk, hd⟩
    exact ⟨v.text, fromPath_eq_ok.mpr ⟨dirs, hk, hd, hne⟩, (hof _).mpr rfl⟩

theorem exists_blockOfPath : (∃ u, blockOfPath U k = .ok u) ↔ LooksLikeBlock U k := by
  constructor
  · rintro ⟨u, h⟩
    obtain ⟨dirs, left, separator, right, hk, hd, hl, hr, hil, hir⟩ := blockOfPath_eq_ok.mp h
    exact ⟨dirs, left, separator, right, hk, hd, hl, hr, by rw [hil]; rfl, by rw [hir]; rfl⟩
  · rintro ⟨dirs, left, separator, right, hk, hd, hl, hr, hil, hir⟩
    obtain ⟨a, ha⟩ := Option.isSome_iff_exists.mp hil
    obtain ⟨b, hb⟩ := Option.isSome_iff_exists.mp hir
    exact ⟨(a, b), blockOfPath_eq_ok.mpr
      ⟨dirs, left, separator, right, hk, hd, hl, hr, ha, hb⟩⟩

theorem exists_versionOfPath : (∃ v, versionOfPath k = .ok v) ↔ LooksLikeVersion k := by
  constructor
  · rintro ⟨v, h⟩
    obtain ⟨dirs, hk, hd⟩ := versionOfPath_eq_ok.mp h
    exact ⟨dirs, v.text, hk, hd, v.accepted⟩
  · rintro ⟨dirs, name, hk, hd, hname⟩
    exact ⟨⟨name, hname⟩, versionOfPath_eq_ok.mpr ⟨dirs, hk, hd⟩⟩

/-! The keys of the uids -/

theorem exists_digits (n : ℕ) : ∃ ds : List ℕ, (∀ d ∈ ds, d < 16) ∧
    Nat.toDigits 16 n = ds.map Nat.digitChar ∧ PyInt.value ds = n := by
  apply toDigits_induction (P := fun n l => ∃ ds : List ℕ, (∀ d ∈ ds, d < 16) ∧
    l = ds.map Nat.digitChar ∧ PyInt.value ds = n)
  · intro n hn
    exact ⟨[n], by simpa using hn, rfl, by simp [PyInt.value]⟩
  · rintro n - l ⟨ds, hds, rfl, hv⟩
    refine ⟨ds ++ [n % 16], ?_, by simp, ?_⟩
    · intro d hd
      cases List.mem_append.mp hd with
      | inl hd => exact hds d hd
      | inr hd =>
        rw [List.mem_singleton.mp hd]
        exact Nat.mod_lt n (by decide)
    · have happend : PyInt.value (ds ++ [n % 16]) = 16 * PyInt.value ds + n % 16 := by
        simp [PyInt.value]
      rw [happend, hv]
      omega

theorem int16_hex16 (U : UnicodeData) (n : ℕ) : int16 U (hex16 n) = some (n : ℤ) := by
  obtain ⟨ds, hds, hdigits, hv⟩ := exists_digits n
  have hzeros (m : ℕ) : PyInt.value (List.replicate m 0 ++ ds) = PyInt.value ds := by
    induction m with
    | zero => rfl
    | succ m ih =>
      rw [← ih, List.replicate_succ, List.cons_append]
      rfl
  have hhex : hex16 n =
      (List.replicate (16 - (Nat.toDigits 16 n).length) 0 ++ ds).map Nat.digitChar := by
    rw [hex16, List.leftpad, List.map_append, List.map_replicate, ← hdigits]
    rfl
  have hne : List.replicate (16 - (Nat.toDigits 16 n).length) 0 ++ ds ≠ [] := by
    intro hnil
    have h0 := (List.append_eq_nil_iff.mp hnil).2
    rw [h0] at hdigits
    exact Nat.toDigits_ne_nil hdigits
  have hlt : ∀ d ∈ List.replicate (16 - (Nat.toDigits 16 n).length) 0 ++ ds, d < 16 := by
    intro d hd
    cases List.mem_append.mp hd with
    | inl hd =>
      rw [List.eq_of_mem_replicate hd]
      decide
    | inr hd => exact hds d hd
  rw [hhex, PyInt.int16_digitChar U hlt hne, hzeros, hv]

theorem length_hex16 {n : ℕ} (h : n < 16 ^ 16) : (hex16 n).length = 16 := by
  have hle := (Nat.length_toDigits_le_iff (b := 16) (k := 16) (by decide) (by decide)).mpr h
  rw [hex16, List.length_leftpad]
  omega

theorem path_block (b : BlockUid) : ∃ dirs : Text, dirs.length = 6 ∧
    (StorageObject.block b).storageObjectToPath =
      blocksPrefix ++ (dirs ++ (hex16 b.left ++ '-' :: hex16 b.right)) := by
  obtain ⟨dirs, hd, hp⟩ := path_split (.block b)
  exact ⟨dirs, hd, hp⟩

theorem path_version (v : VersionUid) : ∃ dirs : Text, dirs.length = 6 ∧
    (StorageObject.version v).storageObjectToPath = versionsPrefix ++ (dirs ++ v.text) := by
  obtain ⟨dirs, hd, hp⟩ := path_split (.version v)
  exact ⟨dirs, hd, hp⟩

theorem blocksPrefix_path : blocksPrefix <+: o.storageObjectToPath ↔ ∃ b, o = .block b := by
  constructor
  · intro h
    cases o with
    | block b => exact ⟨b, rfl⟩
    | version v =>
      obtain ⟨dirs, -, hp⟩ := path_version v
      rw [hp] at h
      cases (List.cons_prefix_cons.mp h).1
  · rintro ⟨b, rfl⟩
    obtain ⟨dirs, -, hp⟩ := path_block b
    rw [hp]
    exact List.prefix_append _ _

theorem versionsPrefix_path : versionsPrefix <+: o.storageObjectToPath ↔ ∃ v, o = .version v := by
  constructor
  · intro h
    cases o with
    | version v => exact ⟨v, rfl⟩
    | block b =>
      obtain ⟨dirs, -, hp⟩ := path_block b
      rw [hp] at h
      cases (List.cons_prefix_cons.mp h).1
  · rintro ⟨v, rfl⟩
    obtain ⟨dirs, -, hp⟩ := path_version v
    rw [hp]
    exact List.prefix_append _ _

theorem key_of_path {top : Text} {dirs dirs' key key' : Text} (hd : dirs.length = 6)
    (hd' : dirs'.length = 6) (h : top ++ (dirs ++ key) = top ++ (dirs' ++ key')) : key = key' :=
  (List.append_inj (List.append_cancel_left h) (hd.trans hd'.symm)).2

theorem path_inj {o o' : StorageObject} (h : o.storageObjectToPath = o'.storageObjectToPath) :
    o = o' := by
  cases o with
  | block b =>
    obtain ⟨b', rfl⟩ := blocksPrefix_path.mp (h ▸ blocksPrefix_path.mpr ⟨b, rfl⟩)
    obtain ⟨dirs, hd, hp⟩ := path_block b
    obtain ⟨dirs', hd', hp'⟩ := path_block b'
    rw [hp, hp'] at h
    rw [blockKey_inj (key_of_path hd hd' h)]
  | version v =>
    obtain ⟨v', rfl⟩ := versionsPrefix_path.mp (h ▸ versionsPrefix_path.mpr ⟨v, rfl⟩)
    obtain ⟨dirs, hd, hp⟩ := path_version v
    obtain ⟨dirs', hd', hp'⟩ := path_version v'
    rw [hp, hp'] at h
    rw [VersionUid.ext (key_of_path hd hd' h)]

/-- A word without the separator ends a path if it ends what follows the separator. -/
theorem suffix_append_cons {w a t : Text} (hw : '/' ∉ w) : w <:+ a ++ '/' :: t ↔ w <:+ t := by
  have ht : t <:+ a ++ '/' :: t := (List.suffix_cons '/' t).trans (List.suffix_append a _)
  constructor
  · intro h
    rcases List.suffix_or_suffix_of_suffix h ht with h | ⟨x, rfl⟩
    · exact h
    · have hx : x <:+ a ++ ['/'] := by
        obtain ⟨y, hy⟩ := h
        refine ⟨y, ?_⟩
        rw [← List.append_assoc] at hy
        have hy : (y ++ x) ++ t = (a ++ ['/']) ++ t := by
          rw [hy]
          simp
        exact List.append_cancel_right hy
      rcases List.eq_nil_or_concat x with rfl | ⟨x', c, rfl⟩
      · exact List.suffix_refl _
      · obtain ⟨y, hy⟩ := hx
        rw [List.concat_eq_append, ← List.append_assoc] at hy
        obtain ⟨-, hc⟩ := List.append_inj' hy rfl
        refine absurd ?_ hw
        rw [List.concat_eq_append, List.singleton_inj.mp hc]
        simp
  · exact fun h => h.trans ht

theorem metaSuffix_path (o : StorageObject) :
    metaSuffix <:+ o.storageObjectToPath ↔ metaSuffix <:+ o.storageObjectToKey := by
  have hpath : o.storageObjectToPath = (o.storagePrefix ++ (dirs o.storageObjectToKey).1 ++
      '/' :: (dirs o.storageObjectToKey).2) ++ '/' :: o.storageObjectToKey := by
    simp [StorageObject.storageObjectToPath, toPath]
  rw [hpath]
  exact suffix_append_cons (by decide)

theorem not_metaSuffix_block (b : BlockUid) :
    ¬ metaSuffix <:+ (StorageObject.block b).storageObjectToPath := by
  rw [metaSuffix_path]
  intro h
  have hdot : '.' ∈ hex16 b.left ++ '-' :: hex16 b.right := h.subset (by decide)
  rcases List.mem_append.mp hdot with hl | hdot
  · exact (mem_hex16 hl).2.1 rfl
  · rcases List.mem_cons.mp hdot with h | hr
    · cases h
    · exact (mem_hex16 hr).2.1 rfl

/-- An object that is live has its key in the storage, unless the key is that of a companion. -/
theorem path_mem_stored (hm : ¬ metaSuffix <:+ o.storageObjectToPath) (h : Live es o) :
    o.storageObjectToPath ∈ stored es := by
  induction es using List.reverseRecOn with
  | nil =>
    obtain ⟨before, after, heq, -⟩ := h
    simp at heq
  | append_singleton es e ih =>
    rw [stored_append]
    rcases live_append.mp h with rfl | ⟨h, hne⟩
    · exact Finset.mem_insert_of_mem (Finset.mem_insert_self _ _)
    · have hkept := ih h
      cases e with
      | write o' => exact Finset.mem_insert_of_mem (Finset.mem_insert_of_mem hkept)
      | stray key => exact Finset.mem_insert_of_mem hkept
      | remove o' =>
        apply Finset.mem_erase.mpr
        constructor
        · intro heq
          exact hm (heq ▸ List.suffix_append _ _)
        · apply Finset.mem_erase.mpr
          refine ⟨?_, hkept⟩
          intro heq
          exact hne (by rw [path_inj heq])

/-! What is listed -/

section
variable {γ : Type} {ofPath : Text → Except DecodeError γ} {u : γ}

/-- What the loop makes of one key. -/
def decode (ofPath : Text → Except DecodeError γ) (key : Text) : Option γ :=
  if metaSuffix <:+ key then none else (ofPath key).toOption

theorem decode_eq_some : decode ofPath k = some u ↔ ¬ metaSuffix <:+ k ∧ ofPath k = .ok u := by
  unfold decode
  split_ifs with hm
  · simp [hm]
  · cases ofPath k <;> simp [Except.toOption, hm]

theorem decode_eq_none : decode ofPath k = none ↔
    (¬ metaSuffix <:+ k → ¬ ∃ u, ofPath k = .ok u) := by
  unfold decode
  split_ifs with hm
  · simp [hm]
  · cases ofPath k <;> simp [Except.toOption, hm]

end

/-- The statement for one of the two classes. -/
theorem exactly_listObjects {β γ : Type} {cls : β → StorageObject} {view : β → γ}
    {ofPath : Text → Except DecodeError γ} {listed : List Text}
    (hl : Listed (stored es) top listed) (hview : Function.Injective view)
    (hcls : ∀ o, top <+: o.storageObjectToPath ↔ ∃ b, o = cls b)
    (htop : ∀ k u, ofPath k = .ok u → top <+: k)
    (hown : ∀ k b, ofPath k = .ok (view b) → ofPath (cls b).storageObjectToPath = .ok (view b) ∧
      (metaSuffix <:+ (cls b).storageObjectToPath → metaSuffix <:+ k)) :
    Exactly (listObjects ofPath listed) (fun u => ∃ b, Live es (cls b) ∧ view b = u) ↔
      (∀ b, Live es (cls b) → ¬ metaSuffix <:+ (cls b).storageObjectToPath ∧
        ofPath (cls b).storageObjectToPath = .ok (view b)) ∧
      ∀ k ∈ stored es, ¬ metaSuffix <:+ k → (∀ o, Live es o → o.storageObjectToPath ≠ k) →
        ¬ ∃ u, ofPath k = .ok u := by
  have hin : ∀ b, Live es (cls b) →
      decode ofPath (cls b).storageObjectToPath = some (view b) →
      (cls b).storageObjectToPath ∈ listed := by
    intro b hlive hd
    have hm := (decode_eq_some.mp hd).1
    exact (hl.mem _).mpr ⟨path_mem_stored hm hlive, (hcls _).mpr ⟨b, rfl⟩⟩
  have hself : ∀ k b, decode ofPath k = some (view b) →
      decode ofPath (cls b).storageObjectToPath = some (view b) := by
    intro k b hd
    obtain ⟨hm, hok⟩ := decode_eq_some.mp hd
    obtain ⟨hok', hmeta⟩ := hown k b hok
    exact decode_eq_some.mpr ⟨fun h => hm (hmeta h), hok'⟩
  have hiff := @exactly_filterMap_iff Text β γ listed (fun b => Live es (cls b))
    (fun b => (cls b).storageObjectToPath) view (decode ofPath) hl.nodup hview hin hself
  apply hiff.trans
  simp only [decode_eq_some]
  apply and_congr_right
  intro _
  constructor
  · intro hnone k hk hm hnot hu
    obtain ⟨u, hu⟩ := hu
    have hlisted : k ∈ listed := (hl.mem k).mpr ⟨hk, htop k u hu⟩
    exact decode_eq_none.mp (hnone k hlisted fun b hb => hnot (cls b) hb) hm ⟨u, hu⟩
  · intro hnone k hk hnot
    obtain ⟨hks, hp⟩ := (hl.mem k).mp hk
    rw [decode_eq_none]
    intro hm
    apply hnone k hks hm
    intro o ho heq
    obtain ⟨b, rfl⟩ := (hcls o).mp (heq ▸ hp)
    exact hnot b ho heq

theorem blockOfPath_own {k : Text} {b : BlockUid}
    (h : blockOfPath U k = .ok ((b.left : ℤ), (b.right : ℤ))) :
    b.left < 16 ^ 16 ∧ b.right < 16 ^ 16 := by
  obtain ⟨dirs, left, separator, right, -, -, hl, hr, hil, hir⟩ := blockOfPath_eq_ok.mp h
  have h1 := PyInt.int16_lt hil
  have h2 := PyInt.int16_lt hir
  rw [hl, Int.natAbs_natCast] at h1
  rw [hr, Int.natAbs_natCast] at h2
  exact ⟨h1, h2⟩

theorem blockOfPath_path {b : BlockUid} :
    blockOfPath U (StorageObject.block b).storageObjectToPath = .ok ((b.left : ℤ), (b.right : ℤ)) ↔
      b.left < 16 ^ 16 ∧ b.right < 16 ^ 16 := by
  constructor
  · exact blockOfPath_own
  · rintro ⟨hl, hr⟩
    obtain ⟨dirs, hd, hp⟩ := path_block b
    exact blockOfPath_eq_ok.mpr ⟨dirs, hex16 b.left, '-', hex16 b.right, hp, hd, length_hex16 hl,
      length_hex16 hr, int16_hex16 U b.left, int16_hex16 U b.right⟩

theorem versionOfPath_path (v : VersionUid) :
    versionOfPath (StorageObject.version v).storageObjectToPath = .ok v := by
  obtain ⟨dirs, hd, hp⟩ := path_version v
  exact versionOfPath_eq_ok.mpr ⟨dirs, hp, hd⟩

theorem exactly_listBlocks {blocks : List Text} (hb : Listed (stored es) blocksPrefix blocks) :
    Exactly (listBlocks U blocks)
      (fun u => ∃ b : BlockUid, Live es (.block b) ∧ ((b.left : ℤ), (b.right : ℤ)) = u) ↔
      (∀ b, Live es (.block b) → b.left < 16 ^ 16 ∧ b.right < 16 ^ 16) ∧
      ∀ k ∈ stored es, ¬ metaSuffix <:+ k → (∀ o, Live es o → o.storageObjectToPath ≠ k) →
        ¬ LooksLikeBlock U k := by
  have hview : Function.Injective fun b : BlockUid => ((b.left : ℤ), (b.right : ℤ)) := by
    rintro ⟨l, r⟩ ⟨l', r'⟩ h
    simpa using h
  have htop : ∀ k u, blockOfPath U k = .ok u → blocksPrefix <+: k := by
    intro k u h
    obtain ⟨dirs, left, separator, right, rfl, -⟩ := blockOfPath_eq_ok.mp h
    exact List.prefix_append _ _
  have hiff := @exactly_listObjects es blocksPrefix BlockUid (ℤ × ℤ) StorageObject.block
    (fun b => ((b.left : ℤ), (b.right : ℤ))) (blockOfPath U) blocks hb hview
    (fun o => blocksPrefix_path) htop fun k b h =>
      ⟨blockOfPath_path.mpr (blockOfPath_own h), fun hm => absurd hm (not_metaSuffix_block b)⟩
  apply hiff.trans
  simp only [exists_blockOfPath, blockOfPath_path, not_metaSuffix_block, not_false_eq_true,
    true_and]

theorem exactly_listVersions {versions : List Text}
    (hv : Listed (stored es) versionsPrefix versions) :
    Exactly (listVersions versions) (fun v => Live es (.version v)) ↔
      (∀ v, Live es (.version v) → ¬ metaSuffix <:+ v.text) ∧
      ∀ k ∈ stored es, ¬ metaSuffix <:+ k → (∀ o, Live es o → o.storageObjectToPath ≠ k) →
        ¬ LooksLikeVersion k := by
  have htop : ∀ k u, versionOfPath k = .ok u → versionsPrefix <+: k := by
    intro k u h
    obtain ⟨dirs, rfl, -⟩ := versionOfPath_eq_ok.mp h
    exact List.prefix_append _ _
  have hown : ∀ k (v : VersionUid), versionOfPath k = .ok (id v) →
      versionOfPath (StorageObject.version v).storageObjectToPath = .ok (id v) ∧
        (metaSuffix <:+ (StorageObject.version v).storageObjectToPath → metaSuffix <:+ k) := by
    intro k v h
    refine ⟨versionOfPath_path v, ?_⟩
    intro hm
    obtain ⟨dirs, rfl, -⟩ := versionOfPath_eq_ok.mp h
    have hkey := (metaSuffix_path _).mp hm
    exact hkey.trans ((List.suffix_append dirs _).trans (List.suffix_append _ _))
  have hiff := @exactly_listObjects es versionsPrefix VersionUid VersionUid StorageObject.version
    id versionOfPath versions hv Function.injective_id (fun o => versionsPrefix_path) htop hown
  simp only [id_eq, exists_eq_right] at hiff
  apply hiff.trans
  simp only [exists_versionOfPath, versionOfPath_path, and_true]
  apply and_congr_left
  intro _
  apply forall_congr'
  intro v
  rw [metaSuffix_path]
  rfl

/-- The lists are exact where the uids are plain and nothing that others left looks like one. -/
theorem listsExactly_iff (U : UnicodeData) (es : List Event) (blocks versions : List Text)
    (hb : Listed (stored es) blocksPrefix blocks)
    (hv : Listed (stored es) versionsPrefix versions) :
    ListsExactly U es blocks versions ↔ Plain U es := by
  rw [ListsExactly, exactly_listBlocks hb, exactly_listVersions hv]
  constructor
  · rintro ⟨⟨h1, h2⟩, h3, h4⟩
    exact ⟨h1, h3, fun k hk hm hnot => ⟨h2 k hk hm hnot, h4 k hk hm hnot⟩⟩
  · rintro ⟨h1, h3, hs⟩
    exact ⟨⟨h1, fun k hk hm hnot => (hs k hk hm hnot).1⟩, h3,
      fun k hk hm hnot => (hs k hk hm hnot).2⟩

/-- The two keys of an object, where they are all that the storage has with the prefix. -/
theorem listed_pair {keys : Finset Text} (h : top <+: o.storageObjectToPath)
    (hkeys : ∀ k, top <+: k → (k ∈ keys ↔
      k = o.storageObjectToPath ∨ k = o.storageObjectToPath ++ metaSuffix)) :
    Listed keys top [o.storageObjectToPath, o.storageObjectToPath ++ metaSuffix] where
  nodup := by
    have hne : o.storageObjectToPath ≠ o.storageObjectToPath ++ metaSuffix := by
      intro heq
      have hlen := congrArg List.length heq
      simp [metaSuffix] at hlen
    simpa using hne
  mem k := by
    rw [List.mem_cons, List.mem_singleton]
    constructor
    · intro hk
      have htop : top <+: k := by
        rcases hk with rfl | rfl
        · exact h
        · exact h.trans (List.prefix_append _ _)
      exact ⟨(hkeys k htop).mpr hk, htop⟩
    · rintro ⟨hk, htop⟩
      exact (hkeys k htop).mp hk

theorem listed_write (h : top <+: o.storageObjectToPath) : Listed (stored [.write o]) top
    [o.storageObjectToPath, o.storageObjectToPath ++ metaSuffix] :=
  listed_pair h fun k _ => by simp [stored, step, or_comm]

theorem listed_write_other {c d : Char} {rest tail : Text} (hcd : c ≠ d)
    (hp : o.storageObjectToPath = d :: tail) :
    Listed (stored [.write o]) (c :: rest) [] where
  nodup := List.nodup_nil
  mem k := by
    have hstored : k ∈ stored [.write o] ↔
        k = o.storageObjectToPath ++ metaSuffix ∨ k = o.storageObjectToPath := by
      simp [stored, step]
    rw [hstored, hp]
    constructor
    · intro hk
      cases hk
    · rintro ⟨rfl | rfl, h⟩
      · exact absurd (List.cons_prefix_cons.mp h).1 hcd
      · exact absurd (List.cons_prefix_cons.mp h).1 hcd

section Example

def exampleVersion : VersionUid := ⟨"v1".toList, by decide⟩

/-- Of two blocks one is removed; a version is written, and something else lies beside them. -/
def exampleEvents : List Event :=
  [.write (.block ⟨1, 2⟩), .write (.block ⟨3, 4⟩), .remove (.block ⟨3, 4⟩),
    .write (.version exampleVersion), .stray "lost+found".toList]

theorem path_ne_companion {b : BlockUid} {o : StorageObject} :
    (StorageObject.block b).storageObjectToPath ≠ o.storageObjectToPath ++ metaSuffix :=
  fun h => not_metaSuffix_block b (h ▸ List.suffix_append _ _)

theorem mem_exampleEvents : k ∈ stored exampleEvents ↔
    k ∈ [(StorageObject.block ⟨1, 2⟩).storageObjectToPath,
      (StorageObject.block ⟨1, 2⟩).storageObjectToPath ++ metaSuffix,
      (StorageObject.version exampleVersion).storageObjectToPath,
      (StorageObject.version exampleVersion).storageObjectToPath ++ metaSuffix,
      "lost+found".toList] := by
  have hne : (StorageObject.block ⟨1, 2⟩).storageObjectToPath ≠
      (StorageObject.block ⟨3, 4⟩).storageObjectToPath := by
    intro h
    cases path_inj h
  have hmeta : (StorageObject.block ⟨1, 2⟩).storageObjectToPath ++ metaSuffix ≠
      (StorageObject.block ⟨3, 4⟩).storageObjectToPath ++ metaSuffix :=
    fun h => hne (List.append_cancel_right h)
  have hright : (StorageObject.block ⟨1, 2⟩).storageObjectToPath ≠
      (StorageObject.block ⟨3, 4⟩).storageObjectToPath ++ metaSuffix := path_ne_companion
  have hleft : (StorageObject.block ⟨1, 2⟩).storageObjectToPath ++ metaSuffix ≠
      (StorageObject.block ⟨3, 4⟩).storageObjectToPath := path_ne_companion.symm
  simp only [stored, exampleEvents, List.foldl_cons, List.foldl_nil, step, Finset.mem_insert,
    Finset.mem_erase, Finset.notMem_empty, List.mem_cons, List.not_mem_nil, or_false]
  -- Nothing below depends on what the paths are.
  generalize (StorageObject.block ⟨1, 2⟩).storageObjectToPath = p at *
  generalize (StorageObject.block ⟨3, 4⟩).storageObjectToPath = q at *
  generalize (StorageObject.version exampleVersion).storageObjectToPath = r
  generalize "lost+found".toList = stray
  constructor
  · tauto
  · rintro (rfl | rfl | rfl | rfl | rfl)
    · exact .inr (.inr (.inr ⟨hright, hne, .inr (.inr (.inr rfl))⟩))
    · exact .inr (.inr (.inr ⟨hmeta, hleft, .inr (.inr (.inl rfl))⟩))
    · exact .inr (.inr (.inl rfl))
    · exact .inr (.inl rfl)
    · exact .inl rfl

theorem live_exampleEvents :
    Live exampleEvents o ↔ o = .block ⟨1, 2⟩ ∨ o = .version exampleVersion := by
  change Live ((((([] ++ [Event.write (.block ⟨1, 2⟩)]) ++ [.write (.block ⟨3, 4⟩)]) ++
    [.remove (.block ⟨3, 4⟩)]) ++ [.write (.version exampleVersion)]) ++
    [.stray "lost+found".toList]) o ↔ _
  have hnone : ¬ Live [] o := by
    rintro ⟨before, after, heq, -⟩
    simp at heq
  simp only [live_append, hnone]
  grind

theorem plain_exampleEvents : Plain U exampleEvents where
  block b hb := by
    rcases live_exampleEvents.mp hb with h | h
    · cases h
      decide
    · cases h
  version v hv := by
    rcases live_exampleEvents.mp hv with h | h
    · cases h
    · cases h
      decide
  stray k hk hmeta hnot := by
    have hlive := fun o ho => hnot o (live_exampleEvents.mpr ho)
    have hk := mem_exampleEvents.mp hk
    simp only [List.mem_cons, List.not_mem_nil, or_false] at hk
    rcases hk with rfl | rfl | rfl | rfl | rfl
    · exact absurd rfl (hlive _ (.inl rfl))
    · exact absurd (List.suffix_append _ _) hmeta
    · exact absurd rfl (hlive _ (.inr rfl))
    · exact absurd (List.suffix_append _ _) hmeta
    · constructor
      · rintro ⟨dirs, left, separator, right, h, -⟩
        cases h
      · rintro ⟨dirs, name, h, -⟩
        cases h

theorem listsExactly_iff_example :
    ListsExactly .ascii exampleEvents
      [(StorageObject.block ⟨1, 2⟩).storageObjectToPath,
        (StorageObject.block ⟨1, 2⟩).storageObjectToPath ++ metaSuffix]
      [(StorageObject.version exampleVersion).storageObjectToPath,
        (StorageObject.version exampleVersion).storageObjectToPath ++ metaSuffix] := by
  refine (listsExactly_iff .ascii exampleEvents _ _ ?_ ?_).mpr plain_exampleEvents
  · obtain ⟨dirs, -, hv⟩ := path_version exampleVersion
    refine listed_pair (blocksPrefix_path.mpr ⟨_, rfl⟩) fun k htop => ?_
    rw [mem_exampleEvents, hv]
    constructor
    · intro hk
      simp only [List.mem_cons, List.not_mem_nil, or_false] at hk
      rcases hk with hk | hk | rfl | rfl | rfl
      · exact .inl hk
      · exact .inr hk
      all_goals cases (List.cons_prefix_cons.mp htop).1
    · rintro (rfl | rfl)
      · exact List.mem_cons_self
      · exact List.mem_cons_of_mem _ List.mem_cons_self
  · obtain ⟨dirs, -, hb⟩ := path_block ⟨1, 2⟩
    refine listed_pair (versionsPrefix_path.mpr ⟨_, rfl⟩) fun k htop => ?_
    rw [mem_exampleEvents, hb]
    constructor
    · intro hk
      simp only [List.mem_cons, List.not_mem_nil, or_false] at hk
      rcases hk with rfl | rfl | hk | hk | rfl
      · cases (List.cons_prefix_cons.mp htop).1
      · cases (List.cons_prefix_cons.mp htop).1
      · exact .inl hk
      · exact .inr hk
      · cases (List.cons_prefix_cons.mp htop).1
    · intro hk
      exact List.mem_cons_of_mem _ (List.mem_cons_of_mem _ (by
        rcases hk with rfl | rfl
        · exact List.mem_cons_self
        · exact List.mem_cons_of_mem _ List.mem_cons_self))

end Example

def metaUid : VersionUid := ⟨"a.meta".toList, by decide⟩

/-- A version whose uid ends like a companion is never listed. -/
theorem metaUid_not_listed : ¬ ∀ (U : UnicodeData) (es : List Event) (blocks versions : List Text),
    Listed (stored es) blocksPrefix blocks → Listed (stored es) versionsPrefix versions →
    ListsExactly U es blocks versions := by
  intro h
  obtain ⟨dirs, -, hp⟩ := path_version metaUid
  have hl := listed_write (versionsPrefix_path.mpr ⟨metaUid, rfl⟩)
  have hother : Listed (stored [.write (.version metaUid)]) blocksPrefix [] :=
    listed_write_other (by decide) hp
  have hexact := (h UnicodeData.ascii _ _ _ hother hl).2
  have hlive : Live [.write (.version metaUid)] (.version metaUid) :=
    ⟨[], [], rfl, List.not_mem_nil⟩
  exact (exactly_listVersions hl).mp hexact |>.1 metaUid hlive (by decide)

end
end Listing
end Benji
