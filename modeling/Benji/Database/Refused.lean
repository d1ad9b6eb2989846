import Benji.Database.ImportV1
import Benji.Lib.Fails

/-! Which documents an import refuses as it should, and on which ones it breaks. -/
namespace Benji
open Lib

namespace Import
variable {db : Archive} {items : List (String × Json)} {key message uid : String} {v : Json}

abbrev Refuses {α : Type} (x : Except Error α) : Prop := Fails Refusal x

/-! ### What each check passes and refuses -/

theorem requireItem_eq_ok :
    requireItem items message key = .ok () ↔ (items.lookup key).isSome = true := by
  unfold requireItem
  split_ifs with h <;> simp [h]

theorem refuses_requireItem :
    Refuses (requireItem items message key) ↔ items.lookup key = none := by
  unfold requireItem
  split_ifs with h
  · rw [Refuses, iff_false_left fails_ok]
    exact Option.isSome_iff_ne_none.mp h
  · rw [Refuses, fails_error]
    exact iff_of_true trivial (Option.not_isSome_iff_eq_none.mp h)

theorem requireItems_eq_ok {keys : List String} {texts : String → String} :
    (keys.forM fun key => requireItem items (texts key) key) = .ok () ↔
      ∀ key ∈ keys, (items.lookup key).isSome = true := by
  rw [forM_eq_ok]
  simp only [requireItem_eq_ok]

theorem refuses_requireItems {keys : List String} {texts : String → String} :
    Refuses (keys.forM fun key => requireItem items (texts key) key) ↔
      ∃ key ∈ keys, items.lookup key = none := by
  rw [Refuses, fails_forM, firstRefused_iff]
  · exact exists_congr fun key => and_congr_right fun _ => refuses_requireItem
  · intro key _
    rw [requireItem_eq_ok]
    have hrefuses := @refuses_requireItem items key (texts key)
    rw [Refuses] at hrefuses
    rw [hrefuses]
    cases items.lookup key <;> simp

theorem getItem_eq_ok : getItem (.dict items) key = .ok v ↔ items.lookup key = some v := by
  unfold getItem
  dsimp only
  cases items.lookup key <;> simp

theorem not_refuses_getItem : ¬ Refuses (getItem v key) := by
  unfold getItem
  cases v with
  | dict items =>
    dsimp only
    cases items.lookup key <;> simp [Refusal]
  | _ => simp [Refusal]

/-- Behind an access to an item that is not checked. -/
theorem refuses_getItem_bind {α : Type} {f : Json → Except Error α} :
    Refuses (getItem (.dict items) key >>= f) ↔
      ∃ v, items.lookup key = some v ∧ Refuses (f v) := by
  rw [Refuses, fails_bind, or_iff_right not_refuses_getItem]
  simp only [getItem_eq_ok]

theorem asText_eq_ok {text : Text} : asText v = .ok text ↔ ∃ s, v = .str s ∧ s.toList = text := by
  cases v <;> simp [asText]

theorem refuses_asText_bind {α : Type} {f : Text → Except Error α} :
    Refuses (asText v >>= f) ↔ ∃ s, v = .str s ∧ Refuses (f s.toList) := by
  rw [Refuses, fails_bind]
  cases v with
  | str s => simp [asText]
  | _ => simp [asText, Refusal]

/-- The item is a text with the property. -/
def HasText (items : List (String × Json)) (key : String) (p : Text → Prop) : Prop :=
  ∃ s, items.lookup key = some (.str s) ∧ p s.toList

theorem checkVolume_eq_ok : checkVolume items uid = .ok () ↔
    HasText items "volume" fun volume => InputValidation.isVolumeName volume = true := by
  unfold checkVolume HasText
  simp only [bind_eq_ok, getItem_eq_ok, asText_eq_ok]
  constructor
  · rintro ⟨_, hv, _, ⟨s, rfl, rfl⟩, h⟩
    refine ⟨s, hv, ?_⟩
    by_contra hname
    rw [if_neg hname, bind_eq_ok] at h
    obtain ⟨_, -, h⟩ := h
    cases h
  · rintro ⟨s, hv, hname⟩
    exact ⟨_, hv, _, ⟨s, rfl, rfl⟩, if_pos hname⟩

theorem refuses_checkVolume : Refuses (checkVolume items uid) ↔
    HasText items "volume" (fun volume => InputValidation.isVolumeName volume = false) ∧
      (items.lookup "name").isSome = true := by
  unfold checkVolume HasText
  rw [refuses_getItem_bind]
  simp only [refuses_asText_bind]
  constructor
  · rintro ⟨_, hv, s, rfl, h⟩
    by_cases hname : InputValidation.isVolumeName s.toList = true
    · rw [if_pos hname] at h
      exact absurd h fails_ok
    · rw [if_neg hname, refuses_getItem_bind] at h
      obtain ⟨name, hn, -⟩ := h
      exact ⟨⟨s, hv, Bool.eq_false_iff.mpr hname⟩, Option.isSome_iff_exists.mpr ⟨name, hn⟩⟩
  · rintro ⟨⟨s, hv, hname⟩, hn⟩
    obtain ⟨name, hn⟩ := Option.isSome_iff_exists.mp hn
    refine ⟨_, hv, s, rfl, ?_⟩
    rw [hname, if_neg Bool.false_ne_true, refuses_getItem_bind]
    exact ⟨name, hn, fails_error.mpr trivial⟩

theorem checkSnapshot_eq_ok : checkSnapshot items uid = .ok () ↔
    HasText items "snapshot" fun snapshot =>
      InputValidation.isSnapshotName snapshot = true := by
  unfold checkSnapshot HasText
  simp only [bind_eq_ok, getItem_eq_ok, asText_eq_ok]
  constructor
  · rintro ⟨_, hv, _, ⟨s, rfl, rfl⟩, h⟩
    refine ⟨s, hv, ?_⟩
    by_contra hname
    rw [if_neg hname] at h
    cases h
  · rintro ⟨s, hv, hname⟩
    exact ⟨_, hv, _, ⟨s, rfl, rfl⟩, if_pos hname⟩

theorem refuses_checkSnapshot : Refuses (checkSnapshot items uid) ↔
    HasText items "snapshot" fun snapshot =>
      InputValidation.isSnapshotName snapshot = false := by
  unfold checkSnapshot HasText
  rw [refuses_getItem_bind]
  simp only [refuses_asText_bind]
  constructor
  · rintro ⟨_, hv, s, rfl, h⟩
    refine ⟨s, hv, Bool.eq_false_iff.mpr fun hname => ?_⟩
    rw [if_pos hname] at h
    exact fails_ok h
  · rintro ⟨s, hv, hname⟩
    refine ⟨_, hv, s, rfl, ?_⟩
    rw [hname, if_neg Bool.false_ne_true]
    exact fails_error.mpr trivial

theorem getDict_eq_ok {d : List (String × Json)} :
    getDict items message key = .ok d ↔ items.lookup key = some (.dict d) := by
  unfold getDict
  rw [bind_eq_ok]
  simp only [getItem_eq_ok]
  constructor
  · rintro ⟨v, hv, h⟩
    cases v <;> cases h
    exact hv
  · intro h
    exact ⟨_, h, rfl⟩

theorem refuses_getDict : Refuses (getDict items message key) ↔
    ∃ v, items.lookup key = some v ∧ ∀ d, v ≠ .dict d := by
  unfold getDict
  rw [refuses_getItem_bind]
  refine exists_congr fun v => and_congr_right fun _ => ?_
  cases v <;> simp [Refusal]

theorem getList_eq_ok {xs : List Json} :
    getList items message key = .ok xs ↔ items.lookup key = some (.list xs) := by
  unfold getList
  rw [bind_eq_ok]
  simp only [getItem_eq_ok]
  constructor
  · rintro ⟨v, hv, h⟩
    cases v <;> cases h
    exact hv
  · intro h
    exact ⟨_, h, rfl⟩

theorem refuses_getList : Refuses (getList items message key) ↔
    ∃ v, items.lookup key = some v ∧ ∀ xs, v ≠ .list xs := by
  unfold getList
  rw [refuses_getItem_bind]
  refine exists_congr fun v => and_congr_right fun _ => ?_
  cases v <;> simp [Refusal]

/-- A label with a valid name and a valid text. -/
def LabelPassed (e : String × Json) : Prop :=
  InputValidation.isLabelName e.1.toList = some true ∧
    ∃ s, e.2 = .str s ∧ InputValidation.isLabelValue s.toList = true

def LabelRefused (e : String × Json) : Prop :=
  InputValidation.isLabelName e.1.toList = some false ∨
    InputValidation.isLabelName e.1.toList = some true ∧
      ∃ s, e.2 = .str s ∧ InputValidation.isLabelValue s.toList = false

theorem checkLabel_eq_ok {e : String × Json} : checkLabel uid e = .ok () ↔ LabelPassed e := by
  unfold checkLabel LabelPassed
  cases InputValidation.isLabelName e.1.toList with
  | none => simp
  | some valid =>
    cases valid with
    | false => simp
    | true =>
      dsimp only
      rw [bind_eq_ok, and_iff_right rfl]
      simp only [asText_eq_ok]
      constructor
      · rintro ⟨_, ⟨s, hs, rfl⟩, h⟩
        refine ⟨s, hs, ?_⟩
        by_contra hvalue
        rw [if_neg hvalue] at h
        cases h
      · rintro ⟨s, hs, hvalue⟩
        exact ⟨_, ⟨s, hs, rfl⟩, if_pos hvalue⟩

theorem refuses_checkLabel {e : String × Json} :
    Refuses (checkLabel uid e) ↔ LabelRefused e := by
  unfold checkLabel LabelRefused
  cases InputValidation.isLabelName e.1.toList with
  | none => simp [Refusal]
  | some valid =>
    cases valid with
    | false => simp [Refusal]
    | true =>
      dsimp only
      rw [refuses_asText_bind]
      simp only [Option.some.injEq, Bool.true_eq_false, false_or, true_and]
      refine exists_congr fun s => and_congr_right fun _ => ?_
      cases InputValidation.isLabelValue s.toList <;> simp [Refusal]

/-- A block with the four attributes that are checked. -/
def BlockPassed (v : Json) : Prop := ∃ items, v = .dict items ∧
  ∀ key ∈ ["uid", "size", "valid", "checksum"], (items.lookup key).isSome = true

theorem checkBlock_eq_ok : checkBlock uid v = .ok () ↔ BlockPassed v := by
  unfold checkBlock BlockPassed
  cases v with
  | dict items =>
    dsimp only
    rw [requireItems_eq_ok]
    simp
  | _ => simp

theorem refuses_checkBlock : Refuses (checkBlock uid v) ↔ ¬ BlockPassed v := by
  unfold checkBlock BlockPassed
  cases v with
  | dict items =>
    dsimp only
    rw [refuses_requireItems]
    simp only [Json.dict.injEq, exists_eq_left', not_forall, Bool.not_eq_true,
      Option.isSome_eq_false_iff, Option.isNone_iff_eq_none, exists_prop]
  | _ => simp [Refusal]

theorem refuses_checkStorage : Refuses (checkStorage db items) ↔
    ∃ v, items.lookup "storage" = some v ∧ findStorage db v = .ok none := by
  unfold checkStorage
  rw [refuses_getItem_bind]
  refine exists_congr fun v => and_congr_right fun _ => ?_
  have hfind : ¬ Refuses (findStorage db v) := by
    unfold findStorage
    cases v with
    | null => simp
    | str name => simp
    | _ =>
      dsimp only
      split <;> simp [Refusal]
  rw [Refuses, fails_bind, or_iff_right hfind]
  constructor
  · rintro ⟨storage, hs, h⟩
    cases storage with
    | none => exact hs
    | some s => exact absurd h fails_ok
  · intro h
    exact ⟨none, h, fails_error.mpr trivial⟩

theorem checkStorage_eq_ok : checkStorage db items = .ok () ↔
    ∃ v s, items.lookup "storage" = some v ∧ findStorage db v = .ok (some s) := by
  unfold checkStorage
  simp only [bind_eq_ok, getItem_eq_ok]
  constructor
  · rintro ⟨v, hv, storage, hs, h⟩
    cases storage with
    | none => cases h
    | some s => exact ⟨v, s, hv, hs⟩
  · rintro ⟨v, s, hv, hs⟩
    exact ⟨v, hv, some s, hs, rfl⟩

theorem refuses_checkNew {uid : VersionUid} : Refuses (checkNew db uid) ↔
    ∃ r ∈ db.versions, r.uid.text = uid.text := by
  unfold checkNew
  split_ifs with h
  · rw [Refuses, fails_error]
    exact iff_of_true trivial (by simpa using h)
  · rw [Refuses, iff_false_left fails_ok]
    simpa using h

theorem refuses_toVersionUid_bind {α : Type} {f : VersionUid → Except Error α} :
    Refuses (toVersionUid v >>= f) ↔ ∃ s, v = .str s ∧
      (InputValidation.isVersionUid s.toList = false ∨
        ∃ uid : VersionUid, uid.text = s.toList ∧ Refuses (f uid)) := by
  rw [Refuses, fails_bind]
  cases v with
  | str s =>
    unfold toVersionUid
    dsimp only
    split_ifs with h
    · simp only [fails_ok, false_or, Except.ok.injEq, exists_eq_left', Json.str.injEq]
      rw [h]
      simp only [Bool.true_eq_false, false_or]
      constructor
      · intro hf
        exact ⟨_, rfl, hf⟩
      · rintro ⟨uid, huid, hf⟩
        have heq : uid = ⟨s.toList, h⟩ := VersionUid.ext huid
        rw [← heq]
        exact hf
    · have hfalse : InputValidation.isVersionUid s.toList = false := Bool.eq_false_iff.mpr h
      simp [Refusal, hfalse]
  | _ => simp [toVersionUid, Refusal]

/-! ### Versions of the third format -/

/-- The labels, the blocks, the storage or the uid are refused, in this order. -/
def ContentsRefused (db : Archive) (items : List (String × Json)) (uid : Text) : Prop :=
  (∃ v, items.lookup "labels" = some v ∧ ∀ labels, v ≠ .dict labels) ∨
  ∃ labels, items.lookup "labels" = some (.dict labels) ∧
    ((∃ v, items.lookup "blocks" = some v ∧ ∀ blocks, v ≠ .list blocks) ∨
    ∃ blocks, items.lookup "blocks" = some (.list blocks) ∧
      (FirstRefused LabelPassed LabelRefused labels ∨
      (∀ label ∈ labels, LabelPassed label) ∧
        ((∃ block ∈ blocks, ¬ BlockPassed block) ∨
        (∀ block ∈ blocks, BlockPassed block) ∧
          ((∃ v, items.lookup "storage" = some v ∧ findStorage db v = .ok none) ∨
          (∃ v s, items.lookup "storage" = some v ∧ findStorage db v = .ok (some s)) ∧
            ∃ r ∈ db.versions, r.uid.text = uid))))

theorem refuses_checks {uid : VersionUid} :
    Refuses (do
      let name := String.ofList uid.text
      let labels ← getDict items s!"Wrong data type for labels in version {name}." "labels"
      let blocks ← getList items s!"Wrong data type for blocks in version {name}." "blocks"
      labels.forM (checkLabel name)
      blocks.forM (checkBlock name)
      checkStorage db items
      checkNew db uid
      (.error .typeError : Except Error VersionUid)) ↔ ContentsRefused db items uid.text := by
  have hblocks {blocks : List Json} {name : String} :
      Refuses (blocks.forM (checkBlock name)) ↔ ∃ block ∈ blocks, ¬ BlockPassed block := by
    rw [Refuses, fails_forM, firstRefused_iff]
    · exact exists_congr fun block => and_congr_right fun _ => refuses_checkBlock
    · intro block _
      rw [checkBlock_eq_ok]
      have hrefuses := @refuses_checkBlock name block
      rw [Refuses] at hrefuses
      rw [hrefuses]
      exact Classical.em _
  have hlabels {labels : List (String × Json)} {name : String} :
      Refuses (labels.forM (checkLabel name)) ↔
        FirstRefused LabelPassed LabelRefused labels := by
    have hrefuses (e : String × Json) := @refuses_checkLabel name e
    simp only [Refuses] at hrefuses
    rw [Refuses, fails_forM]
    simp only [checkLabel_eq_ok, hrefuses]
  have hnever : ¬ Refuses (.error .typeError : Except Error VersionUid) := by
    rw [Refuses, fails_error]
    exact id
  simp only [Refuses] at hblocks hlabels hnever ⊢
  have hdict := @refuses_getDict items "labels"
  have hlist := @refuses_getList items "blocks"
  have hstorage := @refuses_checkStorage db items
  have hnew := @refuses_checkNew db uid
  simp only [Refuses] at hdict hlist hstorage hnew
  unfold ContentsRefused
  simp only [fails_bind, exists_unit_iff, hdict, hlist, hblocks, hlabels, hstorage, hnew,
    getDict_eq_ok, getList_eq_ok, forM_eq_ok, checkLabel_eq_ok, checkBlock_eq_ok,
    checkStorage_eq_ok, hnever,
    and_false, or_false]

/-- The attributes are there and the names are valid, or not. -/
def AttributesRefused (db : Archive) (items : List (String × Json)) (uid : Text) : Prop :=
  (∃ key ∈ attributesToCheck, items.lookup key = none) ∨
  (∀ key ∈ attributesToCheck, (items.lookup key).isSome = true) ∧
    (HasText items "volume" (fun volume => InputValidation.isVolumeName volume = false) ∧
      (items.lookup "name").isSome = true ∨
    HasText items "volume" (fun volume => InputValidation.isVolumeName volume = true) ∧
      (HasText items "snapshot" (fun snapshot =>
        InputValidation.isSnapshotName snapshot = false) ∨
      HasText items "snapshot" (fun snapshot =>
        InputValidation.isSnapshotName snapshot = true) ∧
        ContentsRefused db items uid))

/-- The first thing that is wrong with the version is one that `import_v3` checks. -/
def VersionRefused (db : Archive) : Json → Prop
  | .dict items =>
    items.lookup "uid" = none ∨
    ∃ uid : String, items.lookup "uid" = some (.str uid) ∧
      (InputValidation.isVersionUid uid.toList = false ∨
      InputValidation.isVersionUid uid.toList = true ∧ AttributesRefused db items uid.toList)
  | _ => True

theorem refuses_attributes {uid : VersionUid} :
    Refuses (do
      let name := String.ofList uid.text
      attributesToCheck.forM fun key =>
        requireItem items s!"Missing attribute {key} in version {name}." key
      checkVolume items name
      checkSnapshot items name
      let labels ← getDict items s!"Wrong data type for labels in version {name}." "labels"
      let blocks ← getList items s!"Wrong data type for blocks in version {name}." "blocks"
      labels.forM (checkLabel name)
      blocks.forM (checkBlock name)
      checkStorage db items
      checkNew db uid
      (.error .typeError : Except Error VersionUid)) ↔
      AttributesRefused db items uid.text := by
  have hrequire := @refuses_requireItems items attributesToCheck
  have hvolume := @refuses_checkVolume items
  have hsnapshot := @refuses_checkSnapshot items
  have hchecks := @refuses_checks db items uid
  simp only [Refuses] at hrequire hvolume hsnapshot hchecks ⊢
  rw [fails_bind, exists_unit_iff, fails_bind, exists_unit_iff, fails_bind, exists_unit_iff,
    hrequire, hvolume, hsnapshot, hchecks, requireItems_eq_ok, checkVolume_eq_ok,
    checkSnapshot_eq_ok]
  exact Iff.rfl

theorem refuses_importVersion : Refuses (importVersion db v) ↔ VersionRefused db v := by
  cases v with
  | dict items =>
    unfold importVersion VersionRefused
    rw [Refuses, fails_bind, exists_unit_iff]
    have hrequire := @refuses_requireItem items "uid" "Missing attribute uid in version."
    rw [Refuses] at hrequire
    rw [hrequire, requireItem_eq_ok]
    refine or_congr_right ?_
    have hget := @refuses_getItem_bind items "uid" VersionUid
    simp only [Refuses] at hget
    rw [hget]
    constructor
    · rintro ⟨-, v, hv, h⟩
      obtain ⟨s, rfl, hs⟩ := refuses_toVersionUid_bind.mp h
      refine ⟨s, hv, ?_⟩
      cases hs with
      | inl hinvalid => exact .inl hinvalid
      | inr hs =>
        obtain ⟨uid, huid, hrest⟩ := hs
        right
        rw [← huid]
        exact ⟨uid.accepted, refuses_attributes.mp hrest⟩
    · rintro ⟨s, hs, h⟩
      rw [hs]
      refine ⟨rfl, _, rfl, refuses_toVersionUid_bind.mpr ⟨s, rfl, ?_⟩⟩
      cases h with
      | inl h => exact .inl h
      | inr h =>
        exact .inr ⟨⟨s.toList, h.1⟩, rfl, refuses_attributes.mpr h.2⟩
  | _ =>
    unfold importVersion
    rw [Refuses, fails_error]
    exact iff_of_true trivial trivial

theorem importVersion_ne_ok {uid : VersionUid} : importVersion db v ≠ .ok uid := by
  cases v with
  | dict items =>
    unfold importVersion
    simp only [ne_eq, bind_eq_ok, reduceCtorEq, and_false, exists_false, not_false_eq_true]
  | _ =>
    unfold importVersion
    intro h
    cases h

end Import
end Benji
