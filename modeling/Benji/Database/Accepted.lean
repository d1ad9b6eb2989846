import Benji.Database.Refused

/-! The documents that an import answers with a result or a refusal. -/
namespace Benji
open Lib

namespace Import
variable {db : Archive} {items : List (String × Json)} {key message uid : String} {v : Json}
  {U : UnicodeData} {S : SemanticVersion} {number : FormatVersion}

/-! ### Versions of the first format -/

theorem isVersionUid_digits {sign digits : Text} (hsign : ∀ c ∈ sign, c = '-' ∨ c = '0')
    (hdigits : ∀ c ∈ digits, c.isDigit = true) (hne : digits ≠ []) :
    InputValidation.isVersionUid ('V' :: (sign ++ digits)) = true := by
  have hchar (c : Char) (hc : c.isDigit = true) : InputValidation.valueChar c = true := by
    unfold InputValidation.valueChar Char.isAlphanum
    rw [hc]
    simp
  have hlast : ('V' :: (sign ++ digits)).getLast? ≠ some '-' := by
    rw [← List.cons_append, List.getLast?_append_of_ne_nil _ hne]
    intro h
    have hd := hdigits '-' (List.mem_of_getLast? h)
    exact absurd hd (by decide)
  unfold InputValidation.isVersionUid InputValidation.isValue InputValidation.noDashAround
  simp only [Bool.and_eq_true, decide_eq_true_eq, List.all_eq_true]
  refine ⟨⟨by simp, ?_⟩, by simp, hlast⟩
  intro c hc
  rw [List.mem_cons, List.mem_append] at hc
  obtain rfl | hc | hc := hc
  · decide
  · obtain rfl | rfl := hsign c hc <;> decide
  · exact hchar c (hdigits c hc)

theorem isVersionUid_leftpad {sign : Text} {width n : ℕ} (hsign : ∀ c ∈ sign, c = '-' ∨ c = '0') :
    InputValidation.isVersionUid
      ('V' :: (sign ++ (Nat.toDigits 10 n).leftpad width '0')) = true := by
  unfold List.leftpad
  rw [← List.append_assoc]
  apply isVersionUid_digits
  · intro c hc
    rw [List.mem_append] at hc
    cases hc with
    | inl hc => exact hsign c hc
    | inr hc => exact .inr (List.eq_of_mem_replicate hc)
  · intro c hc
    exact Nat.isDigit_of_mem_toDigits (by decide) (by decide) hc
  · exact Nat.toDigits_ne_nil

theorem formatUid_accepted {text : Text} (h : formatUid v = .ok text) :
    InputValidation.isVersionUid text = true := by
  have hnat (n : ℕ) : InputValidation.isVersionUid
      ('V' :: (Nat.toDigits 10 n).leftpad 10 '0') = true := by
    have hempty : ∀ c ∈ ([] : Text), c = '-' ∨ c = '0' := by simp
    exact isVersionUid_leftpad hempty
  cases v with
  | int i =>
    cases i with
    | ofNat n =>
      cases h
      exact hnat _
    | negSucc n =>
      cases h
      have hminus : ∀ c ∈ ['-'], c = '-' ∨ c = '0' := by simp
      exact isVersionUid_leftpad hminus
  | bool b =>
    cases h
    exact hnat _
  | _ => cases h

/-- A value with a text in the format `d`. -/
def IsInteger : Json → Prop
  | .int _ => True
  | .bool _ => True
  | _ => False

theorem formatUid_eq_ok : (∃ text, formatUid v = .ok text) ↔ IsInteger v := by
  cases v with
  | int i => cases i <;> simp [formatUid, IsInteger]
  | _ => simp [formatUid, IsInteger]

theorem not_refuses_formatUid : ¬ Refuses (formatUid v) := by
  cases v with
  | int i => cases i <;> exact fails_ok
  | bool b => exact fails_ok
  | _ =>
    unfold formatUid
    rw [Refuses, fails_error]
    exact id

/-- A dict with a name, which can be a key, and a value. -/
def OldLabelPassed (v : Json) : Prop := ∃ items, v = .dict items ∧
  (∀ key ∈ ["name", "value"], (items.lookup key).isSome = true) ∧
  ∃ name, items.lookup "name" = some name ∧ isHashable name = true

def OldLabelRefused (v : Json) : Prop :=
  ∀ items, v = .dict items → ∃ key ∈ ["name", "value"], items.lookup key = none

theorem convertLabel_eq_ok : convertLabel uid v = .ok () ↔ OldLabelPassed v := by
  cases v with
  | dict items =>
    unfold convertLabel OldLabelPassed
    simp only [bind_eq_ok, exists_unit_iff, requireItems_eq_ok, getItem_eq_ok, Json.dict.injEq,
      exists_eq_left']
    refine and_congr_right fun _ => exists_congr fun name => and_congr_right fun _ => ?_
    split_ifs with h <;> simp [h]
  | _ =>
    unfold convertLabel OldLabelPassed
    simp

theorem refuses_convertLabel : Refuses (convertLabel uid v) ↔ OldLabelRefused v := by
  cases v with
  | dict items =>
    unfold convertLabel OldLabelRefused
    have hrequire := @refuses_requireItems items ["name", "value"]
    simp only [Refuses] at hrequire
    rw [Refuses, fails_bind, exists_unit_iff, hrequire, or_iff_left]
    · constructor
      · rintro h items' heq
        cases heq
        exact h
      · intro h
        exact h items rfl
    · rintro ⟨-, h⟩
      obtain ⟨name, -, h⟩ := refuses_getItem_bind.mp h
      split_ifs at h
      · exact fails_ok h
      · exact fails_error.mp h
  | _ =>
    unfold convertLabel OldLabelRefused
    rw [Refuses, fails_error]
    exact iff_of_true trivial (fun _ h => by cases h)

def OldBlockPassed (v : Json) : Prop :=
  ∃ items, v = .dict items ∧ (items.lookup "id").isSome = true

/-- A list or a text without an `id` in it is refused too. -/
def OldBlockRefused : Json → Prop
  | .dict items => items.lookup "id" = none
  | .list xs => .str "id" ∉ xs
  | .str s => Export.isPart "id".toList s.toList = false
  | _ => False

theorem convertBlock_eq_ok : convertBlock uid v = .ok () ↔ OldBlockPassed v := by
  unfold convertBlock OldBlockPassed
  cases v with
  | dict items =>
    simp only [Json.dict.injEq, exists_eq_left']
    split_ifs with h
    · exact iff_of_true rfl h
    · exact iff_of_false (by simp) h
  | list xs =>
    dsimp only
    split_ifs <;> simp
  | str s =>
    dsimp only
    split_ifs <;> simp
  | _ => simp

theorem any_not_differs {xs : List Json} {text : String} :
    (xs.any fun x => !DictHmac.differs x text) = true ↔ .str text ∈ xs := by
  rw [List.any_eq_true]
  constructor
  · rintro ⟨x, hx, h⟩
    have hstr : DictHmac.differs x text = false := by simpa using h
    rw [DictHmac.differs_eq_false] at hstr
    rw [← hstr]
    exact hx
  · intro h
    exact ⟨_, h, by simp [DictHmac.differs_eq_false.mpr rfl]⟩

theorem refuses_convertBlock : Refuses (convertBlock uid v) ↔ OldBlockRefused v := by
  unfold convertBlock OldBlockRefused
  cases v with
  | dict items =>
    dsimp only
    cases items.lookup "id" <;> simp [Refusal]
  | list xs =>
    dsimp only
    split_ifs with h
    · exact iff_of_false (by simp [Refusal]) (not_not.mpr (any_not_differs.mp h))
    · exact iff_of_true (by simp [Refusal]) (fun hmem => h (any_not_differs.mpr hmem))
  | str s =>
    dsimp only
    split_ifs with h
    · exact iff_of_false (by simp [Refusal]) (by rw [h]; decide)
    · exact iff_of_true (by simp [Refusal]) (Bool.eq_false_iff.mpr h)
  | _ => simp [Refusal]

theorem refuses_checkDate : Refuses (checkDate items uid) ↔
    ∃ v, items.lookup "date" = some v ∧ ∀ s, v ≠ .str s := by
  unfold checkDate
  rw [refuses_getItem_bind]
  refine exists_congr fun v => and_congr_right fun _ => ?_
  cases v <;> simp [Refusal]

/-- The labels, the blocks or the date are refused, in this order. -/
def OldContentsRefused (items : List (String × Json)) : Prop :=
  (∃ v, items.lookup "labels" = some v ∧ ∀ labels, v ≠ .list labels) ∨
  ∃ labels, items.lookup "labels" = some (.list labels) ∧
    (FirstRefused OldLabelPassed OldLabelRefused labels ∨
    (∀ label ∈ labels, OldLabelPassed label) ∧
      ((∃ v, items.lookup "blocks" = some v ∧ ∀ blocks, v ≠ .list blocks) ∨
      ∃ blocks, items.lookup "blocks" = some (.list blocks) ∧
        (FirstRefused OldBlockPassed OldBlockRefused blocks ∨
        (∀ block ∈ blocks, OldBlockPassed block) ∧
          ∃ v, items.lookup "date" = some v ∧ ∀ s, v ≠ .str s)))

theorem refuses_oldChecks {name : String} :
    Refuses (do
      let labels ← getList items s!"Wrong data type for labels in version {name}." "labels"
      labels.forM (convertLabel name)
      let blocks ← getList items s!"Wrong data type for blocks in version {name}." "blocks"
      blocks.forM (convertBlock name)
      checkDate items name
      (.error .typeError : Except Error Json)) ↔ OldContentsRefused items := by
  have hlabels {labels : List Json} :
      Refuses (labels.forM (convertLabel name)) ↔
        FirstRefused OldLabelPassed OldLabelRefused labels := by
    have hrefuses (v : Json) := @refuses_convertLabel name v
    simp only [Refuses] at hrefuses
    rw [Refuses, fails_forM]
    simp only [convertLabel_eq_ok, hrefuses]
  have hblocks {blocks : List Json} :
      Refuses (blocks.forM (convertBlock name)) ↔
        FirstRefused OldBlockPassed OldBlockRefused blocks := by
    have hrefuses (v : Json) := @refuses_convertBlock name v
    simp only [Refuses] at hrefuses
    rw [Refuses, fails_forM]
    simp only [convertBlock_eq_ok, hrefuses]
  have hlist := @refuses_getList items
  have hdate := @refuses_checkDate items name
  have hnever : ¬ Refuses (.error .typeError : Except Error Json) := by
    rw [Refuses, fails_error]
    exact id
  simp only [Refuses] at hlabels hblocks hlist hdate hnever ⊢
  unfold OldContentsRefused
  simp only [fails_bind, exists_unit_iff, hlist, hblocks, hlabels, hdate, getList_eq_ok, forM_eq_ok,
    convertLabel_eq_ok, convertBlock_eq_ok, hnever, and_false, or_false]

/-- The first thing that is wrong with the version is one that `import_v1` checks. -/
def OldVersionRefused (minor : ℕ) : Json → Prop
  | .dict items =>
    items.lookup "uid" = none ∨
    ∃ uid, items.lookup "uid" = some uid ∧ IsInteger uid ∧
      ((∃ key ∈ attributesToCheckV1, items.lookup key = none) ∨
      (∀ key ∈ attributesToCheckV1, (items.lookup key).isSome = true) ∧
        (minor = 0 ∨ (items.lookup "bytes_dedup").isSome = true) ∧ OldContentsRefused items)
  | _ => True

theorem convertVersion_ne_ok {minor : ℕ} {converted : Json} :
    convertVersion minor v ≠ .ok converted := by
  cases v with
  | dict items =>
    unfold convertVersion
    simp only [ne_eq, bind_eq_ok, reduceCtorEq, and_false, exists_false, not_false_eq_true]
  | _ =>
    unfold convertVersion
    intro h
    cases h

theorem readDedup_eq_ok {minor : ℕ} : readDedup minor items = .ok () ↔
    minor = 0 ∨ (items.lookup "bytes_dedup").isSome = true := by
  unfold readDedup getItem
  split_ifs with hminor
  · exact iff_of_true rfl (.inl hminor)
  · dsimp only
    rw [or_iff_right hminor]
    cases items.lookup "bytes_dedup" with
    | none => exact iff_of_false (fun h => by cases h) Bool.false_ne_true
    | some dedup => exact iff_of_true rfl rfl

theorem not_refuses_readDedup {minor : ℕ} : ¬ Refuses (readDedup minor items) := by
  unfold readDedup getItem
  split_ifs with hminor
  · exact fails_ok
  · dsimp only
    cases items.lookup "bytes_dedup" with
    | none => exact fun h => fails_error.mp h
    | some dedup => exact fails_ok

theorem refuses_oldAttributes {minor : ℕ} {name : String} :
    Refuses (do
      attributesToCheckV1.forM fun key =>
        requireItem items s!"Missing attribute {key} in version {name}." key
      readDedup minor items
      let labels ← getList items s!"Wrong data type for labels in version {name}." "labels"
      labels.forM (convertLabel name)
      let blocks ← getList items s!"Wrong data type for blocks in version {name}." "blocks"
      blocks.forM (convertBlock name)
      checkDate items name
      (.error .typeError : Except Error Json)) ↔
      ((∃ key ∈ attributesToCheckV1, items.lookup key = none) ∨
      (∀ key ∈ attributesToCheckV1, (items.lookup key).isSome = true) ∧
        (minor = 0 ∨ (items.lookup "bytes_dedup").isSome = true) ∧
        OldContentsRefused items) := by
  have hrequire := @refuses_requireItems items attributesToCheckV1
  have hcontents := @refuses_oldChecks items name
  have hdedup := @not_refuses_readDedup items minor
  simp only [Refuses] at hrequire hcontents hdedup ⊢
  rw [fails_bind, exists_unit_iff, fails_bind, exists_unit_iff, hrequire, hcontents,
    requireItems_eq_ok, readDedup_eq_ok, or_iff_right hdedup]

theorem refuses_convertVersion {minor : ℕ} :
    Refuses (convertVersion minor v) ↔ OldVersionRefused minor v := by
  cases v with
  | dict items =>
    unfold convertVersion OldVersionRefused
    rw [Refuses, fails_bind, exists_unit_iff]
    have hrequire := @refuses_requireItem items "uid" "Missing attribute uid in version."
    rw [Refuses] at hrequire
    rw [hrequire, requireItem_eq_ok]
    refine or_congr_right ?_
    have hget := @refuses_getItem_bind items "uid" Json
    simp only [Refuses] at hget
    rw [hget]
    simp only [fails_bind (x := formatUid _)]
    constructor
    · rintro ⟨-, v, hv, h⟩
      obtain h | ⟨text, htext, h⟩ := h
      · exact absurd h not_refuses_formatUid
      · obtain ⟨s, hs, h⟩ := refuses_toVersionUid_bind.mp h
        have htext' : s.toList = text := by
          cases hs
          exact String.toList_ofList
        rw [htext', formatUid_accepted htext] at h
        obtain h | ⟨uid, -, h⟩ := h
        · cases h
        · exact ⟨v, hv, formatUid_eq_ok.mp ⟨text, htext⟩, refuses_oldAttributes.mp h⟩
    · rintro ⟨s, hs, hinteger, h⟩
      obtain ⟨text, htext⟩ := formatUid_eq_ok.mpr hinteger
      refine ⟨by rw [hs]; rfl, s, hs, .inr ⟨text, htext, refuses_toVersionUid_bind.mpr ?_⟩⟩
      refine ⟨_, rfl, .inr ⟨⟨text, formatUid_accepted htext⟩, String.toList_ofList.symm, ?_⟩⟩
      exact refuses_oldAttributes.mpr h
  | _ =>
    unfold convertVersion
    rw [Refuses, fails_error]
    exact iff_of_true trivial trivial

/-! ### Documents -/

/-- The document lists the versions, or what iterates like them. -/
def Lists (items : List (String × Json)) (versions : List Json) : Prop :=
  ∃ v, items.lookup "versions" = some v ∧ iterate v = .ok versions

theorem refuses_versions_bind {α : Type} {f : List Json → Except Error α} :
    Refuses (getItem (.dict items) "versions" >>= fun v => iterate v >>= f) ↔
      ∃ versions, Lists items versions ∧ Refuses (f versions) := by
  have hiterate (v : Json) : ¬ Refuses (iterate v) := by
    cases v <;> simp [iterate, Refusal]
  rw [refuses_getItem_bind]
  simp only [Refuses] at hiterate ⊢
  simp only [fails_bind, hiterate, false_or]
  constructor
  · rintro ⟨v, hv, versions, hversions, h⟩
    exact ⟨versions, ⟨v, hv, hversions⟩, h⟩
  · rintro ⟨versions, ⟨v, hv, hversions⟩, h⟩
    exact ⟨v, hv, versions, hversions, h⟩

theorem versions_bind_eq_ok {α : Type} {f : List Json → Except Error α} {a : α} :
    (getItem (.dict items) "versions" >>= fun v => iterate v >>= f) = .ok a ↔
      ∃ versions, Lists items versions ∧ f versions = .ok a := by
  simp only [bind_eq_ok, getItem_eq_ok]
  constructor
  · rintro ⟨v, hv, versions, hversions, h⟩
    exact ⟨versions, ⟨v, hv, hversions⟩, h⟩
  · rintro ⟨versions, ⟨v, hv, hversions⟩, h⟩
    exact ⟨v, hv, versions, hversions, h⟩

theorem refuses_importV3 : Refuses (importV3 db (.dict items)) ↔
    ∃ version rest, Lists items (version :: rest) ∧ VersionRefused db version := by
  unfold importV3
  rw [refuses_versions_bind]
  have hnever (v : Json) (uid : VersionUid) := @importVersion_ne_ok db v uid
  have hrefuses (v : Json) := @refuses_importVersion db v
  simp only [Refuses] at hrefuses
  have hmap (versions : List Json) :
      Refuses (versions.mapM (importVersion db) >>= fun uids => pure (uids, db)) ↔
        ∃ version rest, versions = version :: rest ∧ VersionRefused db version := by
    rw [Refuses, fails_bind, fails_mapM hnever, or_iff_left]
    · simp only [hrefuses]
    · rintro ⟨uids, -, h⟩
      exact fails_ok h
  simp only [hmap]
  constructor
  · rintro ⟨_, hlists, version, rest, rfl, h⟩
    exact ⟨version, rest, hlists, h⟩
  · rintro ⟨version, rest, hlists, h⟩
    exact ⟨_, hlists, version, rest, rfl, h⟩

theorem importV3_eq_ok {r : List VersionUid × Archive} :
    importV3 db (.dict items) = .ok r ↔ Lists items [] ∧ r = ([], db) := by
  unfold importV3
  have hnever (v : Json) (uid : VersionUid) := @importVersion_ne_ok db v uid
  rw [versions_bind_eq_ok]
  simp only [bind_eq_ok, mapM_eq_ok hnever]
  constructor
  · rintro ⟨_, hlists, _, ⟨rfl, rfl⟩, h⟩
    cases h
    exact ⟨hlists, rfl⟩
  · rintro ⟨hlists, rfl⟩
    exact ⟨_, hlists, _, ⟨rfl, rfl⟩, rfl⟩

theorem lists_setItem {xs versions : List Json} :
    Lists (Json.setItem "versions" (.list xs) items) versions ↔ xs = versions := by
  unfold Lists
  rw [Json.lookup_setItem]
  simp [iterate]

theorem importV1_dict : importV1 number db (.dict items) =
    (getItem (.dict items) "versions" >>= fun v => iterate v >>= fun versions =>
      versions.mapM (convertVersion (number.minor)) >>= fun converted =>
        importV3 db (.dict (Json.setItem "versions" (.list converted) items))) := rfl

theorem refuses_importV1 : Refuses (importV1 number db (.dict items)) ↔
    ∃ version rest, Lists items (version :: rest) ∧
      OldVersionRefused (number.minor) version := by
  rw [importV1_dict, refuses_versions_bind]
  generalize number.minor = minor
  have hnever (v converted : Json) := @convertVersion_ne_ok v minor converted
  have hrefuses (v : Json) := @refuses_convertVersion v minor
  have hempty : ¬ Refuses (importV3 db (.dict (Json.setItem "versions" (.list []) items))) := by
    rw [refuses_importV3]
    rintro ⟨version, rest, hlists, -⟩
    cases lists_setItem.mp hlists
  simp only [Refuses] at hrefuses hempty ⊢
  simp only [fails_bind, fails_mapM hnever, mapM_eq_ok hnever, hrefuses]
  constructor
  · rintro ⟨_, hlists, ⟨version, rest, rfl, h⟩ | ⟨_, ⟨rfl, rfl⟩, h⟩⟩
    · exact ⟨version, rest, hlists, h⟩
    · exact absurd h hempty
  · rintro ⟨version, rest, hlists, h⟩
    exact ⟨_, hlists, .inl ⟨version, rest, rfl, h⟩⟩

theorem importV1_eq_ok {r : List VersionUid × Archive} :
    importV1 number db (.dict items) = .ok r ↔ Lists items [] ∧ r = ([], db) := by
  rw [importV1_dict, versions_bind_eq_ok]
  generalize number.minor = minor
  have hnever (v converted : Json) := @convertVersion_ne_ok v minor converted
  simp only [bind_eq_ok, mapM_eq_ok hnever, importV3_eq_ok]
  constructor
  · rintro ⟨_, hlists, _, ⟨rfl, rfl⟩, -, h⟩
    exact ⟨hlists, h⟩
  · rintro ⟨hlists, h⟩
    exact ⟨_, hlists, _, ⟨rfl, rfl⟩, lists_setItem.mpr rfl, h⟩

/-- The text of the version is malformed, or it is not supported or has no method, or the document
lists no version, or the first one in it is refused. -/
def DocumentAccepted (U : UnicodeData) (S : SemanticVersion) (db : Archive)
    (items : List (String × Json)) (version : String) : Prop :=
  matchesRegex U version = false ∨
  matchesRegex U version = true ∧ ∃ number, S.version (.str version) = .ok number ∧
    (supported S number = false ∨
    supported S number = true ∧ (number.major ∉ [1, 2, 3] ∨ Lists items [] ∨
      ∃ first rest, Lists items (first :: rest) ∧
        if number.major = 1 then OldVersionRefused number.minor first
        else VersionRefused db first))

/-- The documents on which nothing is looked up, compared or called that is not there. -/
def Accepted (U : UnicodeData) (S : SemanticVersion) (db : Archive) : Option Json → Prop
  | none => True
  | some .null => True
  | some (.dict items) => match items.lookup "metadata_version" with
    | none => True
    | some (.str version) => DocumentAccepted U S db items version
    | some _ => False
  | some (.list xs) => .str "metadata_version" ∉ xs
  | some (.str s) => Export.isPart "metadata_version".toList s.toList = false
  | _ => False

variable {json : Option Json}

theorem allOrNothing_of_error {e : Error} (h : importJson U S importV1 db json = .error e) :
    AllOrNothing U S db json ↔ Refusal e := by
  unfold AllOrNothing importRun
  rw [h]
  exact and_iff_left rfl

theorem allOrNothing_of_ok {v : Json} (h : importJson U S importV1 db json = .ok ([], db))
    (hjson : json = some v) (hlisted : listed v = []) : AllOrNothing U S db json := by
  unfold AllOrNothing importRun
  rw [h]
  refine ⟨v, hjson, ?_, ?_⟩
  · rw [hlisted]
    rfl
  · rw [hlisted]
    simp

theorem listed_of_lists {versions : List Json} (h : Lists items versions) :
    listed (.dict items) = versions := by
  obtain ⟨v, hv, hversions⟩ := h
  have hget : (getItem (.dict items) "versions" >>= iterate) = .ok versions :=
    bind_eq_ok.mpr ⟨v, getItem_eq_ok.mpr hv, hversions⟩
  rw [listed, hget]

/-- Where the import has come to the method of the format. -/
theorem allOrNothing_method {x : Except Error (List VersionUid × Archive)}
    (h : importJson U S importV1 db (some (.dict items)) = x)
    (hok : ∀ r, x = .ok r ↔ Lists items [] ∧ r = ([], db)) :
    AllOrNothing U S db (some (.dict items)) ↔ Lists items [] ∨ Refuses x := by
  cases x with
  | error e =>
    have hlists : ¬ Lists items [] := fun hlists => by
      cases (hok ([], db)).mpr ⟨hlists, rfl⟩
    rw [allOrNothing_of_error h, or_iff_right hlists, Refuses, fails_error]
  | ok r =>
    obtain ⟨hlists, rfl⟩ := (hok r).mp rfl
    exact iff_of_true (allOrNothing_of_ok h rfl (listed_of_lists hlists)) (.inl hlists)

theorem importJson_eq {version : String}
    {method : FormatVersion → Archive → Json → Except Error (List VersionUid × Archive)}
    (h : items.lookup "metadata_version" = some (.str version))
    (hmatches : matchesRegex U version = true) (hparse : S.version (.str version) = .ok number)
    (hsupported : supported S number = true)
    (hmethod : importMethod importV1 number.major = some method) :
    importJson U S importV1 db (some (.dict items)) = method number db (.dict items) := by
  simp only [importJson, h, hmatches, hparse, Except.mapError, bind, Except.bind, hsupported,
    hmethod, Bool.not_true, Bool.false_eq_true, if_false]

theorem importMethod_eq_none {method : FormatVersion → Archive → Json →
    Except Error (List VersionUid × Archive)} {n : ℕ} (h : n ∉ [1, 2, 3]) :
    importMethod method n = none := by
  simp only [List.mem_cons, List.not_mem_nil, or_false, not_or] at h
  obtain ⟨h1, h2, h3⟩ := h
  unfold importMethod
  split
  · exact absurd rfl h1
  · exact absurd rfl h2
  · exact absurd rfl h3
  · rfl

/-- Where the version has been read and is one of those that have a method. -/
theorem allOrNothing_supported {version : String}
    (h : items.lookup "metadata_version" = some (.str version))
    (hmatches : matchesRegex U version = true) (hparse : S.version (.str version) = .ok number)
    (hsupported : supported S number = true) (hmajor : number.major ∈ [1, 2, 3]) :
    AllOrNothing U S db (some (.dict items)) ↔ Lists items [] ∨
      ∃ first rest, Lists items (first :: rest) ∧
        if number.major = 1 then OldVersionRefused number.minor first
        else VersionRefused db first := by
  have himport {method : FormatVersion → Archive → Json → Except Error (List VersionUid × Archive)}
      (hmethod : importMethod importV1 number.major = some method) :
      importJson U S importV1 db (some (.dict items)) = method number db (.dict items) :=
    importJson_eq h hmatches hparse hsupported hmethod
  by_cases hfirst : number.major = 1
  · have hmethod : importMethod importV1 number.major = some importV1 := by
      rw [hfirst]
      rfl
    rw [allOrNothing_method (himport hmethod) (fun r => importV1_eq_ok), refuses_importV1]
    simp only [if_pos hfirst]
  · have hmethod : importMethod importV1 number.major = some fun _ => importV3 := by
      simp only [List.mem_cons, List.not_mem_nil, or_false, hfirst, false_or] at hmajor
      cases hmajor with
      | inl h2 =>
        rw [h2]
        rfl
      | inr h3 =>
        rw [h3]
        rfl
    rw [allOrNothing_method (himport hmethod) (fun r => importV3_eq_ok), refuses_importV3]
    simp only [if_neg hfirst]

theorem allOrNothing_document {version : String}
    (h : items.lookup "metadata_version" = some (.str version)) :
    AllOrNothing U S db (some (.dict items)) ↔ DocumentAccepted U S db items version := by
  unfold DocumentAccepted
  cases hmatches : matchesRegex U version with
  | false =>
    have himport : importJson U S importV1 db (some (.dict items)) =
        .error (.inputDataError s!"Import file has an invalid vesion of \"{version}\".") := by
      simp only [importJson, h, hmatches]
      rfl
    rw [allOrNothing_of_error himport]
    exact iff_of_true trivial (.inl rfl)
  | true =>
    cases hparse : S.version (.str version) with
    | error e =>
      have himport : importJson U S importV1 db (some (.dict items)) =
          .error (ofVersionError e) := by
        simp only [importJson, h, hmatches, hparse]
        rfl
      rw [allOrNothing_of_error himport]
      cases e <;> simp [Refusal, ofVersionError]
    | ok number =>
      simp only [Except.ok.injEq, exists_eq_left', Bool.true_eq_false, false_or, true_and]
      cases hsupported : supported S number with
      | false =>
        have himport : importJson U S importV1 db (some (.dict items)) = .error (.inputDataError
            s!"Unsupported metadata version (1): \"{number.str}\".") := by
          simp only [importJson, h, hmatches, hparse, Except.mapError, bind, Except.bind,
            hsupported]
          rfl
        rw [allOrNothing_of_error himport]
        exact iff_of_true trivial (.inl rfl)
      | true =>
        simp only [Bool.true_eq_false, false_or, true_and]
        by_cases hmajor : number.major ∈ [1, 2, 3]
        · rw [allOrNothing_supported h hmatches hparse hsupported hmajor]
          exact (or_iff_right (not_not.mpr hmajor)).symm
        · have himport : importJson U S importV1 db (some (.dict items)) = .error (.inputDataError
              s!"Unsupported metadata version (2): \"{version}\".") := by
            simp only [importJson, h, hmatches, hparse, Except.mapError, bind, Except.bind,
              hsupported, importMethod_eq_none hmajor]
            rfl
          rw [allOrNothing_of_error himport]
          exact iff_of_true trivial (.inl hmajor)

/-- An import does all or nothing, with a defined error, exactly on the accepted documents. -/
theorem allOrNothing_iff (U : UnicodeData) (S : SemanticVersion) (db : Archive)
    (json : Option Json) : AllOrNothing U S db json ↔ Accepted U S db json := by
  cases json with
  | none =>
    have himport : importJson U S importV1 db none =
        .error (.inputDataError "Import file is invalid.") := rfl
    exact (allOrNothing_of_error himport).trans (iff_of_true trivial trivial)
  | some v =>
    unfold Accepted
    cases v with
    | null =>
      have himport : importJson U S importV1 db (some .null) =
          .error (.inputDataError "Import file is empty.") := rfl
      exact (allOrNothing_of_error himport).trans (iff_of_true trivial trivial)
    | dict items =>
      dsimp only
      cases hkey : items.lookup "metadata_version" with
      | none =>
        have himport : importJson U S importV1 db (some (.dict items)) = .error missingVersion := by
          simp only [importJson, hkey]
        exact (allOrNothing_of_error himport).trans (iff_of_true trivial trivial)
      | some version =>
        cases version with
        | str version => exact allOrNothing_document hkey
        | _ =>
          have himport : importJson U S importV1 db (some (.dict items)) = .error .typeError := by
            simp only [importJson, hkey]
          exact (allOrNothing_of_error himport).trans (iff_of_false id id)
    | list xs =>
      dsimp only
      rw [← any_not_differs]
      cases hany : xs.any fun x => !DictHmac.differs x "metadata_version" with
      | true =>
        have himport : importJson U S importV1 db (some (.list xs)) = .error .typeError := by
          simp only [importJson, hany]
          rfl
        exact (allOrNothing_of_error himport).trans (iff_of_false id (by simp))
      | false =>
        have himport : importJson U S importV1 db (some (.list xs)) = .error missingVersion := by
          simp only [importJson, hany]
          rfl
        exact (allOrNothing_of_error himport).trans (iff_of_true trivial (by simp))
    | str s =>
      dsimp only
      cases hpart : Export.isPart "metadata_version".toList s.toList with
      | true =>
        have himport : importJson U S importV1 db (some (.str s)) = .error .typeError := by
          simp only [importJson, hpart]
          rfl
        exact (allOrNothing_of_error himport).trans (iff_of_false id (by simp))
      | false =>
        have himport : importJson U S importV1 db (some (.str s)) = .error missingVersion := by
          simp only [importJson, hpart]
          rfl
        exact (allOrNothing_of_error himport).trans (iff_of_true trivial rfl)
    | _ => exact (allOrNothing_of_error rfl).trans (iff_of_false id id)

/-- A document of a supported format without the list of versions. -/
def noVersions : List (String × Json) := [("metadata_version", .str "3.0.0")]

theorem keyError_escapes :
    ¬ ∀ (db : Archive) (text : String), AllOrNothing .ascii .plain db (Json.loads text) := by
  intro h
  -- The text is named: a term of this type would be evaluated to see whether it is a function.
  obtain ⟨text, hload⟩ : ∃ text, Json.loads text = some (.dict noVersions) := by
    refine ⟨Json.dumps (.dict noVersions), Json.loads_dumps ?_⟩
    simp [noVersions, Json.WF, Json.WFItems]
  have hkey : noVersions.lookup "metadata_version" = some (.str Export.currentVersion) := by
    simp [noVersions, Export.currentVersion]
  have hversion : SemanticVersion.plain.version (.str Export.currentVersion) =
      .ok ⟨3, 0, 0, [], []⟩ := rfl
  have hmethod : importMethod importV1 3 = some fun _ => importV3 := rfl
  have himport : importJson .ascii .plain importV1 exampleTarget (some (.dict noVersions)) =
      importV3 exampleTarget (.dict noVersions) :=
    importJson_eq hkey matchesRegex_currentVersion hversion rfl hmethod
  have hv3 : importV3 exampleTarget (.dict noVersions) = .error (.keyError "versions") := by
    have hlookup : noVersions.lookup "versions" = none := by simp [noVersions]
    simp only [importV3, getItem, hlookup]
    rfl
  rw [hv3] at himport
  have hall := h exampleTarget text
  rw [hload, allOrNothing_of_error himport] at hall
  exact hall

end Import
end Benji
