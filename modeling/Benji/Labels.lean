import Benji.InputValidation
import Benji.Lib.Fails
import Benji.Lib.Split

/-! `InputValidation.parse_and_validate_labels`: label arguments of commands and requests. -/
namespace Benji
open Lib

namespace Labels

/-- `ValueError` is what unpacking the wrong number of parts raises. -/
inductive LabelError where
  | usage (message : String)
  | valueError

/-- What one argument asks for. -/
inductive Change where
  | add (name value : Text)
  | remove (name : Text)

def Change.addition : Change → Option (Text × Text)
  | add name value => some (name, value)
  | remove _ => none

def Change.removal : Change → Option Text
  | add _ _ => none
  | remove name => some name

def checkName (name : Text) : Except LabelError Unit :=
  match InputValidation.isLabelName name with
  | none => .error .valueError
  | some false => .error (.usage s!"Label name {String.ofList name} is invalid.")
  | some true => .ok ()

def checkValue (value : Text) : Except LabelError Unit :=
  if InputValidation.isLabelValue value then .ok ()
  else .error (.usage s!"Label value {String.ofList value} is not a valid.")

/-- The body of the loop. -/
def parseLabel (label : Text) : Except LabelError Change :=
  if label = [] then .error (.usage "A zero-length label is invalid.")
  else if label.getLast? = some '-' then
    checkName label.dropLast >>= fun _ => .ok (.remove label.dropLast)
  else if '=' ∈ label then
    match label.splitOn '=' with
    | [name, value] =>
      if name = [] then .error (.usage s!"Missing label key in label {String.ofList label}.")
      else checkName name >>= fun _ => checkValue value >>= fun _ => .ok (.add name value)
    | _ => .error .valueError
  else checkName label >>= fun _ => .ok (.add label [])

/-- The lists `add_list` and `remove_list`. -/
abbrev Lists := List (Text × Text) × List Text

def Lists.record (lists : Lists) : Change → Lists
  | .add name value => (lists.1 ++ [(name, value)], lists.2)
  | .remove name => (lists.1, lists.2 ++ [name])

def parseAndValidateLabels (labels : List Text) : Except LabelError Lists :=
  labels.foldlM (fun lists label => (parseLabel label).map lists.record) ([], [])

/-! What is accepted -/

/-- An optional subdomain, a slash, and a qualified name. -/
def LabelName (name : Text) : Prop :=
  ∃ qualified, InputValidation.isQualifiedName qualified = true ∧
    (name = qualified ∨
      ∃ subdomain, InputValidation.isDns1123Subdomain subdomain = true ∧
        name = subdomain ++ '/' :: qualified)

def LabelValue (value : Text) : Prop := InputValidation.isLabelValue value = true

def Change.Valid : Change → Prop
  | add name value => LabelName name ∧ LabelValue value
  | remove name => LabelName name

/-- The form an argument has for a change. -/
inductive Written : Text → Change → Prop where
  | remove (name : Text) : Written (name ++ ['-']) (.remove name)
  | pair (name value : Text) (hn : '=' ∉ name) (hv : '=' ∉ value)
      (hl : (name ++ '=' :: value).getLast? ≠ some '-') :
      Written (name ++ '=' :: value) (.add name value)
  | bare (name : Text) (hn : '=' ∉ name) (hl : name.getLast? ≠ some '-') :
      Written name (.add name [])

def Accepted (label : Text) : Prop := ∃ c, Written label c ∧ c.Valid

/-- Too many slashes in what is taken as the name, or too many equal signs. -/
def Breaks (label : Text) : Prop :=
  if label.getLast? = some '-' then 2 ≤ label.dropLast.count '/'
  else 2 ≤ label.count '=' ∨ 2 ≤ (label.takeWhile (· ≠ '=')).count '/'

instance (label : Text) : Decidable (Breaks label) := by
  unfold Breaks
  infer_instance

section
variable {label name value : Text} {labels : List Text} {c : Change} {lists : Lists}

theorem isLabelName_eq_none : InputValidation.isLabelName name = none ↔ 2 ≤ name.count '/' := by
  have hlen := length_splitOn '/' name
  unfold InputValidation.isLabelName
  split
  · rename_i h
    rw [h] at hlen
    simp only [List.length_cons, List.length_nil] at hlen
    constructor
    · intro h
      cases h
    · omega
  · rename_i h
    rw [h] at hlen
    simp only [List.length_cons, List.length_nil] at hlen
    constructor
    · intro h
      cases h
    · omega
  · rename_i h1 h2
    refine ⟨fun _ => ?_, fun _ => rfl⟩
    by_contra hlt
    have hshort : (name.splitOn '/').length = 1 ∨ (name.splitOn '/').length = 2 := by omega
    cases hshort with
    | inl h =>
      obtain ⟨p, hp⟩ := List.length_eq_one_iff.mp h
      exact h1 p hp
    | inr h =>
      obtain ⟨p, q, hp⟩ := List.length_eq_two.mp h
      exact h2 p q hp

theorem slash_not_mem_of_qualified (h : InputValidation.isQualifiedName name = true) :
    '/' ∉ name := by
  intro hmem
  simp only [InputValidation.isQualifiedName, Bool.and_eq_true] at h
  have hc := List.all_eq_true.mp h.1.2 '/' hmem
  revert hc
  decide

theorem slash_not_mem_of_subdomain (h : InputValidation.isDns1123Subdomain name = true) :
    '/' ∉ name := by
  intro hmem
  obtain ⟨p, hp, hslash⟩ := exists_mem_splitOn (c := '.') (by decide) hmem
  simp only [InputValidation.isDns1123Subdomain, Bool.and_eq_true] at h
  have hlabel := List.all_eq_true.mp h.2 p hp
  simp only [InputValidation.isDns1123Label, Bool.and_eq_true] at hlabel
  have hc := List.all_eq_true.mp hlabel.1.2 '/' hslash
  revert hc
  decide

theorem ne_nil_of_qualified (h : InputValidation.isQualifiedName name = true) : name ≠ [] := by
  rintro rfl
  cases h

theorem ne_nil_of_subdomain (h : InputValidation.isDns1123Subdomain name = true) : name ≠ [] := by
  rintro rfl
  cases h

/-- Qualified names and subdomains have no slash, so the only one separates them. -/
theorem isLabelName_eq_true : InputValidation.isLabelName name = some true ↔ LabelName name := by
  constructor
  · unfold InputValidation.isLabelName
    split
    · rename_i qualified h
      intro hq
      exact ⟨qualified, Option.some.inj hq, .inl (splitOn_eq_one_iff.mp h).2⟩
    · rename_i subdomain qualified h
      intro hq
      have hq := Option.some.inj hq
      simp only [Bool.and_eq_true] at hq
      exact ⟨qualified, hq.2, .inr ⟨subdomain, hq.1.2, (splitOn_eq_two_iff.mp h).1⟩⟩
    · intro h
      cases h
  · rintro ⟨qualified, hq, hname⟩
    have hslash := slash_not_mem_of_qualified hq
    cases hname with
    | inl h =>
      have hsplit : name.splitOn '/' = [name] := splitOn_eq_one_iff.mpr ⟨h ▸ hslash, rfl⟩
      simp only [InputValidation.isLabelName, hsplit]
      rw [h, hq]
    | inr h =>
      obtain ⟨subdomain, hs, hname⟩ := h
      have hsplit : name.splitOn '/' = [subdomain, qualified] :=
        splitOn_eq_two_iff.mpr ⟨hname, slash_not_mem_of_subdomain hs, hslash⟩
      simp only [InputValidation.isLabelName, hsplit]
      simp [ne_nil_of_subdomain hs, ne_nil_of_qualified hq, hs, hq]

theorem LabelName.ne_nil (h : LabelName name) : name ≠ [] := by
  obtain ⟨qualified, hq, hname⟩ := h
  cases hname with
  | inl h => exact h ▸ ne_nil_of_qualified hq
  | inr h =>
    obtain ⟨subdomain, -, rfl⟩ := h
    simp

theorem checkName_eq_ok : checkName name = .ok () ↔ LabelName name := by
  rw [← isLabelName_eq_true, checkName]
  cases InputValidation.isLabelName name with
  | none => simp
  | some b => cases b <;> simp

theorem checkName_valueError : Fails (· = .valueError) (checkName name) ↔ 2 ≤ name.count '/' := by
  rw [← isLabelName_eq_none, checkName]
  cases InputValidation.isLabelName name with
  | none => simp
  | some b => cases b <;> simp

theorem checkValue_eq_ok : checkValue value = .ok () ↔ LabelValue value := by
  rw [checkValue, LabelValue]
  split_ifs with h <;> simp [h]

theorem checkValue_valueError : ¬ Fails (· = .valueError) (checkValue value) := by
  rw [checkValue]
  split_ifs with h <;> simp

/-- An argument is taken for what its form says if the names and values in it are valid. -/
theorem parseLabel_eq_ok : parseLabel label = .ok c ↔ Written label c ∧ c.Valid := by
  constructor
  · intro h
    rw [parseLabel] at h
    split_ifs at h with h0 hd he
    · rw [bind_eq_ok, exists_unit_iff, checkName_eq_ok] at h
      obtain ⟨hn, hc⟩ := h
      cases hc
      refine ⟨?_, hn⟩
      have hw := Written.remove label.dropLast
      rwa [List.dropLast_append_getLast? '-' hd] at hw
    · split at h
      · rename_i name value hs
        obtain ⟨hl, hn, hv⟩ := splitOn_eq_two_iff.mp hs
        split_ifs at h
        rw [bind_eq_ok, exists_unit_iff, checkName_eq_ok, bind_eq_ok, exists_unit_iff,
          checkValue_eq_ok] at h
        obtain ⟨hname, hvalue, hc⟩ := h
        cases hc
        rw [hl] at hd ⊢
        exact ⟨.pair name value hn hv hd, hname, hvalue⟩
      · cases h
    · rw [bind_eq_ok, exists_unit_iff, checkName_eq_ok] at h
      obtain ⟨hn, hc⟩ := h
      cases hc
      exact ⟨.bare label he hd, hn, rfl⟩
  · rintro ⟨hw, hvalid⟩
    cases hw with
    | remove name =>
      rw [parseLabel, if_neg (by simp), if_pos (by simp), List.dropLast_concat, bind_eq_ok,
        exists_unit_iff, checkName_eq_ok]
      exact ⟨hvalid, rfl⟩
    | pair name value hn hv hl =>
      have hs : (name ++ '=' :: value).splitOn '=' = [name, value] :=
        splitOn_eq_two_iff.mpr ⟨rfl, hn, hv⟩
      rw [parseLabel, if_neg (by simp), if_neg hl, if_pos (by simp), hs]
      simp only
      rw [if_neg hvalid.1.ne_nil, bind_eq_ok, exists_unit_iff, checkName_eq_ok, bind_eq_ok,
        exists_unit_iff, checkValue_eq_ok]
      exact ⟨hvalid.1, hvalid.2, rfl⟩
    | bare name hn hl =>
      rw [parseLabel, if_neg hvalid.1.ne_nil, if_neg hl, if_neg hn, bind_eq_ok, exists_unit_iff,
        checkName_eq_ok]
      exact ⟨hvalid.1, rfl⟩

theorem takeWhile_append (h : '=' ∉ name) :
    (name ++ value).takeWhile (· ≠ '=') = name ++ value.takeWhile (· ≠ '=') := by
  apply List.takeWhile_append_of_pos
  intro c hc
  exact decide_eq_true fun heq => h (heq ▸ hc)

theorem parseLabel_valueError : Fails (· = .valueError) (parseLabel label) ↔ Breaks label := by
  rw [parseLabel, Breaks]
  by_cases h0 : label = []
  · rw [if_pos h0, h0]
    simp
  rw [if_neg h0]
  by_cases hd : label.getLast? = some '-'
  · rw [if_pos hd, if_pos hd, fails_bind, exists_unit_iff, checkName_valueError]
    simp
  rw [if_neg hd, if_neg hd]
  by_cases he : '=' ∈ label
  · rw [if_pos he]
    split
    · rename_i name value hs
      obtain ⟨rfl, hn, hv⟩ := splitOn_eq_two_iff.mp hs
      have hcount : (name ++ '=' :: value).count '=' = 1 := by
        rw [List.count_append, List.count_cons_self, List.count_eq_zero.mpr hn,
          List.count_eq_zero.mpr hv]
      rw [takeWhile_append hn, hcount, List.takeWhile_cons_of_neg (by simp), List.append_nil]
      by_cases hname : name = []
      · rw [if_pos hname, hname]
        simp
      · rw [if_neg hname, fails_bind, exists_unit_iff, checkName_valueError, fails_bind,
          exists_unit_iff]
        simp [checkValue_valueError]
    · rename_i hs
      have hcount : 2 ≤ label.count '=' := by
        by_contra hlt
        have hpos := List.count_pos_iff.mpr he
        have hlen := length_splitOn '=' label
        obtain ⟨p, q, hp⟩ := List.length_eq_two.mp (show (label.splitOn '=').length = 2 by omega)
        exact hs p q hp
      simp [hcount]
  · have hall : (label ++ []).takeWhile (· ≠ '=') = label ++ [].takeWhile (· ≠ '=') :=
      takeWhile_append he
    rw [List.append_nil, List.takeWhile_nil, List.append_nil] at hall
    rw [if_neg he, fails_bind, exists_unit_iff, checkName_valueError, hall,
      List.count_eq_zero.mpr he]
    simp

theorem foldlM_parseLabel (lists : Lists) :
    labels.foldlM (fun lists label => (parseLabel label).map lists.record) lists =
      (labels.mapM parseLabel).map fun cs =>
        (lists.1 ++ cs.filterMap Change.addition, lists.2 ++ cs.filterMap Change.removal) := by
  induction labels generalizing lists with
  | nil => simp [pure, Except.pure, Except.map]
  | cons label labels ih =>
    rw [List.foldlM_cons, mapM_cons]
    cases hp : parseLabel label with
    | error e => rfl
    | ok c =>
      have hstep : ((Except.ok c : Except LabelError Change).map lists.record >>= fun lists =>
          labels.foldlM (fun lists label => (parseLabel label).map lists.record) lists) =
          labels.foldlM (fun lists label => (parseLabel label).map lists.record)
            (lists.record c) := rfl
      rw [hstep, ih]
      cases labels.mapM parseLabel with
      | error e => rfl
      | ok cs => cases c <;> simp [Except.map, bind, Except.bind, pure, Except.pure, Lists.record,
          List.filterMap_cons, Change.addition, Change.removal]

/-- The loop collects, in the order of the arguments, what each of them asks for. -/
theorem parseAndValidateLabels_eq (labels : List Text) :
    parseAndValidateLabels labels = (labels.mapM parseLabel).map fun cs =>
      (cs.filterMap Change.addition, cs.filterMap Change.removal) := by
  rw [parseAndValidateLabels, foldlM_parseLabel]
  rfl

/-- The lists are what the arguments ask for, in their order, and every name and value is valid. -/
def Parsed (labels : List Text) (lists : Lists) : Prop :=
  (∃ cs, List.Forall₂ Written labels cs ∧ lists = (cs.filterMap Change.addition,
      cs.filterMap Change.removal)) ∧
    (∀ p ∈ lists.1, LabelName p.1 ∧ LabelValue p.2) ∧ ∀ name ∈ lists.2, LabelName name

/-- Either the arguments are parsed or `UsageError` is raised. -/
def ParsedOrRefused (labels : List Text) : Prop :=
  (∃ lists, parseAndValidateLabels labels = .ok lists ∧ Parsed labels lists) ∨
    ∃ message, parseAndValidateLabels labels = .error (.usage message)

theorem valid_of_parseLabel {cs : List Change}
    (h : List.Forall₂ (fun label c => parseLabel label = .ok c) labels cs) :
    ∀ c ∈ cs, c.Valid := by
  induction h with
  | nil => simp
  | cons hc _ ih =>
    rw [List.forall_mem_cons]
    exact ⟨(parseLabel_eq_ok.mp hc).2, ih⟩

theorem parsed_of_eq_ok (h : parseAndValidateLabels labels = .ok lists) : Parsed labels lists := by
  rw [parseAndValidateLabels_eq] at h
  cases hm : labels.mapM parseLabel with
  | error e =>
    rw [hm] at h
    cases h
  | ok cs =>
    rw [hm] at h
    cases h
    have hall := mapM_eq_ok_iff.mp hm
    have hwritten : List.Forall₂ Written labels cs :=
      hall.imp fun _ _ hc => (parseLabel_eq_ok.mp hc).1
    have hvalid := valid_of_parseLabel hall
    refine ⟨⟨cs, hwritten, rfl⟩, ?_, ?_⟩
    · intro p hp
      obtain ⟨c, hc, hadd⟩ := List.mem_filterMap.mp hp
      cases c with
      | add name value =>
        cases hadd
        exact hvalid _ hc
      | remove name => cases hadd
    · intro name hn
      obtain ⟨c, hc, hremove⟩ := List.mem_filterMap.mp hn
      cases c with
      | add name value => cases hremove
      | remove name =>
        cases hremove
        exact hvalid _ hc

theorem parse_valueError : Fails (· = .valueError) (parseAndValidateLabels labels) ↔
    FirstRefused Accepted Breaks labels := by
  have hmap : Fails (· = .valueError) (parseAndValidateLabels labels) ↔
      Fails (· = .valueError) (labels.mapM parseLabel) := by
    rw [parseAndValidateLabels_eq]
    cases labels.mapM parseLabel with
    | error e =>
      rw [Except.map, fails_error, fails_error]
    | ok cs =>
      rw [Except.map]
      simp
  rw [hmap, fails_mapM_iff]
  simp only [parseLabel_eq_ok, parseLabel_valueError]
  exact Iff.rfl

/-- The arguments are parsed or refused unless, after arguments that are all accepted, there is
one with too many slashes or equal signs. -/
theorem parsedOrRefused_iff (labels : List Text) :
    ParsedOrRefused labels ↔ ¬ FirstRefused Accepted Breaks labels := by
  rw [← parse_valueError]
  constructor
  · rintro (⟨lists, h, -⟩ | ⟨message, h⟩)
    · rw [h]
      simp
    · rw [h]
      simp
  · intro hn
    cases h : parseAndValidateLabels labels with
    | ok lists => exact .inl ⟨lists, h, parsed_of_eq_ok h⟩
    | error e =>
      cases e with
      | usage message => exact .inr ⟨message, h⟩
      | valueError =>
        rw [h] at hn
        simp at hn

theorem breaks_twoEqualSigns : ¬ ∀ labels : List Text, ParsedOrRefused labels := by
  intro h
  have hbreaks : Breaks ['a', '=', 'b', '=', 'c'] := by decide
  obtain ⟨e, hvalue, he⟩ := parse_valueError.mpr
    ⟨[], ['a', '=', 'b', '=', 'c'], [], rfl, by simp, hbreaks⟩
  rcases h [['a', '=', 'b', '=', 'c']] with ⟨lists, hl, -⟩ | ⟨message, hl⟩
  · cases hvalue.symm.trans hl
  · cases he
    cases hvalue.symm.trans hl

end
end Labels
end Benji
