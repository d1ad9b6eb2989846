import Benji.Lib.Path
import Benji.Retention.Filter

/-! The text of a retention policy. -/
namespace Benji
open Lib

def Category.name : Category → Text
  | latest => "latest".toList
  | hours => "hours".toList
  | days => "days".toList
  | weeks => "weeks".toList
  | months => "months".toList
  | years => "years".toList

namespace RetentionFilter

inductive RulesError where
  | valueError (message : String)
  | usageError (message : String)

/-- The counts of the categories that are listed. -/
structure Rules where
  count : Category → Option ℕ
  positive : ∀ c n, count c = some n → 0 < n

def Rules.empty : Rules := ⟨fun _ => none, nofun⟩

def Rules.set (r : Rules) (c : Category) (n : ℕ) (hn : 0 < n) : Rules where
  count := Function.update r.count c (some n)
  positive d m h := by
    by_cases hd : d = c
    · rw [hd, Function.update_self] at h
      cases h
      exact hn
    · rw [Function.update_of_ne hd] at h
      exact r.positive d m h

/-- A match of `^([a-z]+)([0-9]+)$`, which leaves out a newline at the end. -/
def matchToken (token : Text) : Option (Text × Text) :=
  let category := token.takeWhile Char.isLower
  let rest := token.dropWhile Char.isLower
  let timecount := rest.takeWhile Char.isDigit
  let tail := rest.dropWhile Char.isDigit
  if category ≠ [] ∧ timecount ≠ [] ∧ (tail = [] ∨ tail = ['\n']) then some (category, timecount)
  else none

/-- The loop of `_parse_rules`. -/
def parseTokens : List Text → Rules → Except RulesError Rules
  | [], r => .ok r
  | token :: tokens, r =>
    if token = [] then .error (.valueError "Empty retention policy element.")
    else match matchToken token with
      | none =>
        .error (.valueError s!"Invalid retention policy element {String.ofList token}.")
      | some (category, timecount) =>
        match Category.validCategories.find? fun c => c.name = category with
        | none => .error (.valueError
          s!"Time category {String.ofList category} in retention policy is invalid.")
        | some c =>
          if (r.count c).isSome then .error (.valueError
            s!"Time category {String.ofList category} listed more than once in retention policy.")
          else if h : 0 < Nat.ofDigitChars 10 timecount 0 then
            parseTokens tokens (r.set c (Nat.ofDigitChars 10 timecount 0) h)
          else .error (.usageError
            s!"Count of time category {String.ofList category} must be a positive integer.")

/-- `_parse_rules`. -/
def parseRules (rulesSpec : Text) : Except RulesError Rules :=
  parseTokens (rulesSpec.splitOn ',') .empty

/-- `RetentionFilter.__init__` with both of its optional arguments. -/
def init (relativedelta : Relativedelta) (rulesSpec : Text) (referenceTime : ℤ)
    (utcOffset : ℤ → ℤ) : Except RulesError RetentionFilter := do
  let r ← parseRules rulesSpec
  return ⟨r.count, r.positive, referenceTime, utcOffset, relativedelta⟩

/-- The end of the text that `$` allows. -/
def lineEnd (newline : Bool) : Text := if newline then ['\n'] else []

/-- An element of a policy: leading zeros count, and so does a newline at the end. -/
structure Element where
  category : Category
  digits : Text
  newline : Bool
  all_digits : digits.all Char.isDigit = true
  positive : 0 < Nat.ofDigitChars 10 digits 0

def Element.text (e : Element) : Text :=
  e.category.name ++ (e.digits ++ lineEnd e.newline)

def Element.count (e : Element) : ℕ := Nat.ofDigitChars 10 e.digits 0

/-- The count of the element for a category. -/
def counts (es : List Element) (c : Category) : Option ℕ :=
  (es.find? fun e => e.category = c).map Element.count

theorem not_isDigit_of_isLower {c : Char} (h : c.isLower = true) : c.isDigit = false := by
  change (decide ('a'.val ≤ c.val) && decide (c.val ≤ 'z'.val)) = true at h
  have hlower : 'a'.val ≤ c.val := of_decide_eq_true (Bool.and_eq_true_iff.mp h).1
  by_contra hdigit
  rw [Bool.not_eq_false] at hdigit
  change (decide ('0'.val ≤ c.val) && decide (c.val ≤ '9'.val)) = true at hdigit
  have hle : c.val ≤ '9'.val := of_decide_eq_true (Bool.and_eq_true_iff.mp hdigit).2
  have hno : ¬ 'a'.val ≤ '9'.val := by decide
  exact hno (UInt32.le_trans hlower hle)

theorem name_lower (c : Category) : c.name.all Char.isLower = true := by
  cases c <;> rfl

theorem name_ne_nil (c : Category) : c.name ≠ [] := by
  cases c <;> decide

theorem find_name {c : Category} {s : Text} :
    (Category.validCategories.find? fun d => d.name = s) = some c ↔ c.name = s := by
  constructor
  · intro h
    simpa using List.find?_some h
  · intro h
    subst h
    cases c <;> rfl

theorem ofDigitChars_nil : Nat.ofDigitChars 10 [] 0 = 0 := rfl

theorem lineEnd_iff {s : Text} : s = [] ∨ s = ['\n'] ↔ ∃ b, s = lineEnd b := by
  constructor
  · rintro (rfl | rfl)
    · exact ⟨false, rfl⟩
    · exact ⟨true, rfl⟩
  · rintro ⟨b, rfl⟩
    cases b
    · exact Or.inl rfl
    · exact Or.inr rfl

theorem span_append {p : Char → Bool} {u v : Text} (hu : u.all p = true)
    (hv : ∀ c, v.head? = some c → p c = false) :
    (u ++ v).takeWhile p = u ∧ (u ++ v).dropWhile p = v := by
  have hall : ∀ c ∈ u, p c = true := List.all_eq_true.mp hu
  have htake : v.takeWhile p = [] := by
    cases v with
    | nil => rfl
    | cons c v => rw [List.takeWhile_cons, hv c rfl]; rfl
  have hdrop : v.dropWhile p = v := by
    cases v with
    | nil => rfl
    | cons c v => rw [List.dropWhile_cons, hv c rfl]; rfl
  rw [List.takeWhile_append_of_pos hall, List.dropWhile_append_of_pos hall, htake, hdrop]
  exact ⟨List.append_nil u, rfl⟩

theorem matchToken_iff {token category timecount : Text} :
    matchToken token = some (category, timecount) ↔
      ∃ b, token = category ++ (timecount ++ lineEnd b) ∧ category ≠ [] ∧
        category.all Char.isLower = true ∧ timecount ≠ [] ∧ timecount.all Char.isDigit = true := by
  constructor
  · intro h
    simp only [matchToken] at h
    split at h
    case isFalse => cases h
    case isTrue hc =>
      obtain ⟨h1, h2, h3⟩ := hc
      obtain ⟨b, hb⟩ := lineEnd_iff.mp h3
      cases h
      refine ⟨b, ?_, h1, List.all_takeWhile, h2, List.all_takeWhile⟩
      rw [← hb, List.takeWhile_append_dropWhile, List.takeWhile_append_dropWhile]
  · rintro ⟨b, rfl, hcategory, hlower, htime, hdigits⟩
    have hfirst : ∀ c, (timecount ++ lineEnd b).head? = some c → c.isLower = false := by
      intro c hc
      rw [List.head?_append_of_ne_nil _ htime] at hc
      have hdigit : c.isDigit = true := List.all_eq_true.mp hdigits c (List.mem_of_head? hc)
      by_contra hl
      rw [Bool.not_eq_false] at hl
      rw [not_isDigit_of_isLower hl] at hdigit
      cases hdigit
    have hend : ∀ c, (lineEnd b).head? = some c → c.isDigit = false := by
      intro c hc
      cases b
      · cases hc
      · cases hc
        rfl
    have hname := span_append hlower hfirst
    have hcount := span_append hdigits hend
    unfold matchToken
    simp only [hname.1, hname.2, hcount.1, hcount.2]
    rw [if_pos ⟨hcategory, htime, lineEnd_iff.mpr ⟨b, rfl⟩⟩]

theorem Rules.set_count (r : Rules) (c d : Category) (n : ℕ) (hn : 0 < n) :
    (r.set c n hn).count d = if c = d then some n else r.count d := by
  show Function.update r.count c (some n) d = _
  by_cases h : d = c
  · rw [h, Function.update_self, if_pos rfl]
  · rw [Function.update_of_ne h, if_neg fun e => h e.symm]

theorem Rules.ext_count {r r' : Rules} (h : ∀ c, r.count c = r'.count c) : r = r' := by
  obtain ⟨count, hcount⟩ := r
  obtain ⟨count', hcount'⟩ := r'
  obtain rfl : count = count' := funext h
  rfl

namespace Element

theorem count_pos (e : Element) : 0 < e.count := e.positive

theorem digits_ne_nil (e : Element) : e.digits ≠ [] := by
  intro h
  have hpos := e.positive
  rw [h, ofDigitChars_nil] at hpos
  exact absurd hpos (lt_irrefl 0)

theorem text_ne_nil (e : Element) : e.text ≠ [] := by
  intro h
  exact name_ne_nil e.category (List.append_eq_nil_iff.mp h).1

theorem match_text (e : Element) : matchToken e.text = some (e.category.name, e.digits) :=
  matchToken_iff.mpr ⟨e.newline, rfl, name_ne_nil _, name_lower _, e.digits_ne_nil, e.all_digits⟩

theorem no_comma (e : Element) : ',' ∉ e.text := by
  intro h
  rw [text, List.mem_append, List.mem_append] at h
  obtain h | h | h := h
  · exact absurd (List.all_eq_true.mp (name_lower e.category) _ h) (by decide)
  · exact absurd (List.all_eq_true.mp e.all_digits _ h) (by decide)
  · cases hb : e.newline
    · rw [hb] at h
      cases h
    · rw [hb] at h
      exact absurd (List.mem_singleton.mp h) (by decide)

end Element

theorem counts_cons (e : Element) (es : List Element) (c : Category) :
    counts (e :: es) c = if e.category = c then some e.count else counts es c := by
  by_cases h : e.category = c
  · simp [counts, h]
  · simp [counts, h]

theorem counts_none {es : List Element} {c : Category} (h : c ∉ es.map Element.category) :
    counts es c = none := by
  rw [counts, List.find?_eq_none.mpr, Option.map_none]
  intro e he hc
  exact h (List.mem_map.mpr ⟨e, he, of_decide_eq_true hc⟩)

/-- One round of the loop accepts an element of a category that is not set. -/
theorem parseTokens_cons {token : Text} {tokens : List Text} {r r' : Rules} :
    parseTokens (token :: tokens) r = .ok r' ↔
      ∃ e : Element, token = e.text ∧ r.count e.category = none ∧
        parseTokens tokens (r.set e.category e.count e.count_pos) = .ok r' := by
  constructor
  · intro h
    rw [parseTokens] at h
    split at h
    case isTrue => cases h
    case isFalse =>
      split at h
      case h_1 => cases h
      case h_2 category timecount hmatch =>
        obtain ⟨b, htoken, -, -, -, hdigits⟩ := matchToken_iff.mp hmatch
        split at h
        case h_1 => cases h
        case h_2 c hc =>
          split at h
          case isTrue => cases h
          case isFalse hset =>
            split at h
            case isFalse => cases h
            case isTrue hpos =>
              refine ⟨⟨c, timecount, b, hdigits, hpos⟩, ?_, ?_, h⟩
              · rw [htoken, ← find_name.mp hc]
                rfl
              · simpa using hset
  · rintro ⟨e, rfl, hnone, h⟩
    have hfind := (find_name (c := e.category)).mpr rfl
    have hset : ¬ (r.count e.category).isSome = true := by
      rw [hnone]
      exact Bool.false_ne_true
    rw [parseTokens, if_neg e.text_ne_nil, e.match_text]
    simp only [hfind]
    rw [if_neg hset, dif_pos e.positive]
    exact h

theorem parseTokens_iff (tokens : List Text) (r r' : Rules) :
    parseTokens tokens r = .ok r' ↔
      ∃ es : List Element, tokens = es.map Element.text ∧ (es.map Element.category).Nodup ∧
        (∀ e ∈ es, r.count e.category = none) ∧
        ∀ c, r'.count c = (counts es c).or (r.count c) := by
  induction tokens generalizing r with
  | nil =>
    constructor
    · intro h
      cases h
      exact ⟨[], rfl, List.nodup_nil, nofun, fun _ => rfl⟩
    · rintro ⟨es, htokens, -, -, hcount⟩
      obtain rfl := List.map_eq_nil_iff.mp htokens.symm
      rw [Rules.ext_count hcount]
      rfl
  | cons token tokens ih =>
    rw [parseTokens_cons]
    constructor
    · rintro ⟨e, rfl, hnone, h⟩
      obtain ⟨es, rfl, hnodup, hunset, hcount⟩ := (ih _).mp h
      simp only [Rules.set_count] at hunset hcount
      have hnew : e.category ∉ es.map Element.category := by
        intro hmem
        obtain ⟨e', he', hc⟩ := List.mem_map.mp hmem
        have hne := hunset e' he'
        rw [if_pos hc.symm] at hne
        cases hne
      refine ⟨e :: es, rfl, List.nodup_cons.mpr ⟨hnew, hnodup⟩, ?_, fun c => ?_⟩
      · intro e' he'
        obtain rfl | he' := List.mem_cons.mp he'
        · exact hnone
        · have hne : ¬ e.category = e'.category := fun hc =>
            hnew (hc ▸ List.mem_map_of_mem he')
          have hrest := hunset e' he'
          rwa [if_neg hne] at hrest
      · rw [hcount c, counts_cons]
        by_cases hc : e.category = c
        · rw [if_pos hc, if_pos hc, counts_none (hc ▸ hnew)]
          rfl
        · rw [if_neg hc, if_neg hc]
    · rintro ⟨es, htokens, hnodup, hunset, hcount⟩
      obtain ⟨e, es, rfl, rfl, rfl⟩ := List.map_eq_cons_iff.mp htokens.symm
      obtain ⟨hnew, hnodup⟩ := List.nodup_cons.mp hnodup
      refine ⟨e, rfl, hunset e List.mem_cons_self, (ih _).mpr ⟨es, rfl, hnodup, ?_, fun c => ?_⟩⟩
      · intro e' he'
        have hne : ¬ e.category = e'.category := fun hc => hnew (hc ▸ List.mem_map_of_mem he')
        rw [Rules.set_count, if_neg hne]
        exact hunset e' (List.mem_cons_of_mem _ he')
      · rw [hcount c, counts_cons, Rules.set_count]
        by_cases hc : e.category = c
        · rw [if_pos hc, if_pos hc, counts_none (hc ▸ hnew)]
          rfl
        · rw [if_neg hc, if_neg hc]

/-- A policy is read as the counts of its elements, and nothing else is a policy. -/
theorem parseRules_iff (rulesSpec : Text) (r : Rules) :
    parseRules rulesSpec = .ok r ↔
      ∃ es : List Element, es ≠ [] ∧ rulesSpec = [','].intercalate (es.map Element.text) ∧
        (es.map Element.category).Nodup ∧ r.count = counts es := by
  rw [parseRules, parseTokens_iff]
  have hempty : ∀ o : Option ℕ, o.or none = o := fun o => by cases o <;> rfl
  constructor
  · rintro ⟨es, htokens, hnodup, -, hcount⟩
    refine ⟨es, ?_, ?_, hnodup, funext fun c => ?_⟩
    · rintro rfl
      exact List.splitOn_ne_nil _ _ htokens
    · rw [← htokens, List.intercalate_splitOn]
    · rw [hcount c]
      exact hempty _
  · rintro ⟨es, hne, rfl, hnodup, hcount⟩
    refine ⟨es, ?_, hnodup, fun _ _ => rfl, fun c => ?_⟩
    · refine List.splitOn_intercalate _ ?_ ?_
      · intro text htext
        obtain ⟨e, -, rfl⟩ := List.mem_map.mp htext
        exact e.no_comma
      · exact fun h => hne (List.map_eq_nil_iff.mp h)
    · rw [hcount]
      exact (hempty _).symm

/-- A filter is made exactly when the policy lists each of its categories once. -/
theorem init_iff (relativedelta : Relativedelta) (rulesSpec : Text) (referenceTime : ℤ)
    (utcOffset : ℤ → ℤ) (f : RetentionFilter) :
    init relativedelta rulesSpec referenceTime utcOffset = .ok f ↔
      f.referenceTime = referenceTime ∧ f.utcOffset = utcOffset ∧
        f.relativedelta = relativedelta ∧
        ∃ es : List Element, es ≠ [] ∧ rulesSpec = [','].intercalate (es.map Element.text) ∧
          (es.map Element.category).Nodup ∧ f.rules = counts es := by
  constructor
  · intro h
    rw [init] at h
    cases hr : parseRules rulesSpec with
    | error e =>
      rw [hr] at h
      cases h
    | ok r =>
      rw [hr] at h
      cases h
      exact ⟨rfl, rfl, rfl, (parseRules_iff rulesSpec r).mp hr⟩
  · rintro ⟨rfl, rfl, rfl, hes⟩
    have hr := (parseRules_iff rulesSpec ⟨f.rules, f.positive⟩).mpr hes
    rw [init, hr]
    rfl

end RetentionFilter
end Benji
