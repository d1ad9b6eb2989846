import Benji.Database.FilterMeaning
import Benji.Database.GrammarReads

/-! Filters, from their texts to the versions that are found. -/
namespace Benji
open Lib Peg

namespace QueryBuilder

inductive QueryError where
  | filter (e : FilterError)
  /-- The assertion of `BinaryOp`. -/
  | assertionError

variable {ρ V : Type} (U : UnicodeData) (A : Attributes)
  (nested : Parsed → Except FilterError (Clause Text))

/-- The condition that `build` and `build_s` add to the query. `nested` is for comparisons with
comparisons in them, where Python compares objects. -/
def filterText (text : String) : Except QueryError (Clause Text) :=
  match parse U A.names text.toList with
  | .error .assertionError => .error .assertionError
  | .error .parseFatalException | .ok none =>
    .error (.filter (.usageError s!"Invalid filter expression {text}."))
  | .ok (some t) => match toExpr t with
    | some e => (filterResult (fun _ => some e) text).mapError .filter
    | none => (nested t).mapError .filter

/-- `find_with_filter`, in some order. -/
def findText (D : Rows Text ρ V) (filterExpression : Option String) : Except QueryError (List ρ) :=
  match filterExpression with
  | none => .ok D.rows
  | some text =>
    if text = "" then .ok D.rows
    else do
      let c ← filterText U A nested text
      if c.binds D then return D.rows.filter fun row => c.eval D row = some true
      else throw (.filter .statementError)

/-- The text of an expression whose comparisons compare base expressions; tabs are expanded. -/
def Denotes (text : Text) (e : Expr Text) : Prop :=
  ∃ tree s t s', toExpr tree = some e ∧ s.all isSpace = true ∧ s'.all isSpace = true ∧
    expandTabs 0 text = s ++ (t ++ s') ∧
      Writes (A.Written U) Spaced levels levels.length tree t

/-- An expression, with white space as it likes. -/
def IsExpression (text : Text) : Prop :=
  ∃ tree s t s', s.all isSpace = true ∧ s'.all isSpace = true ∧
    expandTabs 0 text = s ++ (t ++ s') ∧ Writes (A.Read U) Loose levels levels.length tree t

/-- Somewhere in the text more than two operands are compared. -/
def Chained (text : Text) : Prop :=
  ∃ before t after k op es, expandTabs 0 text = before ++ (t ++ after) ∧
    Writes (A.Read U) Loose levels k (.node (.compare op) es) t ∧ es.length ≠ 2

variable {U A nested} {D : Rows Text ρ V} {text : String} {e : Expr Text}

theorem isBuildable_of_toExpr {t : Parsed} (h : toExpr t = some e) :
    isBuildable t = !e.isConst := by
  cases t with
  | leaf a =>
    cases h
    cases a <;> rfl
  | node op es =>
    have hconst : e.isConst = false := by
      unfold toExpr at h
      split at h
      case h_1 heq => cases heq
      all_goals first | cases h | obtain ⟨_, -, rfl⟩ := Option.map_eq_some_iff.mp h
      all_goals rfl
    rw [hconst]
    rfl

mutual

/-- The only thing that is refused is a literal where an expression should be. -/
theorem runActions_of_toExpr : ∀ (t : Parsed) (e : Expr Text), toExpr t = some e →
    runActions actions t = if e.parses then .ok () else .error .parseFatalException
  | .leaf a, e, h => by
    cases h
    rfl
  | .node (.compare op) [.leaf l, .leaf r], e, h => by
    cases h
    rfl
  | .node .not [t], e, h => by
    obtain ⟨e, he, rfl⟩ := Option.map_eq_some_iff.mp h
    rw [runActions, runAllActions, runActions_of_toExpr t e he, Expr.parses]
    cases e.parses <;> rfl
  | .node .and ts, e, h => by
    obtain ⟨es, hes, rfl⟩ := Option.map_eq_some_iff.mp h
    exact runAllActions_of_toExprs ts es hes
  | .node .or ts, e, h => by
    obtain ⟨es, hes, rfl⟩ := Option.map_eq_some_iff.mp h
    exact runAllActions_of_toExprs ts es hes

theorem runAllActions_of_toExprs : ∀ (ts : List Parsed) (es : List (Expr Text)),
    toExprs ts = some es →
    ((runAllActions actions ts).bind fun _ =>
      if ts.all isBuildable then .ok () else .error .parseFatalException) =
        if allParse es then .ok () else .error .parseFatalException
  | [], es, h => by
    cases h
    rfl
  | t :: ts, es, h => by
    obtain ⟨e, he, h⟩ := Option.bind_eq_some_iff.mp h
    obtain ⟨es, hes, rfl⟩ := Option.map_eq_some_iff.mp h
    have ih := runAllActions_of_toExprs ts es hes
    rw [runAllActions, runActions_of_toExpr t e he, List.all_cons, isBuildable_of_toExpr he,
      allParse]
    cases e.parses with
    | false =>
      rw [Bool.and_false, Bool.false_and]
      rfl
    | true =>
      rw [if_pos rfl, Bool.and_true]
      cases e.isConst with
      | false => exact ih
      | true =>
        rw [Bool.not_true, Bool.false_and, Bool.false_and, if_neg Bool.false_ne_true]
        show (runAllActions actions ts).bind _ = _
        cases hrun : runAllActions actions ts with
        | ok _ => rfl
        | error x =>
          rw [hrun] at ih
          cases hparse : allParse es with
          | true =>
            rw [hparse] at ih
            cases ih
          | false =>
            rw [hparse] at ih
            exact ih

end

theorem parse_of_denotes (h : Denotes U A text.toList e) :
    ∃ t, toExpr t = some e ∧
      (e.parses = true → parse U A.names text.toList = .ok (some t)) ∧
      (e.parses = false → parse U A.names text.toList = .error .parseFatalException) := by
  obtain ⟨t, s, u, s', ht, hs, hs', htext, hwritten⟩ := h
  have hparse : parse U A.names text.toList = (runActions actions t).map fun _ => some t :=
    (readable A U).parses hwritten hs hs' htext
  rw [runActions_of_toExpr t e ht] at hparse
  refine ⟨t, ht, fun h => ?_, fun h => ?_⟩
  · rw [h] at hparse
    exact hparse
  · rw [h] at hparse
    exact hparse

/-- The text of an expression does what the expression does. -/
theorem filterText_of_denotes (h : Denotes U A text.toList e) :
    filterText U A nested text = (filterResult (fun _ => some e) text).mapError .filter := by
  obtain ⟨t, ht, hok, herror⟩ := parse_of_denotes h
  cases hparses : e.parses with
  | true =>
    unfold filterText
    rw [hok hparses]
    dsimp only
    rw [ht]
  | false =>
    unfold filterText filterResult
    rw [herror hparses]
    dsimp only
    rw [if_pos hparses]
    rfl

theorem ne_empty_of_denotes (h : Denotes U A text.toList e) : text ≠ "" := by
  rintro rfl
  obtain ⟨t, s, u, s', -, -, -, htext, hwritten⟩ := h
  obtain ⟨x, u, rfl, -⟩ := (readable (ε := ActionError) A U).writes_starts hwritten
  have hlen := congrArg List.length htext
  simp [expandTabs] at hlen

theorem findText_of_denotes (h : Denotes U A text.toList e) :
    findText U A nested D (some text) =
      (findWithFilter D (fun _ => some e) (some text)).mapError .filter := by
  have hne := ne_empty_of_denotes h
  rw [findText, findWithFilter, if_neg hne, if_neg hne, filterText_of_denotes h]
  cases filterResult (fun _ => some e) text with
  | error x => rfl
  | ok c =>
    show (if c.binds D = true then _ else _) = Except.mapError _ (if c.binds D = true then _ else _)
    cases c.binds D <;> rfl

/-- What is parsed is an expression. -/
theorem isExpression_of_parse {t : Parsed} (h : parse U A.names text.toList = .ok (some t)) :
    IsExpression U A text.toList := by
  obtain ⟨s, u, s', hs, hs', htext, hwritten, -⟩ := parseInfix_spec takes_atom h
  exact ⟨t, s, u, s', hs, hs', htext, hwritten⟩

/-- Only chained comparisons fail the assertion. -/
theorem chained_of_parse (h : parse U A.names text.toList = .error .assertionError) :
    Chained U A text.toList := by
  obtain ⟨before, t, after, k, op, es, htext, hwritten, hact⟩ :=
    parseInfix_error takes_atom silent_atom h
  cases op with
  | compare op =>
    refine ⟨before, t, after, k, op, es, htext, hwritten, fun hlen => ?_⟩
    rw [actions, if_pos hlen] at hact
    cases hact
  | not => cases hact
  | and =>
    rw [actions] at hact
    split at hact <;> cases hact
  | or =>
    rw [actions] at hact
    split at hact <;> cases hact

theorem filterText_of_not (h : ¬ IsExpression U A text.toList)
    (hchain : ¬ Chained U A text.toList) :
    ∃ message, filterText U A nested text = .error (.filter (.usageError message)) := by
  unfold filterText
  rcases hparse : parse U A.names text.toList with x | _ | t
  · cases x with
    | parseFatalException => exact ⟨_, rfl⟩
    | assertionError => exact absurd (chained_of_parse hparse) hchain
  · exact ⟨_, rfl⟩
  · exact absurd (isExpression_of_parse hparse) h

/-- A filter finds the versions of which it is true as it is written, if its comparisons make sense
and its columns can convert what they are compared with; if they make none, or if it is no
expression at all, it is rejected. -/
theorem findText_finds (hflip : Reflects D.test) (text : String) :
    (∀ e, Denotes U A text.toList e →
      (e.sound = true → e.isConstants = false → e.converts D = true →
        findText U A nested D (some text) =
          .ok (D.rows.filter fun row => e.meaning D row = some true)) ∧
      ((e.sound = false ∨ e.isConstants = true) → e.ordersBool = false →
        ∃ message, findText U A nested D (some text) = .error (.filter (.usageError message)))) ∧
    (text ≠ "" → ¬ IsExpression U A text.toList → ¬ Chained U A text.toList →
      ∃ message, findText U A nested D (some text) = .error (.filter (.usageError message))) := by
  constructor
  · intro e he
    have hne := ne_empty_of_denotes he
    rw [findText_of_denotes he]
    constructor
    · intro hsound hconst hconverts
      rw [findWithFilter_ok hflip hne rfl hsound hconst hconverts]
      rfl
    · intro hbad horder
      have hrejected : ∃ message, findWithFilter D (fun _ => some e) (some text) =
          .error (.usageError message) := findWithFilter_usageError hflip hne rfl hbad horder
      obtain ⟨message, hmessage⟩ := hrejected
      rw [hmessage]
      exact ⟨message, rfl⟩
  · intro hne hno hchain
    obtain ⟨message, hmessage⟩ := filterText_of_not hno hchain
    rw [findText, if_neg hne, hmessage]
    exact ⟨message, rfl⟩

/-- A text denotes one expression at most. -/
theorem denotes_unique {text : Text} {e' : Expr Text} (h : Denotes U A text e)
    (h' : Denotes U A text e') : e = e' := by
  have hparse : ∀ {e : Expr Text}, Denotes U A text e → ∃ t, toExpr t = some e ∧
      parseInfix (atom U A.names) levels (noActions : Actions ActionError _ _) text =
        .ok (some t) := by
    rintro e ⟨t, s, u, s', ht, hs, hs', htext, hwritten⟩
    refine ⟨t, ht, ?_⟩
    rw [(readable A U).parses hwritten hs hs' htext, runActions_noActions]
    rfl
  obtain ⟨t, ht, hread⟩ := hparse h
  obtain ⟨t', ht', hread'⟩ := hparse h'
  rw [hread] at hread'
  cases hread'
  exact Option.some.inj (ht.symm.trans ht')

section Example

/-- Versions with their sizes, two of which have a label. -/
def labelledRows : Rows Text (ℕ × ℤ) ℤ where
  rows := [(1, 7), (2, 9), (3, 9)]
  id := Prod.fst
  column _ row := row.2
  bind _ c := c.toInt?
  test op x y := some (op.holds x y)
  labels := ⟨[⟨1, "job", "daily"⟩, ⟨2, "job", "weekly"⟩], by decide⟩

theorem reflects_labelledRows : Reflects labelledRows.test := by
  intro op x y
  show some (op.holds x y) = some (op.reflected.holds y x)
  rw [Op.holds_reflected]

abbrev Writing := Writes (versionAttributes.Written .ascii) Spaced levels

def largeTree : Parsed :=
  .node .not [.node (.compare .le)
    [.leaf (.identifier "size".toList), .leaf (.const (.int 7))]]

def weeklyTree : Parsed :=
  .node (.compare .eq) [.leaf (.const (.str "weekly")), .leaf (.label "job")]

theorem writes_large : Writing 7 largeTree "not(size <= 7)".toList := by
  have hsize : Writing 2 (.leaf (.identifier "size".toList)) "size".toList :=
    Writes.mono (.atom (.identifier rfl)) (Nat.zero_le 2) (by decide)
  have hseven : Writing 2 (.leaf (.const (.int 7))) "7".toList :=
    Writes.mono (.atom (@IsAtom.integer _ _ _ [] ['7'] (.inl rfl) rfl (by decide)))
      (Nat.zero_le 2) (by decide)
  have hle := (Writes.pair (k := 2) rfl rfl hsize hseven).bracketed (by decide)
  exact Writes.unary (s := []) (k := 6) rfl rfl rfl (fun _ h => Bool.false_ne_true h.2)
    (hle.mono (by decide) (by decide))

theorem body_of_word {q : Char} {b : Text} (h : b.all (fun c => c ≠ q && isIdent c) = true) :
    Body q b := by
  induction b with
  | nil => exact .nil
  | cons c b ih =>
    rw [List.all_cons, Bool.and_eq_true, Bool.and_eq_true, decide_eq_true_eq] at h
    have hne {x : Char} (hx : isIdent x = false) : c ≠ x := by
      rintro rfl
      rw [h.1.2] at hx
      cases hx
    exact .char h.1.1 (hne rfl) (hne rfl) (hne rfl) (ih h.2)

theorem writes_weekly : Writing 1 weeklyTree "'weekly' == labels[\"job\"]".toList := by
  have hweekly : Writing 0 (.leaf (.const (.str "weekly"))) "'weekly'".toList :=
    .atom (IsAtom.string (q := '\'') (b := "weekly".toList) rfl (body_of_word (by decide)))
  have hjob : Writing 0 (.leaf (.label "job")) "labels[\"job\"]".toList :=
    .atom (@IsAtom.label _ _ _ [] [] [] "job".toList '"' rfl rfl rfl (body_of_word (by decide)) rfl)
  exact Writes.pair (k := 0) rfl rfl hweekly hjob

def exampleText : String := " not(size <= 7) and 'weekly' == labels[\"job\"]"

def exampleExpr : Expr Text :=
  .and [.not (.compare .le (.identifier "size".toList) (.const (.int 7))),
    .compare .eq (.const (.str "weekly")) (.label "job")]

theorem denotes_example : Denotes .ascii versionAttributes exampleText.toList exampleExpr := by
  have hand := Writes.pair (k := 7) rfl rfl writes_large
    (writes_weekly.mono (by decide) (by decide))
  exact ⟨_, [' '], _, [], rfl, rfl, rfl, by decide, hand.mono (by decide) le_rfl⟩

def constantsText : String := "\"hallo\" == \"hey\""

def constantsExpr : Expr Text := .compare .eq (.const (.str "hallo")) (.const (.str "hey"))

theorem denotes_constants :
    Denotes .ascii versionAttributes constantsText.toList constantsExpr := by
  have hword {b : Text} (hb : b.all (fun c => c ≠ '"' && isIdent c) = true) :
      Writing 0 (.leaf (.const (.str (String.ofList b)))) ('"' :: b ++ ['"']) :=
    .atom (IsAtom.string (q := '"') rfl (body_of_word hb))
  have hpair := Writes.pair (k := 0) rfl rfl (hword (b := "hallo".toList) (by decide))
    (hword (b := "hey".toList) (by decide))
  exact ⟨_, [], _, [], rfl, rfl, rfl, by decide, hpair.mono (by decide) le_rfl⟩

theorem starts_of_read {U : UnicodeData} {A : Attributes} {a : Atom Text} {t : Text}
    (h : A.Read U a t) : ∃ x s, t = x :: s ∧ x ≠ ')' := by
  cases h with
  | identifier h =>
    obtain ⟨x, s, rfl, hx⟩ := (A.legible_of_mem h).head
    refine ⟨x, s, rfl, ?_⟩
    rintro rfl
    cases hx
  | @integer sign digits hsign hdigits hne =>
    obtain rfl | rfl | rfl := hsign
    · cases digits with
      | nil => exact absurd rfl hne
      | cons x digits =>
        refine ⟨x, digits, rfl, ?_⟩
        rintro rfl
        cases hdigits
    · exact ⟨_, _, rfl, by decide⟩
    · exact ⟨_, _, rfl, by decide⟩
  | @string q b hq =>
    refine ⟨q, _, rfl, ?_⟩
    rintro rfl
    cases hq
  | true => exact ⟨_, _, rfl, by decide⟩
  | false => exact ⟨_, _, rfl, by decide⟩
  | label => exact ⟨_, _, rfl, by decide⟩

/-- No expression consists of closing brackets. -/
theorem exists_mem_of_writes {U : UnicodeData} {A : Attributes} {k : ℕ} {e : Parsed} {t : Text}
    (h : Writes (A.Read U) Loose levels k e t) : ∃ x ∈ t, x ≠ ')' := by
  obtain ⟨x, s, rfl, hx⟩ := h.head (P := fun x => x ≠ ')') starts_of_read (by decide)
    fun l hl hunary => ⟨'n', _, text_of_unary hl hunary, by decide⟩
  exact ⟨x, List.mem_cons_self, hx⟩

theorem not_isExpression_bracket (U : UnicodeData) (A : Attributes) : ¬ IsExpression U A [')'] := by
  rintro ⟨e, s, t, s', -, -, htext, hwritten⟩
  obtain ⟨x, hx, hne⟩ := exists_mem_of_writes hwritten
  have hmem : x ∈ expandTabs 0 [')'] := by
    rw [htext]
    exact List.mem_append_right s (List.mem_append_left s' hx)
  exact hne (List.mem_singleton.mp hmem)

theorem not_chained_bracket (U : UnicodeData) (A : Attributes) : ¬ Chained U A [')'] := by
  rintro ⟨before, t, after, k, op, es, htext, hwritten, -⟩
  obtain ⟨x, hx, hne⟩ := exists_mem_of_writes hwritten
  have hmem : x ∈ expandTabs 0 [')'] := by
    rw [htext]
    exact List.mem_append_right before (List.mem_append_left after hx)
  exact hne (List.mem_singleton.mp hmem)

/-- No comparison of comparisons is in the examples. -/
def noNested : Parsed → Except FilterError (Clause Text) := fun _ => .error .argumentError

theorem findText_finds_example :
    findText .ascii versionAttributes noNested labelledRows (some exampleText) = .ok [(2, 9)] ∧
      (∃ message, findText .ascii versionAttributes noNested labelledRows (some constantsText) =
        .error (.filter (.usageError message))) ∧
      ∃ message, findText .ascii versionAttributes noNested labelledRows (some ")") =
        .error (.filter (.usageError message)) := by
  refine ⟨?_, ?_, ?_⟩
  · refine (((findText_finds reflects_labelledRows exampleText).1 _ denotes_example).1
      rfl rfl rfl).trans (congrArg Except.ok ?_)
    decide
  · exact ((findText_finds reflects_labelledRows constantsText).1 _ denotes_constants).2 (.inr rfl)
      rfl
  · exact (findText_finds reflects_labelledRows ")").2 (by decide)
      (not_isExpression_bracket .ascii versionAttributes)
      (not_chained_bracket .ascii versionAttributes)

/-- A comparison of constants is true or false of every version, and yet it is rejected. -/
theorem constants_rejected : ¬ ∀ (text : String) (e : Expr Text),
    Denotes .ascii versionAttributes text.toList e →
      findText .ascii versionAttributes noNested labelledRows (some text) =
        .ok (labelledRows.rows.filter fun row => e.meaning labelledRows row = some true) := by
  intro h
  have hfind := h constantsText constantsExpr denotes_constants
  rw [findText_of_denotes denotes_constants, findWithFilter, if_neg (by decide)] at hfind
  have hraise : ∃ x, filterResult (fun _ => some constantsExpr) constantsText = .error x := ⟨_, rfl⟩
  obtain ⟨x, hx⟩ := hraise
  rw [hx] at hfind
  cases hfind

end Example

end QueryBuilder
end Benji
