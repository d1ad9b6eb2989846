import Benji.Database.FilterMeaning
import Benji.Lib.InfixReads
import Benji.Lib.PyInt

/-! The grammar of filter expressions, as `_define_parser` builds it. -/
namespace Benji
open Lib Peg

namespace QueryBuilder

/-- What a parse action raises. -/
inductive ActionError where
  | parseFatalException
  | assertionError
  deriving DecidableEq

inductive Operator where
  | compare (op : Op)
  | not
  | and
  | or

abbrev Parsed := Tree (Atom Text) Operator

/-! ### Base expressions -/

/-- `'|'.join(attributes)`: the first of them that matches. -/
def alternation (attributes : List Text) (s : Text) : Option Text :=
  attributes.find? fun a => a.isPrefixOf s

/-- `\d`. -/
def decimal (U : UnicodeData) (c : Char) : Option ℕ :=
  if '0' ≤ c ∧ c ≤ '9' then some (c.toNat - 48)
  else if c.toNat < 128 then none
  else (U.decimal c).map fun d => d

def signOf : Text → Text
  | c :: _ => if c = '+' || c = '-' then [c] else []
  | [] => []

/-- `[+-]?\d+`. -/
def signedInteger (U : UnicodeData) (s : Text) : Option Text :=
  let digits := (s.drop (signOf s).length).takeWhile fun c => (decimal U c).isSome
  if digits.isEmpty then none else some (signOf s ++ digits)

/-- `int` of it. -/
def toInt (U : UnicodeData) (s : Text) : ℤ :=
  let n := (s.drop (signOf s).length).foldl (fun n c => 10 * n + (decimal U c).getD 0) 0
  if signOf s = ['-'] then -(n : ℤ) else n

def isQuote (c : Char) : Bool := c = '"' || c = '\''

def isHex (c : Char) : Bool := c.isDigit || ('a' ≤ c && c ≤ 'f') || ('A' ≤ c && c ≤ 'F')

/-- What stands between an opening quote and the one that closes it. -/
def quoted (q : Char) : Text → Option Text
  | [] => none
  | c :: s =>
    if c = q then
      match s with
      | d :: s' => if d = q then (quoted q s').map fun b => c :: d :: b else some []
      | [] => some []
    else if c = '\n' || c = '\r' then none
    else if c = '\\' then
      match s with
      | d :: s' => if d = 'x' && !s'.head?.any isHex then none
        else (quoted q s').map fun b => c :: d :: b
      | [] => none
    else (quoted q s).map fun b => c :: b

/-- `quotedString`, with its quotes. -/
def quotedString : Text → Option Text
  | q :: s => if isQuote q then (quoted q s).map fun b => q :: b ++ [q] else none
  | [] => none

/-- `removeQuotes`. -/
def removeQuotes (s : Text) : Text := (s.drop 1).dropLast

def string {ε : Type} : Parser ε Text := do
  let s ← regex quotedString
  return removeQuotes s

def label {ε : Type} : Parser ε Text := do
  literal "labels".toList
  literal ['[']
  let s ← string
  literal [']']
  return s

section Tokens
variable {ε : Type}

def identifier (attributes : List Text) : Parser ε (Atom Text) := do
  return .identifier (← regex (alternation attributes))

def integer (U : UnicodeData) : Parser ε (Atom Text) := do
  return .const (.int (toInt U (← regex (signedInteger U))))

def stringConst : Parser ε (Atom Text) := do
  return .const (.str (String.ofList (← string)))

def boolTrue : Parser ε (Atom Text) := do
  keyword "True".toList
  return .const (.bool true)

def boolFalse : Parser ε (Atom Text) := do
  keyword "False".toList
  return .const (.bool false)

def labelToken : Parser ε (Atom Text) := do
  return .label (String.ofList (← label))

def atom (U : UnicodeData) (attributes : List Text) : Parser ε (Atom Text) :=
  identifier attributes <|> integer U <|> stringConst <|> boolTrue <|> boolFalse <|> labelToken

end Tokens

/-! ### Operators -/

def levels : List (Level Operator) :=
  [⟨.compare .eq, "==".toList, false⟩, ⟨.compare .ne, "!=".toList, false⟩,
    ⟨.compare .le, "<=".toList, false⟩, ⟨.compare .ge, ">=".toList, false⟩,
    ⟨.compare .lt, "<".toList, false⟩, ⟨.compare .gt, ">".toList, false⟩,
    ⟨.not, "not".toList, true⟩, ⟨.and, "and".toList, false⟩, ⟨.or, "or".toList, false⟩]

/-- Literals are no `Buildable`. -/
def isBuildable : Parsed → Bool
  | .leaf (.const _) => false
  | _ => true

/-- What the constructors of `BinaryOp` and `MultiaryOp` demand. -/
def actions : Actions ActionError (Atom Text) Operator
  | .compare _, es => if es.length = 2 then .ok () else .error .assertionError
  | .not, _ => .ok ()
  | .and, es | .or, es => if es.all isBuildable then .ok () else .error .parseFatalException

def parse (U : UnicodeData) (attributes : List Text) (text : Text) :
    Except ActionError (Option Parsed) :=
  parseInfix (atom U attributes) levels actions text

mutual

/-- Where the operands of comparisons are no comparisons. -/
def toExpr : Parsed → Option (Expr Text)
  | .leaf a => some (.atom a)
  | .node (.compare op) [.leaf l, .leaf r] => some (.compare op l r)
  | .node (.compare _) _ => none
  | .node .not [e] => (toExpr e).map .not
  | .node .not _ => none
  | .node .and es => (toExprs es).map .and
  | .node .or es => (toExprs es).map .or

def toExprs : List Parsed → Option (List (Expr Text))
  | [] => some []
  | e :: es => (toExpr e).bind fun e => (toExprs es).map fun es => e :: es

end

/-! ### Base expressions as they are written -/

/-- What may stand between two quotes. -/
inductive Body (q : Char) : Text → Prop
  | nil : Body q []
  | doubled {b : Text} (h : Body q b) : Body q (q :: q :: b)
  | escaped {d : Char} {b : Text} (hd : d = 'x' → b.head?.any isHex = true) (h : Body q b) :
    Body q ('\\' :: d :: b)
  | char {c : Char} {b : Text} (hq : c ≠ q) (hn : c ≠ '\n') (hr : c ≠ '\r') (hb : c ≠ '\\')
      (h : Body q b) : Body q (c :: b)

/-- A base expression and its text. -/
inductive IsAtom (digit : Char → Bool) (value : Text → ℤ) (names : Text → Prop) :
    Atom Text → Text → Prop
  | identifier {name : Text} (h : names name) :
    IsAtom digit value names (.identifier name) name
  | integer {sign digits : Text} (hsign : sign = [] ∨ sign = ['+'] ∨ sign = ['-'])
      (hdigits : digits.all digit = true) (hne : digits ≠ []) :
    IsAtom digit value names (.const (.int (value (sign ++ digits)))) (sign ++ digits)
  | string {q : Char} {b : Text} (hq : isQuote q = true) (hb : Body q b) :
    IsAtom digit value names (.const (.str (String.ofList b))) (q :: b ++ [q])
  | true : IsAtom digit value names (.const (.bool true)) "True".toList
  | false : IsAtom digit value names (.const (.bool false)) "False".toList
  | label {s s' s'' b : Text} {q : Char} (hs : s.all isSpace = true) (hs' : s'.all isSpace = true)
      (hq : isQuote q = true) (hb : Body q b) (hs'' : s''.all isSpace = true) :
    IsAtom digit value names (.label (String.ofList b))
      ("labels".toList ++ (s ++ (['['] ++ (s' ++ ((q :: b ++ [q]) ++ (s'' ++ [']'])))))) 

section Quotes
variable {q : Char} {b s r : Text}

theorem isQuote_cases (h : isQuote q = true) : q = '"' ∨ q = '\'' := by
  simpa [isQuote] using h

theorem quoted_char {c : Char} (hq : c ≠ q) (hn : c ≠ '\n') (hr : c ≠ '\r') (hb : c ≠ '\\') :
    quoted q (c :: s) = (quoted q s).map fun b => c :: b := by
  rw [quoted.eq_def]
  simp [hq, hn, hr, hb]

theorem quoted_of_body (hq : isQuote q = true) (hb : Body q b) (hr : r.head? ≠ some q) :
    quoted q (b ++ q :: r) = some b := by
  induction hb with
  | nil =>
    cases r with
    | nil => simp [quoted]
    | cons d r =>
      have hd : d ≠ q := fun h => hr (congrArg some h)
      simp [quoted, hd]
  | doubled h ih => simp [quoted, ih]
  | @escaped d b hd h ih =>
    have hslash : '\\' ≠ q := by
      rcases isQuote_cases hq with rfl | rfl <;> decide
    have hhex : d = 'x' → ¬ ((b ++ q :: r).head?.any isHex = false) := by
      intro hx
      have hb := hd hx
      cases b with
      | nil => cases hb
      | cons c b =>
        change isHex c = true at hb
        change ¬ (isHex c = false)
        rw [hb]
        exact Bool.noConfusion
    have hcond : ¬ ((decide (d = 'x') && !(b ++ q :: r).head?.any isHex) = true) := by
      intro h
      rw [Bool.and_eq_true, decide_eq_true_eq, Bool.not_eq_true'] at h
      exact hhex h.1 h.2
    show quoted q ('\\' :: d :: (b ++ q :: r)) = _
    rw [quoted, if_neg hslash, if_neg (by decide), if_pos rfl]
    simp only [ih, Option.map_some]
    rw [if_neg hcond]
  | char hq hn hr hb h ih =>
    rw [List.cons_append, quoted_char hq hn hr hb, ih]
    rfl

theorem body_of_quoted (hq : isQuote q = true) (h : quoted q s = some b) :
    ∃ r, s = b ++ q :: r ∧ Body q b ∧ r.head? ≠ some q := by
  fun_induction quoted q s generalizing b with
  | case1 => cases h
  | case2 s' ih =>
    obtain ⟨b, hb, rfl⟩ := Option.map_eq_some_iff.mp h
    obtain ⟨r, rfl, hbody, hr⟩ := ih hb
    exact ⟨r, rfl, .doubled hbody, hr⟩
  | case3 d s' hne =>
    cases h
    exact ⟨d :: s', rfl, .nil, fun hd => hne (Option.some.inj hd)⟩
  | case4 =>
    cases h
    exact ⟨[], rfl, .nil, nofun⟩
  | case5 => cases h
  | case6 => cases h
  | case7 d s' hcond _ _ ih =>
    obtain ⟨b, hb, rfl⟩ := Option.map_eq_some_iff.mp h
    obtain ⟨r, rfl, hbody, hr⟩ := ih hb
    refine ⟨r, rfl, .escaped ?_ hbody, hr⟩
    rintro rfl
    cases b with
    | nil =>
      -- A quote is no hexadecimal digit.
      rcases isQuote_cases hq with rfl | rfl
      · exact absurd rfl hcond
      · exact absurd rfl hcond
    | cons c b => simpa using hcond
  | case8 => cases h
  | case9 c s' hne hline hslash ih =>
    obtain ⟨b, hb, rfl⟩ := Option.map_eq_some_iff.mp h
    obtain ⟨r, rfl, hbody, hr⟩ := ih hb
    simp only [Bool.or_eq_true, decide_eq_true_eq, not_or] at hline
    exact ⟨r, rfl, .char hne hline.1 hline.2 hslash hbody, hr⟩

theorem quotedString_of_body (hq : isQuote q = true) (hb : Body q b) (hr : r.head? ≠ some q) :
    quotedString ((q :: b ++ [q]) ++ r) = some (q :: b ++ [q]) := by
  have hsplit : (q :: b ++ [q]) ++ r = q :: (b ++ q :: r) := by simp
  rw [hsplit, quotedString, if_pos hq, quoted_of_body hq hb hr]
  rfl

theorem body_of_quotedString {t : Text} (h : quotedString s = some t) :
    ∃ q b r, t = q :: b ++ [q] ∧ s = t ++ r ∧ isQuote q = true ∧ Body q b ∧ r.head? ≠ some q := by
  cases s with
  | nil => cases h
  | cons q s =>
    rw [quotedString] at h
    split at h
    case isFalse => cases h
    case isTrue hq =>
      obtain ⟨b, hb, rfl⟩ := Option.map_eq_some_iff.mp h
      obtain ⟨r, rfl, hbody, hr⟩ := body_of_quoted hq hb
      exact ⟨q, b, r, rfl, by simp, hq, hbody, hr⟩

theorem removeQuotes_quoted : removeQuotes (q :: b ++ [q]) = b := by
  simp [removeQuotes]

end Quotes

section Reading
variable {ε : Type} {q : Char} {b r : Text} {c c' : Cursor} {last : Option Char} {s : Text}

theorem string_some (hc : c.skip = ⟨last, (q :: b ++ [q]) ++ r⟩) (hq : isQuote q = true)
    (hb : Body q b) (hr : r.head? ≠ some q) :
    (string : Parser ε Text) c = .ok (some (b, ⟨some q, r⟩)) := by
  rw [string, bind_some (regex_some hc (quotedString_of_body hq hb hr)), removeQuotes_quoted,
    List.getLast?_concat]
  rfl

theorem string_none (h : c.skip.rest.head?.all (fun x => !isQuote x) = true) :
    (string : Parser ε Text) c = .ok none := by
  refine bind_none (regex_none ?_)
  cases hrest : c.skip.rest with
  | nil => rfl
  | cons x s =>
    rw [hrest] at h
    have hx : isQuote x = false := by simpa using h
    rw [quotedString, hx]
    rfl

theorem string_spec (h : (string : Parser ε Text) c = .ok (some (s, c'))) :
    ∃ w q, w.all isSpace = true ∧ c.rest = w ++ ((q :: s ++ [q]) ++ c'.rest) ∧
      isQuote q = true ∧ Body q s ∧ c'.rest.head? ≠ some q := by
  obtain ⟨t, d, ht, h⟩ := bind_eq_some h
  obtain ⟨rfl, rfl⟩ := pure_eq_some h
  have hfront : ∀ s t, quotedString s = some t → t <+: s := by
    intro s t h
    obtain ⟨q, b, r, -, rfl, -⟩ := body_of_quotedString h
    exact List.prefix_append t r
  obtain ⟨w, hw, hc, hm⟩ := regex_spec hfront ht
  obtain ⟨q, b, r, rfl, hr, hq, hb, hhead⟩ := body_of_quotedString hm
  obtain rfl := List.append_cancel_left hr
  refine ⟨w, q, hw, ?_, hq, ?_, hhead⟩
  · rw [removeQuotes_quoted]
    exact hc
  · rw [removeQuotes_quoted]
    exact hb

theorem label_none (h : ¬ "labels".toList <+: c.rest.dropWhile isSpace) :
    (label : Parser ε Text) c = .ok none :=
  bind_none (literal_none h)

theorem label_spec (h : (label : Parser ε Text) c = .ok (some (s, c'))) :
    ∃ w s₁ s₂ s₃ q, w.all isSpace = true ∧ s₁.all isSpace = true ∧ s₂.all isSpace = true ∧
      s₃.all isSpace = true ∧ isQuote q = true ∧ Body q s ∧
      c.rest = w ++ ("labels".toList ++ (s₁ ++ (['['] ++ (s₂ ++ ((q :: s ++ [q]) ++ (s₃ ++
        ([']'] ++ c'.rest))))))) := by
  obtain ⟨_, d₁, h1, h⟩ := bind_eq_some h
  obtain ⟨_, d₂, h2, h⟩ := bind_eq_some h
  obtain ⟨t, d₃, h3, h⟩ := bind_eq_some h
  obtain ⟨_, d₄, h4, h⟩ := bind_eq_some h
  obtain ⟨rfl, rfl⟩ := pure_eq_some h
  obtain ⟨w, hw, hc⟩ := literal_spec h1
  obtain ⟨s₁, hs₁, hd₁⟩ := literal_spec h2
  obtain ⟨s₂, q, hs₂, hd₂, hq, hb, -⟩ := string_spec h3
  obtain ⟨s₃, hs₃, hd₃⟩ := literal_spec h4
  exact ⟨w, s₁, s₂, s₃, q, hw, hs₁, hs₂, hs₃, hq, hb, by rw [hc, hd₁, hd₂, hd₃]⟩

theorem label_some {s₁ s₂ s₃ : Text} (hc : c.skip = ⟨last, "labels".toList ++ (s₁ ++ (['['] ++
      (s₂ ++ ((q :: b ++ [q]) ++ (s₃ ++ ([']'] ++ r))))))⟩)
    (hs₁ : s₁.all isSpace = true) (hs₂ : s₂.all isSpace = true) (hs₃ : s₃.all isSpace = true)
    (hq : isQuote q = true) (hb : Body q b) :
    (label : Parser ε Text) c = .ok (some (b, ⟨some ']', r⟩)) := by
  have hquote : isSpace q = false := by
    rcases isQuote_cases hq with rfl | rfl <;> rfl
  have hopen : ∀ x, (['['] ++ (s₂ ++ ((q :: b ++ [q]) ++ (s₃ ++ ([']'] ++ r))))).head? = some x →
      isSpace x = false := by
    rintro x ⟨⟩
    rfl
  have hstring : ∀ x, ((q :: b ++ [q]) ++ (s₃ ++ ([']'] ++ r))).head? = some x →
      isSpace x = false := by
    rintro x ⟨⟩
    exact hquote
  have hclose : ∀ x, ([']'] ++ r).head? = some x → isSpace x = false := by
    rintro x ⟨⟩
    rfl
  -- What follows the string is white space or the bracket.
  have hnext : (s₃ ++ ([']'] ++ r)).head? ≠ some q := by
    intro h
    cases s₃ with
    | nil =>
      cases h
      cases hq
    | cons x s₃ =>
      cases h
      rw [List.all_cons, Bool.and_eq_true, hquote] at hs₃
      exact Bool.false_ne_true hs₃.1
  rw [label, bind_some (literal_some hc),
    bind_some (literal_some (Cursor.skip_append hs₁ hopen)),
    bind_some (string_some (Cursor.skip_append hs₂ hstring) hq hb hnext),
    bind_some (literal_some (Cursor.skip_append hs₃ hclose))]
  rfl

end Reading

end QueryBuilder
end Benji
