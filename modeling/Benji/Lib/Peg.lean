import Benji.Lib.Path
import Mathlib.Data.List.Infix
import Mathlib.Data.List.TakeWhile

/-! Parsing expression grammars, with the words of pyparsing. -/
namespace Lib.Peg

/-- What is left of a text, and the character before it. -/
structure Cursor where
  last : Option Char
  rest : Text

/-- No match, a match, or the exception that a parse action raises. -/
abbrev Parser (ε α : Type) := StateT Cursor (OptionT (Except ε)) α

def isSpace (c : Char) : Bool := c = ' ' || c = '\n' || c = '\t' || c = '\r'

/-- The characters of keywords. -/
def isIdent (c : Char) : Bool := c.isAlphanum || c = '_' || c = '$'

namespace Cursor

def advance (c : Cursor) (n : ℕ) : Cursor :=
  ⟨(c.rest.take n).getLast?.or c.last, c.rest.drop n⟩

/-- Past white space. -/
def skip (c : Cursor) : Cursor := c.advance (c.rest.takeWhile isSpace).length

variable {l : Option Char} {s r : Text}

@[simp] theorem advance_append : (⟨l, s ++ r⟩ : Cursor).advance s.length =
    ⟨s.getLast?.or l, r⟩ := by
  simp [advance]

theorem rest_eq (c : Cursor) : c.rest = c.rest.takeWhile isSpace ++ c.skip.rest := by
  rw [skip, advance]
  calc
    c.rest = c.rest.takeWhile isSpace ++ c.rest.dropWhile isSpace :=
      List.takeWhile_append_dropWhile.symm
    _ = c.rest.takeWhile isSpace ++ c.rest.drop (c.rest.takeWhile isSpace).length := by
      congr 1
      exact List.append_cancel_left (List.takeWhile_append_dropWhile.trans
        (List.prefix_iff_eq_append.mp (List.takeWhile_prefix _)).symm)

theorem skip_rest (c : Cursor) : c.skip.rest = c.rest.dropWhile isSpace :=
  List.append_cancel_left (c.rest_eq.symm.trans List.takeWhile_append_dropWhile.symm)

theorem skip_append (hs : s.all isSpace = true)
    (hr : ∀ x, r.head? = some x → isSpace x = false) :
    (⟨l, s ++ r⟩ : Cursor).skip = ⟨s.getLast?.or l, r⟩ := by
  have htake : (s ++ r).takeWhile isSpace = s := by
    rw [List.takeWhile_append_of_pos (List.all_eq_true.mp hs)]
    cases r with
    | nil => rw [List.takeWhile_nil, List.append_nil]
    | cons x r => rw [List.takeWhile_cons, hr x rfl, if_neg Bool.false_ne_true, List.append_nil]
  rw [skip, htake, advance_append]

theorem dropWhile_space (hs : s.all isSpace = true)
    (hr : ∀ x, r.head? = some x → isSpace x = false) : (s ++ r).dropWhile isSpace = r := by
  have h := skip_rest ⟨none, s ++ r⟩
  rw [skip_append hs hr] at h
  exact h.symm

theorem all_takeWhile_space (s : Text) : (s.takeWhile isSpace).all isSpace = true :=
  List.all_eq_true.mpr fun _ hx => List.mem_takeWhile_imp hx

end Cursor

def literal {ε : Type} (s : Text) : Parser ε Unit := fun c =>
  .ok (if s.isPrefixOf c.skip.rest then some ((), c.skip.advance s.length) else none)

section Literal
variable {ε : Type} {l : Option Char} {s r : Text} {c c' : Cursor} {u : Unit}

theorem literal_some (h : c.skip = ⟨l, s ++ r⟩) :
    (literal s : Parser ε Unit) c = .ok (some ((), ⟨s.getLast?.or l, r⟩)) := by
  rw [literal, h, if_pos (List.isPrefixOf_iff_prefix.mpr (List.prefix_append s r)),
    Cursor.advance_append]

theorem literal_none (h : ¬ s <+: c.rest.dropWhile isSpace) :
    (literal s : Parser ε Unit) c = .ok none := by
  rw [literal, Cursor.skip_rest, if_neg fun hs => h (List.isPrefixOf_iff_prefix.mp hs)]

/-- What a literal has taken. -/
theorem literal_spec (h : (literal s : Parser ε Unit) c = .ok (some (u, c'))) :
    ∃ w, w.all isSpace = true ∧ c.rest = w ++ (s ++ c'.rest) := by
  rw [literal] at h
  split at h
  case isFalse => cases h
  case isTrue hp =>
    cases h
    obtain ⟨t, ht⟩ := List.isPrefixOf_iff_prefix.mp hp
    refine ⟨_, Cursor.all_takeWhile_space c.rest, ?_⟩
    rw [Cursor.advance, ← ht, List.drop_left]
    conv_lhs => rw [c.rest_eq, ← ht]

theorem length_literal (hs : s ≠ []) (h : (literal s : Parser ε Unit) c = .ok (some (u, c'))) :
    c'.rest.length < c.rest.length := by
  obtain ⟨w, -, hw⟩ := literal_spec h
  have hpos : 0 < s.length := List.length_pos_iff.mpr hs
  rw [hw, List.length_append, List.length_append]
  omega

end Literal

/-- `Regex`; `m` finds the beginning that matches. -/
def regex {ε : Type} (m : Text → Option Text) : Parser ε Text := fun c =>
  .ok ((m c.skip.rest).map fun t => (t, c.skip.advance t.length))

/-- `Keyword`. -/
def keyword {ε : Type} (s : Text) : Parser ε Unit := fun c =>
  .ok (if s.isPrefixOf c.skip.rest && (c.skip.rest.drop s.length).head?.all (fun x => !isIdent x) &&
      c.skip.last.all fun x => !isIdent x then
    some ((), c.skip.advance s.length) else none)

section Token
variable {ε : Type} {m : Text → Option Text} {l : Option Char} {s t r : Text} {c c' : Cursor}
  {u : Unit}

theorem regex_some (h : c.skip = ⟨l, t ++ r⟩) (hm : m (t ++ r) = some t) :
    (regex m : Parser ε Text) c = .ok (some (t, ⟨t.getLast?.or l, r⟩)) := by
  rw [regex, h, hm, Option.map_some, Cursor.advance_append]

theorem regex_none (h : m c.skip.rest = none) : (regex m : Parser ε Text) c = .ok none := by
  rw [regex, h]
  rfl

theorem regex_spec (hm : ∀ s t, m s = some t → t <+: s)
    (h : (regex m : Parser ε Text) c = .ok (some (t, c'))) :
    ∃ w, w.all isSpace = true ∧ c.rest = w ++ (t ++ c'.rest) ∧ m (t ++ c'.rest) = some t := by
  rw [regex] at h
  cases ht : m c.skip.rest with
  | none =>
    rw [ht] at h
    cases h
  | some t' =>
    rw [ht] at h
    cases h
    obtain ⟨r, hr⟩ := hm _ _ ht
    have hdrop : (c.skip.advance t.length).rest = r := by
      rw [Cursor.advance, ← hr, List.drop_left]
    rw [hdrop, hr]
    exact ⟨_, Cursor.all_takeWhile_space c.rest, c.rest_eq, ht⟩

theorem keyword_some (h : c.skip = ⟨l, s ++ r⟩) (hl : l.all (fun x => !isIdent x) = true)
    (hr : r.head?.all (fun x => !isIdent x) = true) :
    (keyword s : Parser ε Unit) c = .ok (some ((), ⟨s.getLast?.or l, r⟩)) := by
  have hcond : (s.isPrefixOf (s ++ r) && ((s ++ r).drop s.length).head?.all (fun x => !isIdent x) &&
      l.all fun x => !isIdent x) = true := by
    rw [List.isPrefixOf_iff_prefix.mpr (List.prefix_append s r), List.drop_left, hr, hl]
    rfl
  rw [keyword, h]
  simp only
  rw [if_pos hcond, Cursor.advance_append]

theorem keyword_none (h : ¬ s <+: c.skip.rest) : (keyword s : Parser ε Unit) c = .ok none := by
  have hno : s.isPrefixOf c.skip.rest = false :=
    Bool.eq_false_iff.mpr fun hs => h (List.isPrefixOf_iff_prefix.mp hs)
  rw [keyword, hno]
  rfl

theorem keyword_spec (h : (keyword s : Parser ε Unit) c = .ok (some (u, c'))) :
    ∃ w, w.all isSpace = true ∧ c.rest = w ++ (s ++ c'.rest) := by
  rw [keyword] at h
  split at h
  case isFalse => cases h
  case isTrue hp =>
    cases h
    simp only [Bool.and_eq_true] at hp
    obtain ⟨r, hr⟩ := List.isPrefixOf_iff_prefix.mp hp.1.1
    refine ⟨_, Cursor.all_takeWhile_space c.rest, ?_⟩
    rw [Cursor.advance, ← hr, List.drop_left]
    conv_lhs => rw [c.rest_eq, ← hr]

end Token

/-- `FollowedBy`. -/
def followedBy {ε α : Type} (p : Parser ε α) : Parser ε Unit := fun c =>
  (p c).map fun o => o.map fun _ => ((), c)

/-- As often as it matches; the fuel is a bound for that. -/
def many {ε α : Type} (p : Parser ε α) : ℕ → Cursor → Except ε (List α × Cursor)
  | 0, c => .ok ([], c)
  | n + 1, c => (p c).run.bind fun
    | none => .ok ([], c)
    | some (a, c') => (many p n c').map fun r => (a :: r.1, r.2)

def oneOrMore {ε α : Type} (p : Parser ε α) : Parser ε (List α) := fun c =>
  (many p c.rest.length c).map fun r => if r.1.isEmpty then none else some r

section Run
variable {ε α β : Type} {p q : Parser ε α} {f : α → Parser ε β} {a : α} {b : β} {c c' : Cursor}

theorem bind_some (h : p c = .ok (some (a, c'))) : (p >>= f) c = f a c' := by
  show (p c).bind _ = _
  rw [h]
  rfl

theorem bind_none (h : p c = .ok none) : (p >>= f) c = .ok none := by
  show (p c).bind _ = _
  rw [h]
  rfl

theorem bind_error {x : ε} (h : p c = .error x) : (p >>= f) c = .error x := by
  show (p c).bind _ = _
  rw [h]
  rfl

theorem bind_eq_some (h : (p >>= f) c = .ok (some (b, c'))) :
    ∃ a d, p c = .ok (some (a, d)) ∧ f a d = .ok (some (b, c')) := by
  change (p c).bind _ = _ at h
  rcases hp : p c with e | _ | ⟨a, d⟩
  · rw [hp] at h
    cases h
  · rw [hp] at h
    cases h
  · rw [hp] at h
    exact ⟨a, d, rfl, h⟩

theorem bind_eq_error {x : ε} (h : (p >>= f) c = .error x) :
    p c = .error x ∨ ∃ a d, p c = .ok (some (a, d)) ∧ f a d = .error x := by
  change (p c).bind _ = _ at h
  rcases hp : p c with e | _ | ⟨a, d⟩
  · rw [hp] at h
    cases h
    exact .inl rfl
  · rw [hp] at h
    cases h
  · rw [hp] at h
    exact .inr ⟨a, d, rfl, h⟩

theorem orElse_eq_error {x : ε} (h : (p <|> q) c = .error x) :
    p c = .error x ∨ q c = .error x := by
  change Except.bind (p c) _ = _ at h
  rcases hp : p c with e | _ | y
  · rw [hp] at h
    cases h
    exact .inl rfl
  · rw [hp] at h
    exact .inr h
  · rw [hp] at h
    cases h

theorem followedBy_eq_error {x : ε} (h : followedBy p c = .error x) : p c = .error x := by
  rw [followedBy] at h
  rcases hp : p c with e | y
  · rw [hp] at h
    cases h
    rfl
  · rw [hp] at h
    cases h

/-- Two parsers that do the same where they come to. -/
theorem bind_congr {p' : Parser ε α} {g : α → Parser ε β} (h : p c = p' c)
    (hf : ∀ a d, p c = .ok (some (a, d)) → f a d = g a d) : (p >>= f) c = (p' >>= g) c := by
  show (p c).bind _ = (p' c).bind _
  rw [← h]
  rcases hp : p c with e | _ | ⟨a, d⟩
  · rfl
  · rfl
  · exact hf a d hp

theorem orElse_congr {p' q' : Parser ε α} (h : p c = p' c) (hq : q c = q' c) :
    (p <|> q) c = (p' <|> q') c := by
  show Except.bind (p c) _ = Except.bind (p' c) _
  rw [← h]
  rcases hp : p c with e | _ | x
  · rfl
  · exact hq
  · rfl

theorem pure_eq_some {x : α} (h : (pure a : Parser ε α) c = .ok (some (x, c'))) :
    x = a ∧ c' = c := by
  cases h
  exact ⟨rfl, rfl⟩

theorem orElse_some {x : α × Cursor} (h : p c = .ok (some x)) : (p <|> q) c = .ok (some x) := by
  show Except.bind (p c) _ = _
  rw [h]
  rfl

theorem orElse_error {x : ε} (h : p c = .error x) : (p <|> q) c = .error x := by
  show Except.bind (p c) _ = _
  rw [h]
  rfl

theorem orElse_none (h : p c = .ok none) : (p <|> q) c = q c := by
  show Except.bind (p c) _ = _
  rw [h]
  rfl

theorem orElse_eq_some {x : α × Cursor} (h : (p <|> q) c = .ok (some x)) :
    p c = .ok (some x) ∨ q c = .ok (some x) := by
  change Except.bind (p c) _ = _ at h
  rcases hp : p c with e | _ | y
  · rw [hp] at h
    cases h
  · rw [hp] at h
    exact .inr h
  · rw [hp] at h
    exact .inl h

theorem followedBy_some {x : α × Cursor} (h : p c = .ok (some x)) :
    followedBy p c = .ok (some ((), c)) := by
  rw [followedBy, h]
  rfl

theorem followedBy_congr {p' : Parser ε α} (h : p c = p' c) : followedBy p c = followedBy p' c := by
  rw [followedBy, followedBy, h]

theorem followedBy_none (h : p c = .ok none) : followedBy p c = .ok none := by
  rw [followedBy, h]
  rfl

theorem followedBy_eq_some {u : Unit} (h : followedBy p c = .ok (some (u, c'))) : c' = c := by
  rw [followedBy] at h
  rcases hp : p c with e | _ | y
  · rw [hp] at h
    cases h
  · rw [hp] at h
    cases h
  · rw [hp] at h
    cases h
    rfl

theorem oneOrMore_eq_some {as : List α} (h : oneOrMore p c = .ok (some (as, c'))) :
    many p c.rest.length c = .ok (as, c') ∧ as ≠ [] := by
  rw [oneOrMore] at h
  rcases hp : many p c.rest.length c with e | ⟨bs, d⟩
  · rw [hp] at h
    cases h
  · rw [hp] at h
    cases bs with
    | nil => cases h
    | cons b bs =>
      cases h
      exact ⟨rfl, List.cons_ne_nil b bs⟩

end Run

/-! ### Parsers without actions -/

/-- A parser that raises nothing. -/
def Silent {ε α : Type} (p : Parser ε α) : Prop := ∀ c x, p c ≠ .error x

section Silent
variable {ε α β : Type} {p q : Parser ε α} {f : α → Parser ε β}

theorem silent_pure {a : α} : Silent (pure a : Parser ε α) := nofun

theorem silent_literal {s : Text} : Silent (literal s : Parser ε Unit) := nofun

theorem silent_regex {m : Text → Option Text} : Silent (regex m : Parser ε Text) := nofun

theorem silent_keyword {s : Text} : Silent (keyword s : Parser ε Unit) := nofun

theorem silent_bind (hp : Silent p) (hf : ∀ a, Silent (f a)) : Silent (p >>= f) := by
  intro c x h
  rcases bind_eq_error h with h | ⟨a, d, -, h⟩
  · exact hp c x h
  · exact hf a d x h

theorem silent_orElse (hp : Silent p) (hq : Silent q) : Silent (p <|> q) := by
  intro c x h
  rcases orElse_eq_error h with h | h
  · exact hp c x h
  · exact hq c x h

end Silent

/-- An exception comes from the parser, wherever it has come to. -/
theorem many_eq_error {ε α : Type} {p : Parser ε α} {x : ε} (P : Cursor → Prop)
    (hp : ∀ {c a d}, P c → p c = .ok (some (a, d)) → P d) : ∀ {n : ℕ} {c : Cursor}, P c →
      many p n c = .error x → ∃ d, P d ∧ p d = .error x := by
  intro n
  induction n with
  | zero =>
    intro c _ h
    cases h
  | succ n ih =>
    intro c hc h
    rw [many, OptionT.run] at h
    rcases hfirst : p c with e | _ | ⟨a, d⟩
    · rw [hfirst] at h
      cases h
      exact ⟨c, hc, hfirst⟩
    · rw [hfirst] at h
      cases h
    · rw [hfirst] at h
      change (many p n d).map _ = _ at h
      cases hrest : many p n d with
      | error y =>
        rw [hrest] at h
        cases h
        exact ih (hp hc hfirst) hrest
      | ok y =>
        rw [hrest] at h
        cases h

theorem oneOrMore_eq_error {ε α : Type} {p : Parser ε α} {c : Cursor} {x : ε}
    (h : oneOrMore p c = .error x) : many p c.rest.length c = .error x := by
  rw [oneOrMore] at h
  cases hp : many p c.rest.length c with
  | error y =>
    rw [hp] at h
    cases h
    rfl
  | ok y =>
    rw [hp] at h
    cases h

/-- `str.expandtabs`, from a column. -/
def expandTabs : ℕ → Text → Text
  | _, [] => []
  | column, c :: s =>
    if c = '\t' then List.replicate (8 - column % 8) ' ' ++ expandTabs (column + (8 - column % 8)) s
    else if c = '\n' || c = '\r' then c :: expandTabs 0 s
    else c :: expandTabs (column + 1) s

/-- `parseString` with `parseAll`. -/
def parseString {ε α : Type} (p : Parser ε α) (text : Text) : Except ε (Option α) :=
  (p ⟨none, expandTabs 0 text⟩).map fun o =>
    o.bind fun r => if r.2.skip.rest = [] then some r.1 else none

theorem expandTabs_of_not_mem {s : Text} (h : '\t' ∉ s) : ∀ column, expandTabs column s = s := by
  induction s with
  | nil => exact fun _ => rfl
  | cons c s ih =>
    intro column
    obtain ⟨hc, hs⟩ := not_or.mp (List.mem_cons.not.mp h)
    rw [expandTabs, if_neg (Ne.symm hc), ih hs, ih hs, ite_self]

/-- A text that is read to the end, but for white space. -/
theorem parseString_some {ε α : Type} {p : Parser ε α} {text s : Text} {a : α}
    {last : Option Char} (hp : p ⟨none, expandTabs 0 text⟩ = .ok (some (a, ⟨last, s⟩)))
    (hs : s.all isSpace = true) : parseString p text = .ok (some a) := by
  have hskip : (⟨last, s⟩ : Cursor).skip.rest = [] := by
    rw [Cursor.skip_rest]
    exact List.dropWhile_eq_nil_iff.mpr (List.all_eq_true.mp hs)
  rw [parseString, hp]
  exact congrArg Except.ok (if_pos hskip)

theorem parseString_spec {ε α : Type} {p : Parser ε α} {text : Text} {a : α}
    (h : parseString p text = .ok (some a)) : ∃ last s, s.all isSpace = true ∧
      p ⟨none, expandTabs 0 text⟩ = .ok (some (a, ⟨last, s⟩)) := by
  rw [parseString] at h
  rcases hp : p ⟨none, expandTabs 0 text⟩ with e | _ | ⟨b, last, s⟩
  · rw [hp] at h
    cases h
  · rw [hp] at h
    cases h
  · rw [hp] at h
    change Except.ok (if (⟨last, s⟩ : Cursor).skip.rest = [] then some b else none) = _ at h
    split at h
    case isFalse => cases h
    case isTrue hskip =>
      cases h
      rw [Cursor.skip_rest] at hskip
      exact ⟨last, s, List.all_eq_true.mpr (List.dropWhile_eq_nil_iff.mp hskip), rfl⟩

theorem parseString_error {ε α : Type} {p : Parser ε α} {text : Text} {x : ε}
    (h : parseString p text = .error x) : p ⟨none, expandTabs 0 text⟩ = .error x := by
  rw [parseString] at h
  cases hp : p ⟨none, expandTabs 0 text⟩ with
  | error y =>
    rw [hp] at h
    cases h
    rfl
  | ok y =>
    rw [hp] at h
    cases h

end Lib.Peg
