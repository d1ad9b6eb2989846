import Benji.Lib.Peg

/-! Expressions over operators of several levels: what `infixNotation` makes of a text, how
expressions are written, and that nothing else is parsed. -/
namespace Lib.Peg

structure Level (ω : Type) where
  op : ω
  text : Text
  unary : Bool

inductive Tree (α ω : Type) where
  | leaf (a : α)
  | node (op : ω) (args : List (Tree α ω))

section Notation
variable {ε α ω : Type}

/-- What the parse actions of the operators say to their operands. -/
abbrev Actions (ε α ω : Type) := ω → List (Tree α ω) → Except ε Unit

/-- Looking ahead runs no actions. -/
def noActions : Actions ε α ω := fun _ _ => .ok ()

def act (actions : Actions ε α ω) (op : ω) (es : List (Tree α ω)) : Parser ε (Tree α ω) := fun c =>
  (actions op es).map fun _ => some (.node op es, c)

mutual

/-- What the actions say to an expression, from the inside to the outside. -/
def runActions (actions : Actions ε α ω) : Tree α ω → Except ε Unit
  | .leaf _ => .ok ()
  | .node op es => (runAllActions actions es).bind fun _ => actions op es

def runAllActions (actions : Actions ε α ω) : List (Tree α ω) → Except ε Unit
  | [] => .ok ()
  | e :: es => (runActions actions e).bind fun _ => runAllActions actions es

end

mutual

theorem runActions_noActions : ∀ e : Tree α ω, runActions (noActions : Actions ε α ω) e = .ok ()
  | .leaf _ => rfl
  | .node op es => by
    rw [runActions, runAllActions_noActions es]
    rfl

theorem runAllActions_noActions : ∀ es : List (Tree α ω),
    runAllActions (noActions : Actions ε α ω) es = .ok ()
  | [] => rfl
  | e :: es => by
    rw [runAllActions, runActions_noActions e]
    exact runAllActions_noActions es

end

/-- An operator and the operand after it. -/
def operand (l : Level ω) (last : Parser ε (Tree α ω)) : Parser ε (Tree α ω) := do
  literal l.text
  last

/-- A left associative operator, with all its operands in one group. -/
def binaryLevel (actions : Actions ε α ω) (l : Level ω) (ahead last : Parser ε (Tree α ω)) :
    Parser ε (Tree α ω) :=
  (do
    followedBy (do
      let _ ← ahead
      operand l ahead)
    let e ← last
    let es ← oneOrMore (operand l last)
    act actions l.op (e :: es)) <|> last

/-- A right associative operator before its operand. -/
def unaryLevel (l : Level ω) (ahead : Parser ε (Tree α ω)) :
    ℕ → Actions ε α ω → Parser ε (Tree α ω) → Parser ε (Tree α ω)
  | 0, _, _ => failure
  | n + 1, actions, last =>
    (do
      followedBy (do
        literal l.text
        unaryLevel l ahead n noActions ahead)
      literal l.text
      let e ← unaryLevel l ahead n actions last
      act actions l.op [e]) <|> last

def level (actions : Actions ε α ω) (l : Level ω) (ahead last : Parser ε (Tree α ω)) :
    Parser ε (Tree α ω) := fun c =>
  if l.unary then unaryLevel l ahead (c.rest.length + 1) actions last c
  else binaryLevel actions l ahead last c

/-- A base expression, or anything in brackets. -/
def primary (base : Parser ε α) (ret : Parser ε (Tree α ω)) : Parser ε (Tree α ω) :=
  (do return .leaf (← base)) <|> (do
    literal ['(']
    let e ← ret
    literal [')']
    return e)

/-- The levels up to one. `ahead` and `ret` are for what stands in brackets. -/
def term (base : Parser ε α) (levels : List (Level ω)) (ahead : Parser ε (Tree α ω)) :
    ℕ → Actions ε α ω → Parser ε (Tree α ω) → Parser ε (Tree α ω)
  | 0, _, ret => primary base ret
  | k + 1, actions, ret => match levels[k]? with
    | none => failure
    | some l => level actions l (term base levels ahead k noActions ahead)
        (term base levels ahead k actions ret)

/-- The fuel bounds the depth of brackets. -/
def infixNotation (base : Parser ε α) (levels : List (Level ω)) :
    ℕ → Actions ε α ω → Parser ε (Tree α ω)
  | 0, _ => failure
  | n + 1, actions => term base levels (infixNotation base levels n noActions) levels.length
      actions (infixNotation base levels n actions)

/-- A text with no more brackets than characters. -/
def parseInfix (base : Parser ε α) (levels : List (Level ω)) (actions : Actions ε α ω)
    (text : Text) : Except ε (Option (Tree α ω)) :=
  parseString (infixNotation base levels ((expandTabs 0 text).length + 1) actions) text

end Notation

/-! ### How expressions are written -/

section Written
variable {α ω : Type}

/-- A character and a text after it that do not make one word. -/
def Free (last : Option Char) (t : Text) : Prop :=
  ¬ (last.any isIdent = true ∧ t.head?.any isIdent = true)

/-- White space between two texts that would make one word. -/
def Spaced (s w t : Text) : Prop := w = [] → Free s.getLast? t

/-- White space may be missing everywhere. -/
def Loose (_ _ _ : Text) : Prop := True

mutual

/-- An expression as it may be written where the operators of the first levels bind; `gap` is for
the white space between a text and the next one. -/
inductive Writes (Atom : α → Text → Prop) (gap : Text → Text → Text → Prop)
    (levels : List (Level ω)) : ℕ → Tree α ω → Text → Prop
  | atom {a : α} {t : Text} (h : Atom a t) : Writes Atom gap levels 0 (.leaf a) t
  | brackets {e : Tree α ω} {s t s' : Text} (hs : s.all isSpace = true)
      (h : Writes Atom gap levels levels.length e t) (hs' : s'.all isSpace = true) :
      Writes Atom gap levels 0 e ('(' :: (s ++ (t ++ (s' ++ [')']))))
  | weaken {k : ℕ} {e : Tree α ω} {t : Text} (hk : k < levels.length)
      (h : Writes Atom gap levels k e t) : Writes Atom gap levels (k + 1) e t
  | unary {k : ℕ} {l : Level ω} {e : Tree α ω} {s t : Text} (hl : levels[k]? = some l)
      (hunary : l.unary = true) (hs : s.all isSpace = true) (hgap : gap l.text s t)
      (h : Writes Atom gap levels (k + 1) e t) :
      Writes Atom gap levels (k + 1) (.node l.op [e]) (l.text ++ (s ++ t))
  | binary {k : ℕ} {l : Level ω} {e : Tree α ω} {es : List (Tree α ω)} {t ts : Text}
      (hl : levels[k]? = some l) (hunary : l.unary = false) (h : Writes Atom gap levels k e t)
      (hes : Operands Atom gap levels k l t es ts) (hne : es ≠ []) :
      Writes Atom gap levels (k + 1) (.node l.op (e :: es)) (t ++ ts)

/-- The operands after one, each with the operator before it. -/
inductive Operands (Atom : α → Text → Prop) (gap : Text → Text → Text → Prop)
    (levels : List (Level ω)) : ℕ → Level ω → Text → List (Tree α ω) → Text → Prop
  | nil {k : ℕ} {l : Level ω} {t : Text} : Operands Atom gap levels k l t [] []
  | cons {k : ℕ} {l : Level ω} {e : Tree α ω} {es : List (Tree α ω)} {first s s' t ts : Text}
      (hs : s.all isSpace = true) (hgap : gap first s l.text) (hs' : s'.all isSpace = true)
      (hgap' : gap l.text s' t) (h : Writes Atom gap levels k e t)
      (hes : Operands Atom gap levels k l t es ts) :
      Operands Atom gap levels k l first (e :: es) (s ++ (l.text ++ (s' ++ (t ++ ts))))

end

end Written

section Head
variable {α ω : Type} {Atom : α → Text → Prop} {gap : Text → Text → Text → Prop}
  {levels : List (Level ω)} {j k : ℕ} {e : Tree α ω} {t : Text}

/-- What an expression begins with. -/
theorem Writes.head {P : Char → Prop} (hatom : ∀ {a t}, Atom a t → ∃ x s, t = x :: s ∧ P x)
    (hbracket : P '(')
    (hunary : ∀ l ∈ levels, l.unary = true → ∃ x s, l.text = x :: s ∧ P x)
    (h : Writes Atom gap levels k e t) : ∃ x s, t = x :: s ∧ P x := by
  refine @Writes.rec α ω Atom gap levels (fun _ _ t _ => ∃ x s, t = x :: s ∧ P x)
    (fun _ _ _ _ _ _ => True) ?atom ?brackets ?weaken ?unary ?binary ?nil ?cons k e t h
  case atom => exact fun ha => hatom ha
  case brackets => exact fun _ _ _ _ => ⟨_, _, rfl, hbracket⟩
  case weaken => exact fun _ _ ih => ih
  case unary =>
    intro k l e s t hl hu _ _ _ _
    obtain ⟨x, s', heq, hx⟩ := hunary l (List.mem_of_getElem? hl) hu
    exact ⟨x, s' ++ (s ++ t), by rw [heq]; rfl, hx⟩
  case binary =>
    rintro k l e es t ts _ _ _ _ _ ⟨x, s, rfl, hx⟩ _
    exact ⟨x, s ++ ts, rfl, hx⟩
  case nil => exact trivial
  case cons => exact fun _ _ _ _ _ _ _ _ => trivial

/-- What binds tighter may stand wherever less would do. -/
theorem Writes.mono (h : Writes Atom gap levels j e t) (hjk : j ≤ k) (hk : k ≤ levels.length) :
    Writes Atom gap levels k e t := by
  induction k, hjk using Nat.le_induction with
  | base => exact h
  | succ k _ ih => exact .weaken (by omega) (ih (by omega))

/-- Two operands, with a blank on both sides of the operator. -/
theorem Writes.pair {l : Level ω} {e' : Tree α ω} {t' : Text} (hl : levels[k]? = some l)
    (hunary : l.unary = false) (h : Writes Atom Spaced levels k e t)
    (h' : Writes Atom Spaced levels k e' t') : Writes Atom Spaced levels (k + 1)
      (.node l.op [e, e']) (t ++ ' ' :: (l.text ++ ' ' :: t')) := by
  have hblank : [' '].all isSpace = true := rfl
  have hpair := Writes.binary hl hunary h (.cons hblank (fun hnil => by cases hnil) hblank
    (fun hnil => by cases hnil) h' .nil) (List.cons_ne_nil e' [])
  rwa [List.append_nil] at hpair

theorem Writes.bracketed (h : Writes Atom gap levels k e t) (hk : k ≤ levels.length) :
    Writes Atom gap levels 0 e ('(' :: (t ++ [')'])) := by
  have hnone : ([] : Text).all isSpace = true := rfl
  exact .brackets hnone (h.mono hk le_rfl) hnone

end Head

/-! ### What is read is written -/

section Taken
variable {ε α ω : Type} {base : Parser ε α} {levels : List (Level ω)} {Atom : α → Text → Prop}
  {l : Level ω} {ahead last ret : Parser ε (Tree α ω)} {actions : Actions ε α ω} {k : ℕ}

/-- What `p` takes of a text, after white space. -/
def Takes {β : Type} (p : Parser ε β) (R : β → Text → Prop) : Prop :=
  ∀ ⦃c b c'⦄, p c = .ok (some (b, c')) →
    ∃ w t, w.all isSpace = true ∧ c.rest = w ++ (t ++ c'.rest) ∧ R b t

/-- An expression with white space as it likes, and nothing that an action refuses. -/
def Taken (Atom : α → Text → Prop) (levels : List (Level ω)) (actions : Actions ε α ω) (k : ℕ)
    (e : Tree α ω) (t : Text) : Prop :=
  Writes Atom Loose levels k e t ∧ runActions actions e = .ok ()

theorem act_eq_some {op : ω} {es : List (Tree α ω)} {e : Tree α ω} {c c' : Cursor}
    (h : act actions op es c = .ok (some (e, c'))) :
    actions op es = .ok () ∧ e = .node op es ∧ c' = c := by
  rw [act] at h
  cases hact : actions op es with
  | error x =>
    rw [hact] at h
    cases h
  | ok u =>
    rw [hact] at h
    cases h
    exact ⟨rfl, rfl, rfl⟩

theorem takes_primary (hbase : Takes base Atom)
    (hret : Takes ret (Taken Atom levels actions levels.length)) :
    Takes (primary base ret) (Taken Atom levels actions 0) := by
  intro c e c' h
  rcases orElse_eq_some h with h | h
  · obtain ⟨a, d, ha, hp⟩ := bind_eq_some h
    obtain ⟨rfl, rfl⟩ := pure_eq_some hp
    obtain ⟨w, t, hw, hc, hat⟩ := hbase ha
    exact ⟨w, t, hw, hc, .atom hat, rfl⟩
  · obtain ⟨_, d, hopen, h⟩ := bind_eq_some h
    obtain ⟨e', d', he, h⟩ := bind_eq_some h
    obtain ⟨_, d'', hclose, h⟩ := bind_eq_some h
    obtain ⟨rfl, rfl⟩ := pure_eq_some h
    obtain ⟨w, hw, hc⟩ := literal_spec hopen
    obtain ⟨s, t, hs, hd, ht, hrun⟩ := hret he
    obtain ⟨s', hs', hd'⟩ := literal_spec hclose
    refine ⟨w, _, hw, ?_, .brackets hs ht hs', hrun⟩
    rw [hc, hd, hd']
    simp

theorem takes_unaryLevel (hl : levels[k]? = some l) (hunary : l.unary = true) :
    ∀ (n : ℕ) (actions : Actions ε α ω) (last : Parser ε (Tree α ω)),
      Takes last (Taken Atom levels actions k) →
        Takes (unaryLevel l ahead n actions last) (Taken Atom levels actions (k + 1)) := by
  intro n
  induction n with
  | zero =>
    intro _ _ _ c e c' h
    cases h
  | succ n ih =>
    intro actions last hlast c e c' h
    rcases orElse_eq_some h with hnode | h
    · obtain ⟨_, d, hahead, hnode⟩ := bind_eq_some hnode
      rw [followedBy_eq_some hahead] at hnode
      obtain ⟨_, d, hop, hnode⟩ := bind_eq_some hnode
      obtain ⟨e', d', he, hnode⟩ := bind_eq_some hnode
      obtain ⟨hact, rfl, rfl⟩ := act_eq_some hnode
      obtain ⟨w, hw, hc⟩ := literal_spec hop
      obtain ⟨s, t, hs, hd, ht, hrun⟩ := ih actions last hlast he
      refine ⟨w, _, hw, ?_, .unary hl hunary hs trivial ht, ?_⟩
      · rw [hc, hd]
        simp
      · rw [runActions, runAllActions, hrun]
        exact hact
    · obtain ⟨w, t, hw, hc, ht, hrun⟩ := hlast h
      exact ⟨w, t, hw, hc, .weaken (List.getElem?_eq_some_iff.mp hl).1 ht, hrun⟩

theorem taken_operands (hlast : Takes last (Taken Atom levels actions k)) :
    ∀ {n : ℕ} {c : Cursor} {es : List (Tree α ω)} {c' : Cursor} {first : Text},
      many (operand l last) n c = .ok (es, c') → ∃ ts, c.rest = ts ++ c'.rest ∧
        Operands Atom Loose levels k l first es ts ∧ runAllActions actions es = .ok () := by
  intro n
  induction n with
  | zero =>
    intro c es c' _ h
    cases h
    exact ⟨[], rfl, .nil, rfl⟩
  | succ n ih =>
    intro c es c' _ h
    rw [many, OptionT.run] at h
    rcases hfirst : operand l last c with x | _ | ⟨e, d'⟩
    · rw [hfirst] at h
      cases h
    · rw [hfirst] at h
      cases h
      exact ⟨[], rfl, .nil, rfl⟩
    · rw [hfirst] at h
      change (many (operand l last) n d').map _ = _ at h
      cases hrest : many (operand l last) n d' with
      | error x =>
        rw [hrest] at h
        cases h
      | ok y =>
        rw [hrest] at h
        cases h
        obtain ⟨_, d, hop, he⟩ := bind_eq_some hfirst
        obtain ⟨s, hs, hc⟩ := literal_spec hop
        obtain ⟨s', t, hs', hd, ht, hrun⟩ := hlast he
        obtain ⟨ts, hd', hts, hall⟩ := ih hrest
        refine ⟨_, ?_, .cons hs trivial hs' trivial ht hts, ?_⟩
        · rw [hc, hd, hd']
          simp
        · rw [runAllActions, hrun]
          exact hall

theorem takes_binaryLevel (hl : levels[k]? = some l) (hunary : l.unary = false)
    (hlast : Takes last (Taken Atom levels actions k)) :
    Takes (binaryLevel actions l ahead last) (Taken Atom levels actions (k + 1)) := by
  intro c e c' h
  rcases orElse_eq_some h with hnode | h
  · obtain ⟨_, d, hahead, hnode⟩ := bind_eq_some hnode
    rw [followedBy_eq_some hahead] at hnode
    obtain ⟨e', d, he, hnode⟩ := bind_eq_some hnode
    obtain ⟨es, d', hes, hnode⟩ := bind_eq_some hnode
    obtain ⟨hact, rfl, rfl⟩ := act_eq_some hnode
    obtain ⟨w, t, hw, hc, ht, hrun⟩ := hlast he
    obtain ⟨hmany, hne⟩ := oneOrMore_eq_some hes
    obtain ⟨ts, hd, hts, hall⟩ := taken_operands hlast hmany
    refine ⟨w, t ++ ts, hw, ?_, .binary hl hunary ht hts hne, ?_⟩
    · rw [hc, hd]
      simp
    · rw [runActions, runAllActions, hrun]
      show (runAllActions actions _).bind _ = _
      rw [hall]
      exact hact
  · obtain ⟨w, t, hw, hc, ht, hrun⟩ := hlast h
    exact ⟨w, t, hw, hc, .weaken (List.getElem?_eq_some_iff.mp hl).1 ht, hrun⟩

theorem takes_term (hbase : Takes base Atom)
    (hret : Takes ret (Taken Atom levels actions levels.length)) :
    ∀ k, Takes (term base levels ahead k actions ret) (Taken Atom levels actions k) := by
  intro k
  induction k with
  | zero => exact takes_primary hbase hret
  | succ k ih =>
    rw [term]
    cases hl : levels[k]? with
    | none =>
      intro c e c' h
      cases h
    | some l =>
      intro c e c' h
      change level actions l _ _ c = _ at h
      rw [level] at h
      split at h
      case isTrue hunary => exact takes_unaryLevel hl hunary _ actions _ ih h
      case isFalse hunary => exact takes_binaryLevel hl (Bool.eq_false_iff.mpr hunary) ih h

theorem takes_infixNotation (hbase : Takes base Atom) : ∀ n,
    Takes (infixNotation base levels n actions) (Taken Atom levels actions levels.length) := by
  intro n
  induction n with
  | zero =>
    intro c e c' h
    cases h
  | succ n ih => exact takes_term hbase ih levels.length

/-- A text that is parsed is an expression, with white space around it. -/
theorem parseInfix_spec (hbase : Takes base Atom) {text : Text} {e : Tree α ω}
    (h : parseInfix base levels actions text = .ok (some e)) :
    ∃ s t s', s.all isSpace = true ∧ s'.all isSpace = true ∧
      expandTabs 0 text = s ++ (t ++ s') ∧ Taken Atom levels actions levels.length e t := by
  obtain ⟨last, s', hs', hread⟩ := parseString_spec h
  obtain ⟨s, t, hs, heq, ht⟩ := takes_infixNotation hbase _ hread
  exact ⟨s, t, s', hs, hs', heq, ht⟩

/-! ### Exceptions -/

/-- An exception comes from an expression in the text that an action refuses. -/
def Refused (Atom : α → Text → Prop) (levels : List (Level ω)) (actions : Actions ε α ω) (x : ε)
    (s : Text) : Prop :=
  ∃ before t after k op es, s = before ++ (t ++ after) ∧
    Writes Atom Loose levels k (.node op es) t ∧ actions op es = .error x

def Raises {β : Type} (p : Parser ε β) (Atom : α → Text → Prop) (levels : List (Level ω))
    (actions : Actions ε α ω) : Prop :=
  ∀ ⦃c x⦄, p c = .error x → Refused Atom levels actions x c.rest

theorem Refused.of_suffix {x : ε} {w s : Text} (h : Refused Atom levels actions x s) :
    Refused Atom levels actions x (w ++ s) := by
  obtain ⟨before, t, after, k, op, es, rfl, ht, hact⟩ := h
  exact ⟨w ++ before, t, after, k, op, es, by rw [List.append_assoc], ht, hact⟩

theorem not_refused_noActions {x : ε} {s : Text} : ¬ Refused Atom levels noActions x s := by
  rintro ⟨_, _, _, _, _, _, -, -, h⟩
  cases h

theorem act_eq_error {op : ω} {es : List (Tree α ω)} {c : Cursor} {x : ε}
    (h : act actions op es c = .error x) : actions op es = .error x := by
  rw [act] at h
  cases hact : actions op es with
  | error y =>
    rw [hact] at h
    cases h
    rfl
  | ok u =>
    rw [hact] at h
    cases h

theorem raises_primary (hbase : Silent base) (hret : Raises ret Atom levels actions) :
    Raises (primary base ret) Atom levels actions := by
  intro c x h
  rcases orElse_eq_error h with h | h
  · rcases bind_eq_error h with h | ⟨a, d, -, h⟩
    · exact absurd h (hbase c x)
    · cases h
  · rcases bind_eq_error h with h | ⟨_, d, hopen, h⟩
    · exact absurd h (silent_literal _ _)
    obtain ⟨w, -, hc⟩ := literal_spec hopen
    rcases bind_eq_error h with h | ⟨e, d', -, h⟩
    · rw [hc]
      exact (hret h).of_suffix.of_suffix
    · rcases bind_eq_error h with h | ⟨_, _, -, h⟩
      · exact absurd h (silent_literal _ _)
      · cases h

/-- Looking ahead raises nothing. -/
theorem followedBy_ne_error {β : Type} {p : Parser ε β} (hp : Raises p Atom levels noActions)
    {c : Cursor} {x : ε} : followedBy p c ≠ .error x :=
  fun h => not_refused_noActions (hp (followedBy_eq_error h))

theorem raises_operand (hlast : Raises last Atom levels actions) :
    Raises (operand l last) Atom levels actions := by
  intro c x h
  rcases bind_eq_error h with h | ⟨_, d, hop, h⟩
  · exact absurd h (silent_literal _ _)
  · obtain ⟨w, -, hc⟩ := literal_spec hop
    rw [hc]
    exact (hlast h).of_suffix.of_suffix

theorem raises_unaryLevel (hl : levels[k]? = some l) (hunary : l.unary = true)
    (hahead : Raises ahead Atom levels noActions) :
    ∀ (n : ℕ) (actions : Actions ε α ω) (last : Parser ε (Tree α ω)),
      Takes last (Taken Atom levels actions k) → Raises last Atom levels actions →
        Takes ahead (Taken Atom levels (noActions : Actions ε α ω) k) →
          Raises (unaryLevel l ahead n actions last) Atom levels actions := by
  intro n
  induction n with
  | zero =>
    intro _ _ _ _ _ c x h
    cases h
  | succ n ih =>
    intro actions last htakes hlast htakesAhead c x h
    have hlook : Raises (do
        literal l.text
        unaryLevel l ahead n noActions ahead) Atom levels noActions :=
      raises_operand (ih noActions ahead htakesAhead hahead htakesAhead)
    rcases orElse_eq_error h with h | h
    · rcases bind_eq_error h with h | ⟨_, d, hfollow, h⟩
      · exact absurd h (followedBy_ne_error hlook)
      rw [followedBy_eq_some hfollow] at h
      rcases bind_eq_error h with h | ⟨_, d, hop, h⟩
      · exact absurd h (silent_literal _ _)
      obtain ⟨w, -, hc⟩ := literal_spec hop
      rcases bind_eq_error h with h | ⟨e, d', he, h⟩
      · rw [hc]
        exact (ih actions last htakes hlast htakesAhead h).of_suffix.of_suffix
      · obtain ⟨s, t, hs, hd, ht, -⟩ := takes_unaryLevel hl hunary n actions last htakes he
        refine ⟨w, l.text ++ (s ++ t), d'.rest, k + 1, l.op, [e], ?_,
          .unary hl hunary hs trivial ht, act_eq_error h⟩
        rw [hc, hd]
        simp
    · exact hlast h

theorem raises_binaryLevel (hl : levels[k]? = some l) (hunary : l.unary = false)
    (hlast : Raises last Atom levels actions) (htakes : Takes last (Taken Atom levels actions k))
    (hahead : Raises ahead Atom levels noActions)
    (htakesAhead : Takes ahead (Taken Atom levels (noActions : Actions ε α ω) k)) :
    Raises (binaryLevel actions l ahead last) Atom levels actions := by
  intro c x h
  have hlook : Raises (do
      let _ ← ahead
      operand l ahead) Atom levels noActions := by
    intro c x h
    rcases bind_eq_error h with h | ⟨e, d, he, h⟩
    · exact hahead h
    · obtain ⟨w, t, -, hc, -⟩ := htakesAhead he
      rw [hc]
      exact (raises_operand hahead h).of_suffix.of_suffix
  rcases orElse_eq_error h with h | h
  · rcases bind_eq_error h with h | ⟨_, d, hfollow, h⟩
    · exact absurd h (followedBy_ne_error hlook)
    rw [followedBy_eq_some hfollow] at h
    rcases bind_eq_error h with h | ⟨e, d, he, h⟩
    · exact hlast h
    obtain ⟨w, t, -, hc, ht, -⟩ := htakes he
    rcases bind_eq_error h with h | ⟨es, d', hes, h⟩
    · -- Some operand after the first one.
      obtain ⟨d', ⟨u, hu⟩, hraise⟩ := many_eq_error (fun d' => ∃ u, d.rest = u ++ d'.rest)
        (fun hd hop => by
          obtain ⟨u, hu⟩ := hd
          obtain ⟨_, d₁, hliteral, he'⟩ := bind_eq_some hop
          obtain ⟨w₁, -, h₁⟩ := literal_spec hliteral
          obtain ⟨w₂, t₂, -, h₂, -⟩ := htakes he'
          exact ⟨u ++ (w₁ ++ (l.text ++ (w₂ ++ t₂))), by rw [hu, h₁, h₂]; simp⟩)
        ⟨[], rfl⟩ (oneOrMore_eq_error h)
      rw [hc, hu]
      exact (raises_operand hlast hraise).of_suffix.of_suffix.of_suffix
    · obtain ⟨hmany, hne⟩ := oneOrMore_eq_some hes
      obtain ⟨ts, hd, hts, -⟩ := taken_operands htakes hmany
      refine ⟨w, t ++ ts, d'.rest, k + 1, l.op, e :: es, ?_, .binary hl hunary ht hts hne,
        act_eq_error h⟩
      rw [hc, hd]
      simp
  · exact hlast h

theorem raises_term (hbase : Takes base Atom) (hbase' : Silent base)
    (htakesAhead : Takes ahead (Taken Atom levels (noActions : Actions ε α ω) levels.length))
    (hahead : Raises ahead Atom levels noActions) : ∀ k (actions : Actions ε α ω) ret,
      Takes ret (Taken Atom levels actions levels.length) → Raises ret Atom levels actions →
        Raises (term base levels ahead k actions ret) Atom levels actions := by
  intro k
  induction k with
  | zero => exact fun actions ret _ hret => raises_primary hbase' hret
  | succ k ih =>
    intro actions ret htakes hret
    rw [term]
    cases hl : levels[k]? with
    | none =>
      intro c x h
      cases h
    | some l =>
      intro c x h
      change level actions l _ _ c = _ at h
      rw [level] at h
      have hlower := ih actions ret htakes hret
      have hlowerAhead := ih noActions ahead htakesAhead hahead
      have htakesLower : Takes (term base levels ahead k actions ret)
          (Taken Atom levels actions k) := takes_term hbase htakes k
      have htakesLowerAhead : Takes (term base levels ahead k noActions ahead)
          (Taken Atom levels noActions k) := takes_term hbase htakesAhead k
      split at h
      case isTrue hunary =>
        exact raises_unaryLevel hl hunary hlowerAhead _ actions _ htakesLower hlower
          htakesLowerAhead h
      case isFalse hunary =>
        exact raises_binaryLevel hl (Bool.eq_false_iff.mpr hunary) hlower htakesLower hlowerAhead
          htakesLowerAhead h

theorem raises_infixNotation (hbase : Takes base Atom) (hbase' : Silent base) :
    ∀ n (actions : Actions ε α ω),
      Raises (infixNotation base levels n actions) Atom levels actions := by
  intro n
  induction n with
  | zero =>
    intro _ c x h
    cases h
  | succ n ih =>
    intro actions
    exact raises_term hbase hbase' (takes_infixNotation hbase n) (ih noActions) levels.length
      actions _ (takes_infixNotation hbase n) (ih actions)

/-- An exception comes from an action that refuses an expression in the text. -/
theorem parseInfix_error (hbase : Takes base Atom) (hbase' : Silent base)
    {text : Text} {x : ε} (h : parseInfix base levels actions text = .error x) :
    Refused Atom levels actions x (expandTabs 0 text) :=
  raises_infixNotation hbase hbase' _ actions (parseString_error h)

end Taken

end Lib.Peg
