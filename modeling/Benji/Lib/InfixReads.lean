import Benji.Lib.Infix

/-! `infixNotation` reads every expression as it is written, if the operators and the base
expressions can be told apart. -/
namespace Lib.Peg

section Read
variable {ε α ω : Type}

/-- What may follow a text: a delimiter, or a word if the text does not end with one. -/
def Ends (delimiter : Char → Bool) (t r : Text) : Prop :=
  ∀ x, r.head? = some x → delimiter x = true ∨ (isIdent x = true ∧ t.getLast?.any isIdent = false)

/-- What one operator is cannot be the beginning of another one and its operand. -/
def Level.apart (starts : Char → Bool) (l m : Level ω) : Bool :=
  !l.text.isPrefixOf m.text &&
    (!m.text.isPrefixOf l.text ||
      (l.text.drop m.text.length).head?.all fun c => !isSpace c && !starts c)

/-- That an operator is read where it should not be, but for a tighter one. -/
def Level.clashes (starts : Char → Bool) (l m : Level ω) : Bool :=
  if l.unary then m.unary && !m.apart starts l else !l.apart starts m

/-- The conditions on base expressions and operators under which expressions are read as they are
written. -/
structure Readable (base : Parser ε α) (levels : List (Level ω)) (Atom : α → Text → Prop)
    (starts delimiter : Char → Bool) : Prop where
  atom_reads : ∀ {a t r c last}, Atom a t → c.skip = ⟨last, t ++ r⟩ → Free last t →
    Ends delimiter t r → base c = .ok (some (a, ⟨t.getLast?.or last, r⟩))
  atom_starts : ∀ {a t}, Atom a t → ∃ x s, t = x :: s ∧ starts x = true
  atom_not_unary : ∀ {a t r l}, Atom a t → Ends delimiter t r → l ∈ levels → l.unary = true →
    ¬ l.text <+: t ++ r
  bracket : ∀ {c s}, c.skip.rest = '(' :: s → base c = .ok none
  starts_bracket : starts '(' = true
  starts_not_space : ∀ x, starts x = true → isSpace x = false
  delimiter_space : ∀ x, isSpace x = true → delimiter x = true
  delimiter_bracket : delimiter ')' = true
  /-- The first character of an operator. -/
  op_starts : ∀ l ∈ levels, ∃ x s, l.text = x :: s ∧ isSpace x = false ∧ x ≠ '(' ∧ x ≠ ')' ∧
    (l.unary = true → starts x = true) ∧ (isIdent x = false → delimiter x = true)
  apart : levels.Pairwise fun l m => l.clashes starts m = false

theorem Level.not_prefix {starts : Char → Bool} {l m : Level ω} {s : Text}
    (h : l.apart starts m = true)
    (hs : ∀ x, s.head? = some x → isSpace x = true ∨ starts x = true) :
    ¬ l.text <+: m.text ++ s := by
  intro hpre
  simp only [apart, Bool.and_eq_true, Bool.not_eq_true', Bool.or_eq_true] at h
  obtain ⟨hno, hnext⟩ := h
  have hno' : ¬ l.text <+: m.text := by
    intro hp
    rw [List.isPrefixOf_iff_prefix.mpr hp] at hno
    cases hno
  obtain hp | hp := List.prefix_or_prefix_of_prefix hpre (List.prefix_append m.text s)
  · exact hno' hp
  · obtain ⟨d, hd⟩ := hp
    rw [← hd] at hpre hnext hno'
    have hds : d <+: s := (List.prefix_append_right_inj m.text).mp hpre
    obtain hfalse | hall := hnext
    · rw [List.isPrefixOf_iff_prefix.mpr (List.prefix_append m.text d)] at hfalse
      cases hfalse
    · cases d with
      | nil => exact hno' (by rw [List.append_nil])
      | cons x d =>
        rw [List.drop_left] at hall
        obtain ⟨tail, rfl⟩ := hds
        have hx := hs x rfl
        simp only [List.head?_cons, Option.all_some, Bool.and_eq_true, Bool.not_eq_true'] at hall
        obtain h1 | h1 := hx
        · rw [hall.1] at h1
          cases h1
        · rw [hall.2] at h1
          cases h1

namespace Readable
variable {base : Parser ε α} {levels : List (Level ω)} {Atom : α → Text → Prop}
  {starts delimiter : Char → Bool} {k : ℕ} {l m : Level ω} {e : Tree α ω} {es : List (Tree α ω)}
  {s t ts r : Text}

theorem writes_starts (h : Readable base levels Atom starts delimiter)
    (he : Writes Atom Spaced levels k e t) : ∃ x s, t = x :: s ∧ starts x = true := by
  refine he.head (fun ha => h.atom_starts ha) h.starts_bracket fun l hl hunary => ?_
  obtain ⟨x, s, heq, -, -, -, hx, -⟩ := h.op_starts l hl
  exact ⟨x, s, heq, hx hunary⟩

theorem writes_ne_nil (h : Readable base levels Atom starts delimiter)
    (he : Writes Atom Spaced levels k e t) : t ≠ [] := by
  obtain ⟨x, s, rfl, -⟩ := h.writes_starts he
  exact List.cons_ne_nil x s

end Readable

section Follow
variable {starts delimiter : Char → Bool} {levels : List (Level ω)} {s t r : Text}
  {last : Option Char}

/-- None of the binary operators of the first levels comes next. -/
def Stops (levels : List (Level ω)) (k : ℕ) (r : Text) : Prop :=
  ∀ j l, j < k → levels[j]? = some l → l.unary = false → ¬ l.text <+: r.dropWhile isSpace

theorem Stops.mono {j k : ℕ} (h : Stops levels k r) (hjk : j ≤ k) : Stops levels j r :=
  fun i l hi => h i l (hi.trans_le hjk)

theorem isSpace_head {x : Char} (hs : s.all isSpace = true) (hx : s.head? = some x) :
    isSpace x = true :=
  List.all_eq_true.mp hs x (List.mem_of_head? hx)

theorem not_isIdent_of_isSpace {x : Char} (h : isSpace x = true) : isIdent x = false := by
  simp only [isSpace, Bool.or_eq_true, decide_eq_true_eq] at h
  obtain ((rfl | rfl) | rfl) | rfl := h <;> rfl

theorem free_of_space (hs : s.all isSpace = true) (hfree : s = [] → Free last t) :
    Free (s.getLast?.or last) t := by
  cases hlast : s.getLast? with
  | none => exact hfree (List.getLast?_eq_none_iff.mp hlast)
  | some x =>
    have hx := List.all_eq_true.mp hs x (List.mem_of_getLast? hlast)
    rintro ⟨hident, -⟩
    rw [Option.some_or, Option.any_some, not_isIdent_of_isSpace hx] at hident
    cases hident

theorem ends_of_space (hs : s.all isSpace = true)
    (hdelimiter : ∀ x, isSpace x = true → delimiter x = true)
    (hr : s = [] → Ends delimiter t r) : Ends delimiter t (s ++ r) := by
  cases s with
  | nil => exact hr rfl
  | cons y s =>
    rintro x ⟨⟩
    exact .inl (hdelimiter y (isSpace_head hs rfl))

/-- Only the end of the text matters. -/
theorem Ends.of_append (hne : t ≠ []) (h : Ends delimiter (s ++ t) r) : Ends delimiter t r := by
  intro x hx
  have hlast : (s ++ t).getLast? = t.getLast? := by
    rw [List.getLast?_append, List.getLast?_eq_some_getLast hne, Option.some_or]
  rw [← hlast]
  exact h x hx

end Follow

namespace Readable
variable {base : Parser ε α} {levels : List (Level ω)} {Atom : α → Text → Prop}
  {starts delimiter : Char → Bool} {k : ℕ} {l m : Level ω} {e : Tree α ω} {es : List (Tree α ω)}
  {s t ts r : Text}

/-- What follows an operator begins with space or an operand. -/
theorem head_operand (h : Readable base levels Atom starts delimiter) (hs : s.all isSpace = true)
    (he : Writes Atom Spaced levels k e t) :
    ∀ x, (s ++ (t ++ r)).head? = some x → isSpace x = true ∨ starts x = true := by
  intro x hx
  obtain ⟨y, t', rfl, hy⟩ := h.writes_starts he
  cases s with
  | nil =>
    cases hx
    exact Or.inr hy
  | cons z s =>
    cases hx
    exact Or.inl (isSpace_head hs rfl)

theorem space_operand (h : Readable base levels Atom starts delimiter)
    (he : Writes Atom Spaced levels k e t) : ∀ x, (t ++ r).head? = some x → isSpace x = false := by
  intro x hx
  obtain ⟨y, t', rfl, hy⟩ := h.writes_starts he
  cases hx
  exact h.starts_not_space x hy

theorem space_op (h : Readable base levels Atom starts delimiter) (hl : l ∈ levels) :
    ∀ x, (l.text ++ r).head? = some x → isSpace x = false := by
  intro x hx
  obtain ⟨y, s, heq, hy, -⟩ := h.op_starts l hl
  rw [heq] at hx
  cases hx
  exact hy

theorem ends_op (h : Readable base levels Atom starts delimiter) (hl : l ∈ levels)
    (hs : s.all isSpace = true) (hspaced : Spaced t s l.text) :
    Ends delimiter t (s ++ (l.text ++ r)) := by
  refine ends_of_space hs h.delimiter_space fun hnil => ?_
  obtain ⟨y, u, heq, -, -, -, -, hy⟩ := h.op_starts l hl
  have hfree := hspaced hnil
  rw [heq] at hfree ⊢
  rintro x ⟨⟩
  cases hident : isIdent y with
  | false => exact .inl (hy hident)
  | true => exact .inr ⟨rfl, Bool.eq_false_iff.mpr fun hlast => hfree ⟨hlast, hident⟩⟩

theorem free_op (h : Readable base levels Atom starts delimiter) (hl : l ∈ levels)
    (hs : s.all isSpace = true) (hspaced : Spaced l.text s t) {last : Option Char} :
    Free (s.getLast?.or (l.text.getLast?.or last)) t := by
  refine free_of_space hs fun hnil => ?_
  obtain ⟨y, u, heq, -⟩ := h.op_starts l hl
  have hfree := hspaced hnil
  rw [heq, List.getLast?_cons] at hfree ⊢
  exact hfree

theorem ends_operands (h : Readable base levels Atom starts delimiter) (hl : l ∈ levels)
    (hes : Operands Atom Spaced levels k l t es ts) (hr : Ends delimiter (t ++ ts) r) :
    Ends delimiter t (ts ++ r) := by
  cases hes with
  | nil =>
    rw [List.append_nil] at hr
    exact hr
  | cons hs hspaced =>
    rw [List.append_assoc, List.append_assoc]
    exact h.ends_op hl hs hspaced

theorem apart_of_lt (h : Readable base levels Atom starts delimiter) {i j : ℕ} (hij : i < j)
    (hl : levels[i]? = some l) (hm : levels[j]? = some m) : l.clashes starts m = false := by
  obtain ⟨hi, rfl⟩ := List.getElem?_eq_some_iff.mp hl
  obtain ⟨hj, rfl⟩ := List.getElem?_eq_some_iff.mp hm
  exact List.pairwise_iff_getElem.mp h.apart i j hi hj hij

theorem stops_op (h : Readable base levels Atom starts delimiter) (hl : levels[k]? = some l)
    (hs : s.all isSpace = true)
    (hr : ∀ x, r.head? = some x → isSpace x = true ∨ starts x = true) :
    Stops levels k (s ++ (l.text ++ r)) := by
  intro j m hj hm hunary
  rw [Cursor.dropWhile_space hs (h.space_op (List.mem_of_getElem? hl))]
  have hclash := h.apart_of_lt hj hm hl
  rw [Level.clashes, hunary, if_neg Bool.false_ne_true, Bool.not_eq_false'] at hclash
  exact Level.not_prefix hclash hr

theorem stops_operands (h : Readable base levels Atom starts delimiter)
    (hl : levels[k]? = some l) (hes : Operands Atom Spaced levels k l t es ts)
    (hr : Stops levels (k + 1) r) : Stops levels k (ts ++ r) := by
  cases hes with
  | nil => exact hr.mono (Nat.le_succ k)
  | cons hs _ hs' _ he =>
    simp only [List.append_assoc]
    exact h.stops_op hl hs (h.head_operand hs' he)

/-- What binds tighter than a unary operator does not begin with it. -/
theorem not_unary (h : Readable base levels Atom starts delimiter)
    (he : Writes Atom Spaced levels k e t) : ∀ j l r, k ≤ j → levels[j]? = some l →
      l.unary = true → Ends delimiter t r → ¬ l.text <+: t ++ r := by
  refine @Writes.rec α ω Atom Spaced levels (fun k _ t _ => ∀ j l r, k ≤ j → levels[j]? = some l →
    l.unary = true → Ends delimiter t r → ¬ l.text <+: t ++ r) (fun _ _ _ _ _ _ => True)
    ?atom ?brackets ?weaken ?unary ?binary ?nil ?cons k e t he
  case atom =>
    intro a t ha j l r _ hl hunary hr
    exact h.atom_not_unary ha hr (List.mem_of_getElem? hl) hunary
  case brackets =>
    intro e s t s' _ _ _ _ j l r _ hl _ _ hp
    obtain ⟨x, u, heq, -, hx, -⟩ := h.op_starts l (List.mem_of_getElem? hl)
    rw [heq, List.cons_append, List.cons_prefix_cons] at hp
    exact hx hp.1
  case weaken =>
    intro k e t _ _ ih j l r hj
    exact ih j l r (Nat.le_of_succ_le hj)
  case unary =>
    intro k m e s t hm hmunary hs _ he _ j l r hj hl hunary _
    have hclash := h.apart_of_lt hj hm hl
    rw [Level.clashes, hmunary, if_pos rfl, hunary, Bool.true_and, Bool.not_eq_false'] at hclash
    rw [List.append_assoc, List.append_assoc]
    exact Level.not_prefix hclash (h.head_operand hs he)
  case binary =>
    intro k m e es t ts hm _ _ hes _ ih _ j l r hj hl hunary hr
    rw [List.append_assoc]
    exact ih j l _ (Nat.le_of_succ_le hj) hl hunary
      (h.ends_operands (List.mem_of_getElem? hm) hes hr)
  case nil => exact trivial
  case cons => exact fun _ _ _ _ _ _ _ _ => trivial

end Readable

/-! ### The levels -/

section Levels
variable {base : Parser ε α} {levels : List (Level ω)} {l : Level ω}
  {ahead last : Parser ε (Tree α ω)} {actions : Actions ε α ω} {e : Tree α ω}
  {es : List (Tree α ω)} {c c' c'' : Cursor} {k n : ℕ}

/-- The levels up to one, with a fuel for the brackets. -/
def termAt (base : Parser ε α) (levels : List (Level ω)) (n k : ℕ) (actions : Actions ε α ω) :
    Parser ε (Tree α ω) :=
  term base levels (infixNotation base levels n noActions) k actions
    (infixNotation base levels n actions)

theorem termAt_succ (hl : levels[k]? = some l) : termAt base levels n (k + 1) actions =
    level actions l (termAt base levels n k noActions) (termAt base levels n k actions) := by
  rw [termAt, term, hl]
  rfl

theorem infixNotation_succ :
    infixNotation base levels (n + 1) actions = termAt base levels n levels.length actions := rfl

theorem many_nil (h : last c = .ok none) : many last n c = .ok ([], c) := by
  cases n with
  | zero => rfl
  | succ n =>
    rw [many, OptionT.run, h]
    rfl

theorem many_cons (h : last c = .ok (some (e, c'))) :
    many last (n + 1) c = (many last n c').map fun r => (e :: r.1, r.2) := by
  rw [many, OptionT.run, h]
  rfl

theorem many_error {x : ε} (h : last c = .error x) : many last (n + 1) c = .error x := by
  rw [many, OptionT.run, h]
  rfl

theorem many_head (hne : es ≠ []) (h : many last n c = .ok (es, c')) :
    ∃ y, last c = .ok (some y) := by
  cases n with
  | zero =>
    cases h
    exact absurd rfl hne
  | succ n =>
    rw [many, OptionT.run] at h
    rcases hfirst : last c with e | _ | y
    · rw [hfirst] at h
      cases h
    · rw [hfirst] at h
      cases h
      exact absurd rfl hne
    · exact ⟨y, rfl⟩

/-- An operator comes after what is read ahead. -/
theorem binaryLevel_node {x : Tree α ω} {y : Tree α ω × Cursor} {d : Cursor} {u v : Except ε Unit}
    (hahead : ahead c = .ok (some (x, d))) (hnext : operand l ahead d = .ok (some y))
    (he : last c = u.map fun _ => some (e, c'))
    (hes : many (operand l last) c'.rest.length c' = v.map fun _ => (es, c'')) (hne : es ≠ []) :
    binaryLevel actions l ahead last c = ((u.bind fun _ => v).bind fun _ =>
      actions l.op (e :: es)).map fun _ => some (.node l.op (e :: es), c'') := by
  have hlook : (do
      let _ ← ahead
      operand l ahead) c = .ok (some y) := by
    rw [bind_some hahead]
    exact hnext
  have hfollow := followedBy_some hlook
  rcases u with x | _
  · exact orElse_error ((bind_some hfollow).trans (bind_error he))
  rcases v with x | _
  · have hmore : oneOrMore (operand l last) c' = .error x := by
      rw [oneOrMore, hes]
      rfl
    exact orElse_error ((bind_some hfollow).trans ((bind_some he).trans (bind_error hmore)))
  have hmore : oneOrMore (operand l last) c' = .ok (some (es, c'')) := by
    rw [oneOrMore, hes]
    cases es with
    | nil => exact absurd rfl hne
    | cons e es => rfl
  have hnode : (do
      followedBy (do
        let _ ← ahead
        operand l ahead)
      let e ← last
      let es ← oneOrMore (operand l last)
      act actions l.op (e :: es)) c = act actions l.op (e :: es) c'' :=
    (bind_some hfollow).trans ((bind_some he).trans (bind_some hmore))
  show _ = act actions l.op (e :: es) c''
  rw [act] at hnode ⊢
  cases hact : actions l.op (e :: es) with
  | error x =>
    rw [hact] at hnode
    exact orElse_error hnode
  | ok _ =>
    rw [hact] at hnode
    exact orElse_some hnode

/-- No operator and operand come after what is read ahead. -/
theorem binaryLevel_of_stop {x : Tree α ω} {d : Cursor} (hahead : ahead c = .ok (some (x, d)))
    (hstop : operand l ahead d = .ok none) : binaryLevel actions l ahead last c = last c := by
  have hlook : (do
      let _ ← ahead
      operand l ahead) c = .ok none := by
    rw [bind_some hahead]
    exact hstop
  exact orElse_none (bind_none (followedBy_none hlook))

theorem binaryLevel_none (hahead : ahead c = .ok none) :
    binaryLevel actions l ahead last c = last c :=
  orElse_none (bind_none (followedBy_none (bind_none hahead)))

theorem unaryLevel_node {u : Unit} {x : Tree α ω × Cursor} {v : Except ε Unit}
    (hop : (literal l.text : Parser ε Unit) c = .ok (some (u, c')))
    (hahead : unaryLevel l ahead n noActions ahead c' = .ok (some x))
    (he : unaryLevel l ahead n actions last c' = v.map fun _ => some (e, c'')) :
    unaryLevel l ahead (n + 1) actions last c = (v.bind fun _ => actions l.op [e]).map fun _ =>
      some (.node l.op [e], c'') := by
  have hlook : (do
      literal l.text
      unaryLevel l ahead n noActions ahead) c = .ok (some x) := by
    rw [bind_some hop]
    exact hahead
  have hfollow := followedBy_some hlook
  rcases v with x | _
  · exact orElse_error ((bind_some hfollow).trans ((bind_some hop).trans (bind_error he)))
  have hnode : (do
      followedBy (do
        literal l.text
        unaryLevel l ahead n noActions ahead)
      literal l.text
      let e ← unaryLevel l ahead n actions last
      act actions l.op [e]) c = act actions l.op [e] c'' :=
    (bind_some hfollow).trans ((bind_some hop).trans (bind_some he))
  show _ = act actions l.op [e] c''
  rw [act] at hnode ⊢
  cases hact : actions l.op [e] with
  | error x =>
    rw [hact] at hnode
    exact orElse_error hnode
  | ok _ =>
    rw [hact] at hnode
    exact orElse_some hnode

theorem unaryLevel_of_stop (hop : (literal l.text : Parser ε Unit) c = .ok none) :
    unaryLevel l ahead (n + 1) actions last c = last c := by
  have hlook : (do
      literal l.text
      unaryLevel l ahead n noActions ahead) c = .ok none := bind_none hop
  exact orElse_none (bind_none (followedBy_none hlook))

/-- Each operator takes some of the text, so there is enough fuel for all of them. -/
theorem unaryLevel_fuel (htext : l.text ≠ []) : ∀ m n c actions (last : Parser ε (Tree α ω)),
    c.rest.length < m → c.rest.length < n →
    unaryLevel l ahead m actions last c = unaryLevel l ahead n actions last c := by
  intro m
  induction m with
  | zero => exact fun n c _ _ hm => absurd hm (Nat.not_lt_zero _)
  | succ m ih =>
    intro n c actions last hm hn
    obtain ⟨n, rfl⟩ := Nat.exists_eq_succ_of_ne_zero (Nat.ne_zero_of_lt hn)
    have hnext : ∀ (actions : Actions ε α ω) (last : Parser ε (Tree α ω)) (u : Unit) (d : Cursor),
        (literal l.text : Parser ε Unit) c = .ok (some (u, d)) →
          unaryLevel l ahead m actions last d = unaryLevel l ahead n actions last d := by
      intro actions last u d hop
      have hlt := length_literal htext hop
      exact ih n d actions last (by omega) (by omega)
    refine orElse_congr ?_ rfl
    refine bind_congr (followedBy_congr (bind_congr rfl (hnext noActions ahead))) ?_
    intro u d hahead
    obtain rfl := followedBy_eq_some hahead
    exact bind_congr rfl fun v c' hop => bind_congr (hnext actions last v c' hop) fun _ _ _ => rfl

end Levels

/-! ### Reading -/

section Reading
variable (base : Parser ε α) (levels : List (Level ω)) (delimiter : Char → Bool)

/-- The expression is read where it is written, and no further, unless an action refuses it. -/
def ReadsTerm (k : ℕ) (e : Tree α ω) (t : Text) : Prop :=
  ∀ n c last r actions, t.length ≤ n → c.skip = ⟨last, t ++ r⟩ → Free last t →
    Ends delimiter t r → Stops levels k r →
      termAt base levels n k actions c =
        (runActions actions e).map fun _ => some (e, ⟨t.getLast?.or last, r⟩)

def ReadsOperands (k : ℕ) (l : Level ω) (first : Text) (es : List (Tree α ω)) (ts : Text) : Prop :=
  ∀ n m last r actions, ts.length ≤ n → (ts ++ r).length ≤ m → Ends delimiter (first ++ ts) r →
    levels[k]? = some l → l.unary = false → Stops levels (k + 1) r →
      many (operand l (termAt base levels n k actions)) m ⟨last, ts ++ r⟩ =
        (runAllActions actions es).map fun _ => (es, ⟨ts.getLast?.or last, r⟩)

end Reading

namespace Readable
variable {base : Parser ε α} {levels : List (Level ω)} {Atom : α → Text → Prop}
  {starts delimiter : Char → Bool} {k : ℕ} {l : Level ω} {e : Tree α ω} {es : List (Tree α ω)}
  {s s' t ts : Text}

theorem reads_atom (h : Readable base levels Atom starts delimiter) {a : α} (ha : Atom a t) :
    ReadsTerm base levels delimiter 0 (.leaf a) t := by
  intro n c last r actions _ hc hlast hr _
  exact orElse_some (bind_some (h.atom_reads ha hc hlast hr))

theorem reads_brackets (h : Readable base levels Atom starts delimiter)
    (hs : s.all isSpace = true) (he : Writes Atom Spaced levels levels.length e t)
    (hs' : s'.all isSpace = true) (ih : ReadsTerm base levels delimiter levels.length e t) :
    ReadsTerm base levels delimiter 0 e ('(' :: (s ++ (t ++ (s' ++ [')'])))) := by
  intro n c last r actions hn hc _ _ _
  obtain ⟨n, rfl⟩ : ∃ m, n = m + 1 := Nat.exists_eq_succ_of_ne_zero (by
    rw [List.length_cons] at hn
    omega)
  have hlen : t.length ≤ n := by
    simp only [List.length_cons, List.length_append] at hn
    omega
  set closed : Text := s' ++ ([')'] ++ r) with hclosed
  have htext : '(' :: (s ++ (t ++ (s' ++ [')']))) ++ r = ['('] ++ (s ++ (t ++ closed)) := by
    simp [hclosed]
  rw [htext] at hc
  have hopen := @literal_some ε _ _ _ _ hc
  have hskip : (⟨(['('] : Text).getLast?.or last, s ++ (t ++ closed)⟩ : Cursor).skip =
      ⟨s.getLast?.or (some '('), t ++ closed⟩ := Cursor.skip_append hs (h.space_operand he)
  have hfree : Free (s.getLast?.or (some '(')) t :=
    free_of_space hs fun _ hboth => Bool.false_ne_true hboth.1
  have hends : Ends delimiter t closed := ends_of_space hs' h.delimiter_space fun _ => by
    rintro x ⟨⟩
    exact .inl h.delimiter_bracket
  have hstops : Stops levels levels.length closed := by
    intro j m _ hm _ hp
    obtain ⟨x, u, heq, -, -, hx, -⟩ := h.op_starts m (List.mem_of_getElem? hm)
    have hhead : ∀ x, ([')'] ++ r).head? = some x → isSpace x = false := by
      intro x hx
      cases hx
      rfl
    rw [hclosed, Cursor.dropWhile_space hs' hhead, heq, List.cons_append, List.cons_prefix_cons]
      at hp
    exact hx hp.1
  have hread := ih n _ _ _ actions hlen hskip hfree hends hstops
  have hskip' : (⟨t.getLast?.or (s.getLast?.or (some '(')), closed⟩ : Cursor).skip =
      ⟨s'.getLast?.or (t.getLast?.or (s.getLast?.or (some '('))), [')'] ++ r⟩ :=
    Cursor.skip_append hs' fun x hx => by cases hx; rfl
  have hclose := @literal_some ε _ _ _ _ hskip'
  have hbase : base c = .ok none := h.bracket (s := s ++ (t ++ closed)) (by rw [hc]; rfl)
  refine (orElse_none (bind_none hbase)).trans ?_
  have hend : ('(' :: (s ++ (t ++ (s' ++ [')'])))).getLast?.or last = some ')' := by
    rw [← List.cons_append, ← List.append_assoc, ← List.append_assoc, List.getLast?_concat]
    rfl
  rw [bind_some hopen, infixNotation_succ, hend]
  cases hrun : runActions actions e with
  | error x =>
    rw [hrun] at hread
    exact bind_error hread
  | ok _ =>
    rw [hrun] at hread
    exact (bind_some hread).trans (bind_some hclose)

theorem reads_weaken (h : Readable base levels Atom starts delimiter) (hk : k < levels.length)
    (he : Writes Atom Spaced levels k e t) (ih : ReadsTerm base levels delimiter k e t) :
    ReadsTerm base levels delimiter (k + 1) e t := by
  intro n c last r actions hn hc hlast hr hstops
  have hl : levels[k]? = some levels[k] := List.getElem?_eq_getElem hk
  have hread := ih n c last r actions hn hc hlast hr (hstops.mono (Nat.le_succ k))
  have hahead := ih n c last r noActions hn hc hlast hr (hstops.mono (Nat.le_succ k))
  rw [runActions_noActions] at hahead
  rw [termAt_succ hl, level]
  split
  case isTrue hunary =>
    have hop : (literal levels[k].text : Parser ε Unit) c = .ok none := by
      apply literal_none
      rw [← Cursor.skip_rest, hc]
      exact h.not_unary he k _ r le_rfl hl hunary hr
    rw [unaryLevel_of_stop hop, hread]
  case isFalse hunary =>
    rw [Bool.not_eq_true] at hunary
    refine (binaryLevel_of_stop hahead (bind_none (literal_none ?_))).trans hread
    exact hstops k _ (Nat.lt_succ_self k) hl hunary

theorem reads_unary (h : Readable base levels Atom starts delimiter) (hl : levels[k]? = some l)
    (hunary : l.unary = true) (hs : s.all isSpace = true) (hspaced : Spaced l.text s t)
    (he : Writes Atom Spaced levels (k + 1) e t)
    (ih : ReadsTerm base levels delimiter (k + 1) e t) :
    ReadsTerm base levels delimiter (k + 1) (.node l.op [e]) (l.text ++ (s ++ t)) := by
  intro n c last r actions hn hc _ hr hstops
  have hmem := List.mem_of_getElem? hl
  have htext : l.text ≠ [] := by
    obtain ⟨x, u, heq, -⟩ := h.op_starts l hmem
    rw [heq]
    exact List.cons_ne_nil x u
  rw [List.append_assoc, List.append_assoc] at hc
  have hop := @literal_some ε _ _ _ _ hc
  have hlen := length_literal htext hop
  rw [← List.append_assoc] at hr
  have hends := hr.of_append (h.writes_ne_nil he)
  have hread : ∀ actions : Actions ε α ω,
      unaryLevel l (termAt base levels n k noActions) c.rest.length actions
          (termAt base levels n k actions) ⟨l.text.getLast?.or last, s ++ (t ++ r)⟩ =
        (runActions actions e).map fun _ =>
          some (e, ⟨t.getLast?.or (s.getLast?.or (l.text.getLast?.or last)), r⟩) := by
    intro actions
    have hread := ih n ⟨l.text.getLast?.or last, s ++ (t ++ r)⟩ _ r actions
      (by simp only [List.length_append] at hn; omega)
      (Cursor.skip_append hs (h.space_operand he)) (h.free_op hmem hs hspaced) hends hstops
    rw [termAt_succ hl, level, if_pos hunary] at hread
    rwa [unaryLevel_fuel htext _ c.rest.length _ _ _ (Nat.lt_succ_self _) hlen] at hread
  have hahead := hread noActions
  rw [runActions_noActions] at hahead
  have hrun : runActions actions (.node l.op [e]) =
      (runActions actions e).bind fun _ => actions l.op [e] := by
    rw [runActions, runAllActions]
    cases runActions actions e <;> rfl
  rw [termAt_succ hl, level, if_pos hunary, unaryLevel_node hop hahead (hread actions), hrun,
    List.getLast?_append, List.getLast?_append, Option.or_assoc, Option.or_assoc]

theorem reads_binary (h : Readable base levels Atom starts delimiter) (hl : levels[k]? = some l)
    (hunary : l.unary = false) (he : Writes Atom Spaced levels k e t)
    (hes : Operands Atom Spaced levels k l t es ts) (hne : es ≠ [])
    (ih : ReadsTerm base levels delimiter k e t)
    (ihs : ReadsOperands base levels delimiter k l t es ts) :
    ReadsTerm base levels delimiter (k + 1) (.node l.op (e :: es)) (t ++ ts) := by
  intro n c last r actions hn hc hlast hr hstops
  rw [List.length_append] at hn
  rw [List.append_assoc] at hc
  have hfree : Free last t := by
    obtain ⟨x, u, rfl, -⟩ := h.writes_starts he
    exact hlast
  have hread : ∀ actions : Actions ε α ω, termAt base levels n k actions c =
      (runActions actions e).map fun _ => some (e, ⟨t.getLast?.or last, ts ++ r⟩) :=
    fun actions => ih n c last (ts ++ r) actions (by omega) hc hfree
      (h.ends_operands (List.mem_of_getElem? hl) hes hr) (h.stops_operands hl hes hstops)
  have hmore : ∀ actions : Actions ε α ω,
      many (operand l (termAt base levels n k actions)) (ts ++ r).length
        ⟨t.getLast?.or last, ts ++ r⟩ =
          (runAllActions actions es).map fun _ => (es, ⟨ts.getLast?.or (t.getLast?.or last), r⟩) :=
    fun actions => ihs n _ (t.getLast?.or last) r actions (by omega) le_rfl hr hl hunary hstops
  have hahead := hread noActions
  have hmoreAhead := hmore noActions
  rw [runActions_noActions] at hahead
  rw [runAllActions_noActions] at hmoreAhead
  obtain ⟨y, hnext⟩ := many_head hne hmoreAhead
  rw [termAt_succ hl, level, if_neg (by rw [hunary]; exact Bool.false_ne_true),
    binaryLevel_node hahead hnext (hread actions) (hmore actions) hne, runActions, runAllActions,
    List.getLast?_append, Option.or_assoc]

theorem reads_operand (h : Readable base levels Atom starts delimiter)
    (hs : s.all isSpace = true) (hs' : s'.all isSpace = true) (hspaced' : Spaced l.text s' t)
    (he : Writes Atom Spaced levels k e t) (hes : Operands Atom Spaced levels k l t es ts)
    (ih : ReadsTerm base levels delimiter k e t)
    (ihs : ReadsOperands base levels delimiter k l t es ts) {first : Text} :
    ReadsOperands base levels delimiter k l first (e :: es)
      (s ++ (l.text ++ (s' ++ (t ++ ts)))) := by
  intro n m last r actions hn hm hr hl hunary hstops
  have hmem := List.mem_of_getElem? hl
  have hne : t ++ ts ≠ [] := List.append_ne_nil_of_left_ne_nil (h.writes_ne_nil he) ts
  rw [← List.append_assoc, ← List.append_assoc, ← List.append_assoc] at hr
  have hends := hr.of_append hne
  obtain ⟨x, u, heq, -⟩ := h.op_starts l hmem
  have hpos : 0 < l.text.length := by
    rw [heq]
    exact Nat.succ_pos _
  simp only [List.length_append] at hn hm
  obtain ⟨m, rfl⟩ : ∃ i, m = i + 1 := Nat.exists_eq_succ_of_ne_zero (by omega)
  simp only [List.append_assoc]
  have hskip : (⟨last, s ++ (l.text ++ (s' ++ (t ++ (ts ++ r))))⟩ : Cursor).skip =
      ⟨s.getLast?.or last, l.text ++ (s' ++ (t ++ (ts ++ r)))⟩ :=
    Cursor.skip_append hs (h.space_op hmem)
  have hread := ih n ⟨l.text.getLast?.or (s.getLast?.or last), s' ++ (t ++ (ts ++ r))⟩ _ _ actions
    (by omega) (Cursor.skip_append hs' (h.space_operand he)) (h.free_op hmem hs' hspaced')
    (h.ends_operands hmem hes hends) (h.stops_operands hl hes hstops)
  have hfirst : operand l (termAt base levels n k actions)
      ⟨last, s ++ (l.text ++ (s' ++ (t ++ (ts ++ r))))⟩ = _ :=
    (bind_some (literal_some hskip)).trans hread
  have hmore := ihs n m (t.getLast?.or (s'.getLast?.or (l.text.getLast?.or (s.getLast?.or last))))
    r actions (by omega) (by rw [List.length_append]; omega) hends hl hunary hstops
  rw [runAllActions]
  cases hrun : runActions actions e with
  | error x =>
    rw [hrun] at hfirst
    exact many_error hfirst
  | ok _ =>
    rw [hrun] at hfirst
    rw [many_cons hfirst, hmore]
    simp only [List.getLast?_append, Option.or_assoc]
    cases runAllActions actions es <;> rfl

/-- An expression is read as it is written. -/
theorem reads (h : Readable base levels Atom starts delimiter)
    (he : Writes Atom Spaced levels k e t) : ReadsTerm base levels delimiter k e t := by
  refine @Writes.rec α ω Atom Spaced levels
    (fun k e t _ => ReadsTerm base levels delimiter k e t)
    (fun k l first es ts _ => ReadsOperands base levels delimiter k l first es ts)
    ?atom ?brackets ?weaken ?unary ?binary ?nil ?cons k e t he
  case atom => exact fun ha => h.reads_atom ha
  case brackets => exact fun hs he hs' ih => h.reads_brackets hs he hs' ih
  case weaken => exact fun hk he ih => h.reads_weaken hk he ih
  case unary => exact fun hl hunary hs hspaced he ih => h.reads_unary hl hunary hs hspaced he ih
  case binary => exact fun hl hunary he hes hne ih ihs => h.reads_binary hl hunary he hes hne ih ihs
  case nil =>
    intro k l first n m last r actions _ _ _ hl hunary hstops
    exact many_nil (bind_none (literal_none (hstops k l (Nat.lt_succ_self k) hl hunary)))
  case cons =>
    exact fun hs _ hs' hspaced' he hes ih ihs => h.reads_operand hs hs' hspaced' he hes ih ihs

/-- A base expression is read alone where no operator has an operand after it. -/
theorem reads_alone (h : Readable base levels Atom starts delimiter) {a : α} {n : ℕ} {c : Cursor}
    {last : Option Char} {r : Text} (ha : Atom a t) (hc : c.skip = ⟨last, t ++ r⟩)
    (hlast : Free last t) (hr : Ends delimiter t r)
    (hstop : ∀ j l, levels[j]? = some l → l.unary = false →
      operand l (termAt base levels n j noActions) ⟨t.getLast?.or last, r⟩ = .ok none) :
    ∀ k ≤ levels.length, ∀ actions, termAt base levels n k actions c =
      .ok (some (.leaf a, ⟨t.getLast?.or last, r⟩)) := by
  intro k
  induction k with
  | zero => exact fun _ _ => orElse_some (bind_some (h.atom_reads ha hc hlast hr))
  | succ k ih =>
    intro hk actions
    have hl : levels[k]? = some levels[k] := List.getElem?_eq_getElem hk
    have hread := ih (Nat.le_of_succ_le hk)
    rw [termAt_succ hl, level]
    split
    case isTrue hunary =>
      have hop : (literal levels[k].text : Parser ε Unit) c = .ok none := by
        apply literal_none
        rw [← Cursor.skip_rest, hc]
        exact h.atom_not_unary ha hr (List.getElem_mem hk) hunary
      rw [unaryLevel_of_stop hop, hread]
    case isFalse hunary =>
      exact (binaryLevel_of_stop (hread noActions)
        (hstop k _ hl (Bool.eq_false_iff.mpr hunary))).trans (hread actions)

/-- Where no expression in brackets ends with a bracket, nothing is read. -/
theorem reads_none (h : Readable base levels Atom starts delimiter) {n : ℕ} {c : Cursor}
    {last : Option Char} {s : Text} (hc : c.skip = ⟨last, '(' :: s⟩)
    (hret : ∀ actions : Actions ε α ω,
      infixNotation base levels n actions ⟨some '(', s⟩ = .ok none ∨
        ∃ e d, infixNotation base levels n actions ⟨some '(', s⟩ = .ok (some (e, d)) ∧
          ¬ [')'] <+: d.rest.dropWhile isSpace) :
    ∀ k ≤ levels.length, ∀ actions : Actions ε α ω,
      termAt base levels n k actions c = .ok none := by
  intro k
  induction k with
  | zero =>
    intro _ actions
    have hbase : base c = .ok none := h.bracket (s := s) (by rw [hc])
    have hopen : (literal ['('] : Parser ε Unit) c = .ok (some ((), ⟨some '(', s⟩)) :=
      literal_some (l := last) (s := ['(']) hc
    refine (orElse_none (bind_none hbase)).trans ((bind_some hopen).trans ?_)
    obtain hnone | ⟨e, d, he, hclose⟩ := hret actions
    · exact bind_none hnone
    · exact (bind_some he).trans (bind_none (literal_none hclose))
  | succ k ih =>
    intro hk actions
    have hl : levels[k]? = some levels[k] := List.getElem?_eq_getElem hk
    have hread := ih (Nat.le_of_succ_le hk)
    rw [termAt_succ hl, level]
    split
    case isTrue hunary =>
      have hop : (literal levels[k].text : Parser ε Unit) c = .ok none := by
        apply literal_none
        obtain ⟨x, u, heq, -, hx, -⟩ := h.op_starts _ (List.getElem_mem hk)
        rw [← Cursor.skip_rest, hc, heq]
        exact fun hp => hx (List.cons_prefix_cons.mp hp).1
      rw [unaryLevel_of_stop hop, hread]
    case isFalse hunary =>
      exact (binaryLevel_none (hread noActions)).trans (hread actions)

/-- A text is parsed as it is written, up to the first action that refuses something. -/
theorem parses (h : Readable base levels Atom starts delimiter) {actions : Actions ε α ω}
    {text : Text} (he : Writes Atom Spaced levels levels.length e t)
    (hs : s.all isSpace = true) (hs' : s'.all isSpace = true)
    (htext : expandTabs 0 text = s ++ (t ++ s')) :
    parseInfix base levels actions text = (runActions actions e).map fun _ => some e := by
  have hends : Ends delimiter t s' := fun x hx =>
    .inl (h.delimiter_space x (isSpace_head hs' hx))
  have hstops : Stops levels levels.length s' := by
    intro j l _ hl _ hp
    have hnil : s'.dropWhile isSpace = [] :=
      List.dropWhile_eq_nil_iff.mpr (List.all_eq_true.mp hs')
    obtain ⟨x, u, heq, -⟩ := h.op_starts l (List.mem_of_getElem? hl)
    rw [hnil, List.prefix_nil, heq] at hp
    cases hp
  have hread := h.reads he (expandTabs 0 text).length ⟨none, expandTabs 0 text⟩ _ s' actions
    (by rw [htext]; simp only [List.length_append]; omega)
    (by rw [htext]; exact Cursor.skip_append hs (h.space_operand he))
    (@free_of_space _ _ none hs fun _ hboth => Bool.false_ne_true hboth.1) hends hstops
  rw [parseInfix, infixNotation_succ]
  cases hrun : runActions actions e with
  | error x =>
    rw [hrun] at hread
    rw [parseString, hread]
    rfl
  | ok _ =>
    rw [hrun] at hread
    exact parseString_some hread hs'

end Readable

end Read

end Lib.Peg
