import Benji.Services.Conditions

/-! Users are kept apart by the conditions of the listings, unless a name reaches beyond the
brackets around it. -/
namespace Benji.Services
open Lib Peg QueryBuilder

/-! ### A literal that does not end -/

section Unclosed
variable {U : UnicodeData} {A : Attributes} {n : ℕ} {s : Text}

/-- Only one operator begins like an equation. -/
theorem text_of_tail {l : Level Operator} (h : l ∈ levels.tail) :
    ∃ x w, l.text = x :: w ∧ x ≠ '=' := by
  simp only [levels, List.tail_cons, List.mem_cons, List.not_mem_nil, or_false] at h
  obtain rfl | rfl | rfl | rfl | rfl | rfl | rfl | rfl := h <;> exact ⟨_, _, rfl, by decide⟩

/-- No operator has an operand after the name. -/
theorem operand_unclosed (h : quoted '\'' s = none) {last : Option Char} (j : ℕ)
    (l : Level Operator) (hl : levels[j]? = some l) :
    operand l (termAt (atom U A.names : Parser ActionError (QueryBuilder.Atom Text)) levels n j
      noActions) ⟨last, " == '".toList ++ s⟩ = .ok none := by
  have hskip : (⟨last, " == '".toList ++ s⟩ : Cursor).skip = ⟨some ' ', "== '".toList ++ s⟩ :=
    @Cursor.skip_append last [' '] ("== '".toList ++ s) rfl (by rintro x ⟨⟩; rfl)
  cases j with
  | zero =>
    cases hl
    have hop := @literal_some ActionError (some ' ') "==".toList (" '".toList ++ s) _ hskip
    have hskip' : (⟨some '=', " '".toList ++ s⟩ : Cursor).skip = ⟨some ' ', '\'' :: s⟩ :=
      @Cursor.skip_append (some '=') [' '] ('\'' :: s) rfl (by rintro x ⟨⟩; rfl)
    have hopen : (literal ['('] : Parser ActionError Unit) ⟨some '=', " '".toList ++ s⟩ =
        .ok none := by
      refine literal_none fun hp => ?_
      rw [← Cursor.skip_rest, hskip'] at hp
      exact absurd (List.cons_prefix_cons.mp hp).1 (by decide)
    exact (bind_some hop).trans ((orElse_none (bind_none (atom_unclosed hskip' rfl h))).trans
      (bind_none hopen))
  | succ j =>
    have htail : l ∈ levels.tail := List.mem_of_getElem? (l := levels.tail) (i := j) hl
    obtain ⟨x, w, heq, hx⟩ := text_of_tail htail
    refine bind_none (literal_none fun hp => ?_)
    rw [← Cursor.skip_rest, hskip, heq] at hp
    exact hx (List.cons_prefix_cons.mp hp).1

/-- A condition whose literal does not end is no filter expression. -/
theorem parse_unclosed (hname : A.Plain "name".toList) {text : Text}
    (htext : expandTabs 0 text = '(' :: '(' :: ("name".toList ++ (" == '".toList ++ s)))
    (h : quoted '\'' s = none) : parse U A.names text = .ok none := by
  have hreads := readable (ε := ActionError) A U
  have hcolumn : A.Written U (.identifier "name".toList) "name".toList := .identifier hname
  have hends : Ends delimiter "name".toList (" == '".toList ++ s) := by
    rintro x ⟨⟩
    exact .inl rfl
  have hclose : ¬ [')'] <+: (" == '".toList ++ s).dropWhile isSpace := fun hp =>
    absurd (List.cons_prefix_cons.mp hp).1 (by decide)
  have hinner (n : ℕ) (actions : Actions ActionError (QueryBuilder.Atom Text) Operator) :
      infixNotation (atom U A.names) levels (n + 2) actions
        ⟨some '(', '(' :: ("name".toList ++ (" == '".toList ++ s))⟩ = .ok none := by
    refine hreads.reads_none (n := n + 1) rfl (fun actions => .inr ?_) levels.length le_rfl actions
    have hfree : Free (some '(') "name".toList := fun hboth => Bool.false_ne_true hboth.1
    have hskip : (⟨some '(', "name".toList ++ (" == '".toList ++ s)⟩ : Cursor).skip =
      ⟨some '(', "name".toList ++ (" == '".toList ++ s)⟩ := rfl
    rw [infixNotation_succ, hreads.reads_alone hcolumn hskip hfree hends
      (fun j l hl _ => operand_unclosed h j l hl) levels.length le_rfl actions]
    exact ⟨_, _, rfl, hclose⟩
  have houter : infixNotation (atom U A.names) levels ((expandTabs 0 text).length + 1) actions
      ⟨none, expandTabs 0 text⟩ = .ok none := by
    rw [htext]
    exact hreads.reads_none rfl (fun actions => .inl (hinner _ actions)) levels.length le_rfl
      actions
  rw [parse, parseInfix, parseString, houter]
  rfl

end Unclosed

/-! ### Isolation -/

section Isolated
variable {U : UnicodeData} {A : Attributes} {nested : Parsed → Except FilterError (Clause Text)}
  {ρ V : Type} {S : Schema ρ V} {ctx : Context} {name : Text}

/-- A selection of the user's own rows, row by row. -/
theorem nonInterfering_of_filter {userId : ρ → ℕ} {u : ℕ}
    {select : Tables ρ → Except QueryError (List ρ)} {p : ρ → Bool} {binds : Bool} {x : QueryError}
    (h : ∀ t, select t = if binds then .ok (t.rows.filter p) else .error x)
    (hp : ∀ r, p r = true → userId r = u) : NonInterfering userId u select := by
  have hown : ∀ rows : List ρ, rows.filter p = (rows.filter fun r => userId r = u).filter p := by
    intro rows
    rw [List.filter_filter]
    congr 1
    funext r
    cases hr : p r with
    | false => rfl
    | true => simp [hp r hr]
  intro t t' hrows
  constructor
  · rw [h, h, hown t.rows, hown t'.rows, hrows]
  · intro found hfound r hr
    rw [h] at hfound
    cases binds with
    | false => cases hfound
    | true =>
      cases hfound
      exact hp r (List.mem_filter.mp hr).2

/-- Nothing is selected of any state. -/
theorem nonInterfering_of_error {userId : ρ → ℕ} {u : ℕ}
    {select : Tables ρ → Except QueryError (List ρ)} {x : QueryError}
    (h : ∀ t, select t = .error x) : NonInterfering userId u select := by
  intro t t' _
  constructor
  · rw [h, h]
  · intro found hfound
    rw [h] at hfound
    cases hfound

theorem user_of_eval {row : ρ} {n : ℕ} (h : ((S.bind "user_id".toList (.int n)).bind fun v =>
    S.test .eq (S.column "user_id".toList row) v) = some true) : S.userId row = n := by
  rw [S.user] at h
  exact_mod_cast of_decide_eq_true (Option.some.inj h)

theorem same_toRows (t t' : Tables ρ) : Same (S.toRows t) (S.toRows t') := ⟨rfl, rfl, rfl⟩

/-- A condition that can be built selects the rows of which it is true. -/
theorem findText_of_result {text : Text} {e : Expr Text} {c : Clause Text} {D : Rows Text ρ V}
    (hdenotes : Denotes U A text e)
    (hresult : filterResult (fun _ => some e) (String.ofList text) = .ok c) :
    findText U A nested D (some (String.ofList text)) =
      if c.binds D then .ok (D.rows.filter fun row => c.eval D row = some true)
      else .error (.filter .statementError) := by
  have hdenotes' : Denotes U A (String.ofList text).toList e := by
    rwa [String.toList_ofList]
  rw [findText_of_denotes hdenotes', findWithFilter, if_neg (ne_empty_of_denotes hdenotes'),
    hresult]
  show Except.mapError _ (if c.binds D = true then _ else _) = _
  cases c.binds D <;> rfl

theorem filterResult_of_build {text : String} {e : Expr Text} {c : Clause Text}
    (hparses : e.parses = true) (hbuild : e.build = .ok (.clause c)) :
    filterResult (fun _ => some e) text = .ok c := by
  unfold filterResult
  dsimp only
  rw [if_neg (by rw [hparses]; nofun), hbuild]

theorem build_of_filterResult {text : String} {e : Expr Text} {c : Clause Text}
    (h : filterResult (fun _ => some e) text = .ok c) : e.build = .ok (.clause c) := by
  unfold filterResult at h
  dsimp only at h
  split at h
  · cases h
  · split at h
    · cases h
    · cases h
    · cases h
    · rename_i hbuild
      cases h
      exact hbuild

/-- A condition without labels that is true of the rows of one user only keeps the others apart. -/
theorem isolated_of_denotes {text : Text} {e : Expr Text} {n : ℕ}
    (hdenotes : Denotes U A text e) (hfree : e.labelFree = true)
    (huser : ∀ c t row, e.build = .ok (.clause c) → c.eval (S.toRows t) row = some true →
      S.userId row = n) :
    NonInterfering S.userId n fun t =>
      findText U A nested (S.toRows t) (some (String.ofList text)) := by
  cases hresult : filterResult (fun _ => some e) (String.ofList text) with
  | error x =>
    have hdenotes' : Denotes U A (String.ofList text).toList e := by
      rwa [String.toList_ofList]
    refine nonInterfering_of_error (x := .filter x) fun t => ?_
    rw [findText_of_denotes hdenotes', findWithFilter, if_neg (ne_empty_of_denotes hdenotes'),
      hresult]
    rfl
  | ok c =>
    have hbuild := build_of_filterResult hresult
    have hclause : c.labelFree = true := labelFree_build e (.clause c) hfree hbuild
    let first : Tables ρ := ⟨[], [], ⟨[], List.nodup_nil⟩⟩
    have hselect : ∀ t, findText U A nested (S.toRows t) (some (String.ofList text)) =
        if c.binds (S.toRows first) then
          .ok (t.rows.filter fun row => c.eval (S.toRows first) row = some true)
        else .error (.filter .statementError) := by
      intro t
      have hrows : (fun row => decide (c.eval (S.toRows t) row = some true)) = fun row =>
          decide (c.eval (S.toRows first) row = some true) := by
        funext row
        rw [(same_toRows t first).eval c hclause]
      rw [findText_of_result hdenotes hresult, (same_toRows t first).binds c, hrows]
      rfl
    exact nonInterfering_of_filter hselect fun row h =>
      huser c first row hbuild (of_decide_eq_true h)

/-- The condition on the user alone. -/
theorem isolated_user (hA : A.Plain "user_id".toList) (n : ℕ) :
    NonInterfering S.userId n fun t => findText U A nested (S.toRows t)
      (some (String.ofList ("(user_id == ".toList ++ (digitsOf n ++ [')'])))) := by
  refine isolated_of_denotes (denotes_user hA n) rfl fun c t row hbuild h => ?_
  cases hbuild
  exact user_of_eval h

theorem and_eq_true {x y : Option Bool} (h : kleeneAnd [x, y] = some true) : y = some true := by
  rcases x with _ | _ | _ <;> rcases y with _ | _ | _ <;> first | rfl | cases h

/-- Whatever is asked for beside it, the user is asked for. -/
theorem isolated_inside (huser : A.Plain "user_id".toList) {e : Expr Text}
    (h : Denotes U A (expandTabs 2 (comparison name)) e) (hfree : e.labelFree = true) (n : ℕ) :
    NonInterfering S.userId n fun t => findText U A nested (S.toRows t)
      (some (String.ofList (conditionText name (digitsOf n)))) := by
  have hall : (Expr.and [e, userExpr n]).labelFree = true := by
    show (e.labelFree && _) = true
    rw [hfree]
    rfl
  refine isolated_of_denotes (denotes_inside huser h n) hall fun c t row hbuild heval => ?_
  cases he : e.build with
  | error x =>
    rw [Expr.build, buildAll, he] at hbuild
    cases hbuild
  | ok b =>
    rw [Expr.build, buildAll, he] at hbuild
    cases hbuild
    exact user_of_eval (and_eq_true heval)

/-- What is no filter expression is one in no state. -/
theorem isolated_of_error {text : Text} {x : QueryError} {n : ℕ} (hne : text ≠ [])
    (h : filterText U A nested (String.ofList text) = .error x) :
    NonInterfering S.userId n fun t =>
      findText U A nested (S.toRows t) (some (String.ofList text)) := by
  refine nonInterfering_of_error (x := x) fun t => ?_
  have hne' : String.ofList text ≠ "" := by
    intro hnil
    have hlist := congrArg String.toList hnil
    rw [String.toList_ofList] at hlist
    exact hne hlist
  unfold findText
  dsimp only
  rw [if_neg hne', h]
  rfl

/-- Where the name stays inside of its brackets, the users are kept apart. -/
theorem isolated_name (hname : A.Plain "name".toList) (huser : A.Plain "user_id".toList) (n : ℕ)
    (h : StaysInside U A n name) :
    NonInterfering S.userId n fun t => findText U A nested (S.toRows t)
      (some (String.ofList (conditionText name (digitsOf n)))) := by
  have herror (hparse : ∀ tree, parse U A.names (conditionText name (digitsOf n)) ≠
      .ok (some tree)) : ∃ x, filterText U A nested
        (String.ofList (conditionText name (digitsOf n))) = .error x := by
    unfold filterText
    rw [String.toList_ofList]
    rcases hp : parse U A.names (conditionText name (digitsOf n)) with x | _ | tree
    · cases x <;> exact ⟨_, rfl⟩
    · exact ⟨_, rfl⟩
    · exact absurd hp (hparse tree)
  have hne : conditionText name (digitsOf n) ≠ [] :=
    List.append_ne_nil_of_left_ne_nil (by decide) _
  obtain hcloses | ⟨e, he, hfree⟩ | hno := h
  · cases hquoted : quoted '\'' (expandTabs 11 name ++ '\'' :: afterName (digitsOf n)) with
    | some b =>
      obtain ⟨rfl, hbody⟩ := quoted_name hcloses (not_mem_digitsOf rfl n) hquoted
      exact isolated_inside huser (denotes_comparison hname hbody) rfl n
    | none =>
      have htext : expandTabs 0 (conditionText name (digitsOf n)) = '(' :: '(' ::
          ("name".toList ++ (" == '".toList ++
            (expandTabs 11 name ++ '\'' :: afterName (digitsOf n)))) := by
        rw [expandTabs_conditionText (not_mem_digitsOf rfl n), expandTabs_comparison,
          List.append_assoc, List.append_assoc]
        rfl
      have hparse := parse_unclosed (U := U) hname htext hquoted
      obtain ⟨x, hx⟩ := herror fun tree hp => by
        rw [hparse] at hp
        cases hp
      exact isolated_of_error hne hx
  · exact isolated_inside huser he hfree n
  · have hexpression : ∀ tree, parse U A.names (conditionText name (digitsOf n)) = .ok (some tree) →
        IsExpression U A (String.ofList (conditionText name (digitsOf n))).toList := fun tree hp =>
      isExpression_of_parse (by rwa [String.toList_ofList])
    obtain ⟨x, hx⟩ := herror fun tree hp => hno (by
      have h := hexpression tree hp
      rwa [String.toList_ofList] at h)
    exact isolated_of_error hne hx

/-- The condition that both listings make for a user who is no admin. -/
theorem isolated_condition {name : Option Text} (hadmin : ctx.isAdmin = false)
    (hname : A.Plain "name".toList) (huser : A.Plain "user_id".toList)
    (h : ∀ text, name = some text → StaysInside U A ctx.user.id text) :
    NonInterfering S.userId ctx.user.id
      (selectRows U nested S ctx A (VMController.inBrackets (VMController.nameClause name))) := by
  have hA := huser.mem
  have hwithout (hclause : VMController.nameClause name = []) : NonInterfering S.userId ctx.user.id
      (selectRows U nested S ctx A (VMController.inBrackets (VMController.nameClause name))) := by
    have hcondition : ownCondition A ctx (VMController.inBrackets (VMController.nameClause name)) =
        some ("(user_id == ".toList ++ (digitsOf ctx.user.id ++ [')'])) := by
      rw [hclause]
      unfold ownCondition
      rw [hadmin, if_neg Bool.false_ne_true, if_pos (any_of_mem hA)]
      rfl
    unfold selectRows
    rw [hcondition]
    exact isolated_user huser ctx.user.id
  match name with
  | none => exact hwithout rfl
  | some [] => exact hwithout rfl
  | some (x :: text) =>
    unfold selectRows
    rw [ownCondition_name hadmin hA (List.cons_ne_nil x text)]
    exact isolated_name hname huser ctx.user.id (h _ rfl)

theorem selectVms_of_user {name : Option Text} {userId : Option ℤ}
    (hadmin : ctx.isAdmin = false) : selectVms U nested S ctx name userId =
      selectRows U nested S ctx vmAttributes
        (VMController.inBrackets (VMController.nameClause name)) := by
  funext t
  rw [selectVms, buildCondition_of_user hadmin]

theorem selectVolumeGroups_of_user {name : Option Text} {userName : Option String}
    {userId : Option ℤ} (hadmin : ctx.isAdmin = false) :
    selectVolumeGroups U nested S ctx name userName userId =
      selectRows U nested S ctx volumeGroupAttributes
        (VMController.inBrackets (VMController.nameClause name)) := by
  funext t
  rw [selectVolumeGroups, buildConditionListGroups_of_user hadmin]

/-- The listings keep users apart for every name that stays inside of the brackets around it. -/
theorem listings_isolated {name : Option Text} {σ W : Type} {T : Schema σ W}
    (hadmin : ctx.isAdmin = false) (userId : Option ℤ) (userName : Option String) :
    ((∀ text, name = some text → StaysInside U vmAttributes ctx.user.id text) →
      NonInterfering S.userId ctx.user.id (selectVms U nested S ctx name userId)) ∧
    ((∀ text, name = some text → StaysInside U volumeGroupAttributes ctx.user.id text) →
      NonInterfering T.userId ctx.user.id
        (selectVolumeGroups U nested T ctx name userName userId)) := by
  constructor
  · intro h
    rw [selectVms_of_user hadmin]
    exact isolated_condition hadmin rfl rfl h
  · intro h
    rw [selectVolumeGroups_of_user hadmin]
    exact isolated_condition hadmin rfl rfl h

/-- What a user is shown of the rows with a name. -/
theorem selectRows_of_denotes {e : Expr Text} {c : Clause Text} (hadmin : ctx.isAdmin = false)
    (hA : "user_id".toList ∈ A.names) (hne : name ≠ [])
    (hdenotes : Denotes U A (conditionText name (digitsOf ctx.user.id)) e)
    (hparses : e.parses = true) (hbuild : e.build = .ok (.clause c)) (t : Tables ρ)
    (hbinds : c.binds (S.toRows t) = true) :
    selectRows U nested S ctx A (VMController.inBrackets (VMController.nameClause (some name))) t =
      .ok (t.rows.filter fun row => c.eval (S.toRows t) row = some true) := by
  have hselect : selectRows U nested S ctx A
      (VMController.inBrackets (VMController.nameClause (some name))) t =
        findText U A nested (S.toRows t)
          (some (String.ofList (conditionText name (digitsOf ctx.user.id)))) := by
    unfold selectRows
    rw [ownCondition_name hadmin hA hne]
    rfl
  rw [hselect, findText_of_result hdenotes (filterResult_of_build hparses hbuild), if_pos hbinds]
  rfl

end Isolated

section Example

/-- Numbers and texts. -/
def testValues (op : Op) : ℤ ⊕ String → ℤ ⊕ String → Option Bool
  | .inl m, .inl n => some (op.holds m n)
  | .inr s, .inr t => some (op.holds s t)
  | _, _ => none

def bindValue : Const → Option (ℤ ⊕ String)
  | .int n => some (.inl n)
  | .str s => some (.inr s)
  | .bool _ => none

def vmSchema : Schema VM (ℤ ⊕ String) where
  id := VM.id
  userId := VM.userId
  column c vm := if c = "user_id".toList then .inl vm.userId
    else if c = "name".toList then .inr vm.name else .inl vm.id
  bind _ := bindValue
  test := testValues
  user _ _ := rfl

def volumeGroupSchema : Schema VolumeGroup (ℤ ⊕ String) where
  id := VolumeGroup.id
  userId := VolumeGroup.userId
  column c g := if c = "user_id".toList then .inl g.userId
    else if c = "name".toList then .inr g.name else .inl g.id
  bind _ := bindValue
  test := testValues
  user _ _ := rfl

/-- User 1, who is no admin. -/
def tenant : Context := ⟨⟨1, "u"⟩, false⟩

def tablesOf {ρ : Type} (rows : List ρ) : Tables ρ := ⟨[⟨1, "u"⟩], rows, ⟨[], List.nodup_nil⟩⟩

theorem not_closesInside_doubled : ¬ ClosesInside "it''s".toList := by
  rintro ⟨b, c, r, heq, hc, hb⟩
  have htext : expandTabs 11 "it''s".toList = ['i', 't', '\'', '\'', 's'] := by decide
  rw [htext] at heq
  match b with
  | [] => exact absurd (List.cons.inj heq).1 (by decide)
  | [_] => exact absurd (List.cons.inj (List.cons.inj heq).2).1 (by decide)
  | [_, _] =>
    cases heq
    exact hc rfl
  | [_, _, _] =>
    cases heq
    -- What is before the second quote ends with the first one.
    cases hb with
    | char _ _ _ _ hb => cases hb with
      | char _ _ _ _ hb => cases hb with
        | char hq => exact hq rfl
  | _ :: _ :: _ :: _ :: b =>
    have hlen := congrArg List.length heq
    simp only [List.length_cons, List.length_append, List.length_nil] at hlen
    omega

theorem body_doubled : Body '\'' (expandTabs 11 "it''s".toList) := by
  have htext : expandTabs 11 "it''s".toList = ['i', 't', '\'', '\'', 's'] := by decide
  rw [htext]
  have hlast : Body '\'' ['s'] :=
    .char (by decide) (by decide) (by decide) (by decide) .nil
  exact .char (by decide) (by decide) (by decide) (by decide)
    (.char (by decide) (by decide) (by decide) (by decide) (.doubled hlast))

theorem selectVms_doubled : selectVms .ascii noNested vmSchema tenant (some "it''s".toList) none
    (tablesOf [⟨1, "it''s", none, 1⟩]) = .ok [⟨1, "it''s", none, 1⟩] := by
  have hdenotes := denotes_inside (U := .ascii) (A := vmAttributes) rfl
    (denotes_comparison rfl body_doubled) tenant.user.id
  rw [selectVms_of_user rfl,
    selectRows_of_denotes rfl (by decide) (by decide) hdenotes rfl rfl _ rfl]
  exact congrArg Except.ok (by decide)

def either : Text := "a' or name == 'b".toList

/-- The name ends the literal and goes on with a filter of its own. -/
theorem denotes_either : Denotes .ascii volumeGroupAttributes (expandTabs 2 (comparison either))
    (.or [nameExpr ['a'], nameExpr ['b']]) := by
  have hfirst : Body '\'' ['a'] := body_of_word (by decide)
  have hsecond : Body '\'' ['b'] := body_of_word (by decide)
  have ha := writes_name (U := .ascii) (A := volumeGroupAttributes) rfl hfirst
  have hb := writes_name (U := .ascii) (A := volumeGroupAttributes) rfl hsecond
  have hlast : levels[8]? = some ⟨.or, "or".toList, false⟩ := rfl
  have hor := Writes.pair hlast rfl (ha.mono (by decide) (by decide))
    (hb.mono (by decide) (by decide))
  exact ⟨_, [], _, [], rfl, rfl, rfl, by decide, hor⟩

theorem selectVolumeGroups_either :
    selectVolumeGroups .ascii noNested volumeGroupSchema tenant (some either) none none
        (tablesOf [⟨1, "a", none, 1⟩, ⟨2, "b", none, 1⟩]) =
      .ok [⟨1, "a", none, 1⟩, ⟨2, "b", none, 1⟩] := by
  have huser : volumeGroupAttributes.Plain "user_id".toList := rfl
  have hdenotes := denotes_inside huser denotes_either tenant.user.id
  rw [selectVolumeGroups_of_user rfl,
    selectRows_of_denotes rfl (by decide) (by decide) hdenotes rfl rfl _ rfl]
  exact congrArg Except.ok (by decide)

/-- Machines and groups of another user come and go. -/
theorem listings_isolated_example :
    selectVms .ascii noNested vmSchema tenant (some "it''s".toList) none
        (tablesOf [⟨1, "it''s", none, 1⟩, ⟨2, "it''s", none, 2⟩]) =
      .ok [⟨1, "it''s", none, 1⟩] ∧
    selectVolumeGroups .ascii noNested volumeGroupSchema tenant (some either) none none
        (tablesOf [⟨1, "a", none, 1⟩, ⟨2, "b", none, 1⟩, ⟨3, "b", none, 2⟩]) =
      .ok [⟨1, "a", none, 1⟩, ⟨2, "b", none, 1⟩] := by
  have hadmin : tenant.isAdmin = false := rfl
  have hdoubled : ∀ text, some "it''s".toList = some text →
      StaysInside .ascii vmAttributes tenant.user.id text := by
    rintro _ ⟨⟩
    exact .inl not_closesInside_doubled
  have heither : ∀ text, some either = some text →
      StaysInside .ascii volumeGroupAttributes tenant.user.id text := by
    rintro _ ⟨⟩
    exact .inr (.inl ⟨_, denotes_either, rfl⟩)
  constructor
  · refine ((listings_isolated (S := vmSchema) (T := volumeGroupSchema) hadmin none none).1
      hdoubled _ (tablesOf [⟨1, "it''s", none, 1⟩]) ?_).1.trans selectVms_doubled
    decide
  · refine ((listings_isolated (S := vmSchema) (T := volumeGroupSchema) hadmin none none).2 heither
      _ (tablesOf [⟨1, "a", none, 1⟩, ⟨2, "b", none, 1⟩]) ?_).1.trans selectVolumeGroups_either
    decide

def injected : Text := "a') or (name == 'a".toList

def injectedExpr : Expr Text :=
  .or [nameExpr ['a'], .and [nameExpr ['a'], userExpr 1]]

/-- The name brings its own brackets and quotes along. -/
theorem denotes_injected :
    Denotes .ascii vmAttributes (conditionText injected (digitsOf 1)) injectedExpr := by
  have hbody : Body '\'' ['a'] := body_of_word (by decide)
  have hname := (writes_name (U := .ascii) (A := vmAttributes) rfl hbody).bracketed (by decide)
  have huser := writes_user (U := .ascii) (A := vmAttributes) rfl 1
  have hlevel : levels[7]? = some ⟨.and, "and".toList, false⟩ := rfl
  have hand := Writes.pair hlevel rfl (hname.mono (by decide) (by decide))
    (huser.mono (by decide) (by decide))
  have hlast : levels[8]? = some ⟨.or, "or".toList, false⟩ := rfl
  have hor := Writes.pair hlast rfl (hname.mono (by decide) (by decide)) hand
  have hbrackets := hor.bracketed (by decide)
  exact ⟨_, [], _, [], rfl, rfl, rfl, by decide, hbrackets.mono (by decide) le_rfl⟩

theorem selectVms_injected (t : Tables VM) :
    selectVms .ascii noNested vmSchema tenant (some injected) none t =
      .ok (t.rows.filter fun vm => vm.name = "a") := by
  have hdenotes : Denotes .ascii vmAttributes (conditionText injected (digitsOf tenant.user.id))
      injectedExpr := denotes_injected
  rw [selectVms_of_user rfl,
    selectRows_of_denotes rfl (by decide) (by decide) hdenotes rfl rfl t rfl]
  have hrows : (fun vm => decide (Clause.eval (vmSchema.toRows t) vm (.or
      [.compare .eq "name".toList (.str "a"), .and [.compare .eq "name".toList (.str "a"),
        .compare .eq "user_id".toList (.int 1)]]) = some true)) =
          fun vm => decide (vm.name = "a") := by
    funext vm
    change decide (kleeneOr [some (decide (vm.name = "a")), kleeneAnd
      [some (decide (vm.name = "a")), some (decide ((vm.userId : ℤ) = 1))]] = some true) = _
    generalize decide (vm.name = "a") = x
    generalize decide ((vm.userId : ℤ) = 1) = y
    cases x <;> cases y <;> rfl
  rw [← hrows]
  rfl

/-- User 1 is shown a machine of user 2's. -/
theorem selectVms_leaks : ¬ ∀ name : Option Text, NonInterfering VM.userId 1
    (selectVms .ascii noNested vmSchema tenant name none) := by
  intro h
  have hfind : selectVms .ascii noNested vmSchema tenant (some injected) none
      (tablesOf [⟨1, "a", none, 1⟩, ⟨2, "a", none, 2⟩]) =
        .ok [⟨1, "a", none, 1⟩, ⟨2, "a", none, 2⟩] := selectVms_injected _
  have hown := (h (some injected) (tablesOf [⟨1, "a", none, 1⟩, ⟨2, "a", none, 2⟩])
    (tablesOf [⟨1, "a", none, 1⟩]) rfl).2 _ hfind ⟨2, "a", none, 2⟩ (by simp)
  cases hown

end Example

end Benji.Services
