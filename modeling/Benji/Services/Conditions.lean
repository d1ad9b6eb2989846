import Benji.Database.FilterText
import Benji.Services.Database

/-! The conditions of the listings of VMs and volume groups: texts that are pasted together and
parsed as filter expressions. -/
namespace Benji.Services
open Lib Peg QueryBuilder

namespace VMController

/-- `" name == '{}' and "`, if there is a name. -/
def nameClause : Option Text → Text
  | none | some [] => []
  | some name => " name == '".toList ++ (name ++ "' and ".toList)

def userClause (userId : ℤ) : Text :=
  " user_id == '".toList ++ ((toString userId).toList ++ "' and ".toList)

/-- `'({})'.format(condition[:-5].strip())`, if there is a condition. -/
def inBrackets (condition : Text) : Option Text :=
  if condition = [] then none
  else some ('(' :: (PyInt.strip (condition.take (condition.length - 5)) ++ [')']))

/-- The condition of `list_vms`, and the error that is set. -/
def buildCondition (users : List User) (ctx : Context) (name : Option Text)
    (userId : Option ℤ) : Option Text × Option Error :=
  match userId with
  | some id =>
    if !ctx.isAdmin then (inBrackets (nameClause name), none)
    else if users.any fun u => u.id = id then
      (inBrackets (nameClause name ++ userClause id), none)
    else (none, some (.refused 404 "User not found"))
  | none => (inBrackets (nameClause name), none)

/-- The condition of `list_volume_groups`. -/
def buildConditionListGroups (users : List User) (ctx : Context) (groupName : Option Text)
    (userName : Option String) (userId : Option ℤ) : Option Text :=
  let user := users.find? fun u => userName = some u.userName
  let condition :=
    if !ctx.isAdmin then []
    else match userId, user with
      | some id, _ => userClause id
      | none, some user => userClause user.id
      | none, none => []
  inBrackets (condition ++ nameClause groupName)

end VMController

/-- What `dump_raw_object` makes of the condition for a model with the columns `A`. -/
def ownCondition (A : Attributes) (ctx : Context) (condition : Option Text) : Option Text :=
  if ctx.isAdmin then condition
  else if A.names.any fun name => name = "user_id".toList then
    match condition with
    | some c => some ('(' :: (c ++ (" and user_id == ".toList ++
        ((toString ctx.user.id).toList ++ [')']))))
    | none => some ("(user_id == ".toList ++ ((toString ctx.user.id).toList ++ [')']))
  else condition

/-- The columns of `VM`. -/
def vmAttributes : Attributes where
  names := ["id", "name", "ems_ref", "created_at", "user_id"].map String.toList
  legible := by decide

/-- The columns of `VolumeGroup`. -/
def volumeGroupAttributes : Attributes where
  names := ["id", "name", "description", "created_at", "updated_at", "user_id"].map String.toList
  legible := by decide

abbrev Labels := Table fun l : Label => (l.versionId, l.name)

/-- What the listing of a model reads of the database. -/
structure Tables (ρ : Type) where
  users : List User
  rows : List ρ
  labels : Labels

/-- How the database sees the rows of a model that belong to users. -/
structure Schema (ρ V : Type) where
  id : ρ → ℕ
  userId : ρ → ℕ
  column : Text → ρ → V
  bind : Text → Const → Option V
  test : Op → V → V → Option Bool
  /-- The numbers of users are compared as numbers. -/
  user : ∀ row n, ((bind "user_id".toList (.int n)).bind fun v =>
    test .eq (column "user_id".toList row) v) = some (decide ((userId row : ℤ) = n))

def Schema.toRows {ρ V : Type} (S : Schema ρ V) (t : Tables ρ) : Rows Text ρ V where
  rows := t.rows
  id := S.id
  column := S.column
  bind := S.bind
  test := S.test
  labels := t.labels

section Listed
variable (U : UnicodeData) (nested : Parsed → Except FilterError (Clause Text)) {ρ V : Type}
  (S : Schema ρ V) (ctx : Context) (name : Option Text)

/-- The rows of which `dump_raw_object` returns a page. -/
def selectRows (A : Attributes) (condition : Option Text) (t : Tables ρ) :
    Except QueryError (List ρ) :=
  findText U A nested (S.toRows t) ((ownCondition A ctx condition).map String.ofList)

/-- The VMs of `list_vms`. -/
def selectVms (userId : Option ℤ) (t : Tables ρ) : Except QueryError (List ρ) :=
  selectRows U nested S ctx vmAttributes (VMController.buildCondition t.users ctx name userId).1 t

/-- The groups of `list_volume_groups`. -/
def selectVolumeGroups (userName : Option String) (userId : Option ℤ) (t : Tables ρ) :
    Except QueryError (List ρ) :=
  selectRows U nested S ctx volumeGroupAttributes
    (VMController.buildConditionListGroups t.users ctx name userName userId) t

end Listed

/-- What a user is shown is the same in all states with the same rows of the user, and of the user
only. -/
def NonInterfering {ρ : Type} (userId : ρ → ℕ) (u : ℕ)
    (select : Tables ρ → Except QueryError (List ρ)) : Prop :=
  ∀ t t' : Tables ρ,
    (t.rows.filter fun r => userId r = u) = (t'.rows.filter fun r => userId r = u) →
      select t = select t' ∧ ∀ found, select t = .ok found → ∀ r ∈ found, userId r = u

/-- The condition of a user who is no admin. -/
def conditionText (name userId : Text) : Text :=
  "((name == '".toList ++ (name ++ ("') and user_id == ".toList ++ (userId ++ [')'])))

/-- What is in its inner brackets, from column 2 on. -/
def comparison (name : Text) : Text := "name == '".toList ++ (name ++ ['\''])

/-- The literal that begins before the name ends inside it: there is a quote in it that is neither
doubled nor escaped. The name begins in column 11 of the condition. -/
def ClosesInside (name : Text) : Prop :=
  ∃ b c r, expandTabs 11 name = b ++ '\'' :: c :: r ∧ c ≠ '\'' ∧ Body '\'' b

/-- The name does not reach beyond the brackets around it: it does not end the literal, or what is
in the brackets is a filter of its own that asks for no labels, or nothing is a filter. -/
def StaysInside (U : UnicodeData) (A : Attributes) (userId : ℕ) (name : Text) : Prop :=
  ¬ ClosesInside name ∨
    (∃ e, Denotes U A (expandTabs 2 (comparison name)) e ∧ e.labelFree = true) ∨
      ¬ IsExpression U A (conditionText name (toString userId).toList)

/-! ### The texts -/

section Texts
variable {ctx : Context} {name s t : Text} {users : List User}

theorem inBrackets_nameClause (hne : name ≠ []) :
    VMController.inBrackets (VMController.nameClause (some name)) =
      some ("(name == '".toList ++ (name ++ "')".toList)) := by
  have hclause : VMController.nameClause (some name) =
      (' ' :: ("name == '".toList ++ name ++ ['\''])) ++ " and ".toList := by
    cases name with
    | nil => exact absurd rfl hne
    | cons c name => simp [VMController.nameClause]
  have hstrip : PyInt.strip (' ' :: ("name == '".toList ++ name ++ ['\''])) =
      "name == '".toList ++ name ++ ['\''] := by
    have hfront : (' ' :: ("name == '".toList ++ name ++ ['\''])).dropWhile PyInt.isSpace =
        "name == '".toList ++ name ++ ['\''] := rfl
    rw [PyInt.strip, hfront, List.reverse_append]
    show ((['\''] ++ _).dropWhile PyInt.isSpace).reverse = _
    have hback : (['\''] ++ ("name == '".toList ++ name).reverse).dropWhile PyInt.isSpace =
        ['\''] ++ ("name == '".toList ++ name).reverse := rfl
    rw [hback, List.reverse_append, List.reverse_reverse]
    rfl
  have htake : ((' ' :: ("name == '".toList ++ name ++ ['\''])) ++ " and ".toList).take
      (((' ' :: ("name == '".toList ++ name ++ ['\''])) ++ " and ".toList).length - 5) =
        ' ' :: ("name == '".toList ++ name ++ ['\'']) := by
    rw [List.length_append]
    exact List.take_left
  rw [hclause, VMController.inBrackets, if_neg (by simp), htake, hstrip]
  simp

theorem any_of_mem {names : List Text} (h : name ∈ names) :
    (names.any fun other => other = name) = true :=
  List.any_eq_true.mpr ⟨name, h, decide_eq_true rfl⟩

/-- Both listings paste the same condition for a user who is no admin. -/
theorem ownCondition_name {A : Attributes} (hadmin : ctx.isAdmin = false)
    (hA : "user_id".toList ∈ A.names) (hne : name ≠ []) :
    ownCondition A ctx (VMController.inBrackets (VMController.nameClause (some name))) =
      some (conditionText name (toString ctx.user.id).toList) := by
  rw [inBrackets_nameClause hne]
  unfold ownCondition
  rw [hadmin, if_neg Bool.false_ne_true, if_pos (any_of_mem hA)]
  generalize (toString ctx.user.id).toList = userId
  have htext : ("(name == '".toList ++ (name ++ "')".toList)) ++ (" and user_id == ".toList ++
      (userId ++ [')'])) = "(name == '".toList ++ (name ++ ("') and user_id == ".toList ++
        (userId ++ [')']))) := by
    simp only [List.append_assoc]
    rfl
  exact congrArg (fun text => some ('(' :: text)) htext

theorem buildCondition_of_user {userId : Option ℤ} {name : Option Text}
    (hadmin : ctx.isAdmin = false) : (VMController.buildCondition users ctx name userId).1 =
      VMController.inBrackets (VMController.nameClause name) := by
  unfold VMController.buildCondition
  rw [hadmin]
  cases userId <;> rfl

theorem buildConditionListGroups_of_user {userId : Option ℤ} {userName : Option String}
    {name : Option Text} (hadmin : ctx.isAdmin = false) :
    VMController.buildConditionListGroups users ctx name userName userId =
      VMController.inBrackets (VMController.nameClause name) := by
  unfold VMController.buildConditionListGroups
  rw [hadmin]
  rfl

/-- Tabs stand for more than one space only before the end of them. -/
theorem expandTabs_append (h : '\t' ∉ t) : ∀ column,
    expandTabs column (s ++ t) = expandTabs column s ++ t := by
  induction s with
  | nil => exact fun column => expandTabs_of_not_mem h column
  | cons c s ih =>
    intro column
    rw [List.cons_append, expandTabs, expandTabs]
    split
    · rw [ih, List.append_assoc]
    · split <;> rw [ih, List.cons_append]

theorem not_mem_expandTabs : ∀ (s : Text) (column : ℕ), '\t' ∉ expandTabs column s
  | [], _ => List.not_mem_nil
  | c :: s, column => by
    have hcons (hc : c ≠ '\t') (column : ℕ) : '\t' ∉ c :: expandTabs column s := by
      rw [List.mem_cons, not_or]
      exact ⟨Ne.symm hc, not_mem_expandTabs s column⟩
    rw [expandTabs]
    split
    case isTrue =>
      rw [List.mem_append, not_or]
      exact ⟨fun h => absurd (List.eq_of_mem_replicate h) (by decide), not_mem_expandTabs s _⟩
    case isFalse hc => split <;> exact hcons hc _

theorem expandTabs_comparison :
    expandTabs 2 (comparison name) = "name == '".toList ++ (expandTabs 11 name ++ ['\'']) := by
  have hexpand : expandTabs 2 (comparison name) =
      "name == '".toList ++ expandTabs 11 (name ++ ['\'']) := rfl
  rw [hexpand, expandTabs_append (by decide)]

theorem expandTabs_conditionText {userId : Text} (h : '\t' ∉ userId) :
    expandTabs 0 (conditionText name userId) = '(' :: '(' :: (expandTabs 2 (comparison name) ++
      (") and user_id == ".toList ++ (userId ++ [')']))) := by
  have hrest : '\t' ∉ "') and user_id == ".toList ++ (userId ++ [')']) := by
    simp [h]
  have hexpand : expandTabs 0 (conditionText name userId) =
      '(' :: '(' :: ("name == '".toList ++ expandTabs 11 (name ++ ("') and user_id == ".toList ++
        (userId ++ [')'])))) := rfl
  have hclose : "') and user_id == ".toList = '\'' :: ") and user_id == ".toList := by decide
  rw [hexpand, expandTabs_append hrest, expandTabs_comparison, hclose]
  simp only [List.append_assoc, List.cons_append, List.nil_append]

end Texts

/-! ### The literal -/

section Literal
variable {name b u : Text}

/-- What follows the name in the condition. -/
def afterName (userId : Text) : Text := ") and user_id == ".toList ++ (userId ++ [')'])

/-- The literal is the name, if it ends at all and not inside of it. -/
theorem quoted_name (h : ¬ ClosesInside name) (hu : '\'' ∉ u)
    (hb : quoted '\'' (expandTabs 11 name ++ '\'' :: afterName u) = some b) :
    b = expandTabs 11 name ∧ Body '\'' b := by
  obtain ⟨r, heq, hbody, hr⟩ := body_of_quoted rfl hb
  refine ⟨?_, hbody⟩
  have hafter : '\'' ∉ afterName u := by
    unfold afterName
    rw [List.mem_append, List.mem_append, not_or, not_or]
    exact ⟨by decide, hu, by decide⟩
  obtain ⟨d, hd, hrest⟩ | ⟨d, hd, hrest⟩ := List.append_eq_append_iff.mp heq
  · -- The literal goes on after the name, where there is one quote only.
    cases d with
    | nil => rw [hd, List.append_nil]
    | cons x d =>
      obtain ⟨rfl, htail⟩ := List.cons.inj hrest
      refine absurd ?_ hafter
      rw [htail]
      exact List.mem_append_right d List.mem_cons_self
  · cases d with
    | nil => rw [hd, List.append_nil]
    | cons x d =>
      obtain ⟨rfl, htail⟩ := List.cons.inj hrest
      rw [htail] at hr
      cases d with
      | nil => exact absurd rfl hr
      | cons y d =>
        refine absurd ⟨b, y, d, hd, ?_, hbody⟩ h
        rintro rfl
        exact hr rfl

end Literal

/-! ### What the conditions say -/

section Says
variable {U : UnicodeData} {A : Attributes} {name : Text} {n : ℕ}

def userExpr (n : ℕ) : Expr Text :=
  .compare .eq (.identifier "user_id".toList) (.const (.int n))

def nameExpr (name : Text) : Expr Text :=
  .compare .eq (.identifier "name".toList) (.const (.str (String.ofList name)))

def digitsOf (n : ℕ) : Text := (toString n).toList

theorem digitsOf_eq (n : ℕ) : digitsOf n = Nat.toDigits 10 n := String.toList_ofList

theorem writes_user (hA : A.Plain "user_id".toList) (n : ℕ) :
    Writes (A.Written U) Spaced levels 1 (.node (.compare .eq)
      [.leaf (.identifier "user_id".toList), .leaf (.const (.int n))])
        ("user_id == ".toList ++ digitsOf n) := by
  have hnumber : A.Written U (.const (.int n)) (digitsOf n) := by
    rw [digitsOf_eq]
    have h : A.Written U (.const (.int (toInt U ([] ++ Nat.toDigits 10 n))))
        ([] ++ Nat.toDigits 10 n) := .integer (.inl rfl) (all_toDigits n) Nat.toDigits_ne_nil
    rwa [List.nil_append, toInt_toDigits] at h
  have hcolumn : A.Written U (.identifier "user_id".toList) "user_id".toList := .identifier hA
  have hlevel : levels[0]? = some ⟨.compare .eq, "==".toList, false⟩ := rfl
  exact Writes.pair hlevel rfl (.atom hcolumn) (.atom hnumber)

theorem writes_name (hA : A.Plain "name".toList) (hbody : Body '\'' name) :
    Writes (A.Written U) Spaced levels 1 (.node (.compare .eq)
      [.leaf (.identifier "name".toList), .leaf (.const (.str (String.ofList name)))])
        ("name == '".toList ++ (name ++ ['\''])) := by
  have hcolumn : A.Written U (.identifier "name".toList) "name".toList := .identifier hA
  have hstring : A.Written U (.const (.str (String.ofList name))) ('\'' :: name ++ ['\'']) :=
    .string rfl hbody
  have hlevel : levels[0]? = some ⟨.compare .eq, "==".toList, false⟩ := rfl
  exact Writes.pair hlevel rfl (.atom hcolumn) (.atom hstring)

theorem not_mem_digitsOf {c : Char} (h : c.isDigit = false) (n : ℕ) : c ∉ digitsOf n := by
  rw [digitsOf_eq]
  intro hmem
  rw [Nat.isDigit_of_mem_toDigits (by decide) (by decide) hmem] at h
  cases h

/-- Without a name only the user is asked for. -/
theorem denotes_user (hA : A.Plain "user_id".toList) (n : ℕ) :
    Denotes U A ("(user_id == ".toList ++ (digitsOf n ++ [')'])) (userExpr n) := by
  have htab : '\t' ∉ "(user_id == ".toList ++ (digitsOf n ++ [')']) := by
    rw [List.mem_append, List.mem_append, not_or, not_or]
    exact ⟨by decide, not_mem_digitsOf rfl n, by decide⟩
  have hbrackets := (writes_user (U := U) hA n).bracketed (by decide)
  refine ⟨_, [], _, [], ?_, rfl, rfl, ?_, hbrackets.mono (by decide) le_rfl⟩
  · rfl
  · rw [expandTabs_of_not_mem htab]
    generalize digitsOf n = u
    simp only [List.nil_append, List.append_nil, List.append_assoc]
    rfl

/-- If what is in the brackets is a filter of its own, the condition asks for it and the user. -/
theorem denotes_inside (huser : A.Plain "user_id".toList) {e : Expr Text}
    (h : Denotes U A (expandTabs 2 (comparison name)) e) (n : ℕ) :
    Denotes U A (conditionText name (digitsOf n)) (.and [e, userExpr n]) := by
  obtain ⟨tree, s, t, s', htree, hs, hs', htext, hwritten⟩ := h
  rw [expandTabs_of_not_mem (not_mem_expandTabs _ _)] at htext
  have hinner := Writes.brackets hs hwritten hs'
  have hlevel : levels[7]? = some ⟨.and, "and".toList, false⟩ := rfl
  have hand := Writes.pair hlevel rfl (hinner.mono (by decide) (by decide))
    ((writes_user (U := U) huser n).mono (by decide) (by decide))
  have hbrackets := hand.bracketed (by decide)
  refine ⟨_, [], _, [], ?_, rfl, rfl, ?_, hbrackets.mono (by decide) le_rfl⟩
  · show ((toExpr tree).bind _).map _ = _
    rw [htree]
    rfl
  · rw [expandTabs_conditionText (not_mem_digitsOf rfl n), htext]
    generalize digitsOf n = u
    have hclose : ") and user_id == ".toList =
        ')' :: ' ' :: ("and".toList ++ ' ' :: "user_id == ".toList) := by decide
    rw [hclose]
    simp only [List.nil_append, List.append_nil, List.append_assoc, List.cons_append]

/-- A literal that is the name is compared with it. -/
theorem denotes_comparison (hname : A.Plain "name".toList)
    (hbody : Body '\'' (expandTabs 11 name)) :
    Denotes U A (expandTabs 2 (comparison name)) (nameExpr (expandTabs 11 name)) := by
  refine ⟨_, [], _, [], ?_, rfl, rfl, ?_,
    (writes_name (U := U) hname hbody).mono (by decide) le_rfl⟩
  · rfl
  · rw [expandTabs_of_not_mem (not_mem_expandTabs _ _), expandTabs_comparison, List.append_nil,
      List.nil_append]

end Says

end Benji.Services
