import Benji.Lib.Table
import Mathlib.Data.Int.Notation
import Mathlib.Data.Nat.Notation

/-! `_QueryBuilder`: what is made of a parsed filter expression, and which rows the query finds. -/
namespace Benji
open Lib

namespace QueryBuilder

inductive Const where
  | int (n : ℤ)
  | str (s : String)
  | bool (b : Bool)

/-- The operators of comparisons. -/
inductive Op where
  | eq
  | ne
  | le
  | ge
  | lt
  | gt
  deriving DecidableEq

/-- The method that Python tries on the right operand. -/
def Op.reflected : Op → Op
  | eq => eq
  | ne => ne
  | le => ge
  | ge => le
  | lt => gt
  | gt => lt

def Op.isOrder : Op → Bool
  | eq | ne => false
  | le | ge | lt | gt => true

/-- `IdentifierToken`, `LabelToken` and the literals. -/
inductive Atom (ν : Type) where
  | identifier (name : ν)
  | label (name : String)
  | const (c : Const)

/-- What the grammar yields, up to comparisons of comparisons. -/
inductive Expr (ν : Type) where
  | atom (a : Atom ν)
  | compare (op : Op) (l r : Atom ν)
  | not (e : Expr ν)
  | and (es : List (Expr ν))
  | or (es : List (Expr ν))

/-- `sqlalchemy.sql.ColumnElement`. -/
inductive Clause (ν : Type) where
  | compare (op : Op) (name : ν) (c : Const)
  | columns (op : Op) (l r : ν)
  /-- The id is among those of the labels of the name whose values pass the test. -/
  | inLabels (name : String) (test : Option (Op × String))
  | literal (b : Bool)
  | not (c : Clause ν)
  | and (cs : List (Clause ν))
  | or (cs : List (Clause ν))

inductive BuildError where
  | attributeError
  | typeError
  /-- `sqlalchemy.exc.ArgumentError`. -/
  | argumentError
  deriving DecidableEq

/-- Comparing two literals yields a `bool`, everything else a clause. -/
inductive Built (ν : Type) where
  | clause (c : Clause ν)
  | bool (b : Bool)

/-- As an operand of `and_`, `or_` or `not_`. -/
def Built.toClause {ν : Type} : Built ν → Clause ν
  | clause c => c
  | bool b => .literal b

/-- `True` and `False` are integers. -/
def Const.toInt? : Const → Option ℤ
  | int n => some n
  | bool b => some (if b then 1 else 0)
  | str _ => none

/-- `str(other)`. -/
def Const.text : Const → String
  | int n => toString n
  | str s => s
  | bool true => "True"
  | bool false => "False"

/-- The result of an operator where the type has a total order. -/
def Op.holds {α : Type} [DecidableEq α] [LT α] [DecidableLT α] (op : Op) (x y : α) : Bool :=
  match op with
  | eq => x = y
  | ne => x ≠ y
  | le => !decide (y < x)
  | ge => !decide (x < y)
  | lt => x < y
  | gt => y < x

/-- The operator on two literals. -/
def compareConsts (op : Op) (c d : Const) : Except BuildError Bool :=
  match c.toInt?, d.toInt?, c, d with
  | some m, some n, _, _ => .ok (op.holds m n)
  | none, none, .str s, .str t => .ok (op.holds s t)
  | _, _, _, _ => match op with
    | .eq => .ok false
    | .ne => .ok true
    | _ => .error .typeError

section
variable {ν : Type}

/-- `IdentifierToken.op`; a column can only be equal to a `bool`, or not. -/
def identifierOp (op : Op) (name : ν) : Atom ν → Except BuildError (Built ν)
  | .identifier other => .ok (.clause (.columns op name other))
  | .label _ => .error .typeError
  | .const (.bool b) =>
    if op.isOrder then .error .argumentError else .ok (.clause (.compare op name (.bool b)))
  | .const c => .ok (.clause (.compare op name c))

/-- `LabelToken.op`. -/
def labelOp (op : Op) (name : String) : Atom ν → Except BuildError (Built ν)
  | .const c => .ok (.clause (.inLabels name (some (op, c.text))))
  | _ => .error .typeError

/-- `BinaryOp.build`: the left operand is asked first, then the right one for the reflected
operator. Labels have no order. -/
def compareAtoms (op : Op) : Atom ν → Atom ν → Except BuildError (Built ν)
  | .identifier name, r => identifierOp op name r
  | .label name, .identifier other =>
    if op.isOrder then identifierOp op.reflected other (.label name)
    else labelOp op name (.identifier other)
  | .label name, r => if op.isOrder then .error .typeError else labelOp op name r
  | .const c, .identifier name => identifierOp op.reflected name (.const c)
  | .const c, .label name =>
    if op.isOrder then .error .typeError else labelOp op.reflected name (.const c)
  | .const c, .const d => (compareConsts op c d).map .bool

mutual

def Expr.build : Expr ν → Except BuildError (Built ν)
  | .atom (.identifier name) => .ok (.clause (.compare .ne name (.str "")))
  | .atom (.label name) => .ok (.clause (.inLabels name none))
  | .atom (.const _) => .error .attributeError
  | .compare op l r => compareAtoms op l r
  | .not e => do return .clause (.not (← e.build).toClause)
  | .and es => do return .clause (.and (← buildAll es))
  | .or es => do return .clause (.or (← buildAll es))

def buildAll : List (Expr ν) → Except BuildError (List (Clause ν))
  | [] => .ok []
  | e :: es => do
    let c ← e.build
    return c.toClause :: (← buildAll es)

end

def Expr.isConst : Expr ν → Bool
  | .atom (.const _) => true
  | _ => false

mutual

/-- No operand of a `MultiaryOp` is a literal. -/
def Expr.parses : Expr ν → Bool
  | .atom _ => true
  | .compare _ _ _ => true
  | .not e => e.parses
  | .and es => allParse es
  | .or es => allParse es

def allParse : List (Expr ν) → Bool
  | [] => true
  | e :: es => !e.isConst && e.parses && allParse es

end

inductive FilterError where
  | usageError (message : String)
  | argumentError
  /-- `sqlalchemy.exc.StatementError`: a column cannot convert what it is compared with. -/
  | statementError

/-- The condition that `build` and `build_s` add to the query. -/
def filterResult (parse : String → Option (Expr ν)) (text : String) :
    Except FilterError (Clause ν) :=
  match parse text with
  | none => .error (.usageError s!"Invalid filter expression {text}.")
  | some e =>
    if e.parses = false then .error (.usageError s!"Invalid filter expression {text}.")
    else match e.build with
      | .error .argumentError => .error .argumentError
      | .error _ => .error (.usageError s!"Invalid filter expression {text} (2).")
      | .ok (.bool _) => .error (.usageError s!"Invalid filter expression {text} (3).")
      | .ok (.clause c) => .ok c

end

/-! ### Rows -/

structure Label where
  versionId : ℕ
  name : String
  value : String

/-- The rows with what their columns hold, the literals as a column converts them, if it can, and
the comparisons of the database, which may not know. -/
structure Rows (ν ρ V : Type) where
  rows : List ρ
  id : ρ → ℕ
  column : ν → ρ → V
  bind : ν → Const → Option V
  test : Op → V → V → Option Bool
  labels : Table fun l : Label => (l.versionId, l.name)

def kleeneAnd (values : List (Option Bool)) : Option Bool :=
  if values.contains (some false) then some false
  else if values.contains none then none else some true

def kleeneOr (values : List (Option Bool)) : Option Bool :=
  if values.contains (some true) then some true
  else if values.contains none then none else some false

section
variable {ν ρ V : Type} (D : Rows ν ρ V)

mutual

/-- The value of a condition for a row. -/
def Clause.eval (row : ρ) : Clause ν → Option Bool
  | .compare op name c => (D.bind name c).bind fun v => D.test op (D.column name row) v
  | .columns op l r => D.test op (D.column l row) (D.column r row)
  | .inLabels name test => some ((D.labels.rows.filter fun l => l.name = name &&
      test.all fun t => t.1.holds l.value t.2).any fun l => l.versionId = D.id row)
  | .literal b => some b
  | .not c => (c.eval row).map (!·)
  | .and cs => kleeneAnd (evalAll row cs)
  | .or cs => kleeneOr (evalAll row cs)

def evalAll (row : ρ) : List (Clause ν) → List (Option Bool)
  | [] => []
  | c :: cs => c.eval row :: evalAll row cs

end

mutual

/-- All literals can be converted when the statement is executed. -/
def Clause.binds : Clause ν → Bool
  | .compare _ name c => (D.bind name c).isSome
  | .columns _ _ _ | .inLabels _ _ | .literal _ => true
  | .not c => c.binds
  | .and cs => allBind cs
  | .or cs => allBind cs

def allBind : List (Clause ν) → Bool
  | [] => true
  | c :: cs => c.binds && allBind cs

end

/-- `find_with_filter`, in some order. -/
def findWithFilter (parse : String → Option (Expr ν)) (filterExpression : Option String) :
    Except FilterError (List ρ) :=
  match filterExpression with
  | none => .ok D.rows
  | some text =>
    if text = "" then .ok D.rows
    else do
      let c ← filterResult parse text
      if c.binds D then return D.rows.filter fun row => c.eval D row = some true
      else throw .statementError

end

end QueryBuilder
end Benji
