import Benji.Database.Filter

/-! The filter finds the rows for which the expression holds as it is written. -/
namespace Benji
open Lib

namespace QueryBuilder

def Const.isBool : Const → Bool
  | bool _ => true
  | _ => false

/-- Literals that have an order among themselves. -/
def Const.ordered : Const → Const → Bool
  | str _, str _ => true
  | str _, _ => false
  | _, str _ => false
  | _, _ => true

section
variable {ν ρ V : Type}

/-- What may stand on the two sides of an operator. -/
def comparable (op : Op) : Atom ν → Atom ν → Bool
  | .identifier _, .identifier _ => true
  | .identifier _, .const c | .const c, .identifier _ => !(op.isOrder && c.isBool)
  | .label _, .const _ | .const _, .label _ => !op.isOrder
  | .const c, .const d => !op.isOrder || c.ordered d
  | _, _ => false

mutual

def Expr.sound : Expr ν → Bool
  | .atom (.const _) => false
  | .atom _ => true
  | .compare op l r => comparable op l r
  | .not e => e.sound
  | .and es => allSound es
  | .or es => allSound es

def allSound : List (Expr ν) → Bool
  | [] => true
  | e :: es => e.sound && allSound es

end

mutual

/-- Some column is put in order with a `bool`. -/
def Expr.ordersBool : Expr ν → Bool
  | .compare op (.identifier _) (.const c) | .compare op (.const c) (.identifier _) =>
    op.isOrder && c.isBool
  | .compare _ _ _ | .atom _ => false
  | .not e => e.ordersBool
  | .and es => anyOrdersBool es
  | .or es => anyOrdersBool es

def anyOrdersBool : List (Expr ν) → Bool
  | [] => false
  | e :: es => e.ordersBool || anyOrdersBool es

end

/-- A comparison of two literals. -/
def Expr.isConstants : Expr ν → Bool
  | .compare _ (.const _) (.const _) => true
  | _ => false

variable (D : Rows ν ρ V)

/-- What a version is labelled with. -/
def Rows.labelOf (row : ρ) (name : String) : Option String :=
  (D.labels.find? (D.id row, name)).map Label.value

/-- A comparison as it is written, from the left to the right. -/
def Rows.compares (row : ρ) (op : Op) : Atom ν → Atom ν → Option Bool
  | .identifier a, .identifier b => D.test op (D.column a row) (D.column b row)
  | .identifier a, .const c => (D.bind a c).bind fun v => D.test op (D.column a row) v
  | .const c, .identifier a => (D.bind a c).bind fun v => D.test op v (D.column a row)
  | .label name, .const c => some ((D.labelOf row name).any fun v => op.holds v c.text)
  | .const c, .label name => some ((D.labelOf row name).any fun v => op.holds c.text v)
  | .const c, .const d => (compareConsts op c d).toOption
  | _, _ => none

mutual

/-- What an expression says about a version. -/
def Expr.meaning (row : ρ) : Expr ν → Option Bool
  | .atom (.identifier name) =>
    (D.bind name (.str "")).bind fun v => D.test .ne (D.column name row) v
  | .atom (.label name) => some (D.labelOf row name).isSome
  | .atom (.const _) => none
  | .compare op l r => D.compares row op l r
  | .not e => (e.meaning row).map (!·)
  | .and es => kleeneAnd (meanings row es)
  | .or es => kleeneOr (meanings row es)

def meanings (row : ρ) : List (Expr ν) → List (Option Bool)
  | [] => []
  | e :: es => e.meaning row :: meanings row es

end

/-- A column can convert what it is compared with. -/
def Rows.converts : Atom ν → Atom ν → Bool
  | .identifier a, .const c | .const c, .identifier a => (D.bind a c).isSome
  | _, _ => true

mutual

def Expr.converts : Expr ν → Bool
  | .atom (.identifier name) => (D.bind name (.str "")).isSome
  | .atom _ => true
  | .compare _ l r => D.converts l r
  | .not e => e.converts
  | .and es => allConvert es
  | .or es => allConvert es

def allConvert : List (Expr ν) → Bool
  | [] => true
  | e :: es => e.converts && allConvert es

end

variable {D} {row : ρ} {op : Op} {name : String} {c d : Const}

/-- The query for the label finds the version exactly if it has it with such a value. -/
theorem eval_inLabels (test : Option (Op × String)) :
    (Clause.inLabels name test : Clause ν).eval D row = some ((D.labelOf row name).any fun v =>
      test.all fun t => t.1.holds v t.2) := by
  rw [Clause.eval, Option.some.injEq, Bool.eq_iff_iff, List.any_eq_true, Rows.labelOf]
  constructor
  · rintro ⟨l, hl, hid⟩
    obtain ⟨hmem, htest⟩ := List.mem_filter.mp hl
    simp only [Bool.and_eq_true, decide_eq_true_eq] at htest hid
    obtain ⟨hname, htest⟩ := htest
    have hfind : D.labels.find? (D.id row, name) = some l :=
      Table.find?_eq_some.mpr ⟨hmem, by rw [← hid, ← hname]⟩
    rw [hfind]
    exact htest
  · intro h
    cases hfind : D.labels.find? (D.id row, name) with
    | none =>
      rw [hfind] at h
      cases h
    | some l =>
      rw [hfind] at h
      obtain ⟨hmem, hkey⟩ := Table.find?_eq_some.mp hfind
      obtain ⟨hid, hname⟩ := Prod.mk.inj hkey
      refine ⟨l, List.mem_filter.mpr ⟨hmem, ?_⟩, decide_eq_true hid⟩
      rw [Bool.and_eq_true, decide_eq_true_eq]
      exact ⟨hname, h⟩

/-- A reflected comparison means what was written, if that holds of the operators. -/
def Reflects (test : Op → V → V → Option Bool) : Prop :=
  ∀ op x y, test op x y = test op.reflected y x

/-- What `build` makes of an expression: a result with its meaning, or an exception. -/
structure Builds (D : Rows ν ρ V) (sound : Bool) (built : Except BuildError (Built ν))
    (converts : Bool) (value : ρ → Option Bool) : Prop where
  ok : sound = true → ∃ b, built = .ok b ∧ b.toClause.binds D = converts ∧
    ∀ row, b.toClause.eval D row = value row
  error : sound = false → ∃ e, built = .error e

theorem Op.isOrder_reflected (op : Op) : op.reflected.isOrder = op.isOrder := by
  cases op <;> rfl

theorem Op.holds_reflected {α : Type} [DecidableEq α] [LT α] [DecidableLT α] (op : Op) (x y : α) :
    op.reflected.holds x y = op.holds y x := by
  cases op with
  | eq => simp only [reflected, holds, eq_comm]
  | ne => simp only [reflected, holds, ne_comm]
  | le => rfl
  | ge => rfl
  | lt => rfl
  | gt => rfl

theorem compareConsts_ok (h : (!op.isOrder || c.ordered d) = true) :
    ∃ b, compareConsts op c d = .ok b := by
  cases c <;> cases d <;> cases op <;> first | exact ⟨_, rfl⟩ | cases h

theorem compareConsts_error (h : (!op.isOrder || c.ordered d) = false) :
    ∃ e, compareConsts op c d = .error e := by
  cases c <;> cases d <;> cases op <;> first | exact ⟨_, rfl⟩ | cases h

theorem builds_identifier (op : Op) (a : ν) (c : Const) :
    Builds D (!(op.isOrder && c.isBool)) (identifierOp op a (.const c)) (D.bind a c).isSome
      fun row => (D.bind a c).bind fun v => D.test op (D.column a row) v := by
  cases c with
  | int n =>
    have hsound : (!(op.isOrder && (Const.int n).isBool)) = true := by simp [Const.isBool]
    exact ⟨fun _ => ⟨_, rfl, rfl, fun _ => rfl⟩, fun h => absurd (hsound.symm.trans h) nofun⟩
  | str t =>
    have hsound : (!(op.isOrder && (Const.str t).isBool)) = true := by simp [Const.isBool]
    exact ⟨fun _ => ⟨_, rfl, rfl, fun _ => rfl⟩, fun h => absurd (hsound.symm.trans h) nofun⟩
  | bool b =>
    rw [Const.isBool, Bool.and_true, identifierOp]
    cases op.isOrder with
    | true => exact ⟨nofun, fun _ => ⟨_, rfl⟩⟩
    | false => exact ⟨fun _ => ⟨_, rfl, rfl, fun _ => rfl⟩, nofun⟩

/-- Labels have no order, so the operator is not asked for in vain only if it is none. -/
theorem builds_label {value : ρ → Option Bool} (op op' : Op) (name : String) (c : Const)
    (h : ∀ row, some ((D.labelOf row name).any fun v => op'.holds v c.text) = value row) :
    Builds D (!op.isOrder) (if op.isOrder then .error .typeError else labelOp op' name (.const c))
      true value := by
  cases op.isOrder with
  | true => exact ⟨nofun, fun _ => ⟨_, rfl⟩⟩
  | false =>
    refine ⟨fun _ => ⟨_, rfl, rfl, fun row => ?_⟩, nofun⟩
    rw [← h row]
    exact eval_inLabels (some (op', c.text))

theorem builds_compare (hflip : Reflects D.test) (op : Op) (l r : Atom ν) :
    Builds D (comparable op l r) (compareAtoms op l r) (D.converts l r)
      fun row => D.compares row op l r := by
  cases l with
  | identifier a =>
    cases r with
    | identifier b => exact ⟨fun _ => ⟨_, rfl, rfl, fun _ => rfl⟩, nofun⟩
    | label n => exact ⟨nofun, fun _ => ⟨_, rfl⟩⟩
    | const c => exact builds_identifier op a c
  | label n =>
    cases r with
    | identifier b =>
      refine ⟨nofun, fun _ => ⟨.typeError, ?_⟩⟩
      rw [compareAtoms]
      split <;> rfl
    | label m =>
      refine ⟨nofun, fun _ => ⟨.typeError, ?_⟩⟩
      simp only [compareAtoms, labelOp, ite_self]
    | const c => exact builds_label op op n c fun _ => rfl
  | const c =>
    cases r with
    | identifier a =>
      have h := builds_identifier (D := D) op.reflected a c
      rw [Op.isOrder_reflected] at h
      refine ⟨fun hok => ?_, h.error⟩
      obtain ⟨b, hb, hbinds, heval⟩ := h.ok hok
      refine ⟨b, hb, hbinds, fun row => ?_⟩
      rw [heval row]
      exact congrArg _ (funext fun v => (hflip op v (D.column a row)).symm)
    | label m =>
      refine builds_label op op.reflected m c fun row => ?_
      simp only [Op.holds_reflected]
      rfl
    | const d =>
      constructor
      · intro h
        obtain ⟨b, hb⟩ := compareConsts_ok h
        refine ⟨.bool b, ?_, rfl, fun row => ?_⟩
        · rw [compareAtoms, hb]
          rfl
        · rw [Rows.compares, hb]
          rfl
      · intro h
        obtain ⟨e, he⟩ := compareConsts_error h
        exact ⟨e, by rw [compareAtoms, he]; rfl⟩

mutual

theorem builds_expr (hflip : Reflects D.test) :
    ∀ e : Expr ν, Builds D e.sound e.build (e.converts D) fun row => e.meaning D row
  | .atom (.identifier _) => ⟨fun _ => ⟨_, rfl, rfl, fun _ => rfl⟩, nofun⟩
  | .atom (.label name) => ⟨fun _ => ⟨_, rfl, rfl, fun row => by
      rw [Built.toClause, eval_inLabels, Expr.meaning]
      simp⟩, nofun⟩
  | .atom (.const _) => ⟨nofun, fun _ => ⟨_, rfl⟩⟩
  | .compare op l r => builds_compare hflip op l r
  | .not e => by
    obtain ⟨hok, herror⟩ := builds_expr hflip e
    constructor
    · intro h
      obtain ⟨b, hb, hbinds, heval⟩ := hok h
      refine ⟨.clause (.not b.toClause), by rw [Expr.build, hb]; rfl, hbinds, fun row => ?_⟩
      rw [Built.toClause, Clause.eval, heval row]
      rfl
    · intro h
      obtain ⟨x, hx⟩ := herror h
      exact ⟨x, by rw [Expr.build, hx]; rfl⟩
  | .and es => by
    obtain ⟨hok, herror⟩ := builds_all hflip es
    constructor
    · intro h
      obtain ⟨cs, hcs, hbinds, heval⟩ := hok h
      refine ⟨.clause (.and cs), by rw [Expr.build, hcs]; rfl, hbinds, fun row => ?_⟩
      rw [Built.toClause, Clause.eval, heval row]
      rfl
    · intro h
      obtain ⟨x, hx⟩ := herror h
      exact ⟨x, by rw [Expr.build, hx]; rfl⟩
  | .or es => by
    obtain ⟨hok, herror⟩ := builds_all hflip es
    constructor
    · intro h
      obtain ⟨cs, hcs, hbinds, heval⟩ := hok h
      refine ⟨.clause (.or cs), by rw [Expr.build, hcs]; rfl, hbinds, fun row => ?_⟩
      rw [Built.toClause, Clause.eval, heval row]
      rfl
    · intro h
      obtain ⟨x, hx⟩ := herror h
      exact ⟨x, by rw [Expr.build, hx]; rfl⟩

theorem builds_all (hflip : Reflects D.test) : ∀ es : List (Expr ν),
    (allSound es = true → ∃ cs, buildAll es = .ok cs ∧ allBind D cs = allConvert D es ∧
      ∀ row, evalAll D row cs = meanings D row es) ∧
    (allSound es = false → ∃ e, buildAll es = .error e)
  | [] => ⟨fun _ => ⟨[], rfl, rfl, fun _ => rfl⟩, nofun⟩
  | e :: es => by
    obtain ⟨hfirst, hfirsterror⟩ := builds_expr hflip e
    obtain ⟨hok, herror⟩ := builds_all hflip es
    constructor
    · intro h
      obtain ⟨he, hes⟩ := Bool.and_eq_true_iff.mp h
      obtain ⟨b, hb, hbinds, heval⟩ := hfirst he
      obtain ⟨cs, hcs, hbindall, hevals⟩ := hok hes
      refine ⟨b.toClause :: cs, by rw [buildAll, hb, hcs]; rfl, ?_, fun row => ?_⟩
      · rw [allBind, hbinds, hbindall]
        rfl
      · rw [evalAll, heval row, hevals row]
        rfl
    · intro h
      cases he : e.sound with
      | false =>
        obtain ⟨x, hx⟩ := hfirsterror he
        exact ⟨x, by rw [buildAll, hx]; rfl⟩
      | true =>
        obtain ⟨b, hb, -⟩ := hfirst he
        rw [allSound, he, Bool.true_and] at h
        obtain ⟨x, hx⟩ := herror h
        exact ⟨x, by rw [buildAll, hb, hx]; rfl⟩

end

mutual

theorem parses_of_sound : ∀ e : Expr ν, e.sound = true → e.parses = true
  | .atom _, _ => rfl
  | .compare _ _ _, _ => rfl
  | .not e, h => parses_of_sound e h
  | .and es, h => allParse_of_sound es h
  | .or es, h => allParse_of_sound es h

theorem allParse_of_sound : ∀ es : List (Expr ν), allSound es = true → allParse es = true
  | [], _ => rfl
  | e :: es, h => by
    obtain ⟨he, hes⟩ := Bool.and_eq_true_iff.mp h
    have hconst : e.isConst = false := by
      cases e with
      | atom a =>
        cases a with
        | const c => cases he
        | identifier a => rfl
        | label n => rfl
      | compare op l r => rfl
      | not e => rfl
      | and es => rfl
      | or es => rfl
    rw [allParse, hconst, parses_of_sound e he, allParse_of_sound es hes]
    rfl

end

theorem identifierOp_ne_bool {a : ν} {r : Atom ν} {b : Bool} :
    identifierOp op a r ≠ .ok (.bool b) := by
  intro h
  unfold identifierOp at h
  split at h
  · cases h
  · cases h
  · split at h <;> cases h
  · cases h

theorem labelOp_ne_bool {r : Atom ν} {b : Bool} : labelOp op name r ≠ .ok (.bool b) := by
  intro h
  unfold labelOp at h
  split at h <;> cases h

/-- Only the comparison of two literals is computed on the spot. -/
theorem isConstants_of_build {e : Expr ν} {b : Bool} (h : e.build = .ok (.bool b)) :
    e.isConstants = true := by
  have hclause {α : Type} {x : Except BuildError α} {f : α → Clause ν} :
      (do return .clause (f (← x)) : Except BuildError (Built ν)) ≠ .ok (.bool b) := by
    intro hx
    cases x with
    | error e => cases hx
    | ok c => cases hx
  cases e with
  | atom a =>
    cases a with
    | identifier a => cases h
    | label n => cases h
    | const c => cases h
  | compare op l r =>
    rw [Expr.build] at h
    unfold compareAtoms at h
    split at h
    · exact absurd h identifierOp_ne_bool
    · split at h
      · exact absurd h identifierOp_ne_bool
      · exact absurd h labelOp_ne_bool
    · split at h
      · cases h
      · exact absurd h labelOp_ne_bool
    · exact absurd h identifierOp_ne_bool
    · split at h
      · cases h
      · exact absurd h labelOp_ne_bool
    · rfl
  | not e =>
    rw [Expr.build] at h
    exact absurd h hclause
  | and es =>
    rw [Expr.build] at h
    exact absurd h hclause
  | or es =>
    rw [Expr.build] at h
    exact absurd h hclause

theorem build_isConstants {e : Expr ν} {x : Built ν} (hconst : e.isConstants = true)
    (h : e.build = .ok x) : ∃ b, x = .bool b := by
  unfold Expr.isConstants at hconst
  split at hconst
  · rename_i op c d
    rw [Expr.build, compareAtoms] at h
    cases hb : compareConsts op c d with
    | error e =>
      rw [hb] at h
      cases h
    | ok b =>
      rw [hb] at h
      cases h
      exact ⟨b, rfl⟩
  · cases hconst

theorem identifierOp_ne_argumentError {a : ν} {r : Atom ν}
    (h : ∀ c, r = .const c → (op.isOrder && c.isBool) = false) :
    identifierOp op a r ≠ .error .argumentError := by
  intro hraise
  unfold identifierOp at hraise
  split at hraise
  · cases hraise
  · cases hraise
  · rename_i b
    have horder := h (.bool b) rfl
    rw [Const.isBool, Bool.and_true] at horder
    rw [if_neg (by rw [horder]; nofun)] at hraise
    cases hraise
  · cases hraise

theorem labelOp_ne_argumentError {r : Atom ν} : labelOp op name r ≠ .error .argumentError := by
  intro h
  unfold labelOp at h
  split at h <;> cases h

theorem compareAtoms_ne_argumentError {l r : Atom ν}
    (h : (Expr.compare op l r).ordersBool = false) :
    compareAtoms op l r ≠ .error .argumentError := by
  intro hraise
  unfold compareAtoms at hraise
  split at hraise
  · refine absurd hraise (identifierOp_ne_argumentError fun c hc => ?_)
    rw [hc] at h
    exact h
  · split at hraise
    · exact absurd hraise (identifierOp_ne_argumentError nofun)
    · exact absurd hraise labelOp_ne_argumentError
  · split at hraise
    · cases hraise
    · exact absurd hraise labelOp_ne_argumentError
  · refine absurd hraise (identifierOp_ne_argumentError fun c hc => ?_)
    obtain rfl := Atom.const.inj hc
    rw [Op.isOrder_reflected]
    exact h
  · split at hraise
    · cases hraise
    · exact absurd hraise labelOp_ne_argumentError
  · rename_i c d
    cases hconsts : compareConsts op c d with
    | ok b =>
      rw [hconsts] at hraise
      cases hraise
    | error x =>
      rw [hconsts] at hraise
      cases hraise
      unfold compareConsts at hconsts
      split at hconsts
      · cases hconsts
      · cases hconsts
      · split at hconsts <;> cases hconsts

mutual

theorem build_ne_argumentError : ∀ e : Expr ν, e.ordersBool = false →
    e.build ≠ .error .argumentError
  | .atom (.identifier _), _ => nofun
  | .atom (.label _), _ => nofun
  | .atom (.const _), _ => nofun
  | .compare _ _ _, h => compareAtoms_ne_argumentError h
  | .not e, h => by
    intro hraise
    have ih := build_ne_argumentError e h
    rw [Expr.build] at hraise
    cases he : e.build with
    | ok b =>
      rw [he] at hraise
      cases hraise
    | error x =>
      rw [he] at hraise ih
      cases hraise
      exact ih rfl
  | .and es, h => by
    intro hraise
    have ih := buildAll_ne_argumentError es h
    rw [Expr.build] at hraise
    cases he : buildAll es with
    | ok b =>
      rw [he] at hraise
      cases hraise
    | error x =>
      rw [he] at hraise ih
      cases hraise
      exact ih rfl
  | .or es, h => by
    intro hraise
    have ih := buildAll_ne_argumentError es h
    rw [Expr.build] at hraise
    cases he : buildAll es with
    | ok b =>
      rw [he] at hraise
      cases hraise
    | error x =>
      rw [he] at hraise ih
      cases hraise
      exact ih rfl

theorem buildAll_ne_argumentError : ∀ es : List (Expr ν), anyOrdersBool es = false →
    buildAll es ≠ .error .argumentError
  | [], _ => nofun
  | e :: es, h => by
    intro hraise
    obtain ⟨hfirst, hrest⟩ := Bool.or_eq_false_iff.mp h
    have ihe := build_ne_argumentError e hfirst
    have ih := buildAll_ne_argumentError es hrest
    rw [buildAll] at hraise
    cases he : e.build with
    | error x =>
      rw [he] at hraise ihe
      cases hraise
      exact ihe rfl
    | ok b =>
      rw [he] at hraise
      cases hes : buildAll es with
      | error x =>
        rw [hes] at hraise ih
        cases hraise
        exact ih rfl
      | ok cs =>
        rw [hes] at hraise
        cases hraise

end

section Found
variable {parse : String → Option (Expr ν)} {text : String} {e : Expr ν}

/-- The condition of an expression whose comparisons make sense is true where it is. -/
theorem filterResult_ok (hflip : Reflects D.test) (hparse : parse text = some e)
    (hsound : e.sound = true) (hconst : e.isConstants = false) :
    ∃ c, filterResult parse text = .ok c ∧ c.binds D = e.converts D ∧
      ∀ row, c.eval D row = e.meaning D row := by
  obtain ⟨b, hb, hbinds, heval⟩ := (builds_expr hflip e).ok hsound
  cases b with
  | bool x =>
    rw [isConstants_of_build hb] at hconst
    cases hconst
  | clause c =>
    have hparses : ¬ e.parses = false := by
      rw [parses_of_sound e hsound]
      nofun
    refine ⟨c, ?_, hbinds, heval⟩
    rw [filterResult, hparse]
    dsimp only
    rw [if_neg hparses, hb]

theorem filterResult_usageError {x : FilterError} (hparse : parse text = some e)
    (horder : e.ordersBool = false) (h : filterResult parse text = .error x) :
    ∃ message, x = .usageError message := by
  rw [filterResult, hparse] at h
  dsimp only at h
  split at h
  · cases h
    exact ⟨_, rfl⟩
  · split at h
    · rename_i hraise
      exact absurd hraise (build_ne_argumentError e horder)
    · cases h
      exact ⟨_, rfl⟩
    · cases h
      exact ⟨_, rfl⟩
    · cases h

/-- What makes no sense, or is a comparison of literals, is no condition. -/
theorem filterResult_error (hflip : Reflects D.test) (hparse : parse text = some e)
    (hbad : e.sound = false ∨ e.isConstants = true) :
    ∃ x, filterResult parse text = .error x := by
  rw [filterResult, hparse]
  dsimp only
  split
  · exact ⟨_, rfl⟩
  · cases hb : e.build with
    | error x => cases x <;> exact ⟨_, rfl⟩
    | ok b =>
      obtain hbad | hbad := hbad
      · obtain ⟨x, hx⟩ := (builds_expr hflip e).error hbad
        rw [hx] at hb
        cases hb
      · obtain ⟨x, rfl⟩ := build_isConstants hbad hb
        exact ⟨_, rfl⟩

/-- A filter finds the versions for which it holds as it is written, if its comparisons make sense
and its columns can convert what they are compared with. -/
theorem findWithFilter_ok (hflip : Reflects D.test) (htext : text ≠ "")
    (hparse : parse text = some e) (hsound : e.sound = true) (hconst : e.isConstants = false)
    (hconverts : e.converts D = true) : findWithFilter D parse (some text) =
      .ok (D.rows.filter fun row => e.meaning D row = some true) := by
  obtain ⟨c, hc, hbinds, heval⟩ := filterResult_ok hflip hparse hsound hconst
  have hrows : (fun row => decide (c.eval D row = some true)) = fun row =>
      decide (e.meaning D row = some true) := by
    funext row
    rw [heval row]
  rw [findWithFilter, if_neg htext, hc, ← hrows]
  show (if c.binds D = true then _ else _) = _
  rw [hbinds, if_pos hconverts]
  rfl

/-- Otherwise it is rejected with a `UsageError`, unless it puts a column in order with a
`bool`. -/
theorem findWithFilter_usageError (hflip : Reflects D.test) (htext : text ≠ "")
    (hparse : parse text = some e) (hbad : e.sound = false ∨ e.isConstants = true)
    (horder : e.ordersBool = false) :
    ∃ message, findWithFilter D parse (some text) = .error (.usageError message) := by
  obtain ⟨x, hx⟩ := filterResult_error hflip hparse hbad
  obtain ⟨message, rfl⟩ := filterResult_usageError hparse horder hx
  rw [findWithFilter, if_neg htext, hx]
  exact ⟨message, rfl⟩

end Found

end

/-! ### Conditions without labels -/

section LabelFree
variable {ν : Type}

def Atom.labelFree : Atom ν → Bool
  | .label _ => false
  | _ => true

mutual

/-- No labels are asked for. -/
def Expr.labelFree : Expr ν → Bool
  | .atom a => a.labelFree
  | .compare _ l r => l.labelFree && r.labelFree
  | .not e => e.labelFree
  | .and es => allLabelFree es
  | .or es => allLabelFree es

def allLabelFree : List (Expr ν) → Bool
  | [] => true
  | e :: es => e.labelFree && allLabelFree es

end

mutual

def Clause.labelFree : Clause ν → Bool
  | .compare _ _ _ | .columns _ _ _ | .literal _ => true
  | .inLabels _ _ => false
  | .not c => c.labelFree
  | .and cs => allClausesLabelFree cs
  | .or cs => allClausesLabelFree cs

def allClausesLabelFree : List (Clause ν) → Bool
  | [] => true
  | c :: cs => c.labelFree && allClausesLabelFree cs

end

section Build
variable {op : Op} {name : ν} {a l r : Atom ν} {b : Built ν}

theorem labelFree_identifierOp (h : identifierOp op name a = .ok b) :
    b.toClause.labelFree = true := by
  unfold identifierOp at h
  split at h
  · cases h
    rfl
  · cases h
  · split at h
    · cases h
    · cases h
      rfl
  · cases h
    rfl

theorem labelFree_compareAtoms (hl : l.labelFree = true) (hr : r.labelFree = true)
    (h : compareAtoms op l r = .ok b) : b.toClause.labelFree = true := by
  cases l with
  | identifier name => exact labelFree_identifierOp h
  | label name => cases hl
  | const c => cases r with
    | identifier name => exact labelFree_identifierOp h
    | label name => cases hr
    | const d =>
      cases hconsts : compareConsts op c d with
      | error x =>
        rw [compareAtoms, hconsts] at h
        cases h
      | ok x =>
        rw [compareAtoms, hconsts] at h
        cases h
        rfl

mutual

theorem labelFree_build : ∀ (e : Expr ν) (b : Built ν), e.labelFree = true → e.build = .ok b →
    b.toClause.labelFree = true
  | .atom (.identifier _), b, _, h => by
    cases h
    rfl
  | .atom (.label _), _, hfree, _ => by cases hfree
  | .atom (.const _), _, _, h => by cases h
  | .compare op l r, b, hfree, h => by
    have hboth := (Bool.and_eq_true _ _).mp hfree
    exact labelFree_compareAtoms hboth.1 hboth.2 h
  | .not e, b, hfree, h => by
    rw [Expr.build] at h
    cases he : e.build with
    | error x =>
      rw [he] at h
      cases h
    | ok c =>
      rw [he] at h
      cases h
      exact labelFree_build e c hfree he
  | .and es, b, hfree, h => by
    rw [Expr.build] at h
    cases hes : buildAll es with
    | error x =>
      rw [hes] at h
      cases h
    | ok cs =>
      rw [hes] at h
      cases h
      exact labelFree_buildAll es cs hfree hes
  | .or es, b, hfree, h => by
    rw [Expr.build] at h
    cases hes : buildAll es with
    | error x =>
      rw [hes] at h
      cases h
    | ok cs =>
      rw [hes] at h
      cases h
      exact labelFree_buildAll es cs hfree hes

theorem labelFree_buildAll : ∀ (es : List (Expr ν)) (cs : List (Clause ν)),
    allLabelFree es = true → buildAll es = .ok cs → allClausesLabelFree cs = true
  | [], cs, _, h => by
    cases h
    rfl
  | e :: es, cs, hfree, h => by
    have hboth := (Bool.and_eq_true _ _).mp hfree
    rw [buildAll] at h
    cases he : e.build with
    | error x =>
      rw [he] at h
      cases h
    | ok b => cases hes : buildAll es with
      | error x =>
        rw [he, hes] at h
        cases h
      | ok bs =>
        rw [he, hes] at h
        cases h
        rw [allClausesLabelFree, labelFree_build e b hboth.1 he,
          labelFree_buildAll es bs hboth.2 hes]
        rfl

end

end Build

section Same
variable {ρ V : Type} {D E : Rows ν ρ V} {row : ρ}

/-- The rows of a model in two states, as columns and database see them. -/
structure Same (D E : Rows ν ρ V) : Prop where
  column : D.column = E.column
  bind : D.bind = E.bind
  test : D.test = E.test

mutual

theorem Same.eval (h : Same D E) : ∀ c : Clause ν, c.labelFree = true →
    c.eval D row = c.eval E row
  | .compare op name c, _ => by rw [Clause.eval, Clause.eval, h.column, h.bind, h.test]
  | .columns op l r, _ => by rw [Clause.eval, Clause.eval, h.column, h.test]
  | .literal b, _ => rfl
  | .inLabels _ _, hfree => by cases hfree
  | .not c, hfree => by rw [Clause.eval, Clause.eval, h.eval c hfree]
  | .and cs, hfree => by rw [Clause.eval, Clause.eval, h.evalAll cs hfree]
  | .or cs, hfree => by rw [Clause.eval, Clause.eval, h.evalAll cs hfree]

theorem Same.evalAll (h : Same D E) : ∀ cs : List (Clause ν), allClausesLabelFree cs = true →
    evalAll D row cs = evalAll E row cs
  | [], _ => rfl
  | c :: cs, hfree => by
    have hboth := (Bool.and_eq_true _ _).mp hfree
    rw [QueryBuilder.evalAll, QueryBuilder.evalAll, h.eval c hboth.1, h.evalAll cs hboth.2]

end

mutual

theorem Same.binds (h : Same D E) : ∀ c : Clause ν, c.binds D = c.binds E
  | .compare op name c => by rw [Clause.binds, Clause.binds, h.bind]
  | .columns _ _ _ => rfl
  | .literal _ => rfl
  | .inLabels _ _ => rfl
  | .not c => by rw [Clause.binds, Clause.binds, h.binds c]
  | .and cs => by rw [Clause.binds, Clause.binds, h.allBind cs]
  | .or cs => by rw [Clause.binds, Clause.binds, h.allBind cs]

theorem Same.allBind (h : Same D E) : ∀ cs : List (Clause ν), allBind D cs = allBind E cs
  | [] => rfl
  | c :: cs => by rw [QueryBuilder.allBind, QueryBuilder.allBind, h.binds c, h.allBind cs]

end

end Same

end LabelFree

end QueryBuilder
end Benji
