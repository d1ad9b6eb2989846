import Benji.Database.Grammar

/-! Filter expressions are read as they are written, if no column comes before one whose name it
begins, and nothing else is read. -/
namespace Benji
open Lib Peg

namespace QueryBuilder

/-- A name that cannot be taken for anything else. -/
def legible (name : Text) : Bool :=
  name.head?.any (fun c => c.isAlpha || c = '_') && name.all isIdent &&
    !"not".toList.isPrefixOf name && !name.isPrefixOf "True".toList &&
    !name.isPrefixOf "False".toList && !name.isPrefixOf "labels".toList

/-- The attributes of a model, in the order of its mapper. -/
structure Attributes where
  names : List Text
  legible : ∀ a ∈ names, legible a = true

/-- The columns of `Version`. -/
def versionAttributes : Attributes where
  names := ["id", "uid", "volume", "volume_name", "job_name", "snapshot", "size", "block_size",
    "storage_id", "status", "protected", "bytes_read", "bytes_written", "bytes_deduplicated",
    "bytes_sparse", "duration", "deleted", "created_at", "expired_at", "deleted_at",
    "vm_id"].map String.toList
  legible := by decide

/-- No attribute before it is the beginning of its name. -/
def Attributes.Plain (A : Attributes) (name : Text) : Prop := alternation A.names name = some name

/-- What may follow a base expression. -/
def delimiter (c : Char) : Bool := isSpace c || c = ')' || c = '=' || c = '!' || c = '<' || c = '>'

/-- What an expression may begin with. -/
def starts (c : Char) : Bool := isIdent c || isQuote c || c = '+' || c = '-' || c = '('

/-- A base expression that is read as it is written. -/
abbrev Attributes.Written (A : Attributes) (U : UnicodeData) : Atom Text → Text → Prop :=
  IsAtom Char.isDigit (toInt U) A.Plain

/-- All that is read as a base expression. -/
abbrev Attributes.Read (A : Attributes) (U : UnicodeData) : Atom Text → Text → Prop :=
  IsAtom (fun c => (decimal U c).isSome) (toInt U) fun name => name ∈ A.names

section Columns
variable {A : Attributes} {U : UnicodeData} {name s t r : Text} {a : Atom Text}

theorem not_isIdent_of_delimiter {x : Char} (h : delimiter x = true) : isIdent x = false := by
  simp only [delimiter, Bool.or_eq_true, decide_eq_true_eq] at h
  obtain ((((h | rfl) | rfl) | rfl) | rfl) | rfl := h
  · exact not_isIdent_of_isSpace h
  all_goals rfl

/-- After a word there is no more of it. -/
theorem head_of_ends (ht : t.getLast?.any isIdent = true) (hr : Ends delimiter t r) :
    r.head?.any isIdent = false := by
  cases r with
  | nil => rfl
  | cons x r =>
    obtain h | ⟨-, h⟩ := hr x rfl
    · exact not_isIdent_of_delimiter h
    · rw [ht] at h
      cases h

/-- A word at the beginning ends where the first word does. -/
theorem prefix_of_ends {w : Text} (hw : w.all isIdent = true) (hr : r.head?.any isIdent = false)
    (h : w <+: t ++ r) : w <+: t := by
  obtain hp | ⟨d, rfl⟩ := List.prefix_or_prefix_of_prefix h (List.prefix_append t r)
  · exact hp
  · cases d with
    | nil => rw [List.append_nil]
    | cons x d =>
      obtain ⟨r', rfl⟩ := (List.prefix_append_right_inj t).mp h
      have hx : isIdent x = true := List.all_eq_true.mp hw x (by simp)
      change isIdent x = false at hr
      rw [hx] at hr
      cases hr

structure Legible (name : Text) : Prop where
  all : name.all isIdent = true
  head : ∃ x s, name = x :: s ∧ (x.isAlpha || x = '_') = true
  not_not : ¬ "not".toList <+: name
  not_true : ¬ name <+: "True".toList
  not_false : ¬ name <+: "False".toList
  not_labels : ¬ name <+: "labels".toList

theorem Attributes.legible_of_mem (h : name ∈ A.names) : Legible name := by
  have hname := A.legible name h
  simp only [QueryBuilder.legible, Bool.and_eq_true, Bool.not_eq_true'] at hname
  obtain ⟨⟨⟨⟨⟨hhead, hall⟩, hnot⟩, htrue⟩, hfalse⟩, hlabels⟩ := hname
  have hno {s t : Text} (hst : s.isPrefixOf t = false) : ¬ s <+: t := by
    intro hp
    rw [List.isPrefixOf_iff_prefix.mpr hp] at hst
    cases hst
  refine ⟨hall, ?_, hno hnot, hno htrue, hno hfalse, hno hlabels⟩
  cases name with
  | nil => cases hhead
  | cons x s => exact ⟨x, s, rfl, hhead⟩

theorem Legible.getLast? (h : Legible name) : name.getLast?.any isIdent = true := by
  obtain ⟨x, s, rfl, -⟩ := h.head
  rw [List.getLast?_eq_some_getLast (List.cons_ne_nil x s), Option.any_some]
  exact List.all_eq_true.mp h.all _ (List.getLast_mem _)

theorem isIdent_of_head {x : Char} (h : (x.isAlpha || x = '_') = true) : isIdent x = true := by
  rw [isIdent, Char.isAlphanum]
  rw [Bool.or_eq_true] at h
  obtain h | h := h <;> simp [h]

theorem alternation_spec (h : alternation A.names s = some name) :
    name ∈ A.names ∧ name <+: s := by
  rw [alternation] at h
  have hfront := List.find?_some h
  exact ⟨List.mem_of_find?_eq_some h, List.isPrefixOf_iff_prefix.mp hfront⟩

theorem Attributes.Plain.mem (h : A.Plain name) : name ∈ A.names := (alternation_spec h).1

/-- A plain name is found where it stands. -/
theorem alternation_plain (h : A.Plain name) (hr : Ends delimiter name r) :
    alternation A.names (name ++ r) = some name := by
  have hhead := head_of_ends (A.legible_of_mem h.mem).getLast? hr
  have heq : ∀ a ∈ A.names, a.isPrefixOf (name ++ r) = a.isPrefixOf name := by
    intro a ha
    rw [Bool.eq_iff_iff, List.isPrefixOf_iff_prefix, List.isPrefixOf_iff_prefix]
    exact ⟨prefix_of_ends (A.legible_of_mem ha).all hhead, fun hp =>
      hp.trans (List.prefix_append name r)⟩
  have hfind : ∀ names : List Text, (∀ a ∈ names, a ∈ A.names) →
      names.find? (fun a => a.isPrefixOf (name ++ r)) = names.find? fun a => a.isPrefixOf name := by
    intro names hnames
    induction names with
    | nil => rfl
    | cons a names ih =>
      obtain ⟨ha, hrest⟩ := List.forall_mem_cons.mp hnames
      rw [List.find?_cons, List.find?_cons, heq a ha, ih hrest]
  exact (hfind A.names fun _ ha => ha).trans h

theorem alternation_none (h : ∀ a ∈ A.names, ¬ a <+: s) : alternation A.names s = none := by
  rw [alternation, List.find?_eq_none]
  exact fun a ha hp => h a ha (List.isPrefixOf_iff_prefix.mp hp)

/-- No name begins with what no letter is. -/
theorem alternation_none_of_head {x : Char} (hx : (x.isAlpha || x = '_') = false) :
    alternation A.names (x :: s) = none := by
  apply alternation_none
  intro a ha hp
  obtain ⟨y, b, rfl, hy⟩ := (A.legible_of_mem ha).head
  rw [(List.cons_prefix_cons.mp hp).1, hx] at hy
  cases hy

/-- Names do not run on over the end of another word. -/
theorem alternation_none_of_word (hr : r.head?.any isIdent = false)
    (h : ∀ a, Legible a → ¬ a <+: t) : alternation A.names (t ++ r) = none :=
  alternation_none fun a ha hp =>
    h a (A.legible_of_mem ha) (prefix_of_ends (A.legible_of_mem ha).all hr hp)

end Columns

/-! ### Integers -/

section Integers
variable {U : UnicodeData} {s t r sign digits : Text} {x : Char}

theorem decimal_of_isDigit (h : x.isDigit = true) : (decimal U x).isSome = true := by
  have hx : '0' ≤ x ∧ x ≤ '9' := by simpa [Char.isDigit, Char.le_def] using h
  rw [decimal, if_pos hx]
  rfl

theorem decimal_none (hdigit : x.isDigit = false) (hx : x.toNat < 128) : decimal U x = none := by
  have hno : ¬ ('0' ≤ x ∧ x ≤ '9') := by simpa [Char.isDigit, Char.le_def] using hdigit
  rw [decimal, if_neg hno, if_pos hx]

theorem signOf_append (hsign : sign = [] ∨ sign = ['+'] ∨ sign = ['-'])
    (hx : sign = [] → s.head?.all (fun x => x ≠ '+' && x ≠ '-') = true) :
    signOf (sign ++ s) = sign := by
  obtain rfl | rfl | rfl := hsign
  · have h := hx rfl
    cases s with
    | nil => rfl
    | cons x s =>
      simp only [List.head?_cons, Option.all_some, Bool.and_eq_true, decide_eq_true_eq] at h
      simp [signOf, h.1, h.2]
  · rfl
  · rfl

theorem takeWhile_decimal (hdigits : digits.all Char.isDigit = true)
    (hr : ∀ x, r.head? = some x → decimal U x = none) :
    (digits ++ r).takeWhile (fun c => (decimal U c).isSome) = digits := by
  rw [List.takeWhile_append_of_pos fun x hx =>
    decimal_of_isDigit (List.all_eq_true.mp hdigits x hx)]
  cases r with
  | nil => rw [List.takeWhile_nil, List.append_nil]
  | cons x r =>
    rw [List.takeWhile_cons, hr x rfl, if_neg (by decide), List.append_nil]

theorem signedInteger_some (hsign : sign = [] ∨ sign = ['+'] ∨ sign = ['-'])
    (hdigits : digits.all Char.isDigit = true) (hne : digits ≠ [])
    (hr : ∀ x, r.head? = some x → decimal U x = none) :
    signedInteger U ((sign ++ digits) ++ r) = some (sign ++ digits) := by
  have hhead : (digits ++ r).head?.all (fun x => x ≠ '+' && x ≠ '-') = true := by
    cases digits with
    | nil => exact absurd rfl hne
    | cons x digits =>
      have hx := List.all_eq_true.mp hdigits x List.mem_cons_self
      have hplus : x ≠ '+' := fun h => by rw [h] at hx; cases hx
      have hminus : x ≠ '-' := fun h => by rw [h] at hx; cases hx
      simp [hplus, hminus]
  rw [List.append_assoc, signedInteger, signOf_append hsign fun _ => hhead, List.drop_left,
    takeWhile_decimal hdigits hr, if_neg (by rwa [List.isEmpty_iff])]

theorem signedInteger_none (hx : x.isDigit = false) (hascii : x.toNat < 128)
    (hplus : x ≠ '+') (hminus : x ≠ '-') : signedInteger U (x :: s) = none := by
  have hsign : signOf (x :: s) = [] := by simp [signOf, hplus, hminus]
  rw [signedInteger, hsign]
  show (if ((x :: s).takeWhile fun c => (decimal U c).isSome).isEmpty then _ else _) = _
  rw [List.takeWhile_cons, decimal_none hx hascii]
  rfl

theorem signedInteger_spec (h : signedInteger U s = some t) : t <+: s ∧
    ∃ sign digits, t = sign ++ digits ∧ (sign = [] ∨ sign = ['+'] ∨ sign = ['-']) ∧
      digits.all (fun c => (decimal U c).isSome) = true ∧ digits ≠ [] := by
  have hsign : signOf s <+: s ∧ (signOf s = [] ∨ signOf s = ['+'] ∨ signOf s = ['-']) := by
    cases s with
    | nil => exact ⟨List.prefix_rfl, .inl rfl⟩
    | cons x s =>
      rw [signOf]
      split
      case isFalse => exact ⟨List.nil_prefix, .inl rfl⟩
      case isTrue hx =>
        simp only [Bool.or_eq_true, decide_eq_true_eq] at hx
        refine ⟨⟨s, rfl⟩, .inr ?_⟩
        obtain rfl | rfl := hx
        · exact .inl rfl
        · exact .inr rfl
  rw [signedInteger] at h
  split at h
  case isTrue => cases h
  case isFalse hne =>
    cases h
    generalize signOf s = sign at hsign hne ⊢
    obtain ⟨⟨d, rfl⟩, hsign⟩ := hsign
    rw [List.drop_left] at hne ⊢
    refine ⟨(List.prefix_append_right_inj sign).mpr (List.takeWhile_prefix _), sign, _, rfl,
      hsign, List.all_takeWhile, ?_⟩
    rwa [List.isEmpty_iff] at hne

theorem signOf_of_digits (h : digits.all Char.isDigit = true) : signOf digits = [] := by
  cases digits with
  | nil => rfl
  | cons x digits =>
    have hx := List.all_eq_true.mp h x List.mem_cons_self
    have hplus : x ≠ '+' := fun h => by rw [h] at hx; cases hx
    have hminus : x ≠ '-' := fun h => by rw [h] at hx; cases hx
    simp [signOf, hplus, hminus]

theorem digitChar_spec : ∀ d < 10, ('0' ≤ d.digitChar ∧ d.digitChar ≤ '9') ∧
    d.digitChar.toNat - 48 = d := by decide

theorem decimal_digitChar {d : ℕ} (h : d < 10) : decimal U d.digitChar = some d := by
  rw [decimal, if_pos (digitChar_spec d h).1, (digitChar_spec d h).2]

theorem all_toDigits (n : ℕ) : (Nat.toDigits 10 n).all Char.isDigit = true :=
  List.all_eq_true.mpr fun _ h => Nat.isDigit_of_mem_toDigits (by decide) (by decide) h

/-- A number is read as it is written. -/
theorem toInt_toDigits (n : ℕ) : toInt U (Nat.toDigits 10 n) = n := by
  have hvalue : (Nat.toDigits 10 n).foldl (fun n c => 10 * n + (decimal U c).getD 0) 0 = n := by
    induction n using Nat.strong_induction_on with
    | _ n ih =>
      rcases lt_or_ge n 10 with hn | hn
      · rw [Nat.toDigits_of_lt_base hn, List.foldl_cons, decimal_digitChar hn]
        simp
      · rw [Nat.toDigits_of_base_le (by decide) hn, List.foldl_append, ih (n / 10) (by omega),
          List.foldl_cons, decimal_digitChar (Nat.mod_lt n (by decide)), List.foldl_nil,
          Option.getD_some]
        omega
  rw [toInt, signOf_of_digits (all_toDigits n)]
  exact congrArg Nat.cast hvalue

end Integers

/-! ### Base expressions -/

section Atoms
variable {ε : Type} {A : Attributes} {U : UnicodeData} {name s t r : Text} {a : Atom Text}
  {c c' : Cursor} {last : Option Char} {x : Char}

theorem identifier_none (hc : c.skip = ⟨last, s⟩) (h : alternation A.names s = none) :
    (identifier A.names : Parser ε (Atom Text)) c = .ok none :=
  bind_none (regex_none (by rwa [hc]))

theorem integer_none (hc : c.skip = ⟨last, s⟩) (h : signedInteger U s = none) :
    (integer U : Parser ε (Atom Text)) c = .ok none :=
  bind_none (regex_none (by rwa [hc]))

theorem stringConst_none (hc : c.skip = ⟨last, x :: s⟩) (h : isQuote x = false) :
    (stringConst : Parser ε (Atom Text)) c = .ok none := by
  refine bind_none (string_none ?_)
  rw [hc]
  show (!isQuote x) = true
  rw [h]
  rfl

theorem not_prefix_of_head {y : Char} {w : Text} (hc : c.skip = ⟨last, x :: s⟩) (h : y ≠ x) :
    ¬ y :: w <+: c.skip.rest := by
  rw [hc]
  exact fun hp => h (List.cons_prefix_cons.mp hp).1

theorem boolTrue_none (hc : c.skip = ⟨last, x :: s⟩) (h : 'T' ≠ x) :
    (boolTrue : Parser ε (Atom Text)) c = .ok none :=
  bind_none (keyword_none (not_prefix_of_head hc h))

theorem boolFalse_none (hc : c.skip = ⟨last, x :: s⟩) (h : 'F' ≠ x) :
    (boolFalse : Parser ε (Atom Text)) c = .ok none :=
  bind_none (keyword_none (not_prefix_of_head hc h))

theorem labelToken_none (hc : c.skip = ⟨last, x :: s⟩) (h : 'l' ≠ x) :
    (labelToken : Parser ε (Atom Text)) c = .ok none := by
  refine bind_none (label_none ?_)
  rw [← Cursor.skip_rest]
  exact not_prefix_of_head hc h

theorem atom_identifier (h : A.Plain name) (hc : c.skip = ⟨last, name ++ r⟩)
    (hr : Ends delimiter name r) : (atom U A.names : Parser ε (Atom Text)) c =
      .ok (some (.identifier name, ⟨name.getLast?.or last, r⟩)) :=
  orElse_some (bind_some (regex_some hc (alternation_plain h hr)))

theorem isIdent_of_isDigit (h : x.isDigit = true) : isIdent x = true := by
  rw [isIdent, Char.isAlphanum, h]
  simp

/-- The first character of a number. -/
theorem head_of_integer {sign digits : Text} (hsign : sign = [] ∨ sign = ['+'] ∨ sign = ['-'])
    (hdigits : digits.all Char.isDigit = true) (hne : digits ≠ []) :
    ∃ x s, sign ++ digits = x :: s ∧ (x.isDigit = true ∨ x = '+' ∨ x = '-') := by
  obtain rfl | rfl | rfl := hsign
  · cases digits with
    | nil => exact absurd rfl hne
    | cons x digits =>
      exact ⟨x, digits, rfl, .inl (List.all_eq_true.mp hdigits x List.mem_cons_self)⟩
  · exact ⟨'+', digits, rfl, .inr (.inl rfl)⟩
  · exact ⟨'-', digits, rfl, .inr (.inr rfl)⟩

theorem not_alpha_of_isDigit (h : x.isDigit = true) : (x.isAlpha || x = '_') = false := by
  simp only [Char.isDigit, Bool.and_eq_true, decide_eq_true_eq] at h
  have hle : x.val.toNat ≤ 57 := UInt32.le_iff_toNat_le.mp h.2
  have hlt {y : UInt32} (hy : 57 < y.toNat) : ¬ y ≤ x.val := fun hge =>
    absurd (UInt32.le_iff_toNat_le.mp hge) (by omega)
  have hx : x ≠ '_' := by
    rintro rfl
    exact absurd hle (by decide)
  have hupper : x.isUpper = false :=
    decide_eq_false fun h => absurd h.1 (hlt (y := 'A'.val) (by decide))
  have hlower : x.isLower = false := by
    show (decide ('a'.val ≤ x.val) && _) = false
    rw [decide_eq_false (hlt (y := 'a'.val) (by decide)), Bool.false_and]
  show (x.isUpper || x.isLower || _) = false
  rw [hupper, hlower, decide_eq_false hx]
  rfl

theorem ends_digits {digits : Text} (hdigits : digits.all Char.isDigit = true) (hne : digits ≠ []) :
    (s ++ digits).getLast?.any isIdent = true := by
  rw [List.getLast?_append, List.getLast?_eq_some_getLast hne, Option.some_or, Option.any_some]
  exact isIdent_of_isDigit (List.all_eq_true.mp hdigits _ (List.getLast_mem hne))

theorem decimal_of_ends (ht : t.getLast?.any isIdent = true) (hr : Ends delimiter t r) :
    ∀ x, r.head? = some x → decimal U x = none := by
  intro x hx
  obtain h | ⟨-, h⟩ := hr x hx
  · simp only [delimiter, isSpace, Bool.or_eq_true, decide_eq_true_eq] at h
    obtain (((((((rfl | rfl) | rfl) | rfl) | rfl) | rfl) | rfl) | rfl) | rfl := h <;> rfl
  · rw [ht] at h
    cases h

theorem atom_integer {sign digits : Text} (hsign : sign = [] ∨ sign = ['+'] ∨ sign = ['-'])
    (hdigits : digits.all Char.isDigit = true) (hne : digits ≠ [])
    (hc : c.skip = ⟨last, (sign ++ digits) ++ r⟩) (hr : Ends delimiter (sign ++ digits) r) :
    (atom U A.names : Parser ε (Atom Text)) c = .ok (some
      (.const (.int (toInt U (sign ++ digits))), ⟨(sign ++ digits).getLast?.or last, r⟩)) := by
  obtain ⟨x, s, heq, hx⟩ := head_of_integer hsign hdigits hne
  have hname : alternation A.names ((sign ++ digits) ++ r) = none := by
    rw [heq]
    refine alternation_none_of_head ?_
    obtain hx | rfl | rfl := hx
    · exact not_alpha_of_isDigit hx
    · rfl
    · rfl
  have hint := signedInteger_some hsign hdigits hne (decimal_of_ends (U := U)
    (ends_digits hdigits hne) hr)
  exact (orElse_none (identifier_none hc hname)).trans
    (orElse_some (bind_some (regex_some hc hint)))

theorem atom_string {q : Char} {b : Text} (hq : isQuote q = true) (hb : Body q b)
    (hc : c.skip = ⟨last, (q :: b ++ [q]) ++ r⟩) (hr : Ends delimiter (q :: b ++ [q]) r) :
    (atom U A.names : Parser ε (Atom Text)) c = .ok (some
      (.const (.str (String.ofList b)), ⟨(q :: b ++ [q]).getLast?.or last, r⟩)) := by
  have hnext : r.head? ≠ some q := by
    intro h
    obtain hd | ⟨hd, -⟩ := hr q h
    · rcases isQuote_cases hq with rfl | rfl <;> cases hd
    · rcases isQuote_cases hq with rfl | rfl <;> cases hd
  have hname : alternation A.names ((q :: b ++ [q]) ++ r) = none := by
    refine alternation_none_of_head ?_
    rcases isQuote_cases hq with rfl | rfl <;> rfl
  have hint : signedInteger U ((q :: b ++ [q]) ++ r) = none := by
    rcases isQuote_cases hq with rfl | rfl <;>
      exact signedInteger_none rfl (by decide) (by decide) (by decide)
  rw [List.getLast?_concat]
  exact (orElse_none (identifier_none hc hname)).trans ((orElse_none (integer_none hc hint)).trans
    (orElse_some (bind_some (string_some hc hq hb hnext))))

/-- No column, no number and no string. -/
theorem atom_of_word (hc : c.skip = ⟨last, x :: s⟩) (hname : alternation A.names (x :: s) = none)
    (hint : signedInteger U (x :: s) = none) (hx : isQuote x = false) :
    (atom U A.names : Parser ε (Atom Text)) c =
      (boolTrue <|> boolFalse <|> labelToken : Parser ε (Atom Text)) c :=
  (orElse_none (identifier_none hc hname)).trans ((orElse_none (integer_none hc hint)).trans
    (orElse_none (stringConst_none hc hx)))

theorem all_of_free {w : Text} (hx : isIdent x = true) (h : Free last (x :: w)) :
    last.all (fun y => !isIdent y) = true := by
  cases last with
  | none => rfl
  | some y =>
    cases hy : isIdent y with
    | false => rw [Option.all_some, hy]; rfl
    | true => exact absurd ⟨hy, hx⟩ h

theorem all_of_head (h : r.head?.any isIdent = false) :
    r.head?.all (fun y => !isIdent y) = true := by
  cases r with
  | nil => rfl
  | cons y r =>
    change isIdent y = false at h
    show (!isIdent y) = true
    rw [h]
    rfl

theorem atom_true (hc : c.skip = ⟨last, "True".toList ++ r⟩) (hfree : Free last "True".toList)
    (hr : Ends delimiter "True".toList r) : (atom U A.names : Parser ε (Atom Text)) c =
      .ok (some (.const (.bool true), ⟨some 'e', r⟩)) := by
  have hhead := head_of_ends rfl hr
  have hname : alternation A.names ("True".toList ++ r) = none :=
    alternation_none_of_word hhead fun _ h => h.not_true
  have hint : signedInteger U ("True".toList ++ r) = none :=
    signedInteger_none rfl (by decide) (by decide) (by decide)
  exact (atom_of_word hc hname hint rfl).trans
    (orElse_some (bind_some (keyword_some hc (all_of_free rfl hfree) (all_of_head hhead))))

theorem atom_false (hc : c.skip = ⟨last, "False".toList ++ r⟩) (hfree : Free last "False".toList)
    (hr : Ends delimiter "False".toList r) : (atom U A.names : Parser ε (Atom Text)) c =
      .ok (some (.const (.bool false), ⟨some 'e', r⟩)) := by
  have hhead := head_of_ends rfl hr
  have hname : alternation A.names ("False".toList ++ r) = none :=
    alternation_none_of_word hhead fun _ h => h.not_false
  have hint : signedInteger U ("False".toList ++ r) = none :=
    signedInteger_none rfl (by decide) (by decide) (by decide)
  exact (atom_of_word hc hname hint rfl).trans ((orElse_none (boolTrue_none hc (by decide))).trans
    (orElse_some (bind_some (keyword_some hc (all_of_free rfl hfree) (all_of_head hhead)))))

theorem atom_label {s₁ s₂ s₃ b : Text} {q : Char} (hs₁ : s₁.all isSpace = true)
    (hs₂ : s₂.all isSpace = true) (hq : isQuote q = true) (hb : Body q b)
    (hs₃ : s₃.all isSpace = true) (hc : c.skip = ⟨last, "labels".toList ++ (s₁ ++ (['['] ++
      (s₂ ++ ((q :: b ++ [q]) ++ (s₃ ++ ([']'] ++ r))))))⟩) :
    (atom U A.names : Parser ε (Atom Text)) c =
      .ok (some (.label (String.ofList b), ⟨some ']', r⟩)) := by
  have hhead : (s₁ ++ (['['] ++ (s₂ ++ ((q :: b ++ [q]) ++ (s₃ ++ ([']'] ++ r)))))).head?.any
      isIdent = false := by
    cases s₁ with
    | nil => rfl
    | cons x s₁ =>
      show isIdent x = false
      exact not_isIdent_of_isSpace (List.all_eq_true.mp hs₁ x List.mem_cons_self)
  have hname := alternation_none_of_word (A := A) hhead fun _ h => h.not_labels
  have hint : signedInteger U ("labels".toList ++ (s₁ ++ (['['] ++ (s₂ ++ ((q :: b ++ [q]) ++
      (s₃ ++ ([']'] ++ r))))))) = none :=
    signedInteger_none rfl (by decide) (by decide) (by decide)
  exact (atom_of_word hc hname hint rfl).trans ((orElse_none (boolTrue_none hc (by decide))).trans
    ((orElse_none (boolFalse_none hc (by decide))).trans
      (bind_some (label_some hc hs₁ hs₂ hs₃ hq hb))))

/-- Each base expression is read as it is written. -/
theorem atom_reads (ha : A.Written U a t) (hc : c.skip = ⟨last, t ++ r⟩) (hfree : Free last t)
    (hr : Ends delimiter t r) : (atom U A.names : Parser ε (Atom Text)) c =
      .ok (some (a, ⟨t.getLast?.or last, r⟩)) := by
  cases ha with
  | identifier h => exact atom_identifier h hc hr
  | integer hsign hdigits hne => exact atom_integer hsign hdigits hne hc hr
  | string hq hb => exact atom_string hq hb hc hr
  | true => exact atom_true hc hfree hr
  | false => exact atom_false hc hfree hr
  | label hs hs' hq hb hs'' =>
    rename_i s s' s'' b q
    have htext : ("labels".toList ++ (s ++ (['['] ++ (s' ++ ((q :: b ++ [q]) ++
        (s'' ++ [']'])))))) ++ r = "labels".toList ++ (s ++ (['['] ++ (s' ++ ((q :: b ++ [q]) ++
          (s'' ++ ([']'] ++ r)))))) := by
      simp
    have hlast : ("labels".toList ++ (s ++ (['['] ++ (s' ++ ((q :: b ++ [q]) ++
        (s'' ++ [']'])))))).getLast? = some ']' := by
      simp only [← List.append_assoc, List.getLast?_concat]
    rw [htext] at hc
    rw [hlast]
    exact atom_label hs hs' hq hb hs'' hc

theorem atom_none (h : c.skip.rest = '(' :: s) :
    (atom U A.names : Parser ε (Atom Text)) c = .ok none := by
  have hc : c.skip = ⟨c.skip.last, '(' :: s⟩ := by rw [← h]
  have hname : alternation A.names ('(' :: s) = none := alternation_none_of_head rfl
  have hint : signedInteger U ('(' :: s) = none :=
    signedInteger_none rfl (by decide) (by decide) (by decide)
  exact (atom_of_word hc hname hint rfl).trans ((orElse_none (boolTrue_none hc (by decide))).trans
    ((orElse_none (boolFalse_none hc (by decide))).trans (labelToken_none hc (by decide))))

/-- A string that does not end. -/
theorem atom_unclosed {q : Char} (hc : c.skip = ⟨last, q :: s⟩) (hq : isQuote q = true)
    (h : quoted q s = none) : (atom U A.names : Parser ε (Atom Text)) c = .ok none := by
  have hstring : (stringConst : Parser ε (Atom Text)) c = .ok none := by
    refine bind_none (bind_none (regex_none ?_))
    rw [hc]
    show quotedString (q :: s) = none
    rw [quotedString, if_pos hq, h]
    rfl
  have hname : alternation A.names (q :: s) = none := by
    refine alternation_none_of_head ?_
    rcases isQuote_cases hq with rfl | rfl <;> rfl
  have hint : signedInteger U (q :: s) = none := by
    rcases isQuote_cases hq with rfl | rfl <;>
      exact signedInteger_none rfl (by decide) (by decide) (by decide)
  have hword {x : Char} (hx : isQuote x = false) : x ≠ q := by
    rintro rfl
    rw [hq] at hx
    cases hx
  exact (orElse_none (identifier_none hc hname)).trans ((orElse_none (integer_none hc hint)).trans
    ((orElse_none hstring).trans ((orElse_none (boolTrue_none hc (hword rfl))).trans
      ((orElse_none (boolFalse_none hc (hword rfl))).trans (labelToken_none hc (hword rfl))))))

theorem atom_starts (ha : A.Written U a t) : ∃ x s, t = x :: s ∧ starts x = true := by
  cases ha with
  | identifier h =>
    obtain ⟨x, s, rfl, hx⟩ := (A.legible_of_mem h.mem).head
    refine ⟨x, s, rfl, ?_⟩
    rw [starts, isIdent_of_head hx]
    rfl
  | integer hsign hdigits hne =>
    obtain ⟨x, s, heq, hx⟩ := head_of_integer hsign hdigits hne
    refine ⟨x, s, heq, ?_⟩
    obtain hx | rfl | rfl := hx
    · rw [starts, isIdent_of_isDigit hx]
      rfl
    · rfl
    · rfl
  | @string q b hq hb =>
    refine ⟨q, b ++ [q], rfl, ?_⟩
    rw [starts, hq]
    simp
  | true => exact ⟨'T', _, rfl, rfl⟩
  | false => exact ⟨'F', _, rfl, rfl⟩
  | label => exact ⟨'l', _, rfl, rfl⟩

end Atoms

/-! ### Operators -/

section Operators
variable {ε : Type} {A : Attributes} {U : UnicodeData} {s t r : Text} {a : Atom Text}
  {l : Level Operator} {c : Cursor} {x : Char}

/-- The first character of an operator. -/
theorem levels_text (h : l ∈ levels) : ∃ x s, l.text = x :: s ∧ isSpace x = false ∧ x ≠ '(' ∧
    x ≠ ')' ∧ (l.unary = true → starts x = true) ∧ (isIdent x = false → delimiter x = true) := by
  simp only [levels, List.mem_cons, List.not_mem_nil, or_false] at h
  obtain rfl | rfl | rfl | rfl | rfl | rfl | rfl | rfl | rfl := h <;>
    exact ⟨_, _, rfl, rfl, by decide, by decide, by decide, by decide⟩

theorem text_of_unary (h : l ∈ levels) (hunary : l.unary = true) : l.text = "not".toList := by
  simp only [levels, List.mem_cons, List.not_mem_nil, or_false] at h
  obtain rfl | rfl | rfl | rfl | rfl | rfl | rfl | rfl | rfl := h <;> first | rfl | cases hunary

theorem atom_not_unary (ha : A.Written U a t) (hr : Ends delimiter t r) (hl : l ∈ levels)
    (hunary : l.unary = true) : ¬ l.text <+: t ++ r := by
  rw [text_of_unary hl hunary]
  have hhead {x : Char} {s : Text} (hx : 'n' ≠ x) : ¬ "not".toList <+: x :: s := fun hp =>
    hx (List.cons_prefix_cons.mp hp).1
  cases ha with
  | identifier h =>
    have hname := A.legible_of_mem h.mem
    exact fun hp => hname.not_not (prefix_of_ends rfl (head_of_ends hname.getLast? hr) hp)
  | integer hsign hdigits hne =>
    obtain ⟨x, s, heq, hx⟩ := head_of_integer hsign hdigits hne
    rw [heq]
    refine hhead ?_
    rintro rfl
    obtain hx | hx | hx := hx <;> cases hx
  | string hq hb =>
    refine hhead ?_
    rintro rfl
    cases hq
  | true => exact hhead (by decide)
  | false => exact hhead (by decide)
  | label => exact hhead (by decide)

theorem starts_not_space (h : starts x = true) : isSpace x = false := by
  cases hx : isSpace x with
  | false => rfl
  | true =>
    simp only [isSpace, Bool.or_eq_true, decide_eq_true_eq] at hx
    obtain ((rfl | rfl) | rfl) | rfl := hx <;> cases h

theorem levels_apart : levels.Pairwise fun l m => l.clashes starts m = false := by decide

/-- Filter expressions are read as they are written. -/
theorem readable (A : Attributes) (U : UnicodeData) :
    Readable (atom U A.names : Parser ε (Atom Text)) levels (A.Written U) starts delimiter where
  atom_reads := atom_reads
  atom_starts := atom_starts
  atom_not_unary := atom_not_unary
  bracket := atom_none
  starts_bracket := rfl
  starts_not_space := fun _ => starts_not_space
  delimiter_space := fun x h => by
    rw [delimiter, h]
    rfl
  delimiter_bracket := rfl
  op_starts := fun _ => levels_text
  apart := levels_apart

end Operators

/-! ### What is read -/

section Taken
variable {ε : Type} {A : Attributes} {U : UnicodeData}

theorem takes_identifier :
    Takes (identifier A.names : Parser ε (Atom Text)) (A.Read U) := by
  intro c a c' h
  obtain ⟨name, d, hname, h⟩ := bind_eq_some h
  obtain ⟨rfl, rfl⟩ := pure_eq_some h
  obtain ⟨w, hw, hc, hm⟩ := regex_spec (fun _ _ hm => (alternation_spec hm).2) hname
  exact ⟨w, name, hw, hc, .identifier (alternation_spec hm).1⟩

theorem takes_integer : Takes (integer U : Parser ε (Atom Text)) (A.Read U) := by
  intro c a c' h
  obtain ⟨t, d, ht, h⟩ := bind_eq_some h
  obtain ⟨rfl, rfl⟩ := pure_eq_some h
  obtain ⟨w, hw, hc, hm⟩ := regex_spec (fun _ _ hm => (signedInteger_spec hm).1) ht
  obtain ⟨-, sign, digits, rfl, hsign, hdigits, hne⟩ := signedInteger_spec hm
  exact ⟨w, _, hw, hc, .integer hsign hdigits hne⟩

theorem takes_stringConst : Takes (stringConst : Parser ε (Atom Text)) (A.Read U) := by
  intro c a c' h
  obtain ⟨b, d, hb, h⟩ := bind_eq_some h
  obtain ⟨rfl, rfl⟩ := pure_eq_some h
  obtain ⟨w, q, hw, hc, hq, hbody, -⟩ := string_spec hb
  exact ⟨w, _, hw, hc, .string hq hbody⟩

theorem takes_boolTrue : Takes (boolTrue : Parser ε (Atom Text)) (A.Read U) := by
  intro c a c' h
  obtain ⟨_, d, hword, h⟩ := bind_eq_some h
  obtain ⟨rfl, rfl⟩ := pure_eq_some h
  obtain ⟨w, hw, hc⟩ := keyword_spec hword
  exact ⟨w, _, hw, hc, .true⟩

theorem takes_boolFalse : Takes (boolFalse : Parser ε (Atom Text)) (A.Read U) := by
  intro c a c' h
  obtain ⟨_, d, hword, h⟩ := bind_eq_some h
  obtain ⟨rfl, rfl⟩ := pure_eq_some h
  obtain ⟨w, hw, hc⟩ := keyword_spec hword
  exact ⟨w, _, hw, hc, .false⟩

theorem takes_labelToken : Takes (labelToken : Parser ε (Atom Text)) (A.Read U) := by
  intro c a c' h
  obtain ⟨b, d, hb, h⟩ := bind_eq_some h
  obtain ⟨rfl, rfl⟩ := pure_eq_some h
  obtain ⟨w, s₁, s₂, s₃, q, hw, hs₁, hs₂, hs₃, hq, hbody, hc⟩ := label_spec hb
  refine ⟨w, _, hw, ?_, .label hs₁ hs₂ hq hbody hs₃⟩
  rw [hc]
  simp

theorem takes_orElse {β : Type} {p q : Parser ε β} {R : β → Text → Prop} (hp : Takes p R)
    (hq : Takes q R) : Takes (p <|> q) R := by
  intro c b c' h
  obtain h | h := orElse_eq_some h
  · exact hp h
  · exact hq h

theorem takes_atom : Takes (atom U A.names : Parser ε (Atom Text)) (A.Read U) :=
  takes_orElse takes_identifier (takes_orElse takes_integer (takes_orElse takes_stringConst
    (takes_orElse takes_boolTrue (takes_orElse takes_boolFalse takes_labelToken))))

theorem silent_atom : Silent (atom U A.names : Parser ε (Atom Text)) := by
  have hstring : Silent (string : Parser ε Text) := silent_bind silent_regex fun _ => silent_pure
  have hlabel : Silent (label : Parser ε Text) :=
    silent_bind silent_literal fun _ => silent_bind silent_literal fun _ =>
      silent_bind hstring fun _ => silent_bind silent_literal fun _ => silent_pure
  refine silent_orElse (silent_bind silent_regex fun _ => silent_pure) ?_
  refine silent_orElse (silent_bind silent_regex fun _ => silent_pure) ?_
  refine silent_orElse (silent_bind hstring fun _ => silent_pure) ?_
  refine silent_orElse (silent_bind silent_keyword fun _ => silent_pure) ?_
  refine silent_orElse (silent_bind silent_keyword fun _ => silent_pure) ?_
  exact silent_bind hlabel fun _ => silent_pure

end Taken

end QueryBuilder
end Benji
