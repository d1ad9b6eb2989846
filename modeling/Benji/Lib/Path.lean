import Mathlib.Data.List.Basic

/-! POSIX paths: `os.path.join` and the components `os.path.normpath` leaves. -/
namespace Lib

abbrev Text := List Char

namespace Path

/-- Two slashes in front are kept, more count as one. -/
def initialSlashes : Text → ℕ
  | '/' :: '/' :: '/' :: _ => 1
  | '/' :: '/' :: _ => 2
  | '/' :: _ => 1
  | _ => 0

def dotdot : Text := ['.', '.']

def empty (c : Text) : Bool := c = [] || c = ['.']

/-- What one component does to the components before it. -/
def push (slashes : ℕ) (comps : List Text) (c : Text) : List Text :=
  if empty c then comps
  else if c ≠ dotdot ∨ (slashes = 0 ∧ comps = []) ∨ comps.getLast? = some dotdot then comps ++ [c]
  else comps.dropLast

/-- A normalised path before its components are joined. -/
structure Norm where
  slashes : ℕ
  comps : List Text
  deriving DecidableEq

def normpath (p : Text) : Norm :=
  ⟨initialSlashes p, (p.splitOn '/').foldl (push (initialSlashes p)) []⟩

def join (a b : Text) : Text :=
  if b.head? = some '/' then b
  else if a = [] ∨ a.getLast? = some '/' then a ++ b
  else a ++ '/' :: b

/-- The components of a key that stay. -/
def names (key : Text) : List Text := (key.splitOn '/').filter fun c => !empty c

def Norm.Below (p dir : Norm) : Prop :=
  p.slashes = dir.slashes ∧ ∃ rest, rest ≠ [] ∧ p.comps = dir.comps ++ rest

theorem push_of_ne {slashes : ℕ} {comps : List Text} {c : Text} (hc : c ≠ dotdot) :
    push slashes comps c = comps ++ [c].filter fun c => !empty c := by
  unfold push
  cases he : empty c with
  | true => simp [he]
  | false =>
    rw [if_neg Bool.false_ne_true, if_pos (.inl hc)]
    simp [he]

theorem foldl_push {slashes : ℕ} {cs comps : List Text} (h : dotdot ∉ cs) :
    cs.foldl (push slashes) comps = comps ++ cs.filter fun c => !empty c := by
  induction cs generalizing comps with
  | nil => simp
  | cons c cs ih =>
    simp only [List.mem_cons, not_or] at h
    rw [List.foldl_cons, push_of_ne (Ne.symm h.1), ih h.2, List.append_assoc, ← List.filter_append]
    rfl

theorem splitOn_slash (a b : Text) :
    (a ++ '/' :: b).splitOn '/' = a.splitOn '/' ++ b.splitOn '/' :=
  List.splitOn_append_cons_self a b

/-- A text without slashes extends the last component. -/
theorem splitOn_append {a b : Text} (hb : '/' ∉ b) :
    ∃ cs c, a.splitOn '/' = cs ++ [c] ∧ (a ++ b).splitOn '/' = cs ++ [c ++ b] := by
  induction a with
  | nil => exact ⟨[], [], rfl, List.splitOn_eq_singleton hb⟩
  | cons x a ih =>
    obtain ⟨cs, c, ha, hab⟩ := ih
    by_cases hx : x = '/'
    · subst hx
      refine ⟨[] :: cs, c, ?_, ?_⟩
      · rw [List.splitOn_cons_eq_if_modifyHead, ha]
        rfl
      · rw [List.cons_append, List.splitOn_cons_eq_if_modifyHead, hab]
        rfl
    · have hne : (x == '/') = false := by simpa using hx
      rw [List.cons_append, List.splitOn_cons_eq_if_modifyHead, List.splitOn_cons_eq_if_modifyHead,
        ha, hab, hne]
      cases cs with
      | nil => exact ⟨[], x :: c, rfl, rfl⟩
      | cons c' cs => exact ⟨(x :: c') :: cs, c, rfl, rfl⟩

theorem dotdot_not_mem_append {a b : Text} (hb : '/' ∉ b) (hlen : 2 < b.length)
    (h : dotdot ∉ a.splitOn '/') : dotdot ∉ (a ++ b).splitOn '/' := by
  obtain ⟨cs, c, ha, hab⟩ := splitOn_append (a := a) hb
  rw [ha] at h
  rw [hab]
  intro hmem
  rcases List.mem_append.mp hmem with hcs | hc
  · exact h (List.mem_append_left _ hcs)
  · have hl := congrArg List.length (List.mem_singleton.mp hc)
    simp only [dotdot, List.length_cons, List.length_nil, List.length_append] at hl
    omega

theorem initialSlashes_append {base key : Text} (hb : base = [] ∨ base.getLast? = some '/')
    (hk : key.head? ≠ some '/') : initialSlashes (base ++ key) = initialSlashes base := by
  cases key with
  | nil => rw [List.append_nil]
  | cons k key =>
    have hk : k ≠ '/' := fun h => hk (congrArg some h)
    match base with
    | [] => simp [initialSlashes, hk]
    | [a] =>
      have ha : a = '/' := by simpa using hb
      subst ha
      simp [initialSlashes, hk]
    | [a, b] =>
      have hb : b = '/' := by simpa using hb
      subst hb
      by_cases ha : a = '/' <;> simp [initialSlashes, ha, hk]
    | a :: b :: c :: base =>
      by_cases ha : a = '/' <;> by_cases hb : b = '/' <;> by_cases hc : c = '/' <;>
        simp [initialSlashes, ha, hb, hc]

/-- A key without dot-dot components names a file below the directory it is joined to. -/
theorem normpath_join {base key : Text} (hb : base = [] ∨ base.getLast? = some '/')
    (hk : key.head? ≠ some '/') (hd : dotdot ∉ key.splitOn '/') :
    normpath (join base key) = ⟨(normpath base).slashes, (normpath base).comps ++ names key⟩ := by
  have hj : join base key = base ++ key := by rw [join, if_neg hk, if_pos hb]
  rw [hj, normpath, initialSlashes_append hb hk, normpath]
  congr 1
  rcases hb with rfl | hl
  · have h0 : ([] : Text).splitOn '/' = [[]] := rfl
    rw [List.nil_append, foldl_push hd, h0]
    rfl
  · obtain ⟨b, rfl⟩ : ∃ b, base = b ++ ['/'] := by
      have hne : base ≠ [] := by
        rintro rfl
        cases hl
      refine ⟨base.dropLast, ?_⟩
      have := List.dropLast_append_getLast? '/' hl
      exact this.symm
    have hs : (b ++ ['/']).splitOn '/' = b.splitOn '/' ++ [[]] := splitOn_slash b []
    rw [List.append_assoc, List.singleton_append, splitOn_slash, hs, List.foldl_append,
      foldl_push hd, List.foldl_append]
    rfl

theorem names_slash (a b : Text) : names (a ++ '/' :: b) = names a ++ names b := by
  rw [names, splitOn_slash, List.filter_append]
  rfl

theorem names_of_not_mem {a : Text} (ha : '/' ∉ a) (he : empty a = false) : names a = [a] := by
  rw [names, List.splitOn_eq_singleton ha]
  simp [he]

end Path
end Lib
