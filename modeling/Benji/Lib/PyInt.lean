import Benji.Lib.Split
import Mathlib.Data.List.Basic
import Mathlib.Data.Int.Notation
import Mathlib.Algebra.Order.Ring.Nat

/-! Python's `int(s, 16)`: white space around the number, a sign, a prefix, and single underscores
between the digits. -/
namespace Lib

/-- `str.isspace` and `unicodedata.decimal` outside ASCII. -/
structure UnicodeData where
  isSpace : Char → Bool
  decimal : Char → Option (Fin 10)

/-- What suffices for texts in ASCII. -/
def UnicodeData.ascii : UnicodeData := ⟨fun _ => false, fun _ => none⟩

namespace PyInt
variable {U : UnicodeData} {s t : List Char} {c : Char} {n : ℕ}

/-- Digits and white space outside ASCII are read as their equals in ASCII. -/
def toAscii (U : UnicodeData) (c : Char) : Char :=
  if c.toNat < 127 then c
  else if U.isSpace c then ' '
  else match U.decimal c with
    | some d => Nat.digitChar d
    | none => '?'

def isSpace (c : Char) : Bool := c = ' ' || (9 ≤ c.toNat && c.toNat ≤ 13)

def strip (s : List Char) : List Char :=
  ((s.dropWhile isSpace).reverse.dropWhile isSpace).reverse

def digitValue (c : Char) : Option ℕ :=
  if '0' ≤ c ∧ c ≤ '9' then some (c.toNat - 48)
  else if 'a' ≤ c ∧ c ≤ 'f' then some (c.toNat - 87)
  else if 'A' ≤ c ∧ c ≤ 'F' then some (c.toNat - 55)
  else none

def value (digits : List ℕ) : ℕ := digits.foldl (fun n d => 16 * n + d) 0

/-- There are digits, and no underscore stands at an end or next to another. -/
def digits (s : List Char) : Option ℕ :=
  if [] ∉ s.splitOn '_' ∧ (s.filter (· ≠ '_')).all fun c => (digitValue c).isSome then
    some (value ((s.filter (· ≠ '_')).filterMap digitValue))
  else none

def dropUnderscore : List Char → List Char
  | '_' :: s => s
  | s => s

def magnitude : List Char → Option ℕ
  | '0' :: 'x' :: s => digits (dropUnderscore s)
  | '0' :: 'X' :: s => digits (dropUnderscore s)
  | s => digits s

def signed : List Char → Option ℤ
  | '-' :: s => (magnitude s).map fun n : ℕ => -(n : ℤ)
  | '+' :: s => (magnitude s).map fun n : ℕ => (n : ℤ)
  | s => (magnitude s).map fun n : ℕ => (n : ℤ)

end PyInt

/-- `int(s, 16)`; `none` is a `ValueError`. -/
def int16 (U : UnicodeData) (s : List Char) : Option ℤ :=
  PyInt.signed (PyInt.strip (s.map (PyInt.toAscii U)))

namespace PyInt
variable {U : UnicodeData} {s t : List Char} {c : Char} {n : ℕ} {v : ℤ}

theorem digitValue_lt (h : digitValue c = some n) : n < 16 := by
  unfold digitValue at h
  split_ifs at h with h1 h2 h3
  · have hle : c.toNat ≤ 57 := h1.2
    cases h
    omega
  · have hle : c.toNat ≤ 102 := h2.2
    cases h
    omega
  · have hle : c.toNat ≤ 70 := h3.2
    cases h
    omega

theorem foldl_lt {ds : List ℕ} (h : ∀ d ∈ ds, d < 16) (m : ℕ) :
    ds.foldl (fun n d => 16 * n + d) m < 16 ^ ds.length * (m + 1) := by
  induction ds generalizing m with
  | nil => simp
  | cons d ds ih =>
    obtain ⟨hd, hds⟩ := List.forall_mem_cons.mp h
    have hle : 16 * m + d + 1 ≤ 16 * (m + 1) := by omega
    calc (d :: ds).foldl (fun n d => 16 * n + d) m
        = ds.foldl (fun n d => 16 * n + d) (16 * m + d) := rfl
      _ < 16 ^ ds.length * (16 * m + d + 1) := ih hds _
      _ ≤ 16 ^ ds.length * (16 * (m + 1)) := Nat.mul_le_mul_left _ hle
      _ = 16 ^ (ds.length + 1) * (m + 1) := by rw [Nat.pow_succ, Nat.mul_assoc]

theorem value_lt {ds : List ℕ} (h : ∀ d ∈ ds, d < 16) : value ds < 16 ^ ds.length := by
  have hlt := foldl_lt h 0
  rwa [Nat.zero_add, Nat.mul_one] at hlt

theorem digits_lt (h : digits s = some n) : n < 16 ^ s.length := by
  unfold digits at h
  split_ifs at h with hs
  obtain rfl := Option.some.inj h
  have hlt : ∀ d ∈ (s.filter (· ≠ '_')).filterMap digitValue, d < 16 := by
    intro d hd
    obtain ⟨c, -, hc⟩ := List.mem_filterMap.mp hd
    exact digitValue_lt hc
  apply (value_lt hlt).trans_le
  apply Nat.pow_le_pow_right (by decide)
  exact (List.length_filterMap_le _ _).trans (List.length_filter_le _ s)

theorem length_dropUnderscore_le (s : List Char) : (dropUnderscore s).length ≤ s.length := by
  unfold dropUnderscore
  split
  · exact Nat.le_succ _
  · exact le_refl _

theorem magnitude_lt (h : magnitude s = some n) : n < 16 ^ s.length := by
  have hpow {l k : ℕ} (hl : l ≤ k) : 16 ^ l ≤ 16 ^ k := Nat.pow_le_pow_right (by decide) hl
  unfold magnitude at h
  split at h
  · rename_i rest
    have hle := length_dropUnderscore_le rest
    exact (digits_lt h).trans_le (hpow (by simp only [List.length_cons]; omega))
  · rename_i rest
    have hle := length_dropUnderscore_le rest
    exact (digits_lt h).trans_le (hpow (by simp only [List.length_cons]; omega))
  · exact digits_lt h

theorem signed_lt (h : signed s = some v) : v.natAbs < 16 ^ s.length := by
  have hcons {t : List Char} {n : ℕ} {c : Char} (hn : magnitude t = some n) :
      n < 16 ^ (c :: t).length :=
    (magnitude_lt hn).trans_le (Nat.pow_le_pow_right (by decide) (Nat.le_succ t.length))
  unfold signed at h
  split at h
  · obtain ⟨n, hn, rfl⟩ := Option.map_eq_some_iff.mp h
    rw [Int.natAbs_neg, Int.natAbs_natCast]
    exact hcons hn
  · obtain ⟨n, hn, rfl⟩ := Option.map_eq_some_iff.mp h
    rw [Int.natAbs_natCast]
    exact hcons hn
  · obtain ⟨n, hn, rfl⟩ := Option.map_eq_some_iff.mp h
    rw [Int.natAbs_natCast]
    exact magnitude_lt hn

theorem length_strip_le (s : List Char) : (strip s).length ≤ s.length := by
  have hdrop (t : List Char) : (t.dropWhile isSpace).length ≤ t.length :=
    (List.dropWhile_suffix isSpace).length_le
  rw [strip, List.length_reverse]
  apply (hdrop _).trans
  rw [List.length_reverse]
  exact hdrop s

/-- No number is larger than its digits allow. -/
theorem int16_lt (h : int16 U s = some v) : v.natAbs < 16 ^ s.length := by
  apply (signed_lt h).trans_le
  apply Nat.pow_le_pow_right (by decide)
  have hle := length_strip_le (s.map (toAscii U))
  rwa [List.length_map] at hle

theorem strip_of_forall (h : ∀ c ∈ s, isSpace c = false) : strip s = s := by
  have hdrop {t : List Char} (ht : ∀ c ∈ t, isSpace c = false) : t.dropWhile isSpace = t := by
    cases t with
    | nil => rfl
    | cons c t => rw [List.dropWhile_cons_of_neg (by simp [ht c List.mem_cons_self])]
  rw [strip, hdrop h, hdrop, List.reverse_reverse]
  intro c hc
  exact h c (List.mem_reverse.mp hc)

theorem digitChar_lt : ∀ d < 16, d.digitChar.toNat < 127 := by decide

theorem isSpace_digitChar : ∀ d < 16, isSpace d.digitChar = false := by decide

theorem digitValue_digitChar : ∀ d < 16, digitValue d.digitChar = some d := by decide

theorem digitChar_not_mem : ∀ d < 16, d.digitChar ∉ ['_', '-', '+', 'x', 'X'] := by decide

/-- Lower-case digits are read as what they stand for. -/
theorem int16_digitChar (U : UnicodeData) {ds : List ℕ} (h : ∀ d ∈ ds, d < 16) (hne : ds ≠ []) :
    int16 U (ds.map Nat.digitChar) = some (value ds : ℤ) := by
  have hascii : (ds.map Nat.digitChar).map (toAscii U) = ds.map Nat.digitChar := by
    rw [List.map_map]
    apply List.map_congr_left
    intro d hd
    exact if_pos (digitChar_lt d (h d hd))
  have hother : ∀ c ∈ ['_', '-', '+', 'x', 'X'], c ∉ ds.map Nat.digitChar := by
    intro c hc hmem
    obtain ⟨d, hd, rfl⟩ := List.mem_map.mp hmem
    exact digitChar_not_mem d (h d hd) hc
  have hfilter : (ds.map Nat.digitChar).filter (· ≠ '_') = ds.map Nat.digitChar := by
    rw [List.filter_eq_self]
    intro c hc
    apply decide_eq_true
    intro heq
    exact hother '_' (by decide) (heq ▸ hc)
  have hdigits : digits (ds.map Nat.digitChar) = some (value ds) := by
    have hvalues : (ds.map Nat.digitChar).filterMap digitValue = ds := by
      rw [List.filterMap_map]
      calc ds.filterMap (digitValue ∘ Nat.digitChar)
          = ds.filterMap some := by
            apply List.filterMap_congr
            intro d hd
            exact digitValue_digitChar d (h d hd)
        _ = ds := List.filterMap_some
    rw [digits, hfilter, hvalues, if_pos]
    constructor
    · rw [List.splitOn_eq_singleton (hother '_' (by decide)), List.mem_singleton]
      intro heq
      exact hne (List.map_eq_nil_iff.mp heq.symm)
    · rw [List.all_eq_true]
      intro c hc
      obtain ⟨d, hd, rfl⟩ := List.mem_map.mp hc
      rw [digitValue_digitChar d (h d hd)]
      rfl
  have hmag : magnitude (ds.map Nat.digitChar) = some (value ds) := by
    unfold magnitude
    split
    · rename_i rest heq
      exact absurd (heq ▸ List.mem_cons_of_mem _ List.mem_cons_self) (hother 'x' (by decide))
    · rename_i rest heq
      exact absurd (heq ▸ List.mem_cons_of_mem _ List.mem_cons_self) (hother 'X' (by decide))
    · exact hdigits
  rw [int16, hascii, strip_of_forall]
  · unfold signed
    split
    · rename_i rest heq
      exact absurd (heq ▸ List.mem_cons_self) (hother '-' (by decide))
    · rename_i rest heq
      exact absurd (heq ▸ List.mem_cons_self) (hother '+' (by decide))
    · rw [hmag]
      rfl
  · intro c hc
    obtain ⟨d, hd, rfl⟩ := List.mem_map.mp hc
    exact isSpace_digitChar d (h d hd)

end PyInt

end Lib
