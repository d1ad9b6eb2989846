import Benji.Lib.Text

/-! Base64 read back, leniently: other characters are skipped, and the text ends where a padding
is complete. -/
namespace Lib

/-- How many characters of the group are read, with the bits that are left of the last one. -/
inductive Quad where
  | start
  | one (left : ℕ)
  | two (left : ℕ) (padded : Bool)
  | three (left : ℕ)

namespace Quad

/-- One more character of the alphabet. -/
def add : Quad → ℕ → Quad × Bytes
  | start, n => (one n, [])
  | one m, n => (two (n % 16) false, [UInt8.ofNat (m * 4 + n / 16)])
  | two m _, n => (three (n % 4), [UInt8.ofNat (m * 16 + n / 4)])
  | three m, n => (start, [UInt8.ofNat (m * 64 + n)])

/-- One more padding character, which may be the last one. -/
def pad : Quad → Option Quad
  | start => some start
  | one m => some (one m)
  | two m false => some (two m true)
  | two _ true => none
  | three _ => none

end Quad

def b64Index (c : Char) : Option ℕ := b64Alphabet.idxOf? c

def b64decodeFrom : Quad → List Char → Option Bytes
  | .start, [] => some []
  | _, [] => none
  | q, c :: cs =>
    if c = '=' then
      match q.pad with
      | none => some []
      | some q => b64decodeFrom q cs
    else match b64Index c with
      | none => b64decodeFrom q cs
      | some n => (b64decodeFrom (q.add n).1 cs).map ((q.add n).2 ++ ·)

/-- `base64.b64decode` of a text, without validation. -/
def b64decode (s : List Char) : Option Bytes :=
  if s.all fun c => c.toNat < 128 then b64decodeFrom .start s else none

theorem b64Index_b64Char {n : ℕ} (hn : n < 64) : b64Index (b64Char n) = some n := by
  have hall : ∀ n < 64, b64Index (b64Char n) = some n := by decide
  exact hall n hn

theorem b64decodeFrom_b64Char {q : Quad} {n : ℕ} {cs : List Char} (hn : n < 64) :
    b64decodeFrom q (b64Char n :: cs) =
      (b64decodeFrom (q.add n).1 cs).map ((q.add n).2 ++ ·) := by
  rw [b64decodeFrom, if_neg (b64Char_ne hn), b64Index_b64Char hn]

theorem ofNat_eq {b : UInt8} {n : ℕ} (h : n = b.toNat) : UInt8.ofNat n = b := by
  rw [h, UInt8.ofNat_toNat]

theorem b64decodeFrom_b64encode (b : Bytes) : b64decodeFrom .start (b64encode b) = some b := by
  induction b using b64encode.induct with
  | case1 x y z r ih =>
    have hx := x.toNat_lt
    have hy := y.toNat_lt
    have hz := z.toNat_lt
    rw [b64encode, b64decodeFrom_b64Char (by omega), b64decodeFrom_b64Char (by omega),
      b64decodeFrom_b64Char (by omega), b64decodeFrom_b64Char (by omega)]
    simp only [Quad.add, ih, Option.map_some, List.nil_append, List.cons_append]
    rw [ofNat_eq (b := x) (by omega), ofNat_eq (b := y) (by omega), ofNat_eq (b := z) (by omega)]
  | case2 x y =>
    have hx := x.toNat_lt
    have hy := y.toNat_lt
    rw [b64encode, b64decodeFrom_b64Char (by omega), b64decodeFrom_b64Char (by omega),
      b64decodeFrom_b64Char (by omega)]
    simp only [Quad.add, b64decodeFrom, Quad.pad, if_true, Option.map_some, List.nil_append,
      List.cons_append]
    rw [ofNat_eq (b := x) (by omega), ofNat_eq (b := y) (by omega)]
  | case3 x =>
    have hx := x.toNat_lt
    rw [b64encode, b64decodeFrom_b64Char (by omega), b64decodeFrom_b64Char (by omega)]
    simp only [Quad.add, b64decodeFrom, Quad.pad, if_true, Option.map_some, List.nil_append,
      List.cons_append]
    rw [ofNat_eq (b := x) (by omega)]
  | case4 => rfl

theorem toNat_b64encode (b : Bytes) : (b64encode b).all fun c => c.toNat < 128 := by
  have hall : (b64Alphabet.all fun c => c.toNat < 128) = true := by decide
  have hchar : ∀ n, decide ((b64Char n).toNat < 128) = true := by
    intro n
    rw [b64Char, List.getD_eq_getElem?_getD]
    rcases hn : b64Alphabet[n]? with _ | c
    · decide
    · exact List.all_eq_true.mp hall c (List.mem_of_getElem? hn)
  induction b using b64encode.induct with
  | case1 x y z r ih => simp only [b64encode, List.all_cons, hchar, ih, Bool.and_self]
  | case2 x y => simp only [b64encode, List.all_cons, hchar]; decide
  | case3 x => simp only [b64encode, List.all_cons, hchar]; decide
  | case4 => rfl

theorem b64decode_b64encode (b : Bytes) : b64decode (b64encode b) = some b := by
  rw [b64decode, if_pos (toNat_b64encode b), b64decodeFrom_b64encode]

end Lib
