import Mathlib.Data.List.Basic
import Benji.Lib.ByteFile

/-! Bytes as text and text as bytes: UTF-8 and base64. -/
namespace Lib

/-- `s.encode('utf-8')`. -/
def encodeUtf8 (s : String) : Bytes := s.toByteArray.data.toList

/-- `b.decode('utf-8')`. -/
def decodeUtf8 (b : Bytes) : Option String := String.fromUTF8? ⟨b.toArray⟩

theorem decodeUtf8_encodeUtf8 (s : String) : decodeUtf8 (encodeUtf8 s) = some s := by
  have hb : (⟨(encodeUtf8 s).toArray⟩ : ByteArray) = s.toByteArray := by simp [encodeUtf8]
  rw [decodeUtf8, hb, String.fromUTF8?, dif_pos s.isValidUTF8]
  rfl

theorem encodeUtf8_append (s t : String) :
    encodeUtf8 (s ++ t) = encodeUtf8 s ++ encodeUtf8 t := by
  simp [encodeUtf8, String.toByteArray_append]

theorem encodeUtf8_eq_nil {s : String} (h : encodeUtf8 s = []) : s = "" := by
  have hs := decodeUtf8_encodeUtf8 s
  rw [h] at hs
  exact (Option.some.inj (hs.symm.trans (decodeUtf8_encodeUtf8 "")))

def b64Alphabet : List Char :=
  "ABCDEFGHIJKLMNOPQRSTUVWXYZabcdefghijklmnopqrstuvwxyz0123456789+/".toList

def b64Char (n : ℕ) : Char := b64Alphabet.getD n '='

/-- `base64.b64encode`. -/
def b64encode : Bytes → List Char
  | a :: b :: c :: r => b64Char (a.toNat / 4) :: b64Char (a.toNat % 4 * 16 + b.toNat / 16) ::
      b64Char (b.toNat % 16 * 4 + c.toNat / 64) :: b64Char (c.toNat % 64) :: b64encode r
  | [a, b] => [b64Char (a.toNat / 4), b64Char (a.toNat % 4 * 16 + b.toNat / 16),
      b64Char (b.toNat % 16 * 4), '=']
  | [a] => [b64Char (a.toNat / 4), b64Char (a.toNat % 4 * 16), '=', '=']
  | [] => []

theorem length_b64Alphabet : b64Alphabet.length = 64 := by decide

theorem b64Char_eq {n : ℕ} (hn : n < 64) :
    b64Char n = b64Alphabet.get ⟨n, length_b64Alphabet ▸ hn⟩ := by
  rw [b64Char, List.getD_eq_getElem?_getD, List.getElem?_eq_getElem (length_b64Alphabet ▸ hn)]
  rfl

theorem b64Char_inj {m n : ℕ} (hm : m < 64) (hn : n < 64) (h : b64Char m = b64Char n) :
    m = n := by
  have hd : b64Alphabet.Nodup := by decide
  rw [b64Char_eq hm, b64Char_eq hn] at h
  exact Fin.mk.inj_iff.mp ((List.Nodup.get_inj_iff hd).mp h)

theorem b64Char_ne {n : ℕ} (hn : n < 64) : b64Char n ≠ '=' := by
  have hne : '=' ∉ b64Alphabet := by decide
  rw [b64Char_eq hn]
  exact fun h => hne (h ▸ List.getElem_mem _)

theorem b64encode_inj {a b : Bytes} (h : b64encode a = b64encode b) : a = b := by
  have hlt (x : UInt8) : x.toNat < 256 := x.toNat_lt
  induction a using b64encode.induct generalizing b with
  | case1 x y z r ih =>
    have hx := hlt x
    have hy := hlt y
    have hz := hlt z
    match b with
    | [] => simp [b64encode] at h
    | [x'] =>
      simp only [b64encode, List.cons.injEq] at h
      exact absurd h.2.2.1 (b64Char_ne (by omega))
    | [x', y'] =>
      simp only [b64encode, List.cons.injEq] at h
      exact absurd h.2.2.2.1 (b64Char_ne (by omega))
    | x' :: y' :: z' :: r' =>
      have hx' := hlt x'
      have hy' := hlt y'
      have hz' := hlt z'
      simp only [b64encode, List.cons.injEq] at h
      have h1 := b64Char_inj (by omega) (by omega) h.1
      have h2 := b64Char_inj (by omega) (by omega) h.2.1
      have h3 := b64Char_inj (by omega) (by omega) h.2.2.1
      have h4 := b64Char_inj (by omega) (by omega) h.2.2.2.1
      have ex : x = x' := UInt8.toNat_inj.mp (by omega)
      have ey : y = y' := UInt8.toNat_inj.mp (by omega)
      have ez : z = z' := UInt8.toNat_inj.mp (by omega)
      rw [ex, ey, ez, ih h.2.2.2.2]
  | case2 x y =>
    have hx := hlt x
    have hy := hlt y
    match b with
    | [] => simp [b64encode] at h
    | [x'] =>
      simp only [b64encode, List.cons.injEq] at h
      exact absurd h.2.2.1 (b64Char_ne (by omega))
    | [x', y'] =>
      have hx' := hlt x'
      have hy' := hlt y'
      simp only [b64encode, List.cons.injEq] at h
      have h1 := b64Char_inj (by omega) (by omega) h.1
      have h2 := b64Char_inj (by omega) (by omega) h.2.1
      have h3 := b64Char_inj (by omega) (by omega) h.2.2.1
      have ex : x = x' := UInt8.toNat_inj.mp (by omega)
      have ey : y = y' := UInt8.toNat_inj.mp (by omega)
      rw [ex, ey]
    | x' :: y' :: z' :: r' =>
      simp only [b64encode, List.cons.injEq] at h
      exact absurd h.2.2.2.1.symm (b64Char_ne (by omega))
  | case3 x =>
    have hx := hlt x
    match b with
    | [] => simp [b64encode] at h
    | [x'] =>
      have hx' := hlt x'
      simp only [b64encode, List.cons.injEq] at h
      have h1 := b64Char_inj (by omega) (by omega) h.1
      have h2 := b64Char_inj (by omega) (by omega) h.2.1
      have ex : x = x' := UInt8.toNat_inj.mp (by omega)
      rw [ex]
    | [x', y'] =>
      have hy' := hlt y'
      simp only [b64encode, List.cons.injEq] at h
      exact absurd h.2.2.1.symm (b64Char_ne (by omega))
    | x' :: y' :: z' :: r' =>
      have hy' := hlt y'
      have hz' := hlt z'
      simp only [b64encode, List.cons.injEq] at h
      exact absurd h.2.2.1.symm (b64Char_ne (by omega))
  | case4 =>
    match b with
    | [] => rfl
    | [x'] => simp [b64encode] at h
    | [x', y'] => simp [b64encode] at h
    | x' :: y' :: z' :: r' => simp [b64encode] at h

end Lib
