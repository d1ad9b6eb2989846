import Benji.Lib.ByteFile

/-! Unsigned integers as big-endian bytes of a fixed width. -/
namespace Lib

def toBE : ℕ → ℕ → Bytes
  | 0, _ => []
  | w + 1, n => toBE w (n / 256) ++ [UInt8.ofNat (n % 256)]

def fromBE (b : Bytes) : ℕ := b.foldl (fun n x => n * 256 + x.toNat) 0

@[simp] theorem length_toBE (w n : ℕ) : (toBE w n).length = w := by
  induction w generalizing n with
  | zero => rfl
  | succ w ih => rw [toBE, List.length_append, ih, List.length_singleton]

theorem fromBE_append_singleton (b : Bytes) (x : UInt8) :
    fromBE (b ++ [x]) = fromBE b * 256 + x.toNat := by
  rw [fromBE, List.foldl_append]
  rfl

theorem fromBE_toBE {w n : ℕ} (h : n < 256 ^ w) : fromBE (toBE w n) = n := by
  induction w generalizing n with
  | zero =>
    have hn : n = 0 := by simpa using h
    rw [hn]
    rfl
  | succ w ih =>
    have hdiv : n / 256 < 256 ^ w := Nat.div_lt_of_lt_mul (by rwa [Nat.pow_succ'] at h)
    have hmod : (UInt8.ofNat (n % 256)).toNat = n % 256 := by simp
    rw [toBE, fromBE_append_singleton, ih hdiv, hmod]
    omega

theorem fromBE_lt (b : Bytes) : fromBE b < 256 ^ b.length := by
  induction b using List.reverseRecOn with
  | nil => decide
  | append_singleton b x ih =>
    have hx := x.toNat_lt
    rw [fromBE_append_singleton, List.length_append, List.length_singleton, Nat.pow_succ]
    omega

theorem toBE_fromBE (b : Bytes) : toBE b.length (fromBE b) = b := by
  induction b using List.reverseRecOn with
  | nil => rfl
  | append_singleton b x ih =>
    have hx := x.toNat_lt
    have hdiv : (fromBE b * 256 + x.toNat) / 256 = fromBE b := by omega
    have hmod : (fromBE b * 256 + x.toNat) % 256 = x.toNat := by omega
    rw [fromBE_append_singleton, List.length_append, List.length_singleton, toBE, hdiv, hmod, ih,
      UInt8.ofNat_toNat]

/-- A field of a packed record. -/
theorem slice_append (a b c : Bytes) {off len : ℕ} (ha : a.length = off) (hb : b.length = len) :
    slice (a ++ b ++ c) off len = b := by
  rw [slice, List.append_assoc, ← ha, List.drop_left, ← hb, List.take_left]

end Lib
