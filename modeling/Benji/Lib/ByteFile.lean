import Mathlib.Data.List.Basic
import Mathlib.Algebra.Order.Floor.Div
import Mathlib.Data.Nat.Init

/-! Byte strings as files: slices, zero runs, writes at an offset, and the division of a
length into blocks of one size. -/
namespace Lib

abbrev Bytes := List UInt8

/-- `b'\0' * n`. -/
def zeros (n : ℕ) : Bytes := List.replicate n 0

/-- At most `len` bytes from `off` on; fewer at the end of the file. -/
def slice (data : Bytes) (off len : ℕ) : Bytes := (data.drop off).take len

/-- Write `d` at offset `off`, filling a gap behind the old end with zeros. -/
def overwrite (file : Bytes) (off : ℕ) (d : Bytes) : Bytes :=
  if d = [] then file
  else file.take off ++ zeros (off - file.length) ++ d ++ file.drop (off + d.length)

@[simp] theorem length_zeros (n : ℕ) : (zeros n).length = n := by simp [zeros]

theorem getElem?_zeros (n i : ℕ) : (zeros n)[i]? = if i < n then some 0 else none := by
  simp [zeros, List.getElem?_replicate]

theorem zeros_add (m n : ℕ) : zeros (m + n) = zeros m ++ zeros n := by
  rw [zeros, List.replicate_add, zeros, zeros]

@[simp] theorem zeros_zero : zeros 0 = [] := rfl

@[simp] theorem length_slice (data : Bytes) (off len : ℕ) :
    (slice data off len).length = min len (data.length - off) := by
  simp [slice]

theorem getElem?_slice (data : Bytes) (off len i : ℕ) :
    (slice data off len)[i]? = if i < len then data[off + i]? else none := by
  simp [slice, List.getElem?_take]

theorem slice_eq_self {data : Bytes} {len : ℕ} (h : data.length ≤ len) :
    slice data 0 len = data := by
  simp [slice, List.take_of_length_le h]

@[simp] theorem slice_zero (d : Bytes) (off : ℕ) : slice d off 0 = [] := List.take_zero

theorem slice_zeros (n off len : ℕ) : slice (zeros n) off len = zeros (min len (n - off)) := by
  simp [slice, zeros]

@[simp] theorem overwrite_nil (file : Bytes) (off : ℕ) : overwrite file off [] = file := by
  simp [overwrite]

theorem length_overwrite {file d : Bytes} {off : ℕ} (hd : d ≠ []) :
    (overwrite file off d).length = max file.length (off + d.length) := by
  have := List.length_pos_iff.mpr hd
  simp only [overwrite, if_neg hd, List.length_append, List.length_take, length_zeros,
    List.length_drop]
  omega

theorem getElem?_overwrite {file d : Bytes} {off : ℕ} (hd : d ≠ []) (i : ℕ) :
    (overwrite file off d)[i]? =
      if off ≤ i ∧ i < off + d.length then d[i - off]?
      else if i < off ∧ file.length ≤ i then some 0
      else file[i]? := by
  have hpos := List.length_pos_iff.mpr hd
  simp only [overwrite, if_neg hd, List.append_assoc, List.getElem?_append, List.length_take,
    length_zeros, List.getElem?_take, getElem?_zeros, List.getElem?_drop]
  split_ifs <;> first | rfl | omega | skip
  all_goals congr 1
  all_goals omega

/-- A write leaves the bytes before and behind it alone. -/
theorem getElem?_overwrite_of_lt {file d : Bytes} {off i : ℕ} (hi : i < off)
    (hf : i < file.length) : (overwrite file off d)[i]? = file[i]? := by
  by_cases hd : d = []
  · simp [hd]
  · rw [getElem?_overwrite hd]
    grind

theorem getElem?_overwrite_of_le {file d : Bytes} {off i : ℕ} (hi : off + d.length ≤ i) :
    (overwrite file off d)[i]? = file[i]? := by
  by_cases hd : d = []
  · simp [hd]
  · rw [getElem?_overwrite hd]
    grind

theorem getElem?_overwrite_inside {file d : Bytes} {off i : ℕ} (hi : off ≤ i)
    (hj : i < off + d.length) : (overwrite file off d)[i]? = d[i - off]? := by
  have hd : d ≠ [] := by rintro rfl; simp at hj; omega
  rw [getElem?_overwrite hd, if_pos ⟨hi, hj⟩]

theorem slice_slice {data : Bytes} {a m b n : ℕ} (h : b + n ≤ m) :
    slice (slice data a m) b n = slice data (a + b) n := by
  apply List.ext_getElem?
  intro i
  rw [getElem?_slice, getElem?_slice, getElem?_slice, Nat.add_assoc]
  by_cases hi : i < n
  · have hm : b + i < m := by omega
    rw [if_pos hi, if_pos hi, if_pos hm]
  · rw [if_neg hi, if_neg hi]

theorem slice_take {data : Bytes} {m a n : ℕ} (h : a + n ≤ m) :
    slice (data.take m) a n = slice data a n := by
  have ht : data.take m = slice data 0 m := rfl
  rw [ht, slice_slice h, Nat.zero_add]

/-- Two writes next to each other are one write. -/
theorem overwrite_append (file a b : Bytes) (off : ℕ) :
    overwrite (overwrite file off a) (off + a.length) b = overwrite file off (a ++ b) := by
  by_cases ha : a = []
  · simp [ha]
  · by_cases hb : b = []
    · simp [hb]
    · apply List.ext_getElem?
      intro i
      have hab : a ++ b ≠ [] := by simp [ha]
      have hl := @length_overwrite file _ off ha
      rw [getElem?_overwrite hb, getElem?_overwrite ha, getElem?_overwrite hab, hl,
        List.length_append, List.getElem?_append]
      grind

/-- A slice beside a write is not changed by it. -/
theorem slice_overwrite_of_disjoint {file d : Bytes} {off a n : ℕ} (hn : a + n ≤ file.length)
    (h : a + n ≤ off ∨ off + d.length ≤ a) : slice (overwrite file off d) a n = slice file a n := by
  apply List.ext_getElem?
  intro i
  rw [getElem?_slice, getElem?_slice]
  by_cases hi : i < n
  · rw [if_pos hi, if_pos hi]
    cases h with
    | inl h => exact getElem?_overwrite_of_lt (by omega) (by omega)
    | inr h => exact getElem?_overwrite_of_le (by omega)
  · rw [if_neg hi, if_neg hi]

/-- A slice around a write is written to itself. -/
theorem slice_overwrite_within {file d : Bytes} {off a n : ℕ} (hn : a + n ≤ file.length)
    (ha : a ≤ off) (h : off + d.length ≤ a + n) :
    slice (overwrite file off d) a n = overwrite (slice file a n) (off - a) d := by
  by_cases hd : d = []
  · rw [hd, overwrite_nil, overwrite_nil]
  · apply List.ext_getElem?
    intro i
    have hl : (slice file a n).length = n := by
      rw [length_slice]
      omega
    rw [getElem?_slice, getElem?_overwrite hd, getElem?_overwrite hd, getElem?_slice, hl]
    grind

theorem length_overwrite_of_le {file d : Bytes} {off : ℕ} (h : off + d.length ≤ file.length) :
    (overwrite file off d).length = file.length := by
  by_cases hd : d = []
  · rw [hd, overwrite_nil]
  · rw [length_overwrite hd]
    omega

/-- A write inside the first part of a file leaves the second part alone. -/
theorem overwrite_append_left {file rest d : Bytes} {off : ℕ} (h : off + d.length ≤ file.length) :
    overwrite (file ++ rest) off d = overwrite file off d ++ rest := by
  by_cases hd : d = []
  · rw [hd, overwrite_nil, overwrite_nil]
  · apply List.ext_getElem?
    intro i
    rw [getElem?_overwrite hd, List.getElem?_append, List.getElem?_append, getElem?_overwrite hd,
      length_overwrite_of_le h, List.length_append]
    grind

/-- `len` bytes from `off` on, zeros behind the end. -/
def window (data : Bytes) (off len : ℕ) : Bytes :=
  (List.range len).map fun i => data[off + i]?.getD 0

@[simp] theorem length_window (data : Bytes) (off len : ℕ) :
    (window data off len).length = len := by
  simp [window]

theorem window_add (data : Bytes) (off m n : ℕ) :
    window data off (m + n) = window data off m ++ window data (off + m) n := by
  simp only [window, List.range_add, List.map_append, List.map_map, Function.comp_def,
    Nat.add_assoc]

theorem window_of_length_le {data : Bytes} {off : ℕ} (h : data.length ≤ off) (len : ℕ) :
    window data off len = zeros len := by
  have hz (i : ℕ) : data[off + i]?.getD 0 = 0 := by
    rw [List.getElem?_eq_none (by omega), Option.getD_none]
  simp only [window, hz, zeros, List.map_const', List.length_range]

theorem window_eq_slice {data : Bytes} {off len : ℕ} (h : off + len ≤ data.length) :
    window data off len = slice data off len := by
  apply List.ext_getElem?
  intro i
  rw [getElem?_slice, window, List.getElem?_map]
  by_cases hi : i < len
  · have hlt : off + i < data.length := by omega
    rw [List.getElem?_range hi, if_pos hi, Option.map_some, List.getElem?_eq_getElem hlt,
      Option.getD_some]
  · rw [List.getElem?_eq_none (by simpa using hi), if_neg hi, Option.map_none]

end Lib
