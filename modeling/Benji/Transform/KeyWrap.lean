import Benji.Lib.BigEndian
import Benji.Lib.Rounds

/-! `aes_keywrap`: a key is encrypted in six passes over its parts, and unwrapping takes the
passes back. What unwraps is what wrapping yields. -/
namespace Benji.Transform
open Lib

/-- AES in ECB mode on one block. -/
structure BlockCipher where
  encrypt : Bytes → Bytes → Bytes
  decrypt : Bytes → Bytes → Bytes
  length_encrypt : ∀ kek b, b.length = 16 → (encrypt kek b).length = 16
  length_decrypt : ∀ kek b, b.length = 16 → (decrypt kek b).length = 16
  decrypt_encrypt : ∀ kek b, b.length = 16 → decrypt kek (encrypt kek b) = b
  encrypt_decrypt : ∀ kek b, b.length = 16 → encrypt kek (decrypt kek b) = b

inductive WrapError where
  /-- Raised by `AES.new`. -/
  | keyLength (length : ℕ)
  /-- Raised by `QUAD.pack` and `QUAD.unpack`. -/
  | structError
  | integrityCheckFailed (found expected : ℕ)
  deriving DecidableEq

/-- The lengths that `AES.new` accepts. -/
def ValidKek (kek : Bytes) : Prop := kek.length = 16 ∨ kek.length = 24 ∨ kek.length = 32

instance (kek : Bytes) : Decidable (ValidKek kek) := inferInstanceAs (Decidable (_ ∨ _))

/-- `A` and the parts in `R`, which count from one. -/
structure Registers where
  a : ℕ
  r : List Bytes

/-- The parts of eight bytes; what is left at the end is dropped. -/
def parts (data : Bytes) : List Bytes :=
  (List.range (data.length / 8)).map fun i => slice data (i * 8) 8

/-- The counters in the order of the passes: `n * j + i` for part `i`. -/
def counters (n : ℕ) : List (ℕ × ℕ) :=
  (List.range 6).flatMap fun j => (List.range n).map fun i => (i, n * j + (i + 1))

section Rounds
variable (c : BlockCipher) (kek : Bytes)

def wrapRound (x : ℕ × ℕ) (s : Registers) : Option Registers :=
  if s.a < 256 ^ 8 then
    let b := c.encrypt kek (toBE 8 s.a ++ s.r.getD x.1 [])
    some ⟨fromBE (b.take 8) ^^^ x.2, s.r.set x.1 (b.drop 8)⟩
  else none

def unwrapRound (x : ℕ × ℕ) (s : Registers) : Option Registers :=
  if s.a ^^^ x.2 < 256 ^ 8 then
    let b := c.decrypt kek (toBE 8 (s.a ^^^ x.2) ++ s.r.getD x.1 [])
    some ⟨fromBE (b.take 8), s.r.set x.1 (b.drop 8)⟩
  else none

end Rounds

def pack (a : ℕ) (r : List Bytes) : Except WrapError Bytes :=
  if a < 256 ^ 8 then .ok (toBE 8 a ++ r.flatten) else .error .structError

def aesWrapKey (c : BlockCipher) (kek plaintext : Bytes) (iv : ℕ) : Except WrapError Bytes :=
  if ValidKek kek then
    match rounds (wrapRound c kek) (counters (plaintext.length / 8)) ⟨iv, parts plaintext⟩ with
    | some s => pack s.a s.r
    | none => .error .structError
  else .error (.keyLength kek.length)

def aesUnwrapKeyAndIv (c : BlockCipher) (kek wrapped : Bytes) : Except WrapError (Bytes × ℕ) :=
  if wrapped.length < 8 then .error .structError
  else if ValidKek kek then
    match rounds (unwrapRound c kek) (counters (wrapped.length / 8 - 1)).reverse
      ⟨fromBE (wrapped.take 8), parts (wrapped.drop 8)⟩ with
    | some s => .ok (s.r.flatten, s.a)
    | none => .error .structError
  else .error (.keyLength kek.length)

def aesUnwrapKey (c : BlockCipher) (kek wrapped : Bytes) (iv : ℕ) : Except WrapError Bytes := do
  let (key, keyIv) ← aesUnwrapKeyAndIv c kek wrapped
  if keyIv ≠ iv then .error (.integrityCheckFailed keyIv iv) else .ok key

def defaultIv : ℕ := 0xa6a6a6a6a6a6a6a6

/-! ### Parts -/

section Parts
variable {data : Bytes} {r : List Bytes}

theorem length_parts : (parts data).length = data.length / 8 := by simp [parts]

theorem length_of_mem_parts {p : Bytes} (h : p ∈ parts data) : p.length = 8 := by
  obtain ⟨i, hi, rfl⟩ := List.mem_map.mp h
  rw [List.mem_range] at hi
  rw [length_slice]
  omega

theorem parts_append {p : Bytes} (hp : p.length = 8) : parts (p ++ data) = p :: parts data := by
  have hlen : (p ++ data).length / 8 = data.length / 8 + 1 := by
    rw [List.length_append, hp]
    omega
  rw [parts, hlen, List.range_succ_eq_map, List.map_cons, List.map_map, parts]
  congr 1
  · rw [Nat.zero_mul, slice, List.drop_zero, ← hp, List.take_left]
  · apply List.map_congr_left
    intro i _
    have hdrop : (i + 1) * 8 = p.length + i * 8 := by omega
    rw [Function.comp_apply, slice, hdrop, ← List.drop_drop, List.drop_left, slice]

theorem parts_flatten (hr : ∀ p ∈ r, p.length = 8) : parts r.flatten = r := by
  induction r with
  | nil => rfl
  | cons p r ih =>
    rw [List.flatten_cons, parts_append (hr p List.mem_cons_self),
      ih fun q hq => hr q (List.mem_cons_of_mem p hq)]

theorem length_flatten_of_parts (hr : ∀ p ∈ r, p.length = 8) :
    r.flatten.length = 8 * r.length := by
  induction r with
  | nil => rfl
  | cons p r ih =>
    rw [List.flatten_cons, List.length_append, hr p List.mem_cons_self,
      ih fun q hq => hr q (List.mem_cons_of_mem p hq), List.length_cons]
    omega

theorem flatten_parts : (parts data).flatten = data.take (8 * (data.length / 8)) := by
  induction hn : data.length / 8 generalizing data with
  | zero =>
    rw [parts, hn]
    rfl
  | succ n ih =>
    have hle : 8 ≤ data.length := by omega
    have hp : (data.take 8).length = 8 := by
      rw [List.length_take]
      omega
    have hrest : (data.drop 8).length / 8 = n := by
      rw [List.length_drop]
      omega
    have hsplit := ih hrest
    conv_lhs => rw [← List.take_append_drop 8 data, parts_append hp]
    rw [List.flatten_cons, hsplit, Nat.mul_add_one, Nat.add_comm (8 * n), List.take_add]

end Parts

/-! ### Rounds -/

section Undo
variable {c : BlockCipher} {kek : Bytes} {n : ℕ} {s t : Registers}

/-- The registers between the rounds for `n` parts. -/
def Aligned (n : ℕ) (s : Registers) : Prop := s.r.length = n ∧ ∀ p ∈ s.r, p.length = 8

theorem Aligned.getD (h : Aligned n s) {i : ℕ} (hi : i < n) : (s.r.getD i []).length = 8 := by
  have hlt : i < s.r.length := h.1.symm ▸ hi
  rw [List.getD_eq_getElem?_getD, List.getElem?_eq_getElem hlt]
  exact h.2 _ (List.getElem_mem hlt)

theorem Aligned.set (h : Aligned n s) (i : ℕ) {a : ℕ} {b : Bytes} (hb : b.length = 16) :
    Aligned n ⟨a, s.r.set i (b.drop 8)⟩ := by
  refine ⟨by rw [List.length_set, h.1], fun p hp => ?_⟩
  rcases List.mem_or_eq_of_mem_set hp with hold | rfl
  · exact h.2 p hold
  · rw [List.length_drop, hb]

theorem lt_of_mem_counters {x : ℕ × ℕ} (h : x ∈ counters n) : x.1 < n := by
  obtain ⟨j, -, hx⟩ := List.mem_flatMap.mp h
  obtain ⟨i, hi, rfl⟩ := List.mem_map.mp hx
  exact List.mem_range.mp hi

theorem take_toBE_append (a : ℕ) (p : Bytes) : (toBE 8 a ++ p).take 8 = toBE 8 a :=
  List.take_left' (length_toBE 8 a)

theorem drop_toBE_append (a : ℕ) (p : Bytes) : (toBE 8 a ++ p).drop 8 = p :=
  List.drop_left' (length_toBE 8 a)

theorem toBE_take_append_drop {b : Bytes} (hb : b.length = 16) :
    toBE 8 (fromBE (b.take 8)) ++ b.drop 8 = b := by
  have hlen : (b.take 8).length = 8 := by
    rw [List.length_take]
    omega
  have hback := toBE_fromBE (b.take 8)
  rw [hlen] at hback
  rw [hback, List.take_append_drop]

theorem fromBE_take_lt (b : Bytes) : fromBE (b.take 8) < 256 ^ 8 := by
  have hle : (b.take 8).length ≤ 8 := by
    rw [List.length_take]
    omega
  exact lt_of_lt_of_le (fromBE_lt _) (Nat.pow_le_pow_right (by decide) hle)

theorem getD_set {r : List Bytes} {i : ℕ} (hi : i < r.length) (p : Bytes) :
    (r.set i p).getD i [] = p := by
  rw [List.getD_eq_getElem?_getD, List.getElem?_set_self hi, Option.getD_some]

theorem set_set_getD {r : List Bytes} {i : ℕ} (hi : i < r.length) (p : Bytes) :
    (r.set i p).set i (r.getD i []) = r := by
  rw [List.set_set, List.getD_eq_getElem?_getD, List.getElem?_eq_getElem hi, Option.getD_some,
    List.set_getElem_self]

theorem unwrap_undoes : Undoes (unwrapRound c kek) (wrapRound c kek) (Aligned n) (counters n) := by
  intro x hx s t hs h
  have hi := lt_of_mem_counters hx
  obtain ⟨ha, ht⟩ := Option.ite_none_right_eq_some.mp h
  have hblock : (toBE 8 s.a ++ s.r.getD x.1 []).length = 16 := by
    rw [List.length_append, length_toBE, hs.getD hi]
  have hlen := c.length_encrypt kek _ hblock
  cases ht
  refine ⟨hs.set _ hlen, ?_⟩
  have hlt : x.1 < s.r.length := hs.1.symm ▸ hi
  simp only [unwrapRound, Nat.xor_assoc, Nat.xor_self, Nat.xor_zero]
  rw [if_pos (fromBE_take_lt _), getD_set hlt, toBE_take_append_drop hlen,
    c.decrypt_encrypt kek _ hblock, take_toBE_append, drop_toBE_append, fromBE_toBE ha,
    set_set_getD hlt]

theorem wrap_undoes {is : List (ℕ × ℕ)} (his : ∀ x ∈ is, x ∈ counters n) :
    Undoes (wrapRound c kek) (unwrapRound c kek) (fun s => Aligned n s ∧ s.a < 256 ^ 8) is := by
  intro x hx s t hs h
  have hi := lt_of_mem_counters (his x hx)
  obtain ⟨ha, ht⟩ := Option.ite_none_right_eq_some.mp h
  have hblock : (toBE 8 (s.a ^^^ x.2) ++ s.r.getD x.1 []).length = 16 := by
    rw [List.length_append, length_toBE, hs.1.getD hi]
  have hlen := c.length_decrypt kek _ hblock
  cases ht
  refine ⟨⟨hs.1.set _ hlen, fromBE_take_lt _⟩, ?_⟩
  have hlt : x.1 < s.r.length := hs.1.1.symm ▸ hi
  simp only [wrapRound]
  rw [if_pos (fromBE_take_lt _), getD_set hlt, toBE_take_append_drop hlen,
    c.encrypt_decrypt kek _ hblock, take_toBE_append, drop_toBE_append, fromBE_toBE ha,
    set_set_getD hlt, Nat.xor_assoc, Nat.xor_self, Nat.xor_zero]

end Undo

/-! ### Wrapping and unwrapping -/

section Wrap
variable {c : BlockCipher} {kek plaintext wrapped key data : Bytes} {iv n : ℕ} {s : Registers}

/-- What is left of the data without an incomplete part at its end. -/
def whole (data : Bytes) : Bytes := data.take (8 * (data.length / 8))

theorem parts_whole : parts (whole data) = parts data := by
  rw [whole, ← flatten_parts, parts_flatten fun _ => length_of_mem_parts]

theorem whole_eq (h : 8 ∣ data.length) : whole data = data := by
  rw [whole, Nat.mul_div_cancel' h, List.take_length]

theorem length_whole : (whole data).length = 8 * (data.length / 8) := by
  rw [whole, List.length_take]
  omega

theorem aligned_parts (h : data.length / 8 = n) (a : ℕ) : Aligned n ⟨a, parts data⟩ :=
  ⟨length_parts.trans h, fun _ => length_of_mem_parts⟩

theorem pack_eq_ok {a : ℕ} {r : List Bytes} :
    pack a r = .ok wrapped ↔ a < 256 ^ 8 ∧ wrapped = toBE 8 a ++ r.flatten := by
  unfold pack
  split_ifs with ha
  · rw [Except.ok.injEq, eq_comm, and_iff_right ha]
  · exact ⟨nofun, fun h => absurd h.1 ha⟩

theorem aesWrapKey_eq_ok : aesWrapKey c kek plaintext iv = .ok wrapped ↔ ValidKek kek ∧
    ∃ s, rounds (wrapRound c kek) (counters (plaintext.length / 8)) ⟨iv, parts plaintext⟩ = some s ∧
      s.a < 256 ^ 8 ∧ wrapped = toBE 8 s.a ++ s.r.flatten := by
  unfold aesWrapKey
  split_ifs with hkek
  · cases rounds (wrapRound c kek) (counters (plaintext.length / 8)) ⟨iv, parts plaintext⟩ with
    | none => simp
    | some s => simp only [pack_eq_ok, hkek, true_and, Option.some.injEq, exists_eq_left']
  · exact ⟨nofun, fun h => absurd h.1 hkek⟩

theorem aesUnwrapKey_eq_ok : aesUnwrapKey c kek wrapped iv = .ok key ↔
    8 ≤ wrapped.length ∧ ValidKek kek ∧
      ∃ s, rounds (unwrapRound c kek) (counters (wrapped.length / 8 - 1)).reverse
        ⟨fromBE (wrapped.take 8), parts (wrapped.drop 8)⟩ = some s ∧
      s.a = iv ∧ key = s.r.flatten := by
  unfold aesUnwrapKey aesUnwrapKeyAndIv
  split_ifs with hlen hkek
  · exact ⟨nofun, fun h => absurd h.1 (not_le.mpr hlen)⟩
  · cases rounds (unwrapRound c kek) (counters (wrapped.length / 8 - 1)).reverse
        ⟨fromBE (wrapped.take 8), parts (wrapped.drop 8)⟩ with
    | none => simp [Bind.bind, Except.bind]
    | some s =>
      by_cases ha : s.a = iv
      · simp [Bind.bind, Except.bind, ha, hkek, not_lt.mp hlen, eq_comm]
      · simp [Bind.bind, Except.bind, ha]
  · exact ⟨nofun, fun h => absurd h.2.1 hkek⟩

/-- A text unwraps to a key just when it is the wrapped key, apart from an incomplete part at the
end that is dropped. -/
theorem aesUnwrapKey_iff : aesUnwrapKey c kek wrapped iv = .ok key ↔
    8 ∣ key.length ∧ aesWrapKey c kek key iv = .ok (whole wrapped) := by
  rw [aesUnwrapKey_eq_ok, aesWrapKey_eq_ok]
  constructor
  · rintro ⟨hlen, hkek, s, hrun, rfl, rfl⟩
    have hn : (wrapped.drop 8).length / 8 = wrapped.length / 8 - 1 := by
      rw [List.length_drop]
      omega
    have hmem : ∀ x ∈ (counters (wrapped.length / 8 - 1)).reverse,
        x ∈ counters (wrapped.length / 8 - 1) := fun x => List.mem_reverse.mp
    have hstart : Aligned (wrapped.length / 8 - 1)
        ⟨fromBE (wrapped.take 8), parts (wrapped.drop 8)⟩ ∧ fromBE (wrapped.take 8) < 256 ^ 8 :=
      ⟨aligned_parts hn _, fromBE_take_lt wrapped⟩
    obtain ⟨⟨hs, -⟩, hback⟩ := (wrap_undoes hmem).rounds hstart hrun
    have hkey := length_flatten_of_parts hs.2
    rw [hs.1] at hkey
    refine ⟨⟨_, hkey⟩, hkek, ⟨fromBE (wrapped.take 8), parts (wrapped.drop 8)⟩, ?_,
      fromBE_take_lt wrapped, ?_⟩
    · rw [hkey, Nat.mul_div_cancel_left _ (by decide), parts_flatten hs.2]
      rw [List.reverse_reverse] at hback
      exact hback
    · have hfirst : (wrapped.take 8).length = 8 := by
        rw [List.length_take]
        omega
      have hpack := toBE_fromBE (wrapped.take 8)
      rw [hfirst] at hpack
      dsimp only
      rw [hpack, flatten_parts, hn, whole, ← List.take_add]
      congr 1
      omega
  · rintro ⟨hdvd, hkek, s, hrun, ha, hwhole⟩
    obtain ⟨hs, hback⟩ := unwrap_undoes.rounds (aligned_parts rfl iv) hrun
    have hlen := congrArg List.length hwhole
    rw [length_whole, List.length_append, length_toBE, length_flatten_of_parts hs.2, hs.1] at hlen
    have hn : wrapped.length / 8 - 1 = key.length / 8 := by omega
    refine ⟨by omega, hkek, ⟨iv, parts key⟩, ?_, rfl, ?_⟩
    · have hfirst : wrapped.take 8 = toBE 8 s.a := by
        have htake := congrArg (List.take 8) hwhole
        rw [take_toBE_append, whole, List.take_take, Nat.min_eq_left (by omega)] at htake
        exact htake
      have hrest : parts (wrapped.drop 8) = s.r := by
        have hdrop := congrArg (List.drop 8) hwhole
        rw [drop_toBE_append, whole, List.drop_take] at hdrop
        rw [← parts_whole, whole, List.length_drop, ← parts_flatten hs.2, ← hdrop]
        congr 2
        omega
      rw [hn, hfirst, hrest, fromBE_toBE ha]
      exact hback
    · rw [flatten_parts, Nat.mul_div_cancel' hdvd, List.take_length]

theorem length_of_aesWrapKey (h : aesWrapKey c kek plaintext iv = .ok wrapped) :
    wrapped.length = 8 * (plaintext.length / 8) + 8 := by
  obtain ⟨-, s, hrun, -, rfl⟩ := aesWrapKey_eq_ok.mp h
  have hs := (unwrap_undoes.rounds (aligned_parts rfl iv) hrun).1
  rw [List.length_append, length_toBE, length_flatten_of_parts hs.2, hs.1, Nat.add_comm]

/-- What is wrapped can be unwrapped. -/
theorem aesUnwrapKey_aesWrapKey (hdvd : 8 ∣ key.length)
    (h : aesWrapKey c kek key iv = .ok wrapped) : aesUnwrapKey c kek wrapped iv = .ok key := by
  refine aesUnwrapKey_iff.mpr ⟨hdvd, ?_⟩
  rw [whole_eq, h]
  rw [length_of_aesWrapKey h, ← Nat.mul_add_one]
  exact Nat.dvd_mul_right 8 _

theorem le_of_mem_counters {x : ℕ × ℕ} (h : x ∈ counters n) : x.2 ≤ 6 * n := by
  obtain ⟨j, hj, hx⟩ := List.mem_flatMap.mp h
  obtain ⟨i, hi, rfl⟩ := List.mem_map.mp hx
  rw [List.mem_range] at hi hj
  have hle : n * j ≤ n * 5 := Nat.mul_le_mul_left n (by omega)
  dsimp only
  omega

theorem exists_aesWrapKey (hkek : ValidKek kek) (hiv : iv < 256 ^ 8)
    (hlen : 6 * (plaintext.length / 8) < 256 ^ 8) :
    ∃ wrapped, aesWrapKey c kek plaintext iv = .ok wrapped := by
  have hround : ∀ x ∈ counters (plaintext.length / 8), ∀ s, s.a < 256 ^ 8 →
      ∃ t, wrapRound c kek x s = some t ∧ t.a < 256 ^ 8 := by
    intro x hx s hs
    refine ⟨_, if_pos hs, ?_⟩
    have hcounter := lt_of_le_of_lt (le_of_mem_counters hx) hlen
    have hpow : (256 : ℕ) ^ 8 = 2 ^ 64 := by decide
    have hfirst := fromBE_take_lt (c.encrypt kek (toBE 8 s.a ++ s.r.getD x.1 []))
    rw [hpow] at hcounter hfirst ⊢
    exact Nat.xor_lt_two_pow hfirst hcounter
  obtain ⟨s, hrun, ha⟩ := exists_rounds hround (s := ⟨iv, parts plaintext⟩) hiv
  exact ⟨_, aesWrapKey_eq_ok.mpr ⟨hkek, s, hrun, ha, rfl⟩⟩

end Wrap

end Benji.Transform
