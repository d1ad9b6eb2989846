import Mathlib.Data.List.Basic
import Mathlib.Data.List.Nodup
import Mathlib.Data.List.Sort
import Benji.Lib.ByteFile

/-! JSON values, their compact ASCII text and the parser for it. A dict is the list of its items in
insertion order. -/
namespace Lib

inductive Json where
  | null
  | bool (b : Bool)
  | int (i : ℤ)
  /-- A float, as `repr` shows it. One that is read is kept as it is written there. -/
  | float (repr : String)
  | str (s : String)
  | list (xs : List Json)
  | dict (items : List (String × Json))

namespace Json

section Items
variable {α : Type}

/-- `d[k] = v`: an old key keeps its place. -/
def setItem (k : String) (v : α) : List (String × α) → List (String × α)
  | [] => [(k, v)]
  | (k', v') :: items => if k' = k then (k, v) :: items else (k', v') :: setItem k v items

/-- `del d[k]`. -/
def delItem (k : String) (items : List (String × α)) : List (String × α) :=
  items.filter fun e => e.1 ≠ k

/-- `dict(pairs)`: of two pairs with one key the second wins. -/
def ofPairs (pairs : List (String × α)) : List (String × α) :=
  pairs.foldl (fun items e => setItem e.1 e.2 items) []

theorem setItem_of_not_mem {k : String} {v : α} {items : List (String × α)}
    (h : k ∉ items.map Prod.fst) : setItem k v items = items ++ [(k, v)] := by
  induction items with
  | nil => rfl
  | cons e items ih =>
    obtain ⟨k', v'⟩ := e
    simp only [List.map_cons, List.mem_cons, not_or] at h
    rw [setItem, if_neg (Ne.symm h.1), ih h.2]
    rfl

theorem delItem_of_not_mem {k : String} {items : List (String × α)}
    (h : k ∉ items.map Prod.fst) : delItem k items = items := by
  apply List.filter_eq_self.mpr
  intro e he
  have hk : e.1 ≠ k := fun hk => h (hk ▸ List.mem_map_of_mem he)
  simpa using hk

theorem delItem_append_self {k : String} {v : α} {items : List (String × α)}
    (h : k ∉ items.map Prod.fst) : delItem k (items ++ [(k, v)]) = items := by
  have hd : delItem k items = items := delItem_of_not_mem h
  have hs : delItem k [(k, v)] = [] := by simp [delItem]
  unfold delItem at hd hs ⊢
  rw [List.filter_append, hd, hs, List.append_nil]

theorem not_mem_delItem (k : String) (items : List (String × α)) :
    k ∉ (delItem k items).map Prod.fst := by
  intro h
  obtain ⟨e, he, hk⟩ := List.mem_map.mp h
  have := (List.mem_filter.mp he).2
  simp [hk] at this

theorem lookup_append_self {k : String} {v : α} {items : List (String × α)}
    (h : k ∉ items.map Prod.fst) : (items ++ [(k, v)]).lookup k = some v := by
  induction items with
  | nil => simp
  | cons e items ih =>
    simp only [List.map_cons, List.mem_cons, not_or] at h
    have hk : (k == e.1) = false := by simpa using h.1
    rw [List.cons_append, ← Prod.mk.eta (p := e), List.lookup_cons, hk]
    exact ih h.2

theorem foldl_setItem {pairs items : List (String × α)}
    (h : ((items ++ pairs).map Prod.fst).Nodup) :
    pairs.foldl (fun items e => setItem e.1 e.2 items) items = items ++ pairs := by
  induction pairs generalizing items with
  | nil => simp
  | cons e pairs ih =>
    have hk : e.1 ∉ items.map Prod.fst := by
      rw [List.map_append, List.map_cons, List.nodup_append] at h
      intro hmem
      exact h.2.2 e.1 hmem e.1 (List.mem_cons_self ..) rfl
    rw [List.foldl_cons, setItem_of_not_mem hk]
    have hn : (((items ++ [e]) ++ pairs).map Prod.fst).Nodup := by simpa using h
    have := ih hn
    simpa using this

theorem lookup_setItem {k : String} {v : α} {items : List (String × α)} :
    (setItem k v items).lookup k = some v := by
  induction items with
  | nil => simp [setItem]
  | cons e items ih =>
    obtain ⟨k', x⟩ := e
    unfold setItem
    split_ifs with hk
    · simp
    · have hne : (k == k') = false := by simpa using Ne.symm hk
      rw [List.lookup_cons, hne]
      exact ih

theorem mem_keys_setItem {k k' : String} {v : α} {items : List (String × α)} :
    k' ∈ (setItem k v items).map Prod.fst ↔ k' = k ∨ k' ∈ items.map Prod.fst := by
  induction items with
  | nil => simp [setItem]
  | cons e items ih =>
    obtain ⟨l, x⟩ := e
    unfold setItem
    split_ifs with hl
    · rw [List.map_cons, List.map_cons, List.mem_cons, List.mem_cons, hl]
      tauto
    · rw [List.map_cons, List.mem_cons, ih, List.map_cons, List.mem_cons]
      tauto

theorem nodup_setItem {k : String} {v : α} {items : List (String × α)}
    (h : (items.map Prod.fst).Nodup) : ((setItem k v items).map Prod.fst).Nodup := by
  induction items with
  | nil => simp [setItem]
  | cons e items ih =>
    obtain ⟨l, x⟩ := e
    rw [List.map_cons, List.nodup_cons] at h
    unfold setItem
    split_ifs with hl
    · rw [List.map_cons, List.nodup_cons, ← hl]
      exact h
    · rw [List.map_cons, List.nodup_cons, mem_keys_setItem, not_or]
      exact ⟨⟨hl, h.1⟩, ih h.2⟩

theorem mem_setItem {k : String} {v : α} {items : List (String × α)} {e : String × α}
    (h : (items.map Prod.fst).Nodup) :
    e ∈ setItem k v items ↔ e = (k, v) ∨ e.1 ≠ k ∧ e ∈ items := by
  induction items with
  | nil => simp [setItem]
  | cons e' items ih =>
    obtain ⟨l, x⟩ := e'
    rw [List.map_cons, List.nodup_cons] at h
    unfold setItem
    split_ifs with hl
    · rw [List.mem_cons, List.mem_cons]
      have hother : e ∈ items → e.1 ≠ k := by
        intro hmem heq
        have hkey : e.1 ∈ items.map Prod.fst := List.mem_map_of_mem hmem
        rw [heq, ← hl] at hkey
        exact h.1 hkey
      have hfirst : e = (l, x) → e.1 = k := fun heq => by rw [heq, hl]
      tauto
    · rw [List.mem_cons, ih h.2, List.mem_cons]
      have hfirst : e = (l, x) → e.1 ≠ k := fun heq => by rw [heq]; exact hl
      tauto

theorem lookup_eq_some {k : String} {v : α} {items : List (String × α)}
    (h : (items.map Prod.fst).Nodup) : items.lookup k = some v ↔ (k, v) ∈ items := by
  induction items with
  | nil => simp
  | cons e items ih =>
    obtain ⟨l, x⟩ := e
    rw [List.map_cons, List.nodup_cons] at h
    rw [List.lookup_cons, List.mem_cons, Prod.mk.injEq]
    by_cases hk : k = l
    · subst hk
      have hnot : (k, v) ∉ items := by
        intro hmem
        have hkey : (k, v).1 ∈ items.map Prod.fst := List.mem_map_of_mem hmem
        exact h.1 hkey
      simp [hnot, eq_comm]
    · have hne : (k == l) = false := by simpa using hk
      rw [hne]
      simp only [hk, false_and, false_or]
      exact ih h.2

theorem ofPairs_of_nodup {pairs : List (String × α)} (h : (pairs.map Prod.fst).Nodup) :
    ofPairs pairs = pairs := by
  have hn : ((([] : List (String × α)) ++ pairs).map Prod.fst).Nodup := by rwa [List.nil_append]
  simpa [ofPairs] using foldl_setItem hn

end Items

/-- `\.[0-9]+` -/
def IsFraction (cs : List Char) : Prop :=
  ∃ d ds, cs = '.' :: d :: ds ∧ (d :: ds).all Char.isDigit = true

/-- `[eE][-+]?[0-9]+` -/
def IsExponent (cs : List Char) : Prop :=
  ∃ e sign d ds, cs = e :: (sign ++ d :: ds) ∧ (e = 'e' ∨ e = 'E') ∧
    (sign = [] ∨ sign = ['+'] ∨ sign = ['-']) ∧ (d :: ds).all Char.isDigit = true

/-- What `repr` shows of a float: a number with a fraction or an exponent, or what is no number. -/
inductive IsFloat : String → Prop where
  | nan : IsFloat "nan"
  | inf : IsFloat "inf"
  | negInf : IsFloat "-inf"
  | number {n : ℕ} {sign fraction exponent : List Char} (hsign : sign = [] ∨ sign = ['-'])
      (hfraction : fraction = [] ∨ IsFraction fraction)
      (hexponent : exponent = [] ∨ IsExponent exponent) (hne : fraction ++ exponent ≠ []) :
      IsFloat (String.ofList (sign ++ (Nat.toDigits 10 n ++ (fraction ++ exponent))))

mutual
/-- The keys of every dict inside differ, and floats are what `repr` shows of them. -/
def WF : Json → Prop
  | .float repr => IsFloat repr
  | .list xs => WFList xs
  | .dict items => (items.map Prod.fst).Nodup ∧ WFItems items
  | _ => True

def WFList : List Json → Prop
  | [] => True
  | x :: xs => WF x ∧ WFList xs

def WFItems : List (String × Json) → Prop
  | [] => True
  | (_, v) :: items => WF v ∧ WFItems items
end

theorem WFItems_append {a b : List (String × Json)} :
    WFItems (a ++ b) ↔ WFItems a ∧ WFItems b := by
  induction a with
  | nil => simp [WFItems]
  | cons e a ih =>
    rw [List.cons_append, WFItems, WFItems, ih, and_assoc]

mutual
/-- The value with the items of every dict in the order of the keys; two values are equal when
this is the same for both. -/
def canon : Json → Json
  | .list xs => .list (canonList xs)
  | .dict items => .dict ((canonItems items).insertionSort fun a b => a.1 ≤ b.1)
  | v => v

def canonList : List Json → List Json
  | [] => []
  | x :: xs => canon x :: canonList xs

def canonItems : List (String × Json) → List (String × Json)
  | [] => []
  | (k, v) :: items => (k, canon v) :: canonItems items
end

/-! Strings -/

/-- `'{:04x}'`. -/
def hex4 (n : ℕ) : List Char :=
  [Nat.digitChar (n / 4096 % 16), Nat.digitChar (n / 256 % 16), Nat.digitChar (n / 16 % 16),
    Nat.digitChar (n % 16)]

/-- One character of `py_encode_basestring_ascii`. -/
def escape (c : Char) : List Char :=
  if c = '\\' then ['\\', '\\']
  else if c = '"' then ['\\', '"']
  else if 0x20 ≤ c.toNat ∧ c.toNat ≤ 0x7e then [c]
  else if c = '\n' then ['\\', 'n']
  else if c = '\r' then ['\\', 'r']
  else if c = '\t' then ['\\', 't']
  else if c.toNat = 0x0c then ['\\', 'f']
  else if c.toNat = 0x08 then ['\\', 'b']
  else if c.toNat < 0x10000 then '\\' :: 'u' :: hex4 c.toNat
  else
    -- A surrogate pair.
    let n := c.toNat - 0x10000
    '\\' :: 'u' :: hex4 (0xd800 + n / 1024) ++ '\\' :: 'u' :: hex4 (0xdc00 + n % 1024)

def dumpStr (s : String) : List Char := '"' :: s.toList.flatMap escape ++ ['"']

def hexVal (c : Char) : Option ℕ :=
  if '0' ≤ c ∧ c ≤ '9' then some (c.toNat - '0'.toNat)
  else if 'a' ≤ c ∧ c ≤ 'f' then some (c.toNat - 'a'.toNat + 10)
  else if 'A' ≤ c ∧ c ≤ 'F' then some (c.toNat - 'A'.toNat + 10)
  else none

def readHex4 (a b c d : Char) : Option ℕ := do
  let a ← hexVal a
  let b ← hexVal b
  let c ← hexVal c
  let d ← hexVal d
  some (((a * 16 + b) * 16 + c) * 16 + d)

/-- The escapes of one character. -/
def unescape : Char → Option Char
  | '"' => some '"'
  | '\\' => some '\\'
  | '/' => some '/'
  | 'b' => some (Char.ofNat 0x08)
  | 'f' => some (Char.ofNat 0x0c)
  | 'n' => some '\n'
  | 'r' => some '\r'
  | 't' => some '\t'
  | _ => none

/-- The rest of a string behind its opening quote. A surrogate without its other half has no
character here. -/
def scanStr : List Char → Option (List Char × List Char)
  | [] => none
  | c :: r =>
    if c = '"' then some ([], r)
    else if c = '\\' then
      match r with
      | 'u' :: h1 :: h2 :: h3 :: h4 :: r =>
        match readHex4 h1 h2 h3 h4 with
        | none => none
        | some n =>
          if 0xd800 ≤ n ∧ n < 0xdc00 then
            match r with
            | '\\' :: 'u' :: l1 :: l2 :: l3 :: l4 :: r =>
              match readHex4 l1 l2 l3 l4 with
              | none => none
              | some m =>
                if 0xdc00 ≤ m ∧ m < 0xe000 then (scanStr r).map fun p =>
                  (Char.ofNat (0x10000 + (n - 0xd800) * 1024 + (m - 0xdc00)) :: p.1, p.2)
                else none
            | _ => none
          else if 0xdc00 ≤ n ∧ n < 0xe000 then none
          else (scanStr r).map fun p => (Char.ofNat n :: p.1, p.2)
      | e :: r =>
        match unescape e with
        | none => none
        | some c => (scanStr r).map fun p => (c :: p.1, p.2)
      | [] => none
    else if c.toNat < 0x20 then none
    else (scanStr r).map fun p => (c :: p.1, p.2)

theorem hexVal_digitChar {d : ℕ} (h : d < 16) : hexVal (Nat.digitChar d) = some d := by
  have hall : ∀ d < 16, hexVal (Nat.digitChar d) = some d := by decide
  exact hall d h

theorem readHex4_hex4 {n : ℕ} (h : n < 0x10000) :
    readHex4 (Nat.digitChar (n / 4096 % 16)) (Nat.digitChar (n / 256 % 16))
      (Nat.digitChar (n / 16 % 16)) (Nat.digitChar (n % 16)) = some n := by
  have h1 := hexVal_digitChar (Nat.mod_lt (n / 4096) (by decide : 16 > 0))
  have h2 := hexVal_digitChar (Nat.mod_lt (n / 256) (by decide : 16 > 0))
  have h3 := hexVal_digitChar (Nat.mod_lt (n / 16) (by decide : 16 > 0))
  have h4 := hexVal_digitChar (Nat.mod_lt n (by decide : 16 > 0))
  have hn : ((n / 4096 % 16 * 16 + n / 256 % 16) * 16 + n / 16 % 16) * 16 + n % 16 = n := by
    omega
  simp only [readHex4, h1, h2, h3, h4, Option.bind_eq_bind, Option.bind_some, hn]

/-- A character that is written as it is. -/
theorem scanStr_cons {c : Char} {r : List Char} (hq : c ≠ '"') (hb : c ≠ '\\')
    (hc : 0x20 ≤ c.toNat) : scanStr (c :: r) = (scanStr r).map fun p => (c :: p.1, p.2) := by
  rw [scanStr.eq_def]
  simp only [if_neg hq, if_neg hb, if_neg (by omega : ¬ c.toNat < 0x20)]

/-- An escape of two characters. -/
theorem scanStr_unescape {e c : Char} {r : List Char} (hu : e ≠ 'u') (he : unescape e = some c) :
    scanStr ('\\' :: e :: r) = (scanStr r).map fun p => (c :: p.1, p.2) := by
  rw [scanStr.eq_def]
  simp only [Char.reduceEq, if_false, if_true]
  split
  · rename_i h
    exact absurd (List.cons.inj h).1 hu
  · rename_i h
    obtain ⟨rfl, rfl⟩ := List.cons.inj h
    rw [he]
  · rename_i h
    cases h

theorem scanStr_hex4 {n : ℕ} {r : List Char} (h : n < 0x10000)
    (hs : ¬ (0xd800 ≤ n ∧ n < 0xe000)) : scanStr ('\\' :: 'u' :: hex4 n ++ r) =
      (scanStr r).map fun p => (Char.ofNat n :: p.1, p.2) := by
  rw [scanStr.eq_def]
  have h1 : ¬ (0xd800 ≤ n ∧ n < 0xdc00) := by omega
  have h2 : ¬ (0xdc00 ≤ n ∧ n < 0xe000) := by omega
  simp only [List.cons_append, hex4, List.nil_append, Char.reduceEq, if_false, if_true,
    readHex4_hex4 h, if_neg h1, if_neg h2]

theorem scanStr_surrogates {n m : ℕ} {r : List Char} (hn : 0xd800 ≤ n ∧ n < 0xdc00)
    (hm : 0xdc00 ≤ m ∧ m < 0xe000) :
    scanStr ('\\' :: 'u' :: hex4 n ++ '\\' :: 'u' :: hex4 m ++ r) = (scanStr r).map fun p =>
      (Char.ofNat (0x10000 + (n - 0xd800) * 1024 + (m - 0xdc00)) :: p.1, p.2) := by
  rw [scanStr.eq_def]
  have h1 : n < 0x10000 := by omega
  have h2 : m < 0x10000 := by omega
  simp only [List.cons_append, hex4, List.nil_append, Char.reduceEq, if_false, if_true,
    readHex4_hex4 h1, readHex4_hex4 h2, if_pos hn, if_pos hm]

theorem toNat_not_surrogate (c : Char) : ¬ (0xd800 ≤ c.toNat ∧ c.toNat < 0xe000) := by
  have hv := c.valid
  have : c.toNat < 0xd800 ∨ 0xdfff < c.toNat ∧ c.toNat < 0x110000 := hv
  omega

theorem toNat_lt (c : Char) : c.toNat < 0x110000 := by
  have : c.toNat < 0xd800 ∨ 0xdfff < c.toNat ∧ c.toNat < 0x110000 := c.valid
  omega

theorem scanStr_escape (c : Char) (r : List Char) :
    scanStr (escape c ++ r) = (scanStr r).map fun p => (c :: p.1, p.2) := by
  unfold escape
  split_ifs with hb hq hp hn hr ht hf hbs h16
  · rw [hb]
    exact scanStr_unescape (by decide) rfl
  · rw [hq]
    exact scanStr_unescape (by decide) rfl
  · exact scanStr_cons hq hb hp.1
  · rw [hn]
    exact scanStr_unescape (by decide) rfl
  · rw [hr]
    exact scanStr_unescape (by decide) rfl
  · rw [ht]
    exact scanStr_unescape (by decide) rfl
  · have hc : Char.ofNat 0x0c = c := hf ▸ Char.ofNat_toNat c
    exact scanStr_unescape (by decide) (congrArg some hc)
  · have hc : Char.ofNat 0x08 = c := hbs ▸ Char.ofNat_toNat c
    exact scanStr_unescape (by decide) (congrArg some hc)
  · rw [scanStr_hex4 h16 (toNat_not_surrogate c), Char.ofNat_toNat]
  · have hlt := toNat_lt c
    have hhi : 0xd800 ≤ 0xd800 + (c.toNat - 0x10000) / 1024 ∧
        0xd800 + (c.toNat - 0x10000) / 1024 < 0xdc00 := by omega
    have hlo : 0xdc00 ≤ 0xdc00 + (c.toNat - 0x10000) % 1024 ∧
        0xdc00 + (c.toNat - 0x10000) % 1024 < 0xe000 := by omega
    have hsum : 0x10000 + (0xd800 + (c.toNat - 0x10000) / 1024 - 0xd800) * 1024 +
        (0xdc00 + (c.toNat - 0x10000) % 1024 - 0xdc00) = c.toNat := by omega
    have h := scanStr_surrogates (r := r) hhi hlo
    rw [hsum, Char.ofNat_toNat] at h
    exact h

theorem scanStr_dump (s : List Char) (r : List Char) :
    scanStr (s.flatMap escape ++ '"' :: r) = some (s, r) := by
  induction s with
  | nil =>
    rw [List.flatMap_nil, List.nil_append, scanStr.eq_def]
    simp only [if_true]
  | cons c s ih =>
    rw [List.flatMap_cons, List.append_assoc, scanStr_escape, ih]
    rfl

/-! Numbers -/

def dumpInt : ℤ → List Char
  | .ofNat n => Nat.toDigits 10 n
  | .negSucc n => '-' :: Nat.toDigits 10 (n + 1)

/-- The digits of a number; a zero in front stands alone. -/
def scanNat : List Char → Option (ℕ × List Char)
  | [] => none
  | c :: r =>
    if c = '0' then some (0, r)
    else if c.isDigit then
      some (Nat.ofDigitChars 10 ((c :: r).takeWhile Char.isDigit) 0,
        (c :: r).dropWhile Char.isDigit)
    else none

/-- What stands behind `(\.[0-9]+)?`. -/
def dropFraction : List Char → List Char
  | '.' :: d :: r => if d.isDigit then r.dropWhile Char.isDigit else '.' :: d :: r
  | r => r

/-- What stands behind `([eE][-+]?[0-9]+)?`. -/
def dropExponent : List Char → List Char
  | e :: d :: r =>
    if (e = 'e' ∨ e = 'E') ∧ (d.isDigit ∨ (d = '+' ∨ d = '-') ∧ r.head?.any Char.isDigit) then
      r.dropWhile Char.isDigit
    else e :: d :: r
  | r => r

/-- An integer, or a float if a fraction or an exponent follows. -/
def scanNumber : List Char → Option (Json × List Char)
  | [] => none
  | c :: r => do
    let (n, rest) ← scanNat (if c = '-' then r else c :: r)
    let behind := dropExponent (dropFraction rest)
    if behind = rest then some (.int (if c = '-' then -n else n), rest)
    else
      let length := (c :: r).length - behind.length
      some (.float (String.ofList ((c :: r).take length)), behind)

/-- The numbers that are no JSON and read all the same. -/
def scanConstant : List Char → Option (Json × List Char)
  | 'N' :: 'a' :: 'N' :: r => some (.float "nan", r)
  | 'I' :: 'n' :: 'f' :: 'i' :: 'n' :: 'i' :: 't' :: 'y' :: r => some (.float "inf", r)
  | '-' :: 'I' :: 'n' :: 'f' :: 'i' :: 'n' :: 'i' :: 't' :: 'y' :: r => some (.float "-inf", r)
  | _ => none

/-- `floatstr` of the encoder. -/
def dumpFloat (repr : String) : List Char :=
  if repr = "nan" then ['N', 'a', 'N']
  else if repr = "inf" then ['I', 'n', 'f', 'i', 'n', 'i', 't', 'y']
  else if repr = "-inf" then ['-', 'I', 'n', 'f', 'i', 'n', 'i', 't', 'y']
  else repr.toList

/-- What stands behind a value inside a list or a dict, or at the end. -/
def Delimited : List Char → Prop
  | [] => True
  | c :: _ => c = ',' ∨ c = ']' ∨ c = '}'

/-- No digit stands in front. -/
def NoDigit (r : List Char) : Prop := r.head?.any Char.isDigit = false

theorem Delimited.noDigit {r : List Char} (h : Delimited r) : NoDigit r := by
  cases r with
  | nil => rfl
  | cons c r => rcases h with rfl | rfl | rfl <;> rfl

theorem Delimited.dropFraction {r : List Char} (h : Delimited r) : dropFraction r = r := by
  cases r with
  | nil => rfl
  | cons c r => rcases h with rfl | rfl | rfl <;> rfl

theorem Delimited.dropExponent {r : List Char} (h : Delimited r) : dropExponent r = r := by
  cases r with
  | nil => rfl
  | cons c r =>
    cases r with
    | nil => rfl
    | cons d r =>
      have hc : ¬ (c = 'e' ∨ c = 'E') := by rcases h with rfl | rfl | rfl <;> decide
      exact if_neg fun he => hc he.1

theorem toDigits_eq_cons (n : ℕ) :
    ∃ c r, Nat.toDigits 10 n = c :: r ∧ c.isDigit ∧ (n ≠ 0 → c ≠ '0') := by
  induction n using Nat.strong_induction_on with
  | _ n ih =>
    by_cases hn : n < 10
    · have hall : ∀ m < 10, (Nat.digitChar m).isDigit ∧ (m ≠ 0 → Nat.digitChar m ≠ '0') := by
        decide
      exact ⟨n.digitChar, [], Nat.toDigits_of_lt_base hn, hall n hn⟩
    · have hle : 10 ≤ n := Nat.le_of_not_lt hn
      obtain ⟨c, r, hcr, hd, h0⟩ := ih (n / 10) (by omega)
      refine ⟨c, r ++ [Nat.digitChar (n % 10)], ?_, hd, fun _ => h0 (by omega)⟩
      rw [Nat.toDigits_of_base_le (by decide) hle, hcr]
      rfl

theorem takeWhile_digits {ds r : List Char} (hd : ∀ c ∈ ds, c.isDigit) (hr : NoDigit r) :
    (ds ++ r).takeWhile Char.isDigit = ds ∧ (ds ++ r).dropWhile Char.isDigit = r := by
  induction ds with
  | nil =>
    cases r with
    | nil => exact ⟨rfl, rfl⟩
    | cons c r =>
      have hc : c.isDigit = false := hr
      simp [hc]
  | cons c ds ih =>
    have hc : c.isDigit = true := hd c (List.mem_cons_self ..)
    obtain ⟨ht, hw⟩ := ih fun c hc => hd c (List.mem_cons_of_mem _ hc)
    simp [hc, ht, hw]

theorem scanNat_toDigits (n : ℕ) {r : List Char} (hr : NoDigit r) :
    scanNat (Nat.toDigits 10 n ++ r) = some (n, r) := by
  have hall : ∀ c ∈ Nat.toDigits 10 n, c.isDigit := fun c hc =>
    Nat.isDigit_of_mem_toDigits (by decide) (by decide) hc
  obtain ⟨ht, hw⟩ := takeWhile_digits hall hr
  have hval : Nat.ofDigitChars 10 (Nat.toDigits 10 n) 0 = n := Nat.ofDigitChars_ten_toDigits
  by_cases hn : n = 0
  · subst hn
    rw [Nat.toDigits_zero, List.singleton_append, scanNat, if_pos rfl]
  · obtain ⟨c, ds, hcs, hd, h0⟩ := toDigits_eq_cons n
    rw [hcs] at ht hw hval ⊢
    rw [List.cons_append] at ht hw ⊢
    rw [scanNat, if_neg (h0 hn), if_pos hd, ht, hw, hval]

theorem dumpInt_eq_cons (i : ℤ) :
    ∃ c r, dumpInt i = c :: r ∧ (c = '-' ∨ c.isDigit) := by
  cases i with
  | ofNat n =>
    obtain ⟨c, r, hcr, hd, -⟩ := toDigits_eq_cons n
    exact ⟨c, r, hcr, .inr hd⟩
  | negSucc n => exact ⟨'-', _, rfl, .inl rfl⟩

theorem dropWhile_digits {ds r : List Char} (hd : ds.all Char.isDigit = true) (hr : NoDigit r) :
    (ds ++ r).dropWhile Char.isDigit = r :=
  (takeWhile_digits (List.all_eq_true.mp hd) hr).2

theorem dropFraction_append {fraction r : List Char} (h : IsFraction fraction) (hr : NoDigit r) :
    dropFraction (fraction ++ r) = r := by
  obtain ⟨d, ds, rfl, hdigits⟩ := h
  obtain ⟨hd, hds⟩ := Bool.and_eq_true_iff.mp hdigits
  exact (if_pos hd).trans (dropWhile_digits hds hr)

theorem dropExponent_append {exponent r : List Char} (h : IsExponent exponent) (hr : NoDigit r) :
    dropExponent (exponent ++ r) = r := by
  obtain ⟨e, sign, d, ds, rfl, he, hsign, hdigits⟩ := h
  obtain ⟨hd, hds⟩ := Bool.and_eq_true_iff.mp hdigits
  rcases hsign with rfl | hsign
  · exact (if_pos ⟨he, .inl hd⟩).trans (dropWhile_digits hds hr)
  · rcases hsign with rfl | rfl
    · exact (if_pos ⟨he, .inr ⟨.inl rfl, hd⟩⟩).trans (dropWhile_digits hdigits hr)
    · exact (if_pos ⟨he, .inr ⟨.inr rfl, hd⟩⟩).trans (dropWhile_digits hdigits hr)

/-- Neither a digit nor a point stands before an exponent, or where there is none. -/
theorem exponent_start {exponent r : List Char} (h : exponent = [] ∨ IsExponent exponent)
    (hr : Delimited r) :
    NoDigit (exponent ++ r) ∧ dropFraction (exponent ++ r) = exponent ++ r := by
  rcases h with rfl | ⟨e, sign, d, ds, rfl, rfl | rfl, -, -⟩
  · exact ⟨hr.noDigit, hr.dropFraction⟩
  · exact ⟨rfl, rfl⟩
  · exact ⟨rfl, rfl⟩

/-- What stands behind the digits of a float is found. -/
theorem drop_fraction_exponent {fraction exponent r : List Char}
    (hf : fraction = [] ∨ IsFraction fraction) (he : exponent = [] ∨ IsExponent exponent)
    (hr : Delimited r) : NoDigit (fraction ++ (exponent ++ r)) ∧
      dropExponent (dropFraction (fraction ++ (exponent ++ r))) = r := by
  obtain ⟨hstart, hdrop⟩ := exponent_start he hr
  have hrest : dropExponent (exponent ++ r) = r := by
    rcases he with rfl | he
    · exact hr.dropExponent
    · exact dropExponent_append he hr.noDigit
  rcases hf with rfl | hf
  · refine ⟨hstart, ?_⟩
    rw [List.nil_append, hdrop, hrest]
  · refine ⟨?_, by rw [dropFraction_append hf hstart, hrest]⟩
    obtain ⟨d, ds, rfl, -⟩ := hf
    rfl

/-- The sign and the digits in front of a number. -/
theorem scanNumber_sign {sign r rest : List Char} {n : ℕ} (hsign : sign = [] ∨ sign = ['-'])
    (hr : ∀ c, r.head? = some c → c ≠ '-') (h : scanNat r = some (n, rest)) :
    scanNumber (sign ++ r) =
      if dropExponent (dropFraction rest) = rest then
        some (.int (if sign = [] then n else -n), rest)
      else some (.float (String.ofList ((sign ++ r).take
        ((sign ++ r).length - (dropExponent (dropFraction rest)).length))),
          dropExponent (dropFraction rest)) := by
  rcases hsign with rfl | rfl
  · cases r with
    | nil => cases h
    | cons c r =>
      simp only [List.nil_append, scanNumber, if_neg (hr c rfl), h, Option.bind_eq_bind,
        Option.bind_some, if_true]
  · simp only [List.cons_append, List.nil_append, scanNumber, if_true, h, Option.bind_eq_bind,
      Option.bind_some, List.cons_ne_nil, if_false]

theorem head_toDigits (n : ℕ) (r : List Char) :
    ∀ c, (Nat.toDigits 10 n ++ r).head? = some c → c ≠ '-' := by
  obtain ⟨c, ds, hcs, hd, -⟩ := toDigits_eq_cons n
  rw [hcs]
  rintro _ ⟨⟩ rfl
  exact absurd hd (by decide)

theorem scanNumber_dumpInt (i : ℤ) {r : List Char} (hr : Delimited r) :
    scanNumber (dumpInt i ++ r) = some (.int i, r) := by
  have hrest : dropExponent (dropFraction r) = r := by rw [hr.dropFraction, hr.dropExponent]
  cases i with
  | ofNat n =>
    have hs := scanNat_toDigits n hr.noDigit
    exact (scanNumber_sign (.inl rfl) (head_toDigits n r) hs).trans (if_pos hrest)
  | negSucc n =>
    have hs := scanNat_toDigits (n + 1) hr.noDigit
    exact (scanNumber_sign (.inr rfl) (head_toDigits (n + 1) r) hs).trans (if_pos hrest)

theorem scanNumber_float {n : ℕ} {sign fraction exponent r : List Char}
    (hsign : sign = [] ∨ sign = ['-']) (hf : fraction = [] ∨ IsFraction fraction)
    (he : exponent = [] ∨ IsExponent exponent) (hne : fraction ++ exponent ≠ [])
    (hr : Delimited r) :
    scanNumber ((sign ++ (Nat.toDigits 10 n ++ (fraction ++ exponent))) ++ r) =
      some (.float (String.ofList (sign ++ (Nat.toDigits 10 n ++ (fraction ++ exponent)))), r) := by
  obtain ⟨hstart, hdrop⟩ := drop_fraction_exponent hf he hr
  have hs := scanNumber_sign hsign (head_toDigits n _) (scanNat_toDigits n hstart)
  have hrest : dropExponent (dropFraction (fraction ++ (exponent ++ r))) ≠
      fraction ++ (exponent ++ r) := by
    rw [hdrop, ← List.append_assoc]
    intro heq
    exact hne (List.append_left_eq_self.mp heq.symm)
  rw [if_neg hrest, hdrop] at hs
  have happend : sign ++ (Nat.toDigits 10 n ++ (fraction ++ (exponent ++ r))) =
      (sign ++ (Nat.toDigits 10 n ++ (fraction ++ exponent))) ++ r := by simp
  rw [happend, List.length_append, Nat.add_sub_cancel, List.take_left] at hs
  exact hs

/-! Values -/

mutual
/-- `json.dumps(value, separators=(',', ':'))`. -/
def dump : Json → List Char
  | .null => ['n', 'u', 'l', 'l']
  | .bool true => ['t', 'r', 'u', 'e']
  | .bool false => ['f', 'a', 'l', 's', 'e']
  | .int i => dumpInt i
  | .float repr => dumpFloat repr
  | .str s => dumpStr s
  | .list [] => ['[', ']']
  | .list (x :: xs) => '[' :: dump x ++ dumpItems xs
  | .dict [] => ['{', '}']
  | .dict ((k, v) :: items) => '{' :: dumpStr k ++ ':' :: dump v ++ dumpFields items

def dumpItems : List Json → List Char
  | [] => [']']
  | x :: xs => ',' :: dump x ++ dumpItems xs

def dumpFields : List (String × Json) → List Char
  | [] => ['}']
  | (k, v) :: items => ',' :: dumpStr k ++ ':' :: dump v ++ dumpFields items
end

def skip (cs : List Char) : List Char :=
  cs.dropWhile fun c => c = ' ' || c = '\t' || c = '\n' || c = '\r'

mutual
/-- A value. The number bounds the depth and the length of what is read. -/
def scan : ℕ → List Char → Option (Json × List Char)
  | 0, _ => none
  | _ + 1, [] => none
  | n + 1, c :: r =>
    if c = '-' ∨ c.isDigit then (scanNumber (c :: r)).or (scanConstant (c :: r))
    else if c = '"' then (scanStr r).map fun p => (.str (String.ofList p.1), p.2)
    else if c = '[' then
      match skip r with
      | [] => none
      | c :: r =>
        if c = ']' then some (.list [], r)
        else do
          let (x, r) ← scan n (c :: r)
          let (xs, r) ← scanItems n r
          some (.list (x :: xs), r)
    else if c = '{' then
      match skip r with
      | [] => none
      | c :: r =>
        if c = '}' then some (.dict [], r)
        else do
          let (e, r) ← scanField n (c :: r)
          let (es, r) ← scanFields n r
          some (.dict (ofPairs (e :: es)), r)
    else
      match c, r with
      | 'n', 'u' :: 'l' :: 'l' :: r => some (.null, r)
      | 't', 'r' :: 'u' :: 'e' :: r => some (.bool true, r)
      | 'f', 'a' :: 'l' :: 's' :: 'e' :: r => some (.bool false, r)
      | _, _ => scanConstant (c :: r)

/-- The rest of a list behind one of its values. -/
def scanItems : ℕ → List Char → Option (List Json × List Char)
  | 0, _ => none
  | n + 1, cs =>
    match skip cs with
    | [] => none
    | c :: r =>
      if c = ']' then some ([], r)
      else if c = ',' then do
        let (x, r) ← scan n (skip r)
        let (xs, r) ← scanItems n r
        some (x :: xs, r)
      else none

/-- A key and its value. -/
def scanField : ℕ → List Char → Option ((String × Json) × List Char)
  | 0, _ => none
  | _ + 1, [] => none
  | n + 1, c :: r =>
    if c = '"' then do
      let (k, r) ← scanStr r
      match skip r with
      | [] => none
      | c :: r =>
        if c = ':' then do
          let (v, r) ← scan n (skip r)
          some ((String.ofList k, v), r)
        else none
    else none

/-- The rest of a dict behind one of its items. -/
def scanFields : ℕ → List Char → Option (List (String × Json) × List Char)
  | 0, _ => none
  | n + 1, cs =>
    match skip cs with
    | [] => none
    | c :: r =>
      if c = '}' then some ([], r)
      else if c = ',' then do
        let (e, r) ← scanField n (skip r)
        let (es, r) ← scanFields n r
        some (e :: es, r)
      else none
end

/-- What a value starts with. -/
def Opening (c : Char) : Prop :=
  c = '-' ∨ c.isDigit ∨ c = '"' ∨ c = '[' ∨ c = '{' ∨ c = 'n' ∨ c = 't' ∨ c = 'f' ∨ c = 'N' ∨
    c = 'I'

theorem number_eq_cons {n : ℕ} {sign rest : List Char} (hsign : sign = [] ∨ sign = ['-']) :
    ∃ c r, sign ++ (Nat.toDigits 10 n ++ rest) = c :: r ∧ (c = '-' ∨ c.isDigit) := by
  obtain ⟨c, ds, hcs, hd, -⟩ := toDigits_eq_cons n
  rw [hcs]
  rcases hsign with rfl | rfl
  · exact ⟨c, _, rfl, .inr hd⟩
  · exact ⟨'-', _, rfl, .inl rfl⟩

theorem dumpFloat_number {n : ℕ} {sign rest : List Char} :
    dumpFloat (String.ofList (sign ++ (Nat.toDigits 10 n ++ rest))) =
      sign ++ (Nat.toDigits 10 n ++ rest) := by
  have hno : ∀ s ∈ ["nan", "inf", "-inf"], (s.toList.all fun c => !c.isDigit) = true := by decide
  have hne : ∀ s ∈ ["nan", "inf", "-inf"],
      String.ofList (sign ++ (Nat.toDigits 10 n ++ rest)) ≠ s := by
    rintro s hs rfl
    obtain ⟨c, ds, hcs, hd, -⟩ := toDigits_eq_cons n
    have hall := hno _ hs
    rw [String.toList_ofList, hcs] at hall
    have hc := List.all_eq_true.mp hall c (by simp)
    rw [hd] at hc
    cases hc
  rw [dumpFloat, if_neg (hne _ (by simp)), if_neg (hne _ (by simp)), if_neg (hne _ (by simp)),
    String.toList_ofList]

theorem dumpFloat_eq_cons {repr : String} (h : IsFloat repr) :
    ∃ c r, dump (.float repr) = c :: r ∧ Opening c := by
  cases h with
  | nan => exact ⟨_, _, rfl, by simp [Opening]⟩
  | inf => exact ⟨_, _, rfl, by simp [Opening]⟩
  | negInf => exact ⟨_, _, rfl, by simp [Opening]⟩
  | number hsign =>
    rw [dump, dumpFloat_number]
    obtain ⟨c, r, hcr, hc⟩ := number_eq_cons hsign
    refine ⟨c, r, hcr, ?_⟩
    rcases hc with hc | hc
    · exact .inl hc
    · exact .inr (.inl hc)

theorem dump_eq_cons {v : Json} (h : v.WF) : ∃ c r, dump v = c :: r ∧ Opening c := by
  cases v with
  | null => exact ⟨_, _, rfl, by simp [Opening]⟩
  | bool b => cases b <;> exact ⟨_, _, rfl, by simp [Opening]⟩
  | int i =>
    obtain ⟨c, r, hcr, hc⟩ := dumpInt_eq_cons i
    refine ⟨c, r, by rw [dump, hcr], ?_⟩
    rcases hc with h | h
    · exact .inl h
    · exact .inr (.inl h)
  | float repr => exact dumpFloat_eq_cons h
  | str s => exact ⟨_, _, rfl, by simp [Opening]⟩
  | list xs => cases xs <;> exact ⟨_, _, rfl, by simp [Opening]⟩
  | dict items => cases items <;> exact ⟨_, _, rfl, by simp [Opening]⟩

theorem Opening.skip {c : Char} {r : List Char} (h : Opening c) : skip (c :: r) = c :: r := by
  have hw : (c = ' ' || c = '\t' || c = '\n' || c = '\r') = false := by
    by_contra hw
    simp only [Bool.not_eq_false, Bool.or_eq_true, decide_eq_true_eq] at hw
    rcases hw with ((rfl | rfl) | rfl) | rfl <;> revert h <;> unfold Opening <;> decide
  rw [Json.skip, List.dropWhile_cons, hw]
  rfl

theorem Opening.ne {c : Char} (h : Opening c) : c ≠ ']' ∧ c ≠ '}' := by
  constructor <;> rintro rfl <;> revert h <;> unfold Opening <;> decide

theorem skip_dump {v : Json} (h : v.WF) (r : List Char) : skip (dump v ++ r) = dump v ++ r := by
  obtain ⟨c, t, hct, hc⟩ := dump_eq_cons h
  rw [hct, List.cons_append, hc.skip]

theorem delimited_dumpItems (xs : List Json) (r : List Char) : Delimited (dumpItems xs ++ r) := by
  cases xs with
  | nil => exact .inr (.inl rfl)
  | cons x xs => exact .inl rfl

theorem delimited_dumpFields (items : List (String × Json)) (r : List Char) :
    Delimited (dumpFields items ++ r) := by
  cases items with
  | nil => exact .inr (.inr rfl)
  | cons e items => exact .inl rfl

/-! One equation for each production that reads parts. -/

theorem scan_number {c : Char} {r : List Char} (n : ℕ) (h : c = '-' ∨ c.isDigit) :
    scan (n + 1) (c :: r) = (scanNumber (c :: r)).or (scanConstant (c :: r)) := by
  rw [scan.eq_def]
  simp only [if_pos h]

theorem scan_dumpFloat {repr : String} {r : List Char} (n : ℕ) (h : IsFloat repr)
    (hr : Delimited r) : scan (n + 1) (dump (.float repr) ++ r) = some (.float repr, r) := by
  cases h with
  | nan => rfl
  | inf => rfl
  | negInf => rfl
  | @number m _ _ _ hsign hf he hne =>
    have hs := scanNumber_float (n := m) hsign hf he hne hr
    rw [dump, dumpFloat_number]
    obtain ⟨c, t, hct, hc⟩ := number_eq_cons hsign
    rw [hct, List.cons_append] at hs ⊢
    rw [scan_number n hc, hs, Option.some_or]

theorem scan_list {c : Char} {r t r' r'' : List Char} {n : ℕ} {x : Json} {xs : List Json}
    (ht : skip r = c :: t) (hc : c ≠ ']') (hx : scan n (c :: t) = some (x, r'))
    (hxs : scanItems n r' = some (xs, r'')) :
    scan (n + 1) ('[' :: r) = some (.list (x :: xs), r'') := by
  rw [scan.eq_def]
  have hd : '['.isDigit = false := by decide
  simp only [hd, Bool.false_eq_true, or_self, Char.reduceEq, if_false, if_true, ht, if_neg hc, hx,
    hxs, Option.bind_eq_bind, Option.bind_some]

theorem scan_dict {c : Char} {r t r' r'' : List Char} {n : ℕ} {e : String × Json}
    {es : List (String × Json)} (ht : skip r = c :: t) (hc : c ≠ '}')
    (he : scanField n (c :: t) = some (e, r')) (hes : scanFields n r' = some (es, r'')) :
    scan (n + 1) ('{' :: r) = some (.dict (ofPairs (e :: es)), r'') := by
  rw [scan.eq_def]
  have hd : '{'.isDigit = false := by decide
  simp only [hd, Bool.false_eq_true, or_self, Char.reduceEq, if_false, if_true, ht, if_neg hc, he,
    hes, Option.bind_eq_bind, Option.bind_some]

theorem scanItems_cons {r r' r'' : List Char} {n : ℕ} {x : Json} {xs : List Json}
    (hx : scan n (skip r) = some (x, r')) (hxs : scanItems n r' = some (xs, r'')) :
    scanItems (n + 1) (',' :: r) = some (x :: xs, r'') := by
  have ht : skip (',' :: r) = ',' :: r := rfl
  rw [scanItems.eq_def]
  simp only [ht, Char.reduceEq, if_false, if_true, hx, hxs, Option.bind_eq_bind,
    Option.bind_some]

theorem scanFields_cons {r r' r'' : List Char} {n : ℕ} {e : String × Json}
    {es : List (String × Json)} (he : scanField n (skip r) = some (e, r'))
    (hes : scanFields n r' = some (es, r'')) :
    scanFields (n + 1) (',' :: r) = some (e :: es, r'') := by
  have ht : skip (',' :: r) = ',' :: r := rfl
  rw [scanFields.eq_def]
  simp only [ht, Char.reduceEq, if_false, if_true, he, hes, Option.bind_eq_bind,
    Option.bind_some]

theorem skip_dumpStr (k : String) (r : List Char) : skip (dumpStr k ++ r) = dumpStr k ++ r := rfl

theorem scanField_dump {k : String} {v : Json} {n : ℕ} {r : List Char} (hw : v.WF)
    (hv : scan n (dump v ++ r) = some (v, r)) :
    scanField (n + 1) (dumpStr k ++ (':' :: (dump v ++ r))) = some ((k, v), r) := by
  have hs : scanStr (k.toList.flatMap escape ++ '"' :: (':' :: (dump v ++ r))) =
      some (k.toList, ':' :: (dump v ++ r)) := scanStr_dump _ _
  have hskip : skip (':' :: (dump v ++ r)) = ':' :: (dump v ++ r) := rfl
  simp only [dumpStr, List.cons_append, List.append_assoc, List.nil_append, scanField, if_true,
    hs, Option.bind_eq_bind, Option.bind_some, hskip, skip_dump hw, hv, String.ofList_toList]

mutual
theorem scan_dump (v : Json) (n : ℕ) (r : List Char) (hw : v.WF) (hn : (dump v).length ≤ n)
    (hr : Delimited r) : scan n (dump v ++ r) = some (v, r) := by
  cases n with
  | zero =>
    obtain ⟨c, t, hct, -⟩ := dump_eq_cons hw
    simp [hct] at hn
  | succ n =>
    match v with
    | .null => rfl
    | .bool true => rfl
    | .bool false => rfl
    | .int i =>
      obtain ⟨c, t, hct, hc⟩ := dumpInt_eq_cons i
      have hs := scanNumber_dumpInt i hr
      rw [hct, List.cons_append] at hs
      rw [dump, hct, List.cons_append, scan_number n hc, hs, Option.some_or]
    | .float repr => exact scan_dumpFloat n hw hr
    | .str s =>
      have hs := scanStr_dump s.toList r
      simp only [dump, dumpStr, List.cons_append, List.append_assoc, List.nil_append, scan, hs]
      simp
    | .list [] => rfl
    | .list (x :: xs) =>
      rw [WF, WFList] at hw
      simp only [dump, List.cons_append, List.length_cons, List.length_append] at hn
      have hx := scan_dump x n (dumpItems xs ++ r) hw.1 (by omega) (delimited_dumpItems xs r)
      have hxs := scanItems_dump xs n r hw.2 (by omega)
      obtain ⟨c, t, hct, hc⟩ := dump_eq_cons hw.1
      have hskip := skip_dump hw.1 (dumpItems xs ++ r)
      rw [hct, List.cons_append] at hx hskip
      rw [dump, hct, List.cons_append, List.cons_append, List.append_assoc, List.cons_append]
      exact scan_list hskip hc.ne.1 hx hxs
    | .dict [] => rfl
    | .dict ((k, x) :: items) =>
      rw [WF, WFItems] at hw
      simp only [dump, List.cons_append, List.length_cons, List.length_append] at hn
      have hk : (dumpStr k).length ≥ 1 := by simp [dumpStr]
      obtain ⟨n, rfl⟩ := Nat.exists_eq_add_of_le' (show 1 ≤ n by omega)
      have hx := scan_dump x n (dumpFields items ++ r) hw.2.1 (by omega)
        (delimited_dumpFields items r)
      have hf := scanField_dump (k := k) hw.2.1 hx
      have hfs := scanFields_dump items (n + 1) r hw.2.2 (by omega)
      have hskip := skip_dumpStr k (':' :: (dump x ++ (dumpFields items ++ r)))
      have hp : ofPairs ((k, x) :: items) = (k, x) :: items := ofPairs_of_nodup hw.1
      have hd := scan_dict hskip (by decide) hf hfs
      rw [hp] at hd
      simpa only [dump, List.cons_append, List.append_assoc] using hd

theorem scanItems_dump (xs : List Json) (n : ℕ) (r : List Char) (hw : WFList xs)
    (hn : (dumpItems xs).length ≤ n) : scanItems n (dumpItems xs ++ r) = some (xs, r) := by
  match xs, n with
  | [], 0 => simp [dumpItems] at hn
  | _ :: _, 0 => simp [dumpItems] at hn
  | [], n + 1 => rfl
  | x :: xs, n + 1 =>
    rw [WFList] at hw
    simp only [dumpItems, List.cons_append, List.length_cons, List.length_append] at hn
    have hx := scan_dump x n (dumpItems xs ++ r) hw.1 (by omega) (delimited_dumpItems xs r)
    have hxs := scanItems_dump xs n r hw.2 (by omega)
    rw [← skip_dump hw.1] at hx
    simpa only [dumpItems, List.cons_append, List.append_assoc] using scanItems_cons hx hxs

theorem scanFields_dump (items : List (String × Json)) (n : ℕ) (r : List Char)
    (hw : WFItems items) (hn : (dumpFields items).length ≤ n) :
    scanFields n (dumpFields items ++ r) = some (items, r) := by
  match items, n with
  | [], 0 => simp [dumpFields] at hn
  | _ :: _, 0 => simp [dumpFields] at hn
  | [], n + 1 => rfl
  | (k, x) :: items, n + 1 =>
    rw [WFItems] at hw
    simp only [dumpFields, List.cons_append, List.length_cons, List.length_append] at hn
    have hk : (dumpStr k).length ≥ 1 := by simp [dumpStr]
    obtain ⟨n, rfl⟩ := Nat.exists_eq_add_of_le' (show 1 ≤ n by omega)
    have hx := scan_dump x n (dumpFields items ++ r) hw.1 (by omega)
      (delimited_dumpFields items r)
    have hf := scanField_dump (k := k) hw.1 hx
    have hfs := scanFields_dump items (n + 1) r hw.2 (by omega)
    rw [← skip_dumpStr] at hf
    simpa only [dumpFields, List.cons_append, List.append_assoc] using scanFields_cons hf hfs
end

def dumps (v : Json) : String := String.ofList (dump v)

/-- `str(value)`; a list or a dict is shown as its JSON text. -/
def shown : Json → String
  | .null => "None"
  | .bool true => "True"
  | .bool false => "False"
  | .int i => toString i
  | .float repr => repr
  | .str s => s
  | value => dumps value

/-- `json.loads`. -/
def loads (s : String) : Option Json :=
  match scan s.toList.length (skip s.toList) with
  | some (v, r) => if skip r = [] then some v else none
  | none => none

/-- A value survives its text. -/
theorem loads_dumps {v : Json} (h : v.WF) : loads (dumps v) = some v := by
  have hs := scan_dump v (dump v).length [] h (le_refl _) trivial
  have hskip := skip_dump h []
  rw [List.append_nil] at hs hskip
  simp only [loads, dumps, String.toList_ofList, hskip, hs]
  rfl

end Json
end Lib
