import Benji.Lib.Json
import Benji.Lib.Text

/-! `DictHMAC`: what it feeds to the HMAC, and which dictionaries it tells apart. -/
namespace Benji
open Lib

/-- The exceptions of `DictHMAC`; the first is an `InternalError`, the others `ValueError`s. -/
inductive HmacError where
  | notADict
  | missingKey (hmacKey : String)
  | invalidType (hmacKey : String)
  | missingRequired (key : String)
  | unsupported (algorithmKey : String)
  | invalid (expected : Json) (actual : String)

structure DictHmac where
  hmacKey : String
  secretKey : Bytes

namespace DictHmac

def hashName : String := "sha256"
def algorithmKey : String := "algorithm"
def digestKey : String := "digest"

mutual
/-- The arguments of `hmac.update` before their encoding, in order. -/
def traverse : Json → List String
  | .null => ["None"]
  | .bool true => ["True"]
  | .bool false => ["False"]
  | .int i => [toString i]
  | .float repr => [repr]
  | .str s => [s]
  | .list xs => traverseList xs
  | .dict items =>
    ((traverseItems items).insertionSort fun a b => a.1 ≤ b.1).flatMap fun e => e.1 :: e.2

def traverseList : List Json → List String
  | [] => []
  | x :: xs => traverse x ++ traverseList xs

def traverseItems : List (String × Json) → List (String × List String)
  | [] => []
  | (k, v) :: items => (k, traverse v) :: traverseItems items
end

/-- All bytes the HMAC of a dictionary is computed over. -/
def feed (items : List (String × Json)) : Bytes :=
  (traverse (.dict items)).flatMap encodeUtf8

/-- `mac` is HMAC-SHA256. -/
def calculateDigest (mac : Bytes → Bytes → Bytes) (h : DictHmac) (items : List (String × Json)) :
    String :=
  String.ofList (b64encode (mac h.secretKey (feed items)))

def hmacItems (digest : String) : List (String × Json) :=
  [(algorithmKey, .str hashName), (digestKey, .str digest)]

/-- What `add_digest` puts under the HMAC key. -/
def hmacDict (mac : Bytes → Bytes → Bytes) (h : DictHmac) (items : List (String × Json)) : Json :=
  .dict (hmacItems (calculateDigest mac h items))

def addDigest (mac : Bytes → Bytes → Bytes) (h : DictHmac) :
    Json → Except HmacError Json
  | .dict items => .ok (.dict (Json.setItem h.hmacKey (hmacDict mac h items) items))
  | _ => .error .notADict

/-- `value != text`. -/
def differs : Json → String → Bool
  | .str s, t => s ≠ t
  | _, _ => true

/-- Returns the dictionary without its HMAC key. -/
def verifyDigest (mac : Bytes → Bytes → Bytes) (h : DictHmac) : Json → Except HmacError Json
  | .dict items =>
    match items.lookup h.hmacKey with
    | none => .error (.missingKey h.hmacKey)
    | some (.dict hmacItems) =>
      match hmacItems.lookup algorithmKey, hmacItems.lookup digestKey with
      | none, _ => .error (.missingRequired algorithmKey)
      | _, none => .error (.missingRequired digestKey)
      | some algorithm, some digest =>
        if differs algorithm hashName then .error (.unsupported algorithmKey)
        else
          let rest := Json.delItem h.hmacKey items
          let actual := calculateDigest mac h rest
          if differs digest actual then .error (.invalid digest actual) else .ok (.dict rest)
    | some _ => .error (.invalidType h.hmacKey)
  | _ => .error .notADict

section
variable {mac : Bytes → Bytes → Bytes} {h : DictHmac} {items other : List (String × Json)}

theorem differs_eq_false {v : Json} {s : String} : differs v s = false ↔ v = .str s := by
  cases v <;> simp [differs]

theorem traverseItems_map (items : List (String × Json)) :
    traverseItems items = items.map fun e => (e.1, traverse e.2) := by
  induction items with
  | nil => rfl
  | cons e items ih =>
    rw [traverseItems, ih]
    rfl

theorem lookup_algorithmKey (digest : String) :
    (hmacItems digest).lookup algorithmKey = some (.str hashName) := rfl

theorem lookup_digestKey (digest : String) :
    (hmacItems digest).lookup digestKey = some (.str digest) := rfl

/-- A dictionary whose HMAC item names the digest of the other items is accepted. -/
theorem verifyDigest_of_lookup (hl : items.lookup h.hmacKey =
    some (hmacDict mac h (Json.delItem h.hmacKey items))) :
    verifyDigest mac h (.dict items) = .ok (.dict (Json.delItem h.hmacKey items)) := by
  rw [hmacDict] at hl
  simp [verifyDigest, hl, lookup_algorithmKey, lookup_digestKey, differs]

/-- What is accepted with the HMAC item made for `other` has the digest of `other`. -/
theorem digest_of_verifyDigest {v : Json} (hv : verifyDigest mac h (.dict items) = .ok v)
    (hl : items.lookup h.hmacKey = some (hmacDict mac h other)) :
    v = .dict (Json.delItem h.hmacKey items) ∧
      calculateDigest mac h (Json.delItem h.hmacKey items) = calculateDigest mac h other := by
  rw [hmacDict] at hl
  simp only [verifyDigest, hl, lookup_algorithmKey, lookup_digestKey] at hv
  split_ifs at hv with h1 h2
  have hv := (Except.ok.inj hv).symm
  have h2 := differs_eq_false.mp (Bool.not_eq_true _ ▸ h2)
  exact ⟨hv, (Json.str.inj h2).symm⟩

theorem feed_of_digest (hmac : Function.Injective (mac h.secretKey))
    (hd : calculateDigest mac h items = calculateDigest mac h other) :
    feed items = feed other := by
  have hl := String.ofList_injective hd
  exact hmac (b64encode_inj hl)

/-- The whole text that is fed. -/
def text (items : List (String × Json)) : String :=
  (traverse (.dict items)).foldr (· ++ ·) ""

theorem encodeUtf8_text (items : List (String × Json)) : encodeUtf8 (text items) = feed items := by
  unfold text feed
  induction traverse (.dict items) with
  | nil => rfl
  | cons s l ih => rw [List.foldr_cons, encodeUtf8_append, ih, List.flatMap_cons]

theorem mem_traverse {k : String} (hk : k ∈ items.map Prod.fst) :
    k ∈ traverse (.dict items) := by
  obtain ⟨e, he, rfl⟩ := List.mem_map.mp hk
  rw [traverse, List.mem_flatMap]
  refine ⟨(e.1, traverse e.2), ?_, List.mem_cons_self ..⟩
  rw [List.mem_insertionSort, traverseItems_map]
  exact List.mem_map.mpr ⟨e, he, rfl⟩

theorem feed_ne_nil {k : String} (hk : k ∈ items.map Prod.fst) (h0 : k ≠ "") :
    feed items ≠ [] := by
  intro hf
  have hall := List.flatMap_eq_nil_iff.mp hf k (mem_traverse hk)
  exact h0 (encodeUtf8_eq_nil hall)

theorem feed_str (k s : String) : feed [(k, .str s)] = encodeUtf8 (k ++ s) := by
  simp [feed, traverse, traverseItems, encodeUtf8_append]

theorem feed_list (k s : String) : feed [(k, .list [.str s])] = encodeUtf8 (k ++ s) := by
  simp [feed, traverse, traverseItems, traverseList, encodeUtf8_append]

/-- One text and two dictionaries that feed it. -/
theorem exists_forgery_of_text {k s : String} (hk : k ≠ h.hmacKey) (ht : k ++ s = text items) :
    ∃ other, (Json.dict other).WF ∧ h.hmacKey ∉ other.map Prod.fst ∧
      (Json.dict other).canon ≠ (Json.dict items).canon ∧ feed other = feed items := by
  have hf : encodeUtf8 (k ++ s) = feed items := ht ▸ encodeUtf8_text items
  by_cases hc : (Json.dict [(k, .str s)]).canon = (Json.dict items).canon
  · refine ⟨[(k, .list [.str s])], ?_, ?_, ?_, (feed_list k s).trans hf⟩
    · simp [Json.WF, Json.WFItems, Json.WFList]
    · simpa using hk.symm
    · rw [← hc]
      simp [Json.canon, Json.canonItems, Json.canonList]
  · refine ⟨[(k, .str s)], ?_, ?_, hc, (feed_str k s).trans hf⟩
    · simp [Json.WF, Json.WFItems]
    · simpa using hk.symm

/-- The only dictionary without a second reading is the empty one, and only where the HMAC key
is the empty key. -/
theorem exists_forgery (hk : h.hmacKey ∉ items.map Prod.fst)
    (hne : ¬ (h.hmacKey = "" ∧ items = [])) :
    ∃ other, (Json.dict other).WF ∧ h.hmacKey ∉ other.map Prod.fst ∧
      (Json.dict other).canon ≠ (Json.dict items).canon ∧ feed other = feed items := by
  by_cases h0 : h.hmacKey = ""
  · cases items with
    | nil => exact absurd ⟨h0, rfl⟩ hne
    | cons e items =>
      have hmem : e.1 ∈ (e :: items).map Prod.fst := List.mem_cons_self ..
      have he : e.1 ≠ "" := by
        intro he
        rw [h0, ← he] at hk
        exact hk hmem
      have hfeed := feed_ne_nil hmem he
      have htext : text (e :: items) ≠ "" := by
        intro ht
        rw [← encodeUtf8_text, ht] at hfeed
        exact hfeed rfl
      exact exists_forgery_of_text (h0.symm ▸ htext) (String.append_empty)
  · exact exists_forgery_of_text (Ne.symm h0) (String.empty_append)

/-- No other dictionary is signed like `items`, and what is accepted with its signature is
`items`. -/
def Authenticated (mac : Bytes → Bytes → Bytes) (h : DictHmac) (items : List (String × Json)) :
    Prop :=
  (∀ other, (Json.dict other).WF → h.hmacKey ∉ other.map Prod.fst →
    (Json.dict other).canon ≠ (Json.dict items).canon → feed other ≠ feed items) ∧
  ∀ received v, verifyDigest mac h (.dict received) = .ok v →
    received.lookup h.hmacKey = some (hmacDict mac h items) → v.canon = (Json.dict items).canon

theorem authenticated_of_empty (hmac : Function.Injective (mac h.secretKey))
    (h0 : h.hmacKey = "") : Authenticated mac h [] := by
  have hnil (other : List (String × Json)) (hk : h.hmacKey ∉ other.map Prod.fst)
      (hf : feed other = feed []) : other = [] := by
    cases other with
    | nil => rfl
    | cons e other =>
      have hmem : e.1 ∈ (e :: other).map Prod.fst := List.mem_cons_self ..
      have he : e.1 ≠ "" := by
        intro he
        rw [h0, ← he] at hk
        exact hk hmem
      exact absurd hf (feed_ne_nil hmem he)
  constructor
  · intro other _ hk hc hf
    rw [hnil other hk hf] at hc
    exact hc rfl
  · intro received v hv hl
    obtain ⟨rfl, hd⟩ := digest_of_verifyDigest hv hl
    rw [hnil _ (Json.not_mem_delItem _ _) (feed_of_digest hmac hd)]

theorem not_authenticated {mac : Bytes → Bytes → Bytes} (hk : h.hmacKey ∉ items.map Prod.fst)
    (hne : ¬ (h.hmacKey = "" ∧ items = [])) : ¬ Authenticated mac h items := by
  intro ha
  obtain ⟨other, hw, hko, hc, hf⟩ := exists_forgery hk hne
  exact ha.1 other hw hko hc hf

theorem wf_hmacDict : (hmacDict mac h items).WF := by
  have : algorithmKey ≠ digestKey := by decide
  simp [hmacDict, hmacItems, Json.WF, Json.WFItems, this]

theorem addDigest_eq (hk : h.hmacKey ∉ items.map Prod.fst) :
    addDigest mac h (.dict items) = .ok (.dict (items ++ [(h.hmacKey, hmacDict mac h items)])) := by
  rw [addDigest, Json.setItem_of_not_mem hk]

/-- A signed dictionary is accepted after any number of round trips through its text. -/
theorem verifyDigest_addDigest (hw : (Json.dict items).WF) (hk : h.hmacKey ∉ items.map Prod.fst) :
    (Json.dict (items ++ [(h.hmacKey, hmacDict mac h items)])).WF ∧
      verifyDigest mac h (.dict (items ++ [(h.hmacKey, hmacDict mac h items)])) =
        .ok (.dict items) := by
  have hdel := Json.delItem_append_self (v := hmacDict mac h items) hk
  constructor
  · rw [Json.WF] at hw ⊢
    refine ⟨?_, Json.WFItems_append.mpr ⟨hw.2, wf_hmacDict, trivial⟩⟩
    rw [List.map_append, List.nodup_append]
    refine ⟨hw.1, List.nodup_singleton _, ?_⟩
    intro a ha b hb hab
    rw [List.map_singleton, List.mem_singleton] at hb
    rw [hab, hb] at ha
    exact hk ha
  · have hl := Json.lookup_append_self (v := hmacDict mac h items) hk
    have hv := @verifyDigest_of_lookup mac h (items ++ [(h.hmacKey, hmacDict mac h items)])
      (by rw [hdel]; exact hl)
    rwa [hdel] at hv

/-- Signing survives the JSON text; but what is fed to the HMAC has a second reading for every
dictionary that can be signed under a key with a name. -/
theorem authenticated_iff (hmac : Function.Injective (mac h.secretKey))
    (hw : (Json.dict items).WF) (hk : h.hmacKey ∉ items.map Prod.fst) :
    (Authenticated mac h items ↔ h.hmacKey = "" ∧ items = []) ∧
      ∃ signed received, addDigest mac h (.dict items) = .ok signed ∧
        Json.loads (Json.dumps signed) = some received ∧
        verifyDigest mac h received = .ok (.dict items) := by
  constructor
  · constructor
    · intro ha
      by_contra hne
      exact not_authenticated hk hne ha
    · rintro ⟨h0, rfl⟩
      exact authenticated_of_empty hmac h0
  · obtain ⟨hws, hv⟩ := @verifyDigest_addDigest mac h items hw hk
    exact ⟨_, _, addDigest_eq hk, Json.loads_dumps hws, hv⟩

theorem authenticated_iff_example :
    (Authenticated (fun _ bytes => bytes) ⟨"hmac", [1, 2]⟩ [("a", .int 10), ("b", .str "test")] ↔
      ("hmac" = "" ∧ [("a", Json.int 10), ("b", .str "test")] = [])) ∧
      ∃ signed received, addDigest (fun _ bytes => bytes) ⟨"hmac", [1, 2]⟩
          (.dict [("a", .int 10), ("b", .str "test")]) = .ok signed ∧
        Json.loads (Json.dumps signed) = some received ∧
        verifyDigest (fun _ bytes => bytes) ⟨"hmac", [1, 2]⟩ received =
          .ok (.dict [("a", .int 10), ("b", .str "test")]) :=
  authenticated_iff (h := ⟨"hmac", [1, 2]⟩) Function.injective_id
    (by simp [Json.WF, Json.WFItems]) (by simp)

/-- `\x7b"a": "bc"\x7d` and `\x7b"ab": "c"\x7d`. -/
theorem ambiguous_feed : ¬ ∀ items other : List (String × Json), (Json.dict items).WF →
    (Json.dict other).WF → "hmac" ∉ items.map Prod.fst → "hmac" ∉ other.map Prod.fst →
    (Json.dict other).canon ≠ (Json.dict items).canon → feed other ≠ feed items := by
  intro hall
  have hf : feed [("ab", .str "c")] = feed [("a", .str "bc")] := by rw [feed_str, feed_str]; rfl
  refine hall [("a", .str "bc")] [("ab", .str "c")] ?_ ?_ (by simp) (by simp) ?_ hf
  · simp [Json.WF, Json.WFItems]
  · simp [Json.WF, Json.WFItems]
  · simp [Json.canon, Json.canonItems]

end

end DictHmac
end Benji
