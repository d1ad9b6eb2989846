import Benji.Lib.Base64
import Benji.Lib.Fails
import Benji.Storage.Codec
import Benji.Transform.KeyWrap

/-! The encrypting transforms `aes_256_gcm` and `aes_256_gcm_ecc`: every object has a key of its
own, which the materials hold wrapped or as a point of a curve. -/
namespace Benji.Transform
open Lib
open Codec (CodecError)

/-- AES in GCM mode. No tag is computed or verified. -/
structure Gcm where
  encrypt : Bytes → Bytes → Bytes → Bytes
  decrypt : Bytes → Bytes → Bytes → Bytes
  decrypt_encrypt : ∀ key nonce data, decrypt key nonce (encrypt key nonce data) = data

/-- `get_random_bytes`, with the number of the draw. -/
structure Random where
  bytes : ℕ → ℕ → Bytes
  length_bytes : ∀ n count, (bytes n count).length = count

def aesKeyLen : ℕ := 32

/-- `_create_envelope_key` and `_derive_envelope_key`. -/
structure EnvelopeKeys where
  create : ℕ → Except CodecError (Bytes × Bytes)
  derive : Bytes → Except CodecError Bytes

/-- The key that is created is found again. -/
def EnvelopeKeys.Sound (keys : EnvelopeKeys) : Prop :=
  ∀ n, ∃ key encrypted, keys.create n = .ok (key, encrypted) ∧ key.length = aesKeyLen ∧
    keys.derive encrypted = .ok key

structure Aes256Gcm where
  gcm : Gcm
  random : Random
  keys : EnvelopeKeys

/-- The materials as they are written. -/
def materials (encryptedKey iv : Bytes) : Json :=
  .dict [("envelope_key", .str (String.ofList (b64encode encryptedKey))),
    ("iv", .str (String.ofList (b64encode iv)))]

/-- `key in value`, where that is defined. -/
def contains (key : String) : Json → Except CodecError Bool
  | .dict items => .ok (items.lookup key).isSome
  | .list xs => .ok (xs.any fun x => !DictHmac.differs x key)
  | .str s => .ok (s.toList.tails.any fun tail => key.toList.isPrefixOf tail)
  | _ => .error .typeError

/-- `value[key]` after it was found there. -/
def getItem (key : String) : Json → Except CodecError Json
  | .dict items =>
    match items.lookup key with
    | some v => .ok v
    | none => .error (.keyError key)
  | _ => .error .typeError

/-- `base64.b64decode` of any value. -/
def b64decodeJson : Json → Except CodecError Bytes
  | .str s =>
    match b64decode s.toList with
    | some b => .ok b
    | none => .error (.valueError "Invalid base64-encoded string")
  | _ => .error .typeError

def requireKey (key : String) (value : Json) : Except CodecError Unit := do
  if ← contains key value then .ok ()
  else .error (.keyError s!"Encryption materials are missing required key {key}.")

namespace Aes256Gcm

def encapsulate (t : Aes256Gcm) (n : ℕ) (data : Bytes) : Except CodecError (Bytes × Json) := do
  let (envelopeKey, encryptedKey) ← t.keys.create n
  let envelopeIv := t.random.bytes (2 * n + 1) 16
  return (t.gcm.encrypt envelopeKey envelopeIv data, materials encryptedKey envelopeIv)

def decapsulate (t : Aes256Gcm) (data : Bytes) (value : Json) : Except CodecError Bytes := do
  requireKey "envelope_key" value
  requireKey "iv" value
  let envelopeKey ← getItem "envelope_key" value
  let iv ← getItem "iv" value
  let envelopeKey ← b64decodeJson envelopeKey
  let iv ← b64decodeJson iv
  if iv.length ≠ 16 then
    .error (.valueError (s!"Encryption materials IV iv has wrong length of {iv.length}." ++
      " It must be 16 bytes long."))
  else
    let envelopeKey ← t.keys.derive envelopeKey
    if envelopeKey.length ≠ aesKeyLen then
      .error (.valueError (s!"Encryption materials key envelope_key has wrong length of " ++
        s!"{envelopeKey.length}. It must be 32 bytes long."))
    else .ok (t.gcm.decrypt envelopeKey iv data)

end Aes256Gcm

/-! ### A master key -/

structure MasterKey where
  key : Bytes
  length_key : key.length = aesKeyLen

/-- `masterKey` from the configuration. -/
def MasterKey.ofConfig (masterKeyEncoded : String) : Except CodecError MasterKey :=
  match b64decode masterKeyEncoded.toList with
  | none => .error (.valueError "Invalid base64-encoded string")
  | some key =>
    if h : key.length = aesKeyLen then .ok ⟨key, h⟩
    else .error (.valueError ("Key masterKey has the wrong length." ++
      " It must be 32 bytes long and encoded as BASE64."))

/-- Every master key can be configured. -/
theorem MasterKey.ofConfig_b64encode (master : MasterKey) :
    MasterKey.ofConfig (String.ofList (b64encode master.key)) = .ok master := by
  rw [ofConfig, String.toList_ofList, b64decode_b64encode]
  exact dif_pos master.length_key

/-- Python's `hex`. -/
def hex (n : ℕ) : String := "0x" ++ String.ofList (Nat.toDigits 16 n)

def ofWrapError : WrapError → CodecError
  | .keyLength n => .valueError s!"Incorrect AES key length ({n} bytes)"
  | .structError => .transform "struct.error"
  | .integrityCheckFailed found expected =>
    .valueError s!"Integrity Check Failed: {hex found} (expected {hex expected})"

def masterKeys (c : BlockCipher) (random : Random) (master : MasterKey) : EnvelopeKeys where
  create n := do
    let envelopeKey := random.bytes (2 * n) aesKeyLen
    let encryptedKey ← (aesWrapKey c master.key envelopeKey defaultIv).mapError ofWrapError
    return (envelopeKey, encryptedKey)
  derive encryptedKey := (aesUnwrapKey c master.key encryptedKey defaultIv).mapError ofWrapError

/-! ### A key pair -/

/-- An elliptic curve with the encoding of its points; `toKey` hashes the coordinates. -/
structure Curve where
  Point : Type
  generator : Point
  mul : Point → ℕ → Point
  pack : Point → Bytes
  unpack : Bytes → Option Point
  toKey : Point → Bytes
  mul_comm : ∀ a b, mul (mul generator a) b = mul (mul generator b) a
  unpack_pack : ∀ p, unpack (pack p) = some p
  length_toKey : ∀ p, (toKey p).length = aesKeyLen

/-- A key with its private part, when there is one. -/
structure EccKey (curve : Curve) where
  pointQ : curve.Point
  d : Option ℕ
  pointQ_eq : ∀ x, d = some x → pointQ = curve.mul curve.generator x

/-- `scalar` is the private part of `ECC.generate`. -/
def eccKeys {curve : Curve} (scalar : ℕ → ℕ) (key : EccKey curve) : EnvelopeKeys where
  create n := .ok (curve.toKey (curve.mul key.pointQ (scalar n)),
    curve.pack (curve.mul curve.generator (scalar n)))
  derive cipherPubkey :=
    match curve.unpack cipherPubkey, key.d with
    | some point, some d => .ok (curve.toKey (curve.mul point d))
    | _, _ => .error (.valueError "Unsupported ECC key format")

/-- `decapsulate` of the subclass. -/
def eccDecapsulate {curve : Curve} (t : Aes256Gcm) (key : EccKey curve) (data : Bytes)
    (value : Json) : Except CodecError Bytes :=
  match key.d with
  | none => .error (.valueError
      "ECC key loaded from config does not include private key data, cannot proceed.")
  | some _ => t.decapsulate data value

/-! ### Round trips -/

section RoundTrip
variable {t : Aes256Gcm} {n : ℕ} {data encryptedKey iv : Bytes}

theorem masterKeys_sound (c : BlockCipher) (random : Random) (master : MasterKey) :
    (masterKeys c random master).Sound := by
  intro n
  have hlen := random.length_bytes (2 * n) aesKeyLen
  have hkek : ValidKek master.key := .inr (.inr master.length_key)
  have hwrapped : ∃ wrapped, aesWrapKey c master.key (random.bytes (2 * n) aesKeyLen) defaultIv =
      .ok wrapped := exists_aesWrapKey hkek (by decide) (by rw [hlen]; decide)
  obtain ⟨wrapped, hwrap⟩ := hwrapped
  refine ⟨random.bytes (2 * n) aesKeyLen, wrapped, ?_, hlen, ?_⟩
  · simp [masterKeys, hwrap, Except.mapError, Bind.bind, Except.bind, pure, Except.pure]
  · have hback := aesUnwrapKey_aesWrapKey (by rw [hlen]; decide) hwrap
    simp [masterKeys, hback, Except.mapError]

theorem eccKeys_sound {curve : Curve} (scalar : ℕ → ℕ) (key : EccKey curve) {d : ℕ}
    (hd : key.d = some d) : (eccKeys scalar key).Sound := by
  intro n
  refine ⟨_, _, rfl, curve.length_toKey _, ?_⟩
  simp only [eccKeys, curve.unpack_pack, hd, key.pointQ_eq d hd]
  rw [curve.mul_comm]

theorem materials_wf : (materials encryptedKey iv).WF := by
  simp [materials, Json.WF, Json.WFItems]

/-- Reading the materials back. -/
theorem decapsulate_materials (hiv : iv.length = 16) :
    t.decapsulate data (materials encryptedKey iv) = (do
      let envelopeKey ← t.keys.derive encryptedKey
      if envelopeKey.length ≠ aesKeyLen then
        .error (.valueError (s!"Encryption materials key envelope_key has wrong length of " ++
          s!"{envelopeKey.length}. It must be 32 bytes long."))
      else .ok (t.gcm.decrypt envelopeKey iv data)) := by
  have hkey : (requireKey "envelope_key" (materials encryptedKey iv)) = .ok () := rfl
  have hivKey : (requireKey "iv" (materials encryptedKey iv)) = .ok () := rfl
  have hdecode : ∀ b, b64decodeJson (.str (String.ofList (b64encode b))) = .ok b := by
    intro b
    rw [b64decodeJson, String.toList_ofList, b64decode_b64encode]
  have hgetKey : getItem "envelope_key" (materials encryptedKey iv) =
    .ok (.str (String.ofList (b64encode encryptedKey))) := rfl
  have hgetIv : getItem "iv" (materials encryptedKey iv) =
    .ok (.str (String.ofList (b64encode iv))) := rfl
  simp only [Aes256Gcm.decapsulate, hkey, hivKey, hgetKey, hgetIv, hdecode, Bind.bind, Except.bind,
    hiv, ne_eq, not_true_eq_false, if_false]

theorem decapsulate_encapsulate (hkeys : t.keys.Sound) (n : ℕ) (data : Bytes) :
    ∃ encrypted value, t.encapsulate n data = .ok (encrypted, value) ∧ value.WF ∧
      t.decapsulate encrypted value = .ok data := by
  obtain ⟨key, encryptedKey, hcreate, hlen, hderive⟩ := hkeys n
  refine ⟨t.gcm.encrypt key (t.random.bytes (2 * n + 1) 16) data,
    materials encryptedKey (t.random.bytes (2 * n + 1) 16), ?_, materials_wf, ?_⟩
  · simp [Aes256Gcm.encapsulate, hcreate, Bind.bind, Except.bind, pure, Except.pure]
  · rw [decapsulate_materials (t.random.length_bytes _ _), hderive]
    simp [Bind.bind, Except.bind, hlen, t.gcm.decrypt_encrypt]

end RoundTrip

/-! ### What is accepted -/

section Accepted
variable {t : Aes256Gcm} {data d : Bytes} {items : List (String × Json)}

/-- The bytes that an item of the materials stands for. -/
def Encoded (items : List (String × Json)) (key : String) (b : Bytes) : Prop :=
  ∃ s, items.lookup key = some (.str s) ∧ b64decode s.toList = some b

theorem requireKey_dict {key : String} {u : Unit} :
    requireKey key (.dict items) = .ok u ↔ (items.lookup key).isSome := by
  cases h : items.lookup key with
  | none => simp [requireKey, contains, h, Bind.bind, Except.bind]
  | some v => simp [requireKey, contains, h, Bind.bind, Except.bind]

theorem getItem_dict {key : String} {v : Json} :
    getItem key (.dict items) = .ok v ↔ items.lookup key = some v := by
  cases h : items.lookup key with
  | none => simp [getItem, h]
  | some v => simp [getItem, h]

theorem b64decodeJson_eq_ok {v : Json} {b : Bytes} :
    b64decodeJson v = .ok b ↔ ∃ s, v = .str s ∧ b64decode s.toList = some b := by
  cases v with
  | str s => cases h : b64decode s.toList <;> simp [b64decodeJson, h]
  | _ => simp [b64decodeJson]

theorem mapError_eq_ok {α : Type} {x : Except WrapError α} {a : α} :
    x.mapError ofWrapError = .ok a ↔ x = .ok a := by
  cases x <;> simp [Except.mapError]

end Accepted

end Benji.Transform
