import Benji.Transform.Aes

/-! The transforms that come with the program undo themselves, so objects that are compressed and
encrypted in any order come back as they were written. -/
namespace Benji.Transform
open Lib
open Codec (CodecError)

/-- The compressor; `none` is a `ZstdError`. -/
structure Zstd where
  compress : Bytes → Bytes
  decompress : Bytes → ℤ → Option Bytes
  decompress_compress : ∀ data, decompress (compress data) data.length = some data

namespace Zstd

/-- No data where the compressed data are not shorter. -/
def encapsulate (z : Zstd) (data : Bytes) : Option Bytes × Json :=
  let dataEncapsulated := z.compress data
  if dataEncapsulated.length < data.length then
    (some dataEncapsulated, .dict [("original_size", .int data.length)])
  else (none, .null)

def decapsulate (z : Zstd) (data : Bytes) (value : Json) : Except CodecError Bytes := do
  if ← contains "original_size" value then
    match ← getItem "original_size" value with
    | .int n =>
      match z.decompress data n with
      | some d => .ok d
      | none => .error (.transform "ZstdError")
    | _ => .error .typeError
  else .error (.keyError "Compression materials are missing required key original_size.")

theorem decapsulate_encapsulate {z : Zstd} {data encapsulated : Bytes} {value : Json}
    (h : z.encapsulate data = (some encapsulated, value)) :
    value.WF ∧ z.decapsulate encapsulated value = .ok data := by
  unfold encapsulate at h
  dsimp only at h
  split at h
  · obtain ⟨hdata, rfl⟩ := Prod.mk.inj h
    obtain rfl := Option.some.inj hdata
    refine ⟨by simp [Json.WF, Json.WFItems], ?_⟩
    simp [decapsulate, contains, getItem, Bind.bind, Except.bind, z.decompress_compress]
  · cases (Prod.mk.inj h).1

end Zstd

/-- The transforms of a storage by the names they are configured under. -/
inductive Builtin where
  | zstd (name : String) (z : Zstd)
  | aes256Gcm (name : String) (gcm : Gcm) (random : Random) (c : BlockCipher) (master : MasterKey)
  | aes256GcmEcc (name : String) (gcm : Gcm) (random : Random) (curve : Curve) (scalar : ℕ → ℕ)
      (key : EccKey curve)

namespace Builtin

def name : Builtin → String
  | zstd name _ => name
  | aes256Gcm name _ _ _ _ => name
  | aes256GcmEcc name _ _ _ _ _ => name

/-- Without the private key there is no way back. -/
def Decrypts : Builtin → Prop
  | zstd _ _ => True
  | aes256Gcm _ _ _ _ _ => True
  | aes256GcmEcc _ _ _ _ _ key => key.d.isSome

/-- The keys of a transform never fail to be created. -/
def encapsulateAes (t : Aes256Gcm) (n : ℕ) (data : Bytes) : Option Bytes × Json :=
  match t.encapsulate n data with
  | .ok (encrypted, value) => (some encrypted, value)
  | .error _ => (none, .null)

def toTransform : Builtin → Codec.Transform
  | zstd name z => ⟨name, "zstd", fun _ data => z.encapsulate data, z.decapsulate⟩
  | aes256Gcm name gcm random c master =>
    let t : Aes256Gcm := ⟨gcm, random, masterKeys c random master⟩
    ⟨name, "aes_256_gcm", encapsulateAes t, t.decapsulate⟩
  | aes256GcmEcc name gcm random _ scalar key =>
    let t : Aes256Gcm := ⟨gcm, random, eccKeys scalar key⟩
    ⟨name, "aes_256_gcm_ecc", encapsulateAes t, eccDecapsulate t key⟩

theorem decapsulate_encapsulateAes {t : Aes256Gcm} (hkeys : t.keys.Sound) {n : ℕ}
    {data encapsulated : Bytes} {value : Json}
    (h : encapsulateAes t n data = (some encapsulated, value)) :
    value.WF ∧ t.decapsulate encapsulated value = .ok data := by
  obtain ⟨encrypted, value', henc, hwf, hback⟩ := Transform.decapsulate_encapsulate hkeys n data
  rw [encapsulateAes, henc] at h
  obtain ⟨hdata, rfl⟩ := Prod.mk.inj h
  obtain rfl := Option.some.inj hdata
  exact ⟨hwf, hback⟩

/-- Every transform takes back what it did. -/
theorem decapsulate_encapsulate {b : Builtin} (hb : b.Decrypts) {n : ℕ}
    {data encapsulated : Bytes} {value : Json}
    (h : b.toTransform.encapsulate n data = (some encapsulated, value)) :
    value.WF ∧ b.toTransform.decapsulate encapsulated value = .ok data := by
  cases b with
  | zstd name z => exact Zstd.decapsulate_encapsulate h
  | aes256Gcm name gcm random c master =>
    have hkeys : (Aes256Gcm.mk gcm random (masterKeys c random master)).keys.Sound :=
      masterKeys_sound c random master
    exact decapsulate_encapsulateAes hkeys h
  | aes256GcmEcc name gcm random curve scalar key =>
    obtain ⟨d, hd⟩ := Option.isSome_iff_exists.mp hb
    have hkeys : (Aes256Gcm.mk gcm random (eccKeys scalar key)).keys.Sound :=
      eccKeys_sound scalar key hd
    obtain ⟨hwf, hback⟩ := decapsulate_encapsulateAes hkeys h
    refine ⟨hwf, ?_⟩
    simp only [toTransform, eccDecapsulate, hd]
    exact hback

end Builtin

/-- A storage that is configured with transforms of the program, all of which can decrypt. -/
structure Configured (cfg : Codec.Config) : Prop where
  current : cfg.versions.Reads Codec.currentVersion ⟨2, 0, 0, [], []⟩ 1 3
  active : ∀ t ∈ cfg.activeTransforms, ∃ b : Builtin, b.Decrypts ∧ b.toTransform = t
  registered : ∀ t ∈ cfg.activeTransforms, cfg.getByName t.name = some t

theorem Configured.sound {cfg : Codec.Config} (h : Configured cfg) : cfg.Sound where
  current := h.current
  registered := h.registered
  inverse := by
    intro t ht n data byte bytes value henc
    obtain ⟨b, hb, rfl⟩ := h.active t ht
    exact Builtin.decapsulate_encapsulate hb henc

section Example

/-- A frame with one raw block, as short data get it. -/
def rawFrames : Zstd where
  compress data :=
    [0x28, 0xb5, 0x2f, 0xfd, 0, 0x58] ++ (toBE 3 (data.length * 8 + 1)).reverse ++ data
  decompress data _ := some (data.drop 9)
  decompress_compress data := by
    rw [List.drop_left']
    simp

def zstdConfig : Codec.Config where
  activeTransforms := [(Builtin.zstd "zstd" rawFrames).toTransform]
  getByName name := if name = "zstd" then some (Builtin.zstd "zstd" rawFrames).toTransform else none
  hmacKey := none
  mac _ bytes := bytes
  versions := .plain
  floatEquals repr n := repr.toList = Json.dumpInt n ++ ['.', '0']
  consistencyCheckWrites := true

theorem zstdConfig_configured : Configured zstdConfig where
  current := ⟨rfl, rfl⟩
  active t ht := ⟨.zstd "zstd" rawFrames, trivial, (List.mem_singleton.mp ht).symm⟩
  registered t ht := by
    rw [List.mem_singleton.mp ht]
    rfl

end Example

end Benji.Transform
