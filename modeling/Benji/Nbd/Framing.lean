import Benji.Nbd.Negotiation
import Benji.Nbd.Serves

/-! The framing of the transmission phase: what the handler takes from a connection and what it
writes to it, request by request. -/
namespace Benji.Nbd
open Lib

variable {κ : Type}

/-- A request as a client sends it; only a write has data behind it. -/
structure ClientRequest where
  cmd : ℕ
  flags : ℕ
  handle : ℕ
  offset : ℕ
  length : ℕ
  data : Bytes
  cmd_lt : cmd < 2 ^ 16
  flags_lt : flags < 2 ^ 16
  handle_lt : handle < 2 ^ 64
  offset_lt : offset < 2 ^ 64
  length_lt : length < 2 ^ 32
  data_length : data.length = if cmd = cmdWrite then length else 0

namespace ClientRequest
variable (r : ClientRequest)

/-- The flags are the upper half of the command. -/
def command : ℕ := r.flags * 2 ^ 16 + r.cmd

def header : Bytes :=
  toBE 4 requestMagic ++ toBE 4 r.command ++ toBE 8 r.handle ++ toBE 8 r.offset ++ toBE 4 r.length

def encode : Bytes := r.header ++ r.data

def Disconnects : Prop := r.flags = 0 ∧ r.cmd = cmdDisc

/-- A simple reply to the request; only a read that is answered without error has data. -/
def Answer (reply : Bytes) : Prop :=
  ∃ error data, error < 2 ^ 32 ∧
    reply = toBE 4 replyMagic ++ toBE 4 error ++ toBE 8 r.handle ++ data ∧
    data.length = if r.cmd = cmdRead ∧ error = 0 then r.length else 0

/-- The requests that keep the framing: a write without flags or without data, and a read that
does not start behind the end of its block. -/
structure Framed (v : Version) (s : Store κ) : Prop where
  write : r.cmd = cmdWrite → r.flags ≠ 0 → r.length = 0
  read : r.cmd = cmdRead → r.flags = 0 →
    r.offset % v.blockSize ≤ (s.blockAt v (r.offset / v.blockSize)).size

theorem command_lt : r.command < 256 ^ 4 := by
  have hc := r.cmd_lt
  have hf := r.flags_lt
  unfold command
  omega

theorem command_and_mask : r.command &&& cmdMaskCommand = r.cmd := by
  have hmask : cmdMaskCommand = 2 ^ 16 - 1 := rfl
  have hc := r.cmd_lt
  rw [hmask, Nat.and_two_pow_sub_one_eq_mod, command]
  omega

theorem command_flags : r.command &&& cmdMaskFlags = 0 ↔ r.flags = 0 := by
  have hc := r.cmd_lt
  have hf := r.flags_lt
  constructor
  · intro h
    have hshift := congrArg (fun n => n >>> 16) h
    have hcommand : r.command >>> 16 = r.flags := by
      rw [Nat.shiftRight_eq_div_pow, command]
      omega
    have hmask : cmdMaskFlags >>> 16 = 2 ^ 16 - 1 := rfl
    simp only [Nat.shiftRight_and_distrib, hcommand, hmask, Nat.and_two_pow_sub_one_eq_mod,
      Nat.zero_shiftRight] at hshift
    omega
  · intro h
    have hcommand : r.command = r.cmd &&& cmdMaskCommand := by
      have hmask : cmdMaskCommand = 2 ^ 16 - 1 := rfl
      rw [hmask, Nat.and_two_pow_sub_one_eq_mod, command, h]
      omega
    have hmasks : cmdMaskCommand &&& cmdMaskFlags = 0 := rfl
    rw [hcommand, Nat.and_assoc, hmasks, Nat.and_zero]

theorem length_header : r.header.length = 28 := by
  simp [header]

variable {r}

theorem data_eq_nil (h : r.cmd = cmdWrite → r.length = 0) : r.data = [] := by
  apply List.eq_nil_of_length_eq_zero
  rw [r.data_length]
  split
  · exact h ‹_›
  · rfl

theorem slice_header {a b c : Bytes} {off len : ℕ} (h : r.header = a ++ b ++ c)
    (ha : a.length = off) (hb : b.length = len) : slice r.header off len = b := by
  rw [h]
  exact slice_append a b c ha hb

/-- The fields of a request are read back from its header. -/
theorem resume_request {cfg : Config κ} (s : Session κ) :
    Session.resume cfg .request r.header s =
      (if r.flags ≠ 0 then do
        Session.nbdResponse r.handle einval []
        pure .request
      else Session.handleRequest cfg r.cmd r.handle r.offset r.length :
        Session.Action κ Phase) s := by
  have hmagic : fromBE (slice r.header 0 4) = requestMagic := by
    have hsplit : r.header = [] ++ toBE 4 requestMagic ++
        (toBE 4 r.command ++ toBE 8 r.handle ++ toBE 8 r.offset ++ toBE 4 r.length) := by
      simp [header]
    rw [slice_header hsplit List.length_nil (length_toBE 4 _)]
    exact fromBE_toBE (by decide)
  have hcommand : fromBE (slice r.header 4 4) = r.command := by
    have hsplit : r.header = toBE 4 requestMagic ++ toBE 4 r.command ++
        (toBE 8 r.handle ++ toBE 8 r.offset ++ toBE 4 r.length) := by
      simp [header]
    rw [slice_header hsplit (length_toBE 4 _) (length_toBE 4 _)]
    exact fromBE_toBE r.command_lt
  have hhandle : fromBE (slice r.header 8 8) = r.handle := by
    have hsplit : r.header = (toBE 4 requestMagic ++ toBE 4 r.command) ++ toBE 8 r.handle ++
        (toBE 8 r.offset ++ toBE 4 r.length) := by
      simp [header]
    rw [slice_header hsplit (by simp) (length_toBE 8 _)]
    have hlt := r.handle_lt
    exact fromBE_toBE (by omega)
  have hoffset : fromBE (slice r.header 16 8) = r.offset := by
    have hsplit : r.header = (toBE 4 requestMagic ++ toBE 4 r.command ++ toBE 8 r.handle) ++
        toBE 8 r.offset ++ toBE 4 r.length := by
      simp [header]
    rw [slice_header hsplit (by simp) (length_toBE 8 _)]
    have hlt := r.offset_lt
    exact fromBE_toBE (by omega)
  have hlength : fromBE (slice r.header 24 4) = r.length := by
    have hsplit : r.header = (toBE 4 requestMagic ++ toBE 4 r.command ++ toBE 8 r.handle ++
        toBE 8 r.offset) ++ toBE 4 r.length ++ [] := by
      simp [header]
    rw [slice_header hsplit (by simp) (length_toBE 4 _)]
    have hlt := r.length_lt
    exact fromBE_toBE (by omega)
  have hok {e : Error} : (Proc.raiseIf (fromBE (slice r.header 0 4) ≠ requestMagic) e :
      Session.Action κ Unit).Returns s () s :=
    Proc.returns_raiseIf.mpr ⟨fun h => h hmagic, rfl⟩
  simp only [Session.resume]
  rw [hok.bind_eq, hcommand, hhandle, hoffset, hlength, r.command_and_mask]
  simp only [ne_eq, r.command_flags]

end ClientRequest

/-! ### One request -/

/-- What the first write relies on: `create_cow_version` returns a version with the blocks of the
export, and leaves those, their objects and the cache as they are. -/
def CreatesCow (cfg : Config κ) (v : Version) (w : World κ) : Prop :=
  ∀ s : Store κ, s.world = w → ∃ c t, (cfg.createCowVersion v).Returns s c t ∧
    CloneOf t.world.db.blocks v c ∧ t.table (some c) = [] ∧
    t.world.objects = w.objects ∧ t.blockCache = s.blockCache ∧
    ∀ idx, t.world.db.blocks.getBlockByIdx v idx = w.db.blocks.getBlockByIdx v idx

namespace Session

/-- An export in the transmission phase. -/
structure Serving (cfg : Config κ) (v : Version) (s : Session κ) : Prop where
  version : s.version = some v
  serves : s.store.Serves v s.cowVersion
  creates : s.cowVersion = none → CreatesCow cfg v s.store.world

/-- From `s` to `t` the request has been answered, and nothing else was written. -/
structure Handled (cfg : Config κ) (v : Version) (r : ClientRequest) (s t : Session κ) : Prop where
  serving : t.Serving cfg v
  blocks : ∀ idx, t.store.blockAt v idx = s.store.blockAt v idx
  answer : ∃ reply, r.Answer reply ∧ t.output = s.output ++ reply

variable {cfg : Config κ} {v : Version} {r : ClientRequest} {s t : Session κ}

theorem returns_respond {error : ℕ} {data : Bytes} (ht : t.Serving cfg v)
    (hblocks : ∀ idx, t.store.blockAt v idx = s.store.blockAt v idx)
    (houtput : t.output = s.output) (herror : error < 2 ^ 32)
    (hdata : data.length = if r.cmd = cmdRead ∧ error = 0 then r.length else 0) :
    ∃ u, (do
      nbdResponse r.handle error data
      pure Phase.request : Action κ Phase).Returns t .request u ∧ Handled cfg v r s u := by
  let reply := toBE 4 replyMagic ++ toBE 4 error ++ toBE 8 r.handle ++ data
  refine ⟨{ t with output := t.output ++ reply }, ?_, ?_⟩
  · exact Proc.returns_bind.mpr ⟨(), _, returns_write, Proc.returns_pure.mpr ⟨rfl, rfl⟩⟩
  · refine ⟨⟨ht.version, ht.serves, ht.creates⟩, hblocks, reply, ⟨error, data, herror, rfl, hdata⟩,
      ?_⟩
    rw [houtput]

theorem handled_read (h : s.Serving cfg v) (hcmd : r.cmd = cmdRead)
    (ho : r.offset % v.blockSize ≤ (s.store.blockAt v (r.offset / v.blockSize)).size) :
    ∃ t, (handleRequest cfg r.cmd r.handle r.offset r.length).Returns s .request t ∧
      Handled cfg v r s t := by
  let p : Action κ (Option Bytes) := Proc.tryExcept
    (onStore do
      let data ← Store.read cfg.culled v s.cowVersion r.offset r.length
      pure (some data))
    fun _ => pure none
  have hread : p.Meets s fun result t => ∃ data, result = .ok data ∧ t.Serving cfg v ∧
      (∀ idx, t.store.blockAt v idx = s.store.blockAt v idx) ∧ t.output = s.output ∧
      ∀ bytes, data = some bytes → bytes.length = r.length := by
    have hstore := h.serves.read cfg.culled r.length ho
    have hserving {store : Store κ} (hs : store.Serves v s.cowVersion)
        (hworld : store.world = s.store.world) : ({ s with store := store } : Session κ).Serving
          cfg v := ⟨h.version, hs, fun hc => hworld ▸ h.creates hc⟩
    apply Proc.Meets.tryExcept
      (P := fun result t => t.Serving cfg v ∧
        (∀ idx, t.store.blockAt v idx = s.store.blockAt v idx) ∧ t.output = s.output ∧
        ∀ bytes, result = .ok (some bytes) → bytes.length = r.length)
    · apply Proc.Meets.onPart
      apply hstore.bind
      · rintro data store ⟨hs, hworld, -, hlength⟩
        apply Proc.Meets.pure
        refine ⟨hserving hs hworld, fun idx => by rw [Store.blockAt, hworld], rfl, ?_⟩
        rintro bytes ⟨⟩
        exact hlength data rfl
      · rintro e store ⟨hs, hworld, -, -⟩
        exact ⟨hserving hs hworld, fun idx => by rw [Store.blockAt, hworld], rfl,
          fun bytes hbytes => by cases hbytes⟩
    · rintro data t ⟨ht, hblocks, houtput, hlength⟩
      exact ⟨data, rfl, ht, hblocks, houtput, fun bytes hbytes => hlength bytes (by rw [hbytes])⟩
    · rintro e t ⟨ht, hblocks, houtput, -⟩
      apply Proc.Meets.pure
      exact ⟨none, rfl, ht, hblocks, houtput, fun bytes hbytes => by cases hbytes⟩
  obtain ⟨result, t, hp, data, rfl, ht, hblocks, houtput, hlength⟩ := hread
  have hversion {e : Error} : (Proc.ofOption s.version e : Action κ Version).Returns s v s :=
    Proc.returns_ofOption.mpr ⟨h.version, rfl⟩
  have hrun (q : Option Bytes → Action κ Phase) {phase : Phase} {u : Session κ}
      (hq : (q data).Returns t phase u) : (p >>= q).Returns s phase u :=
    Proc.returns_bind.mpr ⟨data, t, hp, hq⟩
  unfold handleRequest
  have hget : (Proc.get : Action κ (Session κ)).Returns s s s := Proc.returns_get.mpr ⟨rfl, rfl⟩
  simp only [hcmd, cmdRead, cmdDisc, cmdWrite, Proc.Returns, hget.bind_eq, hversion.bind_eq,
    if_false, if_true, OfNat.zero_ne_ofNat, zero_ne_one]
  cases data with
  | none =>
    obtain ⟨u, hu, hhandled⟩ := @returns_respond _ cfg v r s t errnoEio [] ht hblocks houtput
      (by decide) (by rw [if_neg (by simp [errnoEio])]; rfl)
    exact ⟨u, hrun _ hu, hhandled⟩
  | some bytes =>
    obtain ⟨u, hu, hhandled⟩ := @returns_respond _ cfg v r s t 0 bytes ht hblocks houtput
      (by decide) (by rw [if_pos ⟨hcmd, rfl⟩]; exact hlength bytes rfl)
    exact ⟨u, hrun _ hu, hhandled⟩

/-- The first write makes a version of its own, without written blocks. -/
theorem returns_cowVersionOf (h : s.Serving cfg v) : ∃ c t,
    (cowVersionOf cfg).Returns s c t ∧ t.Serving cfg v ∧ t.cowVersion = some c ∧
      (∀ idx, t.store.blockAt v idx = s.store.blockAt v idx) ∧ t.output = s.output := by
  have hget : (Proc.get : Action κ (Session κ)).Returns s s s := Proc.returns_get.mpr ⟨rfl, rfl⟩
  cases hc : s.cowVersion with
  | some c =>
    refine ⟨c, s, ?_, h, hc, fun _ => rfl, rfl⟩
    rw [Proc.Returns, cowVersionOf, hget.bind_eq, hc]
    rfl
  | none =>
    obtain ⟨c, t, hcreate, hclone, htable, hobjects, hcache, hblocks⟩ := h.creates hc s.store rfl
    have hversion {e : Error} : (Proc.ofOption s.version e : Action κ Version).Returns s v s :=
      Proc.returns_ofOption.mpr ⟨h.version, rfl⟩
    have hstore : (onStore (cfg.createCowVersion v)).Returns s c { s with store := t } :=
      Proc.returns_onPart.mpr ⟨t, hcreate, rfl⟩
    refine ⟨c, { s with store := t, cowVersion := some c }, ?_, ?_, rfl, hblocks, rfl⟩
    · rw [Proc.Returns, cowVersionOf, hget.bind_eq, hc]
      simp only [hversion.bind_eq, hstore.bind_eq]
      rfl
    · refine ⟨h.version, ?_, fun hnone => by cases hnone⟩
      have hs := h.serves
      constructor
      · exact hs.blockSize_pos
      · intro idx
        simp only [Store.blockAt, hblocks]
        exact hs.size_pos idx
      · intro idx
        simp only [Store.blockAt, hblocks]
        exact hs.size_le idx
      · intro idx
        simp only [Store.blockAt, hblocks, hobjects]
        exact hs.object idx
      · intro idx
        simp only [Store.blockAt, hblocks, hcache]
        exact hs.cached idx
      · rintro _ ⟨⟩
        exact hclone
      · rintro _ ⟨⟩ e he
        rw [htable] at he
        exact absurd he List.not_mem_nil

theorem handled_write (h : s.Serving cfg v) (hcmd : r.cmd = cmdWrite) :
    ∃ t, (handleWrite cfg r.handle r.offset r.data).Returns s .request t ∧
      Handled cfg v r s t := by
  have hnodata (error : ℕ) : ([] : Bytes).length =
      if r.cmd = cmdRead ∧ error = 0 then r.length else 0 := by
    rw [if_neg (by simp [hcmd, cmdRead, cmdWrite])]
    rfl
  unfold handleWrite
  split
  · exact returns_respond h (fun _ => rfl) rfl (by decide) (hnodata _)
  · obtain ⟨c, t, hcow, ht, hc, hblocks, houtput⟩ := returns_cowVersionOf h
    have hstore := (hc ▸ ht.serves).write r.offset r.data
    have hwrite : (Proc.tryExcept (onStore do
        Store.write c r.offset r.data
        pure 0) fun _ => pure errnoEio : Action κ ℕ).Meets t fun result u =>
          ∃ error, result = .ok error ∧ error < 2 ^ 32 ∧ u.Serving cfg v ∧
            (∀ idx, u.store.blockAt v idx = t.store.blockAt v idx) ∧ u.output = t.output := by
      have hserving {store : Store κ} (hs : store.Serves v (some c)) :
          ({ t with store := store } : Session κ).Serving cfg v :=
        ⟨ht.version, hc ▸ hs, fun hnone => by rw [hc] at hnone; cases hnone⟩
      apply Proc.Meets.tryExcept
        (P := fun result u => (∀ error, result = .ok error → error = 0) ∧ u.Serving cfg v ∧
          (∀ idx, u.store.blockAt v idx = t.store.blockAt v idx) ∧ u.output = t.output)
      · apply Proc.Meets.onPart
        apply hstore.bind
        · rintro _ store ⟨hs, hworld⟩
          apply Proc.Meets.pure
          refine ⟨?_, hserving hs, fun idx => by rw [Store.blockAt, hworld], rfl⟩
          rintro error ⟨⟩
          rfl
        · rintro e store ⟨hs, hworld⟩
          refine ⟨?_, hserving hs, fun idx => by rw [Store.blockAt, hworld], rfl⟩
          intro error herror
          cases herror
      · rintro error u ⟨hzero, hu⟩
        exact ⟨error, rfl, by rw [hzero error rfl]; decide, hu⟩
      · rintro e u ⟨-, hu⟩
        apply Proc.Meets.pure
        exact ⟨errnoEio, rfl, by decide, hu⟩
    obtain ⟨result, u, hp, error, rfl, herror, hu, hblocks', houtput'⟩ := hwrite
    obtain ⟨w, hw, hhandled⟩ := @returns_respond _ cfg v r s u error [] hu
      (fun idx => (hblocks' idx).trans (hblocks idx)) (houtput'.trans houtput) herror (hnodata _)
    refine ⟨w, ?_, hhandled⟩
    exact Proc.returns_bind.mpr ⟨c, t, hcow, Proc.returns_bind.mpr ⟨error, u, hp, hw⟩⟩

/-- A flush, and a command that is not known. -/
theorem handled_other (h : s.Serving cfg v) (hdisc : r.cmd ≠ cmdDisc) (hwrite : r.cmd ≠ cmdWrite)
    (hread : r.cmd ≠ cmdRead) :
    ∃ t, (handleRequest cfg r.cmd r.handle r.offset r.length).Returns s .request t ∧
      Handled cfg v r s t := by
  have hget : (Proc.get : Action κ (Session κ)).Returns s s s := Proc.returns_get.mpr ⟨rfl, rfl⟩
  have hnodata (error : ℕ) : ([] : Bytes).length =
      if r.cmd = cmdRead ∧ error = 0 then r.length else 0 := by
    rw [if_neg fun hand => hread hand.1]
    rfl
  unfold handleRequest
  simp only [Proc.Returns, hget.bind_eq, if_neg hdisc, if_neg hwrite, if_neg hread]
  split
  · exact returns_respond h (fun _ => rfl) rfl (by decide) (hnodata _)
  · exact returns_respond h (fun _ => rfl) rfl (by decide) (hnodata _)

end Session

/-! ### The requests of a connection -/

variable [DecidableEq κ] {cfg : Config κ} {v : Version}

/-- One request after the other: the handler takes the bytes of each, and writes one reply to it
before it takes those of the next. -/
inductive Transmits (cfg : Config κ) : Store κ × Conn → List ClientRequest → Store κ × Conn → Prop
  | nil (x : Store κ × Conn) : Transmits cfg x [] x
  | cons {x y z : Store κ × Conn} {r : ClientRequest} {rs : List ClientRequest} {reply : Bytes} :
      Runs cfg x y → y.2.phase = .request → x.2.input = r.encode ++ y.2.input → r.Answer reply →
      y.2.output = x.2.output ++ reply → Transmits cfg y rs z → Transmits cfg x (r :: rs) z

def sessionOf (store : Store κ) (conn : Conn) : Session κ :=
  ⟨store, conn.version, conn.cowVersion, conn.output⟩

/-- All bytes of one request are taken, and one reply is written. -/
theorem runs_request {r : ClientRequest} {store : Store κ} {conn : Conn} {rest : Bytes}
    (hphase : conn.phase = .request) (h : (sessionOf store conn).Serving cfg v)
    (hdisc : ¬ r.Disconnects) (hframed : r.Framed v store) : ∃ t : Session κ,
      Session.Handled cfg v r (sessionOf store conn) t ∧
      Runs cfg (store, { conn with input := r.encode ++ rest })
        (t.store, ⟨.request, t.version, t.cowVersion, rest, t.output⟩) := by
  have hended : conn.phase ≠ .ended := by
    rw [hphase]
    simp
  have hheader : r.header.length = conn.phase.size := by
    rw [hphase, r.length_header]
    rfl
  have hsingle {t : Session κ} (hnil : r.data = [])
      (ht : (Session.resume cfg .request r.header).Returns (sessionOf store conn) .request t) :
      Runs cfg (store, { conn with input := r.encode ++ rest })
        (t.store, ⟨.request, t.version, t.cowVersion, rest, t.output⟩) := by
    rw [ClientRequest.encode, hnil, List.append_nil]
    apply runs_of_returns hended hheader (by simp)
    rw [hphase]
    exact ht
  have hresume := @ClientRequest.resume_request _ r cfg (sessionOf store conn)
  by_cases hflags : r.flags = 0
  · rw [if_neg (not_not.mpr hflags)] at hresume
    by_cases hwrite : r.cmd = cmdWrite
    · -- The data are waited for before the request is handled.
      have hheld : (Session.resume cfg .request r.header).Returns (sessionOf store conn)
          (.payload r.handle r.offset r.length) (sessionOf store conn) := by
        have hget : (Proc.get : Session.Action κ (Session κ)).Returns (sessionOf store conn)
            (sessionOf store conn) (sessionOf store conn) := Proc.returns_get.mpr ⟨rfl, rfl⟩
        rw [Proc.Returns, hresume, Session.handleRequest, hget.bind_eq,
          if_neg (by simp [hwrite, cmdWrite, cmdDisc]), if_pos hwrite]
        rfl
      have hfirst : Runs cfg (store, { conn with input := r.header ++ (r.data ++ rest) })
          (store, ⟨.payload r.handle r.offset r.length, conn.version, conn.cowVersion,
            r.data ++ rest, conn.output⟩) :=
        @runs_of_returns _ _ _ _ conn r.header (r.data ++ rest)
          (.payload r.handle r.offset r.length) _ hended hheader (by simp)
          (by rw [hphase]; exact hheld)
      obtain ⟨t, ht, hhandled⟩ := Session.handled_write h hwrite
      refine ⟨t, hhandled, ?_⟩
      have hlength : r.data.length = (Phase.payload r.handle r.offset r.length).size := by
        rw [r.data_length, if_pos hwrite]
        rfl
      rw [ClientRequest.encode, List.append_assoc]
      apply hfirst.trans
      exact @runs_of_returns _ _ _ _
        ⟨.payload r.handle r.offset r.length, conn.version, conn.cowVersion, [], conn.output⟩
        r.data rest .request t (by simp) hlength (by simp) ht
    · have hnil : r.data = [] := ClientRequest.data_eq_nil fun hcmd => absurd hcmd hwrite
      have hhandled : ∃ t, (Session.handleRequest cfg r.cmd r.handle r.offset r.length).Returns
          (sessionOf store conn) .request t ∧
          Session.Handled cfg v r (sessionOf store conn) t := by
        by_cases hread : r.cmd = cmdRead
        · exact Session.handled_read h hread (hframed.read hread hflags)
        · exact Session.handled_other h (fun hcmd => hdisc ⟨hflags, hcmd⟩) hwrite hread
      obtain ⟨t, ht, hhandled⟩ := hhandled
      refine ⟨t, hhandled, hsingle hnil ?_⟩
      rw [Proc.Returns, hresume]
      exact ht
  · rw [if_pos hflags] at hresume
    have hnil : r.data = [] := ClientRequest.data_eq_nil fun hcmd => hframed.write hcmd hflags
    obtain ⟨t, ht, hhandled⟩ := @Session.returns_respond _ cfg v r (sessionOf store conn)
      (sessionOf store conn) einval [] h (fun _ => rfl) rfl (by decide)
      (by rw [if_neg (by simp [einval])]; rfl)
    refine ⟨t, hhandled, hsingle hnil ?_⟩
    rw [Proc.Returns, hresume]
    exact ht

/-- The framing is kept in every run of requests that keep it: the induction is on the requests,
and the blocks that decide are the same all along. -/
theorem transmits {rs : List ClientRequest} {store : Store κ} {conn : Conn} {rest : Bytes}
    (hphase : conn.phase = .request) (h : (sessionOf store conn).Serving cfg v)
    (hinput : conn.input = (rs.map ClientRequest.encode).flatten ++ rest)
    (hdisc : ∀ r ∈ rs, ¬ r.Disconnects) (hframed : ∀ r ∈ rs, r.Framed v store) :
    ∃ y, Transmits cfg (store, conn) rs y ∧ y.2.phase = .request ∧ y.2.input = rest := by
  induction rs generalizing store conn with
  | nil => exact ⟨_, .nil _, hphase, hinput⟩
  | cons r rs ih =>
    obtain ⟨t, ⟨hserving, hblocks, reply, hanswer, houtput⟩, hruns⟩ :=
      @runs_request _ _ cfg v r store conn ((rs.map ClientRequest.encode).flatten ++ rest)
        hphase h (hdisc r List.mem_cons_self) (hframed r List.mem_cons_self)
    rw [List.map_cons, List.flatten_cons, List.append_assoc] at hinput
    rw [← hinput] at hruns
    have hrest : ∀ r ∈ rs, r.Framed v t.store := by
      intro r' hr'
      have hf := hframed r' (List.mem_cons_of_mem _ hr')
      refine ⟨hf.write, ?_⟩
      intro hcmd hflags
      rw [hblocks]
      exact hf.read hcmd hflags
    obtain ⟨y, hy, hphase', hinput'⟩ := @ih t.store
      ⟨.request, t.version, t.cowVersion, (rs.map ClientRequest.encode).flatten ++ rest, t.output⟩
      rfl hserving rfl (fun r' hr' => hdisc r' (List.mem_cons_of_mem _ hr')) hrest
    exact ⟨y, .cons hruns rfl hinput hanswer houtput hy, hphase', hinput'⟩

/-! ### An export that is written to -/

def exportedBlocks : BlockTable Bytes where
  rows := [⟨1, 0, some ⟨1, 1⟩, some [1, 2, 3, 4], 4, true⟩, ⟨1, 1, none, none, 2, true⟩]
  nodup := by decide

def exportedDatabase : Database Bytes where
  versions := ⟨[exampleVersion], by decide⟩
  blocks := exportedBlocks
  deletedBlocks := Table.empty
  locks := ⟨[⟨Locking.versionLockName "v1", ⟨"host", "1"⟩, "NBD"⟩], by simp⟩

def exportedStore : Store Bytes where
  world := ⟨exportedDatabase, exportedDatabase, exampleObjects, fun _ _ => none⟩
  cow _ := none
  cowStore := ⟨fun _ => none, fun _ => false⟩
  blockCache _ := none
  cacheSets := 0

/-- The version gets a clone with rows of its own. -/
def cloneExported : Store.Action Bytes Version := fun s =>
  some (.ok exampleCow, { s with
    world := { s.world with db := exampleDatabase, committed := exampleDatabase }
    cow := fun uid => if uid = exampleCow.uid then some [] else s.cow uid })

def exportConfig : Config Bytes :=
  { exampleConfig with readOnly := false, createCowVersion := fun _ => cloneExported }

def exportConn (input : Bytes) : Conn := ⟨.request, some exampleVersion, none, input, []⟩

theorem exported_blocks (idx : ℕ) : exampleBlocks.getBlockByIdx exampleVersion idx =
    exportedBlocks.getBlockByIdx exampleVersion idx := by
  obtain _ | _ | idx := idx
  · rfl
  · rfl
  · have hnone : exportedBlocks.row? exampleVersion (idx + 2) = none := by
      simp [BlockTable.row?, Table.find?, exportedBlocks, Block.key, exampleVersion]
    rw [BlockTable.getBlockByIdx_of_none (exampleBlocks_behind idx).1,
      BlockTable.getBlockByIdx_of_none hnone]

theorem exportedStore_serving (input : Bytes) :
    (sessionOf exportedStore (exportConn input)).Serving exportConfig exampleVersion := by
  have h := exampleStore_opened.1.serves
  have hblocks (idx : ℕ) : exportedStore.blockAt exampleVersion idx =
      exampleStore.blockAt exampleVersion idx := (exported_blocks idx).symm
  have hnone (c : Version) : (exportConn input).cowVersion ≠ some c := by simp [exportConn]
  refine ⟨rfl, ⟨h.blockSize_pos, ?_, ?_, ?_, ?_, fun c hc => absurd hc (hnone c),
    fun c hc => absurd hc (hnone c)⟩, ?_⟩
  · intro idx
    exact hblocks idx ▸ h.size_pos idx
  · intro idx
    exact hblocks idx ▸ h.size_le idx
  · intro idx
    have hobject := h.object idx
    rw [← hblocks idx] at hobject
    exact hobject
  · intro idx uid data _ hcache
    cases hcache
  · intro _ s hs
    refine ⟨exampleCow, _, rfl, exampleStore_opened.1.clone exampleCow rfl, rfl, ?_, rfl,
      exported_blocks⟩
    have hobjects : s.world.objects = exportedStore.world.objects := congrArg World.objects hs
    exact hobjects

def writeRequest : ClientRequest :=
  ⟨cmdWrite, 0, 7, 5, 1, [9], by decide, by decide, by decide, by decide, by decide, rfl⟩

def readRequest : ClientRequest :=
  ⟨cmdRead, 0, 8, 4, 4, [], by decide, by decide, by decide, by decide, by decide, rfl⟩

/-- A command that is not known, with a flag. -/
def trimRequest : ClientRequest :=
  ⟨4, 1, 9, 0, 4, [], by decide, by decide, by decide, by decide, by decide, rfl⟩

theorem transmits_example : ∃ y,
    Transmits exportConfig (exportedStore,
        exportConn (([writeRequest, readRequest, trimRequest].map ClientRequest.encode).flatten))
      [writeRequest, readRequest, trimRequest] y ∧ y.2.phase = .request ∧ y.2.input = [] := by
  have hdisc : ∀ r ∈ [writeRequest, readRequest, trimRequest], ¬ r.Disconnects := by
    unfold ClientRequest.Disconnects
    decide
  have hframed : ∀ r ∈ [writeRequest, readRequest, trimRequest],
      r.Framed exampleVersion exportedStore := by
    intro r hr
    simp only [List.mem_cons, List.not_mem_nil, or_false] at hr
    obtain rfl | rfl | rfl := hr
    · exact ⟨by decide, by decide⟩
    · exact ⟨by decide, by decide⟩
    · exact ⟨by decide, by decide⟩
  exact transmits rfl (exportedStore_serving _) (List.append_nil _).symm hdisc hframed

/-- A write with a flag is answered, and its data are taken for the next request. -/
def flaggedWrite : ClientRequest :=
  ⟨cmdWrite, 1, 7, 5, 1, [9], by decide, by decide, by decide, by decide, by decide, rfl⟩

theorem flagged_write_out_of_step :
    ¬ ∀ (cfg : Config Bytes) (v : Version) (store : Store Bytes) (conn : Conn)
      (rs : List ClientRequest) (rest : Bytes), conn.phase = .request →
      (sessionOf store conn).Serving cfg v →
      conn.input = (rs.map ClientRequest.encode).flatten ++ rest →
      (∀ r ∈ rs, ¬ r.Disconnects) → ∃ y, Transmits cfg (store, conn) rs y := by
  intro hall
  let x : Store Bytes × Conn := (exportedStore, exportConn flaggedWrite.encode)
  have hinput : (exportConn flaggedWrite.encode).input =
      ([flaggedWrite].map ClientRequest.encode).flatten ++ [] := by
    simp [exportConn]
  have hdisc : ∀ r ∈ [flaggedWrite], ¬ r.Disconnects := by
    unfold ClientRequest.Disconnects
    decide
  obtain ⟨z, hz⟩ := hall exportConfig exampleVersion exportedStore _ [flaggedWrite] [] rfl
    (exportedStore_serving _) hinput hdisc
  cases hz with
  | @cons _ y _ _ _ _ hruns _ hin _ _ _ =>
    have hend : y.2.input = [] := by
      have hin' : flaggedWrite.encode = flaggedWrite.encode ++ y.2.input := hin
      exact List.append_right_eq_self.mp hin'.symm
    -- One byte is left in every state behind the first, and no header can be read from it.
    have hfirst : (advance exportConfig x).map (fun y => (y.2.input.length, y.2.phase)) =
        some (1, .request) := by
      decide +kernel
    have hleft : y = x ∨ y.2.input.length = 1 ∧ y.2.phase = .request := by
      apply hruns.invariant (I := fun y => y = x ∨ y.2.input.length = 1 ∧ y.2.phase = .request)
      · exact .inl rfl
      · intro a e b ha _ hstep
        right
        cases ha with
        | inl ha =>
          rw [ha] at hstep
          rw [hstep] at hfirst
          exact Prod.mk.inj (Option.some.inj hfirst)
        | inr ha =>
          rw [advance, if_pos (.inr (by rw [ha.1, ha.2]; decide))] at hstep
          cases hstep
    cases hleft with
    | inl hx =>
      have hnil : flaggedWrite.encode = [] := by
        rw [← hend, hx]
        rfl
      exact absurd hnil (by decide)
    | inr hone =>
      rw [hend] at hone
      exact absurd hone.1 (by decide)

end Benji.Nbd
