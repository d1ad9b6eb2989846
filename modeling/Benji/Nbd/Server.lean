import Benji.Lib.BigEndian
import Benji.InputValidation
import Benji.Nbd.Fixate

/-! `NbdServer.handler`, cut at the places where it waits for bytes of the client: between two of
them other connections run. -/
namespace Benji.Nbd
open Lib

variable {κ : Type}

def initPasswd : ℕ := 0x4e42444d41474943
def cliservMagic : ℕ := 0x49484156454F5054
def optReplyMagic : ℕ := 0x3e889045565a9
def requestMagic : ℕ := 0x25609513
def replyMagic : ℕ := 0x67446698

def optExportname : ℕ := 1
def optAbort : ℕ := 2
def optList : ℕ := 3

def repAck : ℕ := 1
def repServer : ℕ := 2
def repFlagError : ℕ := 1 <<< 31
def repErrUnsup : ℕ := repFlagError ||| 1

def cmdRead : ℕ := 0
def cmdWrite : ℕ := 1
def cmdDisc : ℕ := 2
def cmdFlush : ℕ := 3
def cmdMaskCommand : ℕ := 0x0000ffff
def cmdMaskFlags : ℕ := 0xffff0000

def flagFixedNewstyle : ℕ := 1 <<< 0
def flagNoZeroes : ℕ := 1 <<< 1
def handshakeFlags : ℕ := flagFixedNewstyle ||| flagNoZeroes

def flagHasFlags : ℕ := 1 <<< 0
def flagReadOnly : ℕ := 1 <<< 1
def flagSendFlush : ℕ := 1 <<< 2
def exportFlags : ℕ := flagHasFlags ||| flagSendFlush

def eperm : ℕ := 1
def errnoEio : ℕ := 5
def einval : ℕ := 22

/-- What the server is started with, and what is not its own doing. -/
structure Config (κ : Type) where
  settings : Settings κ
  readOnly : Bool
  /-- `ORDER BY volume, created_at`. -/
  order : List Version → List Version
  order_perm : ∀ l, (order l).Perm l
  createCowVersion : Version → Store.Action κ Version
  culled : ℕ → BlockUid → Bool
  fixates : Version → FixateSchedule

/-- Where the handler waits. -/
inductive Phase where
  | flags
  | option (fixed noZeros : Bool)
  | optionData (fixed noZeros : Bool) (opt length : ℕ)
  | request
  | payload (handle offset length : ℕ)
  | ended
  deriving DecidableEq, Repr

/-- How many bytes it waits for. -/
def Phase.size : Phase → ℕ
  | flags => 4
  | option _ _ => 16
  | optionData _ _ _ length => length
  | request => 28
  | payload _ _ length => length
  | ended => 0

/-- The variables of a handler, and the bytes it has written. -/
structure Session (κ : Type) where
  store : Store κ
  version : Option Version
  cowVersion : Option Version
  output : Bytes

namespace Session

abbrev Action (κ α : Type) := Proc Error (Session κ) α

def onStore {α : Type} (p : Store.Action κ α) : Action κ α :=
  Proc.onPart Session.store (fun s store => { s with store := store }) p

def write (data : Bytes) : Action κ Unit :=
  Proc.modify fun s => { s with output := s.output ++ data }

/-- One integer of `struct.pack`. -/
def pack (width n : ℕ) : Action κ Bytes := do
  Proc.raiseIf (256 ^ width ≤ n) (.other "struct.error")
  pure (toBE width n)

def findVersions (cfg : Config κ) (versionUid : Option String) (s : Session κ) : List Version :=
  cfg.order (s.store.world.db.versions.rows.filter fun v => ∀ uid ∈ versionUid, v.uid = uid)

def optReply (opt reply length : ℕ) : Bytes :=
  toBE 8 optReplyMagic ++ toBE 4 opt ++ toBE 4 reply ++ toBE 4 length

def encodeAscii (s : String) : Action κ Bytes := do
  Proc.raiseIf (s.toList.any fun c => 128 ≤ c.toNat) (.valueError "UnicodeEncodeError")
  pure (s.toList.map fun c => UInt8.ofNat c.toNat)

def decodeAscii (data : Bytes) : Action κ String := do
  Proc.raiseIf (∃ b ∈ data, 128 ≤ b.toNat) (.valueError "UnicodeDecodeError")
  pure (String.ofList (data.map fun b => Char.ofNat b.toNat))

def exportName (cfg : Config κ) (fixed noZeros : Bool) (opt : ℕ) (data : Option Bytes) :
    Action κ Phase := do
  let data ← Proc.ofOption data (.osError "Negotiation failed: No export name was provided.")
  let versionUid ← decodeAscii data
  Proc.raiseIf (InputValidation.isVersionUid versionUid.toList = false)
    (.inputDataError s!"Version name {versionUid} is invalid.")
  let s ← Proc.get
  if versionUid ∉ (findVersions cfg none s).map Version.uid then do
    Proc.raiseIf (fixed = false) (.osError "Negotiation failed: Unknown export name.")
    write (optReply opt repErrUnsup 0)
    pure (.option fixed noZeros)
  else do
    let version ← Proc.ofOption (findVersions cfg (some versionUid) s).head? (.other "IndexError")
    Proc.modify fun s => { s with version := some version }
    onStore (Store.onWorld (Locking.lockVersion cfg.settings.me version.uid "NBD"))
    let size ← pack 8 (deviceSize version)
    write (size ++ toBE 2 (exportFlags ||| if cfg.readOnly then flagReadOnly else 0))
    write (if noZeros then [] else zeros 124)
    pure .request

def listVersion (opt : ℕ) (version : Version) : Action κ Unit := do
  let uid ← encodeAscii version.uid
  let length ← pack 4 (uid.length + 4)
  write (toBE 8 optReplyMagic ++ toBE 4 opt ++ toBE 4 repServer ++ length)
  write (toBE 4 uid.length ++ uid)

def handleOption (cfg : Config κ) (fixed noZeros : Bool) (opt : ℕ) (data : Option Bytes) :
    Action κ Phase :=
  if opt = optExportname then exportName cfg fixed noZeros opt data
  else if opt = optList then do
    let s ← Proc.get
    Proc.forEach (listVersion opt) (findVersions cfg none s)
    write (optReply opt repAck 0)
    pure (.option fixed noZeros)
  else if opt = optAbort then do
    write (optReply opt repAck 0)
    Proc.raise (.osError "NbdServerAbortedNegotiationError")
  else do
    Proc.raiseIf (fixed = false) (.osError s!"Unsupported option: {opt}.")
    write (optReply opt repErrUnsup 0)
    pure (.option fixed noZeros)

def nbdResponse (handle error : ℕ) (data : Bytes) : Action κ Unit :=
  write (toBE 4 replyMagic ++ toBE 4 error ++ toBE 8 handle ++ data)

/-- A request with its command: all but the data of a write have been read. -/
def handleRequest (cfg : Config κ) (cmd handle offset length : ℕ) : Action κ Phase := do
  let s ← Proc.get
  if cmd = cmdDisc then pure .ended
  else if cmd = cmdWrite then pure (.payload handle offset length)
  else if cmd = cmdRead then do
    let version ← Proc.ofOption s.version (.other "AttributeError")
    let data ← Proc.tryExcept
      (onStore do
        let data ← Store.read cfg.culled version s.cowVersion offset length
        pure (some data))
      fun _ => pure none
    match data with
    | none => nbdResponse handle errnoEio []
    | some data => nbdResponse handle 0 data
    pure .request
  -- `flush` does nothing.
  else if cmd = cmdFlush then do
    nbdResponse handle 0 []
    pure .request
  else do
    nbdResponse handle einval []
    pure .request

/-- `cow_version` is created by the first write. -/
def cowVersionOf (cfg : Config κ) : Action κ Version := do
  let s ← Proc.get
  match s.cowVersion with
  | some c => pure c
  | none => do
    let version ← Proc.ofOption s.version (.other "AttributeError")
    let c ← onStore (cfg.createCowVersion version)
    Proc.modify fun s => { s with cowVersion := some c }
    pure c

def handleWrite (cfg : Config κ) (handle offset : ℕ) (data : Bytes) : Action κ Phase :=
  if cfg.readOnly then do
    nbdResponse handle eperm []
    pure .request
  else do
    let c ← cowVersionOf cfg
    let error ← Proc.tryExcept
      (onStore do
        Store.write c offset data
        pure 0)
      fun _ => pure errnoEio
    nbdResponse handle error []
    pure .request

/-- From one wait to the next, with the bytes waited for. -/
def resume (cfg : Config κ) (phase : Phase) (data : Bytes) : Action κ Phase :=
  match phase with
  | .flags => do
    let clientFlags := fromBE data
    let fixed := clientFlags &&& flagFixedNewstyle ≠ 0
    let noZeros := clientFlags &&& flagNoZeroes ≠ 0
    let clientFlags := clientFlags ^^^ (flagFixedNewstyle ||| flagNoZeroes)
    Proc.raiseIf (0 < clientFlags) (.osError
      s!"Handshake failed, unknown client flags {clientFlags}, disconnecting.")
    pure (.option fixed noZeros)
  | .option fixed noZeros => do
    let magic := fromBE (slice data 0 8)
    let opt := fromBE (slice data 8 4)
    let length := fromBE (slice data 12 4)
    Proc.raiseIf (magic ≠ cliservMagic)
      (.osError s!"Negotiation failed: Bad magic number: {magic}.")
    if length ≠ 0 then pure (.optionData fixed noZeros opt length)
    else handleOption cfg fixed noZeros opt none
  | .optionData fixed noZeros opt _ => handleOption cfg fixed noZeros opt (some data)
  | .request => do
    let magic := fromBE (slice data 0 4)
    let cmd := fromBE (slice data 4 4)
    let handle := fromBE (slice data 8 8)
    let offset := fromBE (slice data 16 8)
    let length := fromBE (slice data 24 4)
    Proc.raiseIf (magic ≠ requestMagic) (.osError "Bad magic number, disconnecting.")
    if cmd &&& cmdMaskFlags ≠ 0 then do
      nbdResponse handle einval []
      pure .request
    else handleRequest cfg (cmd &&& cmdMaskCommand) handle offset length
  | .payload handle offset _ => handleWrite cfg handle offset data
  | .ended => pure .ended

/-- The `finally` block. -/
def cleanup [DecidableEq κ] (cfg : Config κ) : Action κ Unit := do
  let s ← Proc.get
  match s.cowVersion with
  | some c => onStore (Store.fixate cfg.settings (cfg.fixates c) c)
  | none => pure ()
  match s.version with
  | some version => onStore (Store.onWorld (Locking.unlockVersion cfg.settings.me version.uid))
  | none => pure ()

/-- A handler that is over, whatever its `finally` block raises. -/
def finish [DecidableEq κ] (cfg : Config κ) (s : Session κ) : Option (Phase × Session κ) :=
  (cleanup cfg s).map fun r => (.ended, r.2)

def turn [DecidableEq κ] (cfg : Config κ) (phase : Phase) (data : Bytes) (s : Session κ) :
    Option (Phase × Session κ) :=
  match resume cfg phase data s with
  | none => none
  | some (.error _, t) => finish cfg t
  | some (.ok .ended, t) => finish cfg t
  | some (.ok phase, t) => some (phase, t)

end Session

/-- A connection; `input` has arrived and is not read yet. -/
structure Conn where
  phase : Phase
  version : Option Version
  cowVersion : Option Version
  input : Bytes
  output : Bytes
  deriving DecidableEq

/-- A connection that has been greeted. -/
def Conn.start : Conn where
  phase := .flags
  version := none
  cowVersion := none
  input := []
  output := toBE 8 initPasswd ++ toBE 8 cliservMagic ++ toBE 2 handshakeFlags

/-- Let the handler run to its next wait. -/
def advance [DecidableEq κ] (cfg : Config κ) (x : Store κ × Conn) : Option (Store κ × Conn) :=
  if x.2.phase = .ended ∨ x.2.input.length < x.2.phase.size then none
  else (Session.turn cfg x.2.phase (x.2.input.take x.2.phase.size)
      ⟨x.1, x.2.version, x.2.cowVersion, x.2.output⟩).map fun r =>
    (r.2.store, ⟨r.1, r.2.version, r.2.cowVersion, x.2.input.drop x.2.phase.size, r.2.output⟩)

end Benji.Nbd
