import Benji.Lib.Steps
import Benji.Nbd.Server

/-! What a client gets to before the transmission phase: the flags, the options and their
replies. -/
namespace Benji.Nbd
open Lib

variable {κ : Type} {cfg : Config κ}

/-- `s.encode("ascii")`, where it is possible. -/
def asciiBytes (s : String) : Bytes := s.toList.map fun c => UInt8.ofNat c.toNat

theorem toNat_lt_of_valueChar {c : Char} (h : InputValidation.valueChar c = true) :
    c.toNat < 128 := by
  rw [InputValidation.valueChar, Bool.or_eq_true] at h
  cases h with
  | inl h =>
    have halpha : c.isAlpha = (c.isUpper || c.isLower) := rfl
    have hupper : c.isUpper = decide (c.val ≥ 'A'.val ∧ c.val ≤ 'Z'.val) := rfl
    have hlower : c.isLower = (decide (c.val ≥ 'a'.val) && decide (c.val ≤ 'z'.val)) := rfl
    simp only [Char.isAlphanum, halpha, hupper, hlower, Char.isDigit,
      Bool.or_eq_true, Bool.and_eq_true, decide_eq_true_eq, UInt32.le_iff_toNat_le, ge_iff_le] at h
    have hval : c.val.toNat = c.toNat := rfl
    have hz : 'z'.val.toNat = 122 ∧ 'Z'.val.toNat = 90 ∧ '9'.val.toNat = 57 := by decide
    rw [hval, hz.1, hz.2.1, hz.2.2] at h
    omega
  | inr h =>
    have hmem : c ∈ "-_.:/@+".toList := List.contains_iff_mem.mp h
    have hall : ∀ d ∈ "-_.:/@+".toList, d.toNat < 128 := by simp
    exact hall c hmem

theorem isVersionUid_ascii {s : String} (h : InputValidation.isVersionUid s.toList = true) :
    ∀ c ∈ s.toList, c.toNat < 128 := by
  simp only [InputValidation.isVersionUid, InputValidation.isValue, Bool.and_eq_true,
    List.all_eq_true] at h
  intro c hc
  exact toNat_lt_of_valueChar (h.1.2 c hc)

theorem asciiBytes_ne_nil {s : String} (h : InputValidation.isVersionUid s.toList = true) :
    asciiBytes s ≠ [] := by
  simp only [InputValidation.isVersionUid, InputValidation.isValue, Bool.and_eq_true,
    decide_eq_true_eq] at h
  simpa [asciiBytes] using h.1.1

section
variable {name : String} {s : Session κ}

theorem returns_decodeAscii (h : ∀ c ∈ name.toList, c.toNat < 128) :
    (Session.decodeAscii (asciiBytes name)).Returns s name s := by
  have hb : ∀ c ∈ name.toList, (UInt8.ofNat c.toNat).toNat = c.toNat := by
    intro c hc
    have hlt := h c hc
    rw [UInt8.toNat_ofNat']
    omega
  have hno : ¬ ∃ b ∈ asciiBytes name, 128 ≤ b.toNat := by
    intro ⟨b, hmem, hle⟩
    obtain ⟨c, hc, rfl⟩ := List.mem_map.mp hmem
    rw [hb c hc] at hle
    exact absurd (h c hc) (by omega)
  have hback : (asciiBytes name).map (fun b => Char.ofNat b.toNat) = name.toList := by
    rw [asciiBytes, List.map_map]
    conv_rhs => rw [← List.map_id name.toList]
    apply List.map_congr_left
    intro c hc
    rw [Function.comp_apply, hb c hc, Char.ofNat_toNat, id]
  have hok {e : Error} : (Proc.raiseIf (∃ b ∈ asciiBytes name, 128 ≤ b.toNat) e :
      Session.Action κ Unit).Returns s () s :=
    Proc.returns_raiseIf.mpr ⟨hno, rfl⟩
  rw [Session.decodeAscii, hback, String.ofList_toList]
  exact Proc.returns_bind.mpr ⟨(), s, hok, Proc.returns_pure.mpr ⟨rfl, rfl⟩⟩

theorem returns_encodeAscii (h : ∀ c ∈ name.toList, c.toNat < 128) :
    (Session.encodeAscii name).Returns s (asciiBytes name) s := by
  have hno : ¬ (name.toList.any fun c => 128 ≤ c.toNat) = true := by
    intro hany
    obtain ⟨c, hc, hle⟩ := List.any_eq_true.mp hany
    have hlt := h c hc
    have hge := of_decide_eq_true hle
    omega
  have hok {e : Error} : (Proc.raiseIf (name.toList.any fun c => 128 ≤ c.toNat) e :
      Session.Action κ Unit).Returns s () s :=
    Proc.returns_raiseIf.mpr ⟨hno, rfl⟩
  exact Proc.returns_bind.mpr ⟨(), s, hok, Proc.returns_pure.mpr ⟨rfl, rfl⟩⟩

end

/-! ### Replies to options -/

/-- An option as a client sends it. -/
structure ClientOption where
  opt : ℕ
  data : Bytes
  opt_lt : opt < 2 ^ 32
  length_lt : data.length < 2 ^ 32

namespace ClientOption

def encode (o : ClientOption) : Bytes :=
  toBE 8 cliservMagic ++ toBE 4 o.opt ++ toBE 4 o.data.length ++ o.data

def payload (o : ClientOption) : Option Bytes := if o.data = [] then none else some o.data

end ClientOption

/-- What the columns of `versions` promise of a row. -/
structure VersionColumns (v : Version) : Prop where
  uid : InputValidation.isVersionUid v.uid.toList = true
  length_lt : v.uid.length + 4 < 2 ^ 32
  size_lt : v.size < 2 ^ 63

/-- One of the replies to `NBD_OPT_LIST`. -/
def serverReply (opt : ℕ) (v : Version) : Bytes :=
  toBE 8 optReplyMagic ++ toBE 4 opt ++ toBE 4 repServer ++
    toBE 4 ((asciiBytes v.uid).length + 4) ++
    (toBE 4 (asciiBytes v.uid).length ++ asciiBytes v.uid)

/-- The complete reply to an option that does not end the negotiation. -/
def replyTo (cfg : Config κ) (versions : List Version) (o : ClientOption) : Bytes :=
  if o.opt = optList then
    ((cfg.order versions).map (serverReply o.opt)).flatten ++ Session.optReply o.opt repAck 0
  else Session.optReply o.opt repErrUnsup 0

/-- An option that the negotiation goes on after: an unknown export, a list, or an option that
is not supported. -/
structure Earlier (versions : List Version) (o : ClientOption) : Prop where
  not_abort : o.opt ≠ optAbort
  unknown : o.opt = optExportname → ∃ name : String,
    o.data = asciiBytes name ∧ InputValidation.isVersionUid name.toList = true ∧
      name ∉ versions.map Version.uid

section
variable {s : Session κ}

theorem returns_write {data : Bytes} :
    (Session.write data).Returns s () { s with output := s.output ++ data } :=
  Proc.returns_modify.mpr rfl

theorem returns_pack {width n : ℕ} (h : n < 256 ^ width) :
    (Session.pack width n).Returns s (toBE width n) s := by
  refine Proc.returns_bind.mpr ⟨(), s, ?_, Proc.returns_pure.mpr ⟨rfl, rfl⟩⟩
  exact Proc.returns_raiseIf.mpr ⟨by omega, rfl⟩

theorem findVersions_none :
    Session.findVersions cfg none s = cfg.order s.store.world.db.versions.rows := by
  simp [Session.findVersions]

theorem mem_findVersions_none {v : Version} :
    v ∈ Session.findVersions cfg none s ↔ v ∈ s.store.world.db.versions.rows := by
  rw [findVersions_none, (cfg.order_perm _).mem_iff]

theorem returns_listVersion {opt : ℕ} {v : Version} (h : VersionColumns v) :
    (Session.listVersion opt v).Returns s ()
      { s with output := s.output ++ serverReply opt v } := by
  have hlen : (asciiBytes v.uid).length + 4 < 256 ^ 4 := by
    have hl := h.length_lt
    rw [asciiBytes, List.length_map, String.length_toList]
    omega
  refine Proc.returns_bind.mpr ⟨_, s, returns_encodeAscii (isVersionUid_ascii h.uid), ?_⟩
  refine Proc.returns_bind.mpr ⟨_, s, returns_pack hlen, ?_⟩
  refine Proc.returns_bind.mpr ⟨(), _, returns_write, ?_⟩
  refine Proc.returns_modify.mpr ?_
  simp only [serverReply, List.append_assoc]

theorem returns_forEach_listVersion {opt : ℕ} {vs : List Version}
    (h : ∀ v ∈ vs, VersionColumns v) :
    (Proc.forEach (Session.listVersion opt) vs).Returns s ()
      { s with output := s.output ++ (vs.map (serverReply opt)).flatten } := by
  induction vs generalizing s with
  | nil => simp
  | cons v vs ih =>
    rw [Proc.returns_forEach_cons]
    refine ⟨_, returns_listVersion (h v List.mem_cons_self), ?_⟩
    have hrest := ih (s := { s with output := s.output ++ serverReply opt v })
      fun w hw => h w (List.mem_cons_of_mem _ hw)
    simpa only [List.map_cons, List.flatten_cons, List.append_assoc] using hrest

/-- An export that is unknown leaves the negotiation where it is. -/
theorem returns_exportName_unknown {noZeros : Bool} {opt : ℕ} {name : String}
    (hname : InputValidation.isVersionUid name.toList = true)
    (h : name ∉ s.store.world.db.versions.rows.map Version.uid) :
    (Session.exportName cfg true noZeros opt (some (asciiBytes name))).Returns s
      (.option true noZeros)
      { s with output := s.output ++ Session.optReply opt repErrUnsup 0 } := by
  have hno : name ∉ (Session.findVersions cfg none s).map Version.uid := by
    intro hmem
    obtain ⟨v, hv, he⟩ := List.mem_map.mp hmem
    exact h (List.mem_map.mpr ⟨v, mem_findVersions_none.mp hv, he⟩)
  refine Proc.returns_bind.mpr ⟨_, s, Proc.returns_ofOption.mpr ⟨rfl, rfl⟩, ?_⟩
  refine Proc.returns_bind.mpr ⟨_, s, returns_decodeAscii (isVersionUid_ascii hname), ?_⟩
  refine Proc.returns_bind.mpr ⟨(), s, Proc.returns_raiseIf.mpr ⟨by simp [hname], rfl⟩, ?_⟩
  refine Proc.returns_bind.mpr ⟨s, s, Proc.returns_get.mpr ⟨rfl, rfl⟩, ?_⟩
  rw [if_pos hno]
  refine Proc.returns_bind.mpr ⟨(), s, Proc.returns_raiseIf.mpr ⟨by simp, rfl⟩, ?_⟩
  exact Proc.returns_bind.mpr ⟨(), _, returns_write, Proc.returns_pure.mpr ⟨rfl, rfl⟩⟩

theorem returns_handleOption {noZeros : Bool} {o : ClientOption}
    (hcolumns : ∀ v ∈ s.store.world.db.versions.rows, VersionColumns v)
    (h : Earlier s.store.world.db.versions.rows o) :
    (Session.handleOption cfg true noZeros o.opt o.payload).Returns s (.option true noZeros)
      { s with output := s.output ++ replyTo cfg s.store.world.db.versions.rows o } := by
  unfold Session.handleOption
  by_cases hexport : o.opt = optExportname
  · obtain ⟨name, hdata, hname, hunknown⟩ := h.unknown hexport
    have hlist : o.opt ≠ optList := by rw [hexport]; decide
    have hpayload : o.payload = some (asciiBytes name) := by
      rw [ClientOption.payload, hdata, if_neg (asciiBytes_ne_nil hname)]
    rw [if_pos hexport, hpayload, replyTo, if_neg hlist]
    exact returns_exportName_unknown hname hunknown
  · rw [if_neg hexport]
    by_cases hlist : o.opt = optList
    · rw [if_pos hlist, replyTo, if_pos hlist]
      refine Proc.returns_bind.mpr ⟨s, s, Proc.returns_get.mpr ⟨rfl, rfl⟩, ?_⟩
      refine Proc.returns_bind.mpr ⟨(), _, returns_forEach_listVersion (fun v hv =>
        hcolumns v (mem_findVersions_none.mp hv)), ?_⟩
      refine Proc.returns_bind.mpr ⟨(), _, returns_write, Proc.returns_pure.mpr ⟨rfl, ?_⟩⟩
      simp only [findVersions_none, List.append_assoc]
    · rw [if_neg hlist, if_neg h.not_abort, replyTo, if_neg hlist]
      refine Proc.returns_bind.mpr ⟨(), s, Proc.returns_raiseIf.mpr ⟨by simp, rfl⟩, ?_⟩
      exact Proc.returns_bind.mpr ⟨(), _, returns_write, Proc.returns_pure.mpr ⟨rfl, rfl⟩⟩

/-- The flags of an export. -/
def Config.flags (cfg : Config κ) : ℕ := exportFlags ||| if cfg.readOnly then flagReadOnly else 0

/-- The reply to `NBD_OPT_EXPORT_NAME`. -/
def exportReply (cfg : Config κ) (noZeros : Bool) (v : Version) : Bytes :=
  toBE 8 (deviceSize v) ++ toBE 2 cfg.flags ++ if noZeros then [] else zeros 124

/-- The store once the lock of a version is taken. -/
def openedStore (cfg : Config κ) (v : Version) (s : Store κ) : Store κ :=
  let lock : Lock := ⟨Locking.versionLockName v.uid, cfg.settings.me, "NBD"⟩
  { s with world := Locking.putLock lock s.world }

theorem VersionColumns.deviceSize_lt {v : Version} (h : VersionColumns v) :
    deviceSize v < 256 ^ 8 := by
  have hsize := h.size_lt
  rw [deviceSize, Nat.ceilDiv_eq_add_pred_div]
  omega

theorem returns_exportName {fixed noZeros : Bool} {opt : ℕ} {v : Version}
    (hv : v ∈ s.store.world.db.versions.rows) (hcolumns : VersionColumns v)
    (hunique : ∀ w ∈ s.store.world.db.versions.rows, w.uid = v.uid → w = v)
    (hfree : Locking.isVersionLocked v.uid s.store.world = false) :
    (Session.exportName cfg fixed noZeros opt (some (asciiBytes v.uid))).Returns s .request
      { s with
        store := openedStore cfg v s.store
        version := some v
        output := s.output ++ exportReply cfg noZeros v } := by
  have hmem : v.uid ∈ (Session.findVersions cfg none s).map Version.uid :=
    List.mem_map_of_mem (mem_findVersions_none.mpr hv)
  have hfind : (Session.findVersions cfg (some v.uid) s).head? = some v := by
    have hall : ∀ w ∈ Session.findVersions cfg (some v.uid) s, w = v := by
      intro w hw
      rw [Session.findVersions, (cfg.order_perm _).mem_iff, List.mem_filter] at hw
      exact hunique w hw.1 (by simpa using hw.2)
    have hin : v ∈ Session.findVersions cfg (some v.uid) s := by
      rw [Session.findVersions, (cfg.order_perm _).mem_iff, List.mem_filter]
      exact ⟨hv, by simp⟩
    cases hl : Session.findVersions cfg (some v.uid) s with
    | nil => simp [hl] at hin
    | cons w l =>
      have hw := hall w (by simp [hl])
      rw [hw, List.head?_cons]
  have hnot : Locking.heldBy cfg.settings.me (Locking.versionLockName v.uid)
      s.store.world = false := by
    have hnone : s.store.world.db.locks.find? (Locking.versionLockName v.uid) = none := by
      simpa [Locking.isVersionLocked, Locking.isLocked] using hfree
    rw [Locking.heldBy, hnone]
  have hlock : (Session.onStore (Store.onWorld
      (Locking.lockVersion cfg.settings.me v.uid "NBD"))).Returns { s with version := some v } ()
      { s with store := openedStore cfg v s.store, version := some v } :=
    Proc.returns_onPart.mpr ⟨_, Proc.returns_onPart.mpr
      ⟨_, Locking.returns_lock.mpr ⟨hnot, .inr hfree, rfl⟩, rfl⟩, rfl⟩
  refine Proc.returns_bind.mpr ⟨_, s, Proc.returns_ofOption.mpr ⟨rfl, rfl⟩, ?_⟩
  refine Proc.returns_bind.mpr ⟨_, s, returns_decodeAscii (isVersionUid_ascii hcolumns.uid), ?_⟩
  refine Proc.returns_bind.mpr
    ⟨(), s, Proc.returns_raiseIf.mpr ⟨by simp [hcolumns.uid], rfl⟩, ?_⟩
  refine Proc.returns_bind.mpr ⟨s, s, Proc.returns_get.mpr ⟨rfl, rfl⟩, ?_⟩
  rw [if_neg (not_not.mpr hmem)]
  refine Proc.returns_bind.mpr ⟨v, s, Proc.returns_ofOption.mpr ⟨hfind, rfl⟩, ?_⟩
  refine Proc.returns_bind.mpr ⟨(), _, Proc.returns_modify.mpr rfl, ?_⟩
  refine Proc.returns_bind.mpr ⟨(), _, hlock, ?_⟩
  refine Proc.returns_bind.mpr ⟨_, _, returns_pack hcolumns.deviceSize_lt, ?_⟩
  refine Proc.returns_bind.mpr ⟨(), _, returns_write, ?_⟩
  refine Proc.returns_bind.mpr ⟨(), _, returns_write, Proc.returns_pure.mpr ⟨rfl, ?_⟩⟩
  simp only [exportReply, Config.flags, List.append_assoc]

end

/-! ### The handler between its waits -/

variable [DecidableEq κ]

/-- The handler of one connection without anything in between. -/
def Runs (cfg : Config κ) : Store κ × Conn → Store κ × Conn → Prop :=
  Reaches fun x (_ : Unit) => advance cfg x

theorem Runs.trans {x y z : Store κ × Conn} (h : Runs cfg x y) (k : Runs cfg y z) :
    Runs cfg x z := Steps.trans h k

section
variable {store : Store κ} {conn : Conn} {head rest : Bytes} {phase : Phase} {t : Session κ}

/-- One turn, with the bytes it waits for at the front of the input. -/
theorem advance_eq (hp : conn.phase ≠ .ended) (hlen : head.length = conn.phase.size) :
    advance cfg (store, { conn with input := head ++ rest }) =
      (Session.turn cfg conn.phase head ⟨store, conn.version, conn.cowVersion, conn.output⟩).map
        fun r => (r.2.store, ⟨r.1, r.2.version, r.2.cowVersion, rest, r.2.output⟩) := by
  have hn : ¬ (conn.phase = .ended ∨ (head ++ rest).length < head.length) := by
    rintro (h | h)
    · exact hp h
    · rw [List.length_append] at h
      omega
  simp only [advance, ← hlen, if_neg hn, List.take_left, List.drop_left]

theorem turn_of_returns {data : Bytes} {s : Session κ} (hp : phase ≠ .ended)
    {from_ : Phase} (h : (Session.resume cfg from_ data).Returns s phase t) :
    Session.turn cfg from_ data s = some (phase, t) := by
  unfold Session.turn
  rw [show Session.resume cfg from_ data s = some (.ok phase, t) from h]
  cases phase <;> first | rfl | exact absurd rfl hp

theorem runs_of_returns (hp : conn.phase ≠ .ended) (hlen : head.length = conn.phase.size)
    (hq : phase ≠ .ended)
    (h : (Session.resume cfg conn.phase head).Returns
      ⟨store, conn.version, conn.cowVersion, conn.output⟩ phase t) :
    Runs cfg (store, { conn with input := head ++ rest })
      (t.store, ⟨phase, t.version, t.cowVersion, rest, t.output⟩) := by
  refine Steps.single (e := ()) trivial ?_
  rw [advance_eq hp hlen, turn_of_returns hq h]
  rfl

end

namespace ClientOption

/-- The header is read, and the data if there is any. -/
theorem runs {o : ClientOption} {store : Store κ} {conn : Conn} {fixed noZeros : Bool}
    {rest : Bytes} {phase : Phase} {t : Session κ} (hp : conn.phase = .option fixed noZeros)
    (hq : phase ≠ .ended)
    (h : (Session.handleOption cfg fixed noZeros o.opt o.payload).Returns
      ⟨store, conn.version, conn.cowVersion, conn.output⟩ phase t) :
    Runs cfg (store, { conn with input := o.encode ++ rest })
      (t.store, ⟨phase, t.version, t.cowVersion, rest, t.output⟩) := by
  have hmagic : fromBE (toBE 8 cliservMagic) = cliservMagic := fromBE_toBE (by decide)
  have hopt : fromBE (toBE 4 o.opt) = o.opt := fromBE_toBE o.opt_lt
  have hlength : fromBE (toBE 4 o.data.length) = o.data.length := fromBE_toBE o.length_lt
  let header := toBE 8 cliservMagic ++ toBE 4 o.opt ++ toBE 4 o.data.length
  have h1 : slice header 0 8 = toBE 8 cliservMagic := by
    have hs := slice_append [] (toBE 8 cliservMagic) (toBE 4 o.opt ++ toBE 4 o.data.length) rfl
      (length_toBE 8 _)
    rwa [List.nil_append, ← List.append_assoc] at hs
  have h2 : slice header 8 4 = toBE 4 o.opt :=
    slice_append _ _ _ (length_toBE 8 _) (length_toBE 4 _)
  have h3 : slice header 12 4 = toBE 4 o.data.length := by
    have hl : (toBE 8 cliservMagic ++ toBE 4 o.opt).length = 12 := by simp
    have hs := slice_append _ (toBE 4 o.data.length) [] hl (length_toBE 4 _)
    rwa [List.append_nil] at hs
  have hheader : header.length = (Phase.option fixed noZeros).size := by
    simp [header, Phase.size]
  have hinput : o.encode ++ rest = header ++ (o.data ++ rest) := by
    simp [encode, header]
  rw [hinput]
  have hresume : Session.resume cfg conn.phase header = if o.data.length ≠ 0 then
      pure (.optionData fixed noZeros o.opt o.data.length)
      else Session.handleOption cfg fixed noZeros o.opt none := by
    funext s
    have hm : fromBE (slice header 0 8) = cliservMagic := by rw [h1, hmagic]
    have hok {e : Error} : (Proc.raiseIf (fromBE (slice header 0 8) ≠ cliservMagic) e :
        Session.Action κ Unit).Returns s () s :=
      Proc.returns_raiseIf.mpr ⟨fun h => h hm, rfl⟩
    simp only [Session.resume, hp]
    rw [hok.bind_eq, h2, hopt, h3, hlength]
  by_cases hd : o.data = []
  · rw [payload, if_pos hd] at h
    rw [hd, List.nil_append]
    refine runs_of_returns (by rw [hp]; simp) (by rw [hp]; exact hheader) hq ?_
    rw [hresume, if_neg (by simp [hd])]
    exact h
  · have hlen : o.data.length ≠ 0 := by simpa using hd
    rw [payload, if_neg hd] at h
    have hread : (Session.resume cfg conn.phase header).Returns
        ⟨store, conn.version, conn.cowVersion, conn.output⟩
        (.optionData fixed noZeros o.opt o.data.length)
        ⟨store, conn.version, conn.cowVersion, conn.output⟩ := by
      rw [hresume, if_pos hlen]
      exact Proc.returns_pure.mpr ⟨rfl, rfl⟩
    have hfirst : Runs cfg (store, { conn with input := header ++ (o.data ++ rest) })
        (store, { conn with
          phase := .optionData fixed noZeros o.opt o.data.length, input := o.data ++ rest }) :=
      runs_of_returns (by rw [hp]; simp) (by rw [hp]; exact hheader) (by simp) hread
    refine hfirst.trans ?_
    exact @runs_of_returns _ _ _ _
      { conn with phase := .optionData fixed noZeros o.opt o.data.length } o.data rest phase t
      (by simp) rfl hq h

end ClientOption

/-! ### The whole negotiation -/

section
variable {store : Store κ} {v : Version} {last : ClientOption} {opts : List ClientOption}
  {flags : ℕ} {rest : Bytes}

/-- Every earlier option is read entirely and answered, in order. -/
theorem runs_options {conn : Conn} {noZeros : Bool} (hp : conn.phase = .option true noZeros)
    (hcolumns : ∀ w ∈ store.world.db.versions.rows, VersionColumns w)
    (h : ∀ o ∈ opts, Earlier store.world.db.versions.rows o) :
    Runs cfg (store, { conn with input := (opts.map ClientOption.encode).flatten ++ rest })
      (store, { conn with
        input := rest
        output := conn.output ++
          (opts.map (replyTo cfg store.world.db.versions.rows)).flatten }) := by
  induction opts generalizing conn with
  | nil =>
    simp only [List.map_nil, List.flatten_nil, List.nil_append, List.append_nil]
    exact .refl
  | cons o opts ih =>
    let next : Conn := { conn with
      output := conn.output ++ replyTo cfg store.world.db.versions.rows o }
    have hreturns := @returns_handleOption _ cfg
      ⟨store, conn.version, conn.cowVersion, conn.output⟩ noZeros o hcolumns
      (h o List.mem_cons_self)
    have hfirst : Runs cfg
        (store, { conn with input := o.encode ++ ((opts.map ClientOption.encode).flatten ++ rest) })
        (store, { next with input := (opts.map ClientOption.encode).flatten ++ rest }) := by
      have hrun := @ClientOption.runs _ _ _ _ _ _ _ _
        ((opts.map ClientOption.encode).flatten ++ rest) _ _ hp (by simp) hreturns
      simpa only [← hp] using hrun
    have hothers := @ih next hp fun p hmem => h p (List.mem_cons_of_mem _ hmem)
    simp only [List.map_cons, List.flatten_cons, List.append_assoc]
    refine hfirst.trans ?_
    simpa only [next, List.append_assoc] using hothers

/-- What a client sends: its flags, its options, the last of which names an export, and what
comes behind them. -/
def clientSends (flags : ℕ) (opts : List ClientOption) (last : ClientOption) (rest : Bytes) :
    Bytes :=
  toBE 4 flags ++ ((opts.map ClientOption.encode).flatten ++ (last.encode ++ rest))

/-- The export is entered with all options read and answered. -/
def Negotiates (cfg : Config κ) (store : Store κ) (flags : ℕ) (opts : List ClientOption)
    (last : ClientOption) (rest : Bytes) (v : Version) : Prop :=
  ∃ store', Runs cfg (store, { Conn.start with input := clientSends flags opts last rest })
    (store', ⟨.request, some v, none, rest, Conn.start.output ++
      (opts.map (replyTo cfg store.world.db.versions.rows)).flatten ++
      exportReply cfg (decide (flags &&& flagNoZeroes ≠ 0)) v⟩)

/-- The connection is over after the flags, whatever else is sent. -/
def Ends (cfg : Config κ) (store : Store κ) (flags : ℕ) : Prop :=
  ∀ input, Runs cfg (store, { Conn.start with input := toBE 4 flags ++ input })
    (store, { Conn.start with phase := .ended, input := input })

/-- What is promised for a word of flags: an export where all of them have been advertised. -/
def Answered (cfg : Config κ) (store : Store κ) (flags : ℕ) (opts : List ClientOption)
    (last : ClientOption) (rest : Bytes) (v : Version) : Prop :=
  if flags &&& handshakeFlags = flags then Negotiates cfg store flags opts last rest v
  else Ends cfg store flags

/-- The advertised bits are flipped and not cleared, so that only all of them together pass. -/
theorem flipped_eq_zero : flags ^^^ (flagFixedNewstyle ||| flagNoZeroes) = 0 ↔
    flags = handshakeFlags := by
  constructor
  · intro h
    have hback := congrArg (fun n => n ^^^ handshakeFlags) h
    rwa [handshakeFlags, Nat.xor_assoc, Nat.xor_self, Nat.xor_zero, Nat.zero_xor] at hback
  · intro h
    rw [h]
    rfl

theorem runs_flags {input : Bytes} :
    Runs cfg (store, { Conn.start with input := toBE 4 handshakeFlags ++ input })
      (store, { Conn.start with phase := .option true true, input := input }) := by
  have hflags : fromBE (toBE 4 handshakeFlags) = handshakeFlags := fromBE_toBE (by decide)
  have hreturns : (Session.resume cfg .flags (toBE 4 handshakeFlags)).Returns
      ⟨store, none, none, Conn.start.output⟩ (.option true true)
      ⟨store, none, none, Conn.start.output⟩ := by
    rw [Session.resume, hflags]
    exact Proc.returns_bind.mpr ⟨(), _, Proc.returns_raiseIf.mpr ⟨by decide, rfl⟩,
      Proc.returns_pure.mpr ⟨rfl, rfl⟩⟩
  exact @runs_of_returns _ _ _ _ Conn.start _ _ _ _ (by decide) (length_toBE 4 _) (by simp) hreturns

theorem advance_flags_of_ne (hlt : flags < 2 ^ 32) (hne : flags ≠ handshakeFlags)
    (input : Bytes) :
    advance cfg (store, { Conn.start with input := toBE 4 flags ++ input }) =
      some (store, { Conn.start with phase := .ended, input := input }) := by
  have hflags : fromBE (toBE 4 flags) = flags := fromBE_toBE (by omega)
  have hpos : 0 < flags ^^^ (flagFixedNewstyle ||| flagNoZeroes) := by
    have hzero := mt flipped_eq_zero.mp hne
    omega
  have hraises : ∃ e, (Session.resume cfg .flags (toBE 4 flags)).Raises
      ⟨store, none, none, Conn.start.output⟩ e ⟨store, none, none, Conn.start.output⟩ := by
    rw [Session.resume, hflags]
    exact ⟨_, Proc.raises_bind.mpr (.inl (Proc.raises_raiseIf.mpr ⟨hpos, rfl, rfl⟩))⟩
  obtain ⟨e, he⟩ := hraises
  have hturn : Session.turn cfg .flags (toBE 4 flags) ⟨store, none, none, Conn.start.output⟩ =
      some (.ended, ⟨store, none, none, Conn.start.output⟩) := by
    unfold Session.turn
    rw [he]
    rfl
  rw [@advance_eq _ _ _ _ Conn.start _ _ (by decide) (length_toBE 4 _)]
  exact congrArg (Option.map _) hturn

theorem ends_of_ne (hlt : flags < 2 ^ 32) (hne : flags ≠ handshakeFlags) :
    Ends cfg store flags :=
  fun input => Steps.single (e := ()) trivial (advance_flags_of_ne hlt hne input)

/-- A connection that does not get past the flags is over. -/
theorem not_negotiates_of_ne (hlt : flags < 2 ^ 32) (hne : flags ≠ handshakeFlags) :
    ¬ Negotiates cfg store flags opts last rest v := by
  intro ⟨store', hruns⟩
  have hphase := hruns.invariant
    (I := fun x => x = (store, { Conn.start with input := clientSends flags opts last rest }) ∨
      x.2.phase = .ended) (.inl rfl) (by
    intro x e y hx _ hstep
    cases hx with
    | inl hx =>
      rw [hx, clientSends, advance_flags_of_ne hlt hne] at hstep
      exact .inr (congrArg (fun y => y.2.phase) (Option.some.inj hstep)).symm
    | inr hx =>
      rw [advance, if_pos (.inl hx)] at hstep
      exact absurd hstep (by simp))
  cases hphase with
  | inl h => exact absurd (congrArg (fun x => x.2.phase) h) (by simp [Conn.start])
  | inr h => exact absurd h (by simp)

/-- With all advertised flags set, the negotiation gets to the export. -/
theorem negotiates (hv : v ∈ store.world.db.versions.rows)
    (hcolumns : ∀ w ∈ store.world.db.versions.rows, VersionColumns w)
    (hunique : ∀ w ∈ store.world.db.versions.rows, w.uid = v.uid → w = v)
    (hfree : Locking.isVersionLocked v.uid store.world = false)
    (hopts : ∀ o ∈ opts, Earlier store.world.db.versions.rows o)
    (hopt : last.opt = optExportname) (hdata : last.data = asciiBytes v.uid) :
    Negotiates cfg store handshakeFlags opts last rest v := by
  have hname := asciiBytes_ne_nil (hcolumns v hv).uid
  have hflags := @runs_flags _ cfg _ store
    ((opts.map ClientOption.encode).flatten ++ (last.encode ++ rest))
  have hoptions := @runs_options _ cfg _ store opts (last.encode ++ rest)
    { Conn.start with phase := .option true true } _ rfl hcolumns hopts
  let conn : Conn := { Conn.start with
    phase := .option true true
    output := Conn.start.output ++
      (opts.map (replyTo cfg store.world.db.versions.rows)).flatten }
  have hpayload : last.payload = some (asciiBytes v.uid) := by
    rw [ClientOption.payload, hdata, if_neg hname]
  have hreturns := @returns_exportName _ cfg ⟨store, none, none, conn.output⟩ true true last.opt
    v hv (hcolumns v hv) hunique hfree
  have hhandle : (Session.handleOption cfg true true last.opt last.payload).Returns
      ⟨store, none, none, conn.output⟩ .request
      ⟨openedStore cfg v store, some v, none, conn.output ++ exportReply cfg true v⟩ := by
    unfold Session.handleOption
    rw [if_pos hopt, hpayload]
    exact hreturns
  have hlast := @ClientOption.runs _ cfg _ _ _ conn _ _ rest _ _ rfl (by simp) hhandle
  exact ⟨_, (hflags.trans hoptions).trans hlast⟩

/-- A negotiation goes as promised exactly for clients that set both advertised flags, and for
those that set one that is not advertised. -/
theorem answered_iff (hv : v ∈ store.world.db.versions.rows)
    (hcolumns : ∀ w ∈ store.world.db.versions.rows, VersionColumns w)
    (hunique : ∀ w ∈ store.world.db.versions.rows, w.uid = v.uid → w = v)
    (hfree : Locking.isVersionLocked v.uid store.world = false) (hlt : flags < 2 ^ 32)
    (hopts : ∀ o ∈ opts, Earlier store.world.db.versions.rows o)
    (hopt : last.opt = optExportname) (hdata : last.data = asciiBytes v.uid) :
    Answered cfg store flags opts last rest v ↔
      flags = handshakeFlags ∨ flags &&& handshakeFlags ≠ flags := by
  unfold Answered
  by_cases hadvertised : flags &&& handshakeFlags = flags
  · rw [if_pos hadvertised]
    constructor
    · intro h
      left
      by_contra hne
      exact not_negotiates_of_ne hlt hne h
    · intro h
      cases h with
      | inl he =>
        rw [he]
        exact negotiates hv hcolumns hunique hfree hopts hopt hdata
      | inr hne => exact absurd hadvertised hne
  · rw [if_neg hadvertised]
    have hne : flags ≠ handshakeFlags := by
      intro he
      rw [he] at hadvertised
      exact hadvertised (by decide)
    exact iff_of_true (ends_of_ne hlt hne) (.inr hadvertised)

end

def exampleConfig : Config Bytes where
  settings := ⟨⟨"host", "1"⟩, 4, id, 10000, 10000⟩
  readOnly := true
  order := id
  order_perm _ := .rfl
  createCowVersion _ := Proc.raise .typeError
  culled _ _ := false
  fixates _ := ⟨fun _ => none, fun _ => none, fun _ => none, fun _ => false, none⟩

def exampleList : ClientOption := ⟨optList, [], by decide, by decide⟩

/-- `NBD_OPT_GO`, which clients try before anything else. -/
def exampleGo : ClientOption := ⟨7, [0, 0, 0, 0], by decide, by decide⟩

def exampleExport : ClientOption := ⟨optExportname, asciiBytes "v1", by decide, by decide⟩

theorem exampleStore_columns :
    ∀ w ∈ exampleStore.world.db.versions.rows, VersionColumns w := by
  intro w hw
  have hmem : w ∈ [exampleVersion, exampleCow] := hw
  simp only [List.mem_cons, List.not_mem_nil, or_false] at hmem
  cases hmem with
  | inl h =>
    rw [h]
    exact ⟨by decide, by decide, by decide⟩
  | inr h =>
    rw [h]
    exact ⟨by decide, by decide, by decide⟩

theorem answered_iff_example :
    Answered exampleConfig exampleStore 3 [exampleGo, exampleList] exampleExport []
        exampleVersion ↔
      3 = handshakeFlags ∨ 3 &&& handshakeFlags ≠ 3 := by
  have hopts : ∀ o ∈ [exampleGo, exampleList],
      Earlier exampleStore.world.db.versions.rows o := by
    intro o ho
    simp only [List.mem_cons, List.not_mem_nil, or_false] at ho
    cases ho with
    | inl h =>
      rw [h]
      exact ⟨by decide, fun he => absurd he (by decide)⟩
    | inr h =>
      rw [h]
      exact ⟨by decide, fun he => absurd he (by decide)⟩
  exact answered_iff (by decide) exampleStore_columns (by decide) (by decide) (by decide) hopts
    rfl rfl

/-- A client that knows `FIXED_NEWSTYLE` and not `NO_ZEROES` is turned away. -/
theorem fixed_newstyle_alone_ends :
    ¬ ∀ (cfg : Config Bytes) (store : Store Bytes) (flags : ℕ) (opts : List ClientOption)
      (last : ClientOption) (rest : Bytes) (v : Version), v ∈ store.world.db.versions.rows →
      (∀ w ∈ store.world.db.versions.rows, VersionColumns w) →
      (∀ w ∈ store.world.db.versions.rows, w.uid = v.uid → w = v) →
      Locking.isVersionLocked v.uid store.world = false → flags < 2 ^ 32 →
      (∀ o ∈ opts, Earlier store.world.db.versions.rows o) →
      (opts ≠ [] → flags &&& flagFixedNewstyle ≠ 0) →
      last.opt = optExportname → last.data = asciiBytes v.uid →
      Answered cfg store flags opts last rest v := by
  intro h
  have hanswered := h exampleConfig exampleStore flagFixedNewstyle [] exampleExport []
    exampleVersion (by decide) exampleStore_columns (by decide) (by decide) (by decide)
    (by simp) (by simp) rfl rfl
  rw [Answered, if_pos (by decide)] at hanswered
  exact not_negotiates_of_ne (by decide) (by decide) hanswered

end Benji.Nbd
