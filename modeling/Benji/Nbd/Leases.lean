import Benji.Backup.Locks
import Benji.Nbd.Framing

/-! The version locks of one connection: which of them a handler holds while it waits, and that
its `finally` block gives back what it took. -/
namespace Benji.Nbd
open Lib
open Proc (Triple)

variable {κ : Type} {w : World κ} {locks : Table Lock.lockName}

/-! ### Reads and writes leave the world alone -/

namespace Store
variable {culled : ℕ → BlockUid → Bool} {v c : Version}

theorem keeps_world_ofExcept {α : Type} {r : Except Error α} :
    (ofExcept r : Action κ α).Keeps fun s => s.world = w := by
  rintro s x t ⟨⟩ hs
  exact hs

theorem keeps_world_cowOf : (cowOf v : Action κ (CowTable κ)).Keeps fun s => s.world = w := by
  intro s r t h hs
  unfold cowOf at h
  split at h
  all_goals
    cases h
    exact hs

theorem keeps_world_chunksOf {offset length : ℕ} :
    (chunksOf v offset length : Action κ (List (Chunk κ))).Keeps fun s => s.world = w := by
  intro s r t h hs
  obtain ⟨x, -, hx⟩ := Option.map_eq_some_iff.mp h
  cases hx
  exact hs

theorem keeps_world_readChunk {cow : CowTable κ} {chunk : Chunk κ} :
    (readChunk culled v cow chunk).Keeps fun s => s.world = w := by
  intro s r t h hs
  obtain ⟨_ | block, offset, length⟩ := chunk
  · cases h
    exact hs
  · unfold readChunk at h
    dsimp only at h
    split at h
    · split_ifs at h
      · exact keeps_world_ofExcept h hs
      · cases h
        exact hs
    · split at h
      · cases h
        exact hs
      · split at h
        · cases h
          exact hs
        · split at h
          all_goals
            cases h
            exact hs

theorem keeps_world_readChunks {cow : CowTable κ} (chunks : List (Chunk κ)) :
    (readChunks culled v cow chunks).Keeps fun s => s.world = w := by
  induction chunks with
  | nil => exact Proc.Keeps.pure
  | cons chunk chunks ih =>
    exact keeps_world_readChunk.bind fun _ => ih.bind fun _ => Proc.Keeps.pure

theorem keeps_world_read {cowVersion : Option Version} {offset length : ℕ} :
    (read culled v cowVersion offset length).Keeps fun s : Store κ => s.world = w := by
  unfold read
  have hrest (cow : CowTable κ) : Proc.Keeps (fun s : Store κ => s.world = w) (do
      let readList ← chunksOf v offset length
      readChunks culled v cow readList) :=
    keeps_world_chunksOf.bind fun _ => keeps_world_readChunks _
  cases cowVersion with
  | none => exact Proc.Keeps.pure.bind hrest
  | some c => exact keeps_world_cowOf.bind hrest

theorem keeps_world_originalData {block : Block κ} :
    (originalData c block : Action κ Bytes).Keeps fun s => s.world = w := by
  intro s r t h hs
  unfold originalData at h
  split at h
  all_goals
    cases h
    exact hs

theorem keeps_world_writeChunk {block : Block κ} {offset : ℕ} {data : Bytes} :
    (writeChunk c block offset data).Keeps fun s : Store κ => s.world = w := by
  unfold writeChunk
  refine keeps_world_cowOf.bind fun cow => ?_
  dsimp only
  split
  · exact Proc.Keeps.get.bind fun _ => keeps_world_ofExcept.bind fun _ =>
      Proc.Keeps.modify fun _ h => h
  · exact keeps_world_originalData.bind fun _ => Proc.Keeps.modify fun _ h => h

theorem keeps_world_writeChunks {data : Bytes} (chunks : List (Chunk κ)) (position : ℤ) :
    (writeChunks c data position chunks).Keeps fun s : Store κ => s.world = w := by
  induction chunks generalizing position with
  | nil => exact Proc.Keeps.pure
  | cons chunk chunks ih =>
    obtain ⟨_ | block, offset, length⟩ := chunk
    · exact Proc.Keeps.pure
    · exact keeps_world_writeChunk.bind fun _ => ih _

theorem keeps_world_write {offset : ℕ} {data : Bytes} :
    (write c offset data).Keeps fun s : Store κ => s.world = w :=
  keeps_world_cowOf.bind fun _ => keeps_world_chunksOf.bind fun _ => keeps_world_writeChunks _ _

/-! ### A fixate gives back the lock of its version, and no other -/

section Fixate
variable {S : Settings κ} {sched : FixateSchedule} {me : Process}
  {names : Set String} {others : Set Lock}

theorem keeps_locks_modify {f : World κ → World κ}
    (hf : ∀ w, w.HasLocks locks → (f w).HasLocks locks) :
    (onWorld (Proc.modify f)).Keeps fun s : Store κ => s.world.HasLocks locks :=
  (Proc.Keeps.modify hf).onPart (fun _ h => h) fun _ _ _ h => h

theorem keeps_locks_raiseAny {e : Option Error} :
    (raiseAny e : Action κ Unit).Keeps fun s => s.world.HasLocks locks := by
  cases e with
  | none => exact Proc.Keeps.modify fun _ h => h
  | some e => exact Proc.Keeps.raise

theorem keeps_locks_ofExcept {α : Type} {r : Except Error α} :
    (ofExcept r : Action κ α).Keeps fun s => s.world.HasLocks locks := by
  rintro s x t ⟨⟩ hs
  exact hs

theorem keeps_locks_removeFile {uid : Option BlockUid} :
    (removeFile uid : Action κ Unit).Keeps fun s => s.world.HasLocks locks :=
  Proc.Keeps.get.bind fun _ => keeps_locks_ofExcept.bind fun _ => Proc.Keeps.modify fun _ h => h

theorem keeps_locks_setBlock {idx size : ℕ} {uid : Option BlockUid} {checksum : Option κ} :
    (setBlock sched c idx uid checksum size).Keeps fun w => w.HasLocks locks := by
  unfold setBlock
  split
  · exact Locking.keeps_rollbackAndRaise fun _ h => h.rollback
  · apply Proc.Keeps.modify
    intro w h
    unfold World.timedCommit
    split
    · exact ⟨h.1, h.1⟩
    · exact h

theorem keeps_locks_recordBlock {idx size : ℕ} {uid : Option BlockUid} {checksum : Option κ} :
    (recordBlock sched c idx uid checksum size).Keeps fun s => s.world.HasLocks locks := by
  refine Proc.Keeps.tryExcept ?_ fun _ => ?_
  · exact keeps_locks_setBlock.onPart (fun _ h => h) fun _ _ _ h => h
  · unfold removeBlock
    split
    · exact Proc.Keeps.modify fun _ h => h
    · exact keeps_locks_raiseAny.bind fun _ => keeps_locks_modify fun _ h => h

theorem keeps_locks_fixateBlock [DecidableEq κ] {entry : ℕ × Block κ} :
    (fixateBlock S sched c entry).Keeps fun s => s.world.HasLocks locks := by
  unfold fixateBlock
  refine Proc.Keeps.get.bind fun s => keeps_locks_ofExcept.bind fun data => ?_
  dsimp only
  split
  · exact keeps_locks_removeFile.bind fun _ => keeps_locks_recordBlock
  · refine Proc.Keeps.bind ?_ fun _ => keeps_locks_removeFile.bind fun _ => keeps_locks_recordBlock
    exact keeps_locks_raiseAny.bind fun _ => keeps_locks_modify fun _ h => h

theorem holds_fixate [DecidableEq κ] {s t : Store κ} (hs : s.world.Holds S.me names others)
    (h : (fixate S sched c).Returns s () t) :
    t.world.Holds S.me (names \ {Locking.versionLockName c.uid}) others := by
  obtain ⟨cow, s1, h1, h⟩ := Proc.returns_bind.mp h
  obtain ⟨-, rfl⟩ := returns_cowOf.mp h1
  obtain ⟨_, s2, h2, h⟩ := Proc.returns_bind.mp h
  have hblocks : (Proc.forEach (fixateBlock S sched c) cow).Keeps
      fun s => s.world.Holds S.me names others :=
    World.Holds.keeps fun _ => Proc.Keeps.forEach fun _ _ => keeps_locks_fixateBlock
  have hs2 := hblocks h2 hs
  obtain ⟨_, s3, h3, h⟩ := Proc.returns_bind.mp h
  obtain ⟨w, hbody, rfl⟩ := Proc.returns_onPart.mp h3
  obtain ⟨_, w1, h1, hbody⟩ := Proc.returns_bind.mp hbody
  obtain ⟨_, w2, h2, hbody⟩ := Proc.returns_bind.mp hbody
  obtain ⟨_, w3, h3, hunlock⟩ := Proc.returns_bind.mp hbody
  obtain rfl := Proc.returns_modify.mp h1
  obtain rfl := Proc.returns_modify.mp h2
  have hset : (setStatus c.id .valid s2.world.commit).Holds S.me names others :=
    hs2.of_hasLocks fun _ h => ⟨h.1, h.1⟩
  have hmetadata := World.Holds.keeps (fun _ => keeps_locks_metadataBackup) h3 hset
  obtain rfl := Proc.returns_modify.mp h
  exact (Locking.holds_unlock.returns hmetadata hunlock).2

end Fixate
end Store

/-! ### One handler -/

/-- The locks of a handler: that of its version and that of the copy it writes to. -/
def lockNames (version cowVersion : Option Version) : Set String :=
  {n | ∃ v, (version = some v ∨ cowVersion = some v) ∧ n = Locking.versionLockName v.uid}

@[simp] theorem lockNames_none : lockNames none none = ∅ := by
  simp [lockNames]

theorem lockNames_cow {version : Option Version} {c : Version} :
    lockNames version (some c) = lockNames version none ∪ {Locking.versionLockName c.uid} := by
  ext n
  constructor
  · rintro ⟨v, hv | hc, rfl⟩
    · exact .inl ⟨v, .inl hv, rfl⟩
    · rw [Option.some.inj hc]
      exact .inr rfl
  · rintro (⟨v, hv | hc, rfl⟩ | rfl)
    · exact ⟨v, .inl hv, rfl⟩
    · cases hc
    · exact ⟨c, .inr rfl, rfl⟩

theorem lockNames_version {v : Version} :
    lockNames (some v) none = {Locking.versionLockName v.uid} := by
  ext n
  constructor
  · rintro ⟨u, hu | hc, rfl⟩
    · rw [Option.some.inj hu]
      rfl
    · cases hc
  · rintro rfl
    exact ⟨v, .inl rfl, rfl⟩

/-- Which variables are set when the handler waits. -/
def Phase.Suits (phase : Phase) (version cowVersion : Option Version) : Prop :=
  match phase with
  | .flags | .option _ _ | .optionData _ _ _ _ => version = none ∧ cowVersion = none
  | .request | .payload _ _ _ => version ≠ none
  | .ended => True

/-- What the handler relies on: a copy is a new version, and comes with its lock. -/
def LocksCow (cfg : Config κ) : Prop := ∀ (v : Version) (names : Set String) (others : Set Lock),
  Triple (fun s : Store κ => s.world.Holds cfg.settings.me names others) (cfg.createCowVersion v)
    (fun c s => Locking.versionLockName c.uid ∉ names ∧
      s.world.Holds cfg.settings.me (names ∪ {Locking.versionLockName c.uid}) others)
    fun _ s => s.world.Holds cfg.settings.me names others

/-- The name that an `EXPORT_NAME` asks for. -/
def Phase.asksFor (phase : Phase) (data : Bytes) : Option String :=
  match phase with
  | .optionData _ _ opt _ =>
    if opt = optExportname ∧ (data.all fun b => b.toNat < 128) = true then
      some (String.ofList (data.map fun b => Char.ofNat b.toNat))
    else none
  | _ => none

/-- A request after which the connection is closed. -/
def Phase.Closes (phase : Phase) (data : Bytes) : Prop :=
  phase = .request ∧ (fromBE (slice data 0 4) ≠ requestMagic ∨
    fromBE (slice data 4 4) &&& cmdMaskFlags = 0 ∧
      fromBE (slice data 4 4) &&& cmdMaskCommand = cmdDisc)

namespace Session

/-- The server holds `rest` when this handler has given back its locks. -/
def Owes (me : Process) (rest : Set String) (others : Set Lock) (s : Session κ) : Prop :=
  ∃ names, s.store.world.Holds me names others ∧ names \ lockNames s.version s.cowVersion = rest

/-- Besides, all of its locks are held. -/
def Owns (me : Process) (rest : Set String) (others : Set Lock) (s : Session κ) : Prop :=
  ∃ names, s.store.world.Holds me names others ∧
    names \ lockNames s.version s.cowVersion = rest ∧ lockNames s.version s.cowVersion ⊆ names

variable {me : Process} {rest : Set String} {others : Set Lock} {s t : Session κ}

theorem Owns.owes (h : s.Owns me rest others) : s.Owes me rest others := by
  obtain ⟨names, hnames, hrest, -⟩ := h
  exact ⟨names, hnames, hrest⟩

theorem Owns.holds (h : s.Owns me rest others) :
    s.store.world.Holds me (rest ∪ lockNames s.version s.cowVersion) others := by
  obtain ⟨names, hnames, rfl, hsub⟩ := h
  rw [Set.sdiff_union_of_subset hsub]
  exact hnames

/-- The `finally` block, if the fixate in it returns. -/
theorem holds_finish [DecidableEq κ] {cfg : Config κ} {phase : Phase}
    (hs : s.Owes cfg.settings.me rest others)
    (hfixate : ∀ c, s.cowVersion = some c →
      ∃ u, (Store.fixate cfg.settings (cfg.fixates c) c).Returns s.store () u)
    (h : finish cfg s = some (phase, t)) :
    phase = .ended ∧ t.store.world.Holds cfg.settings.me rest others := by
  obtain ⟨names, hnames, rfl⟩ := hs
  obtain ⟨⟨r, t'⟩, hclean, heq⟩ := Option.map_eq_some_iff.mp h
  obtain ⟨rfl, rfl⟩ := Prod.mk.inj heq
  refine ⟨rfl, ?_⟩
  obtain ⟨store, version, cowVersion, output⟩ := s
  have hclose {names : Set String} {s u : Session κ} {r : Except Error Unit} {v : Version}
      (hs : s.store.world.Holds cfg.settings.me names others)
      (h : onStore (Store.onWorld (Locking.unlockVersion cfg.settings.me v.uid)) s =
        some (r, u)) :
      u.store.world.Holds cfg.settings.me (names \ lockNames (some v) none) others := by
    rw [lockNames_version]
    obtain ⟨t, ht, rfl⟩ := Proc.onPart_eq_some.mp h
    obtain ⟨w, hw, rfl⟩ := Proc.onPart_eq_some.mp ht
    exact Locking.not_held_of_unlock hs hw
  cases cowVersion with
  | none =>
    cases version with
    | none =>
      cases hclean
      rw [lockNames_none, Set.sdiff_empty]
      exact hnames
    | some v => exact hclose hnames hclean
  | some c =>
    obtain ⟨u, hu⟩ := hfixate c rfl
    have hheld := Store.holds_fixate hnames hu
    have hret : (onStore (Store.fixate cfg.settings (cfg.fixates c) c)).Returns
        ⟨store, version, some c, output⟩ () ⟨u, version, some c, output⟩ :=
      Proc.returns_onPart.mpr ⟨u, hu, rfl⟩
    rw [lockNames_cow, Set.union_comm, ← Set.sdiff_sdiff]
    have hrest := hret.bind_eq.symm.trans hclean
    cases version with
    | none =>
      cases hrest
      rw [lockNames_none, Set.sdiff_empty]
      exact hheld
    | some v => exact hclose hheld hrest

/-! ### From one wait to the next -/

/-- A handler that has not opened a version. -/
def Idle (me : Process) (rest : Set String) (others : Set Lock) (s : Session κ) : Prop :=
  s.version = none ∧ s.cowVersion = none ∧ s.store.world.Holds me rest others

/-- When a handler with a copy is over, it is for a request, and with the store unchanged. -/
def Ends (phase : Phase) (data : Bytes) (s t : Session κ) : Prop :=
  t.cowVersion ≠ none →
    phase.Closes data ∧ t.store = s.store ∧ t.cowVersion = s.cowVersion

variable {cfg : Config κ} {phase : Phase} {data : Bytes}

theorem Idle.owns (h : s.Idle me rest others) : s.Owns me rest others := by
  obtain ⟨hversion, hcow, hholds⟩ := h
  refine ⟨rest, hholds, ?_, ?_⟩
  · rw [hversion, hcow, lockNames_none, Set.sdiff_empty]
  · rw [hversion, hcow, lockNames_none]
    exact Set.empty_subset rest

theorem Owns.idle (h : s.Owns me rest others) (hversion : s.version = none)
    (hcow : s.cowVersion = none) : s.Idle me rest others := by
  refine ⟨hversion, hcow, ?_⟩
  have hholds := h.holds
  rw [hversion, hcow, lockNames_none, Set.union_empty] at hholds
  exact hholds

theorem Ends.of_none (h : t.cowVersion = none) : Ends phase data s t := fun hcow => absurd h hcow

theorem keeps_idle_write {bytes : Bytes} :
    (write bytes : Action κ Unit).Keeps fun s => s.Idle me rest others :=
  Proc.Keeps.modify fun _ h => h

/-- A handler that waits again for an option has not opened a version. -/
theorem idle_pure {fixed noZeros : Bool} {E : Error → Session κ → Prop} :
    Triple (fun t : Session κ => t.Idle me rest others) (pure (Phase.option fixed noZeros))
      (fun phase t => t.Owns me rest others ∧ phase.Suits t.version t.cowVersion ∧
        phase ≠ .ended) E :=
  Triple.pure fun _ h => ⟨h.owns, ⟨h.1, h.2.1⟩, by simp⟩

/-- A handler that has opened a version and has not written to it. -/
def Open (me : Process) (rest : Set String) (others : Set Lock) (v : Version)
    (s : Session κ) : Prop :=
  s.version = some v ∧ s.cowVersion = none ∧
    s.store.world.Holds me (rest ∪ {Locking.versionLockName v.uid}) others

theorem Open.owns {v : Version} (h : s.Open me rest others v)
    (hfree : Locking.versionLockName v.uid ∉ rest) : s.Owns me rest others := by
  obtain ⟨hversion, hcow, hholds⟩ := h
  refine ⟨_, hholds, ?_, ?_⟩
  · rw [hversion, hcow, lockNames_version, Set.union_sdiff_right,
      Set.sdiff_singleton_eq_self hfree]
  · rw [hversion, hcow, lockNames_version]
    exact Set.subset_union_right

theorem locks_open {v : Version} (hs : s.Idle cfg.settings.me rest others)
    (hfree : Locking.versionLockName v.uid ∉ rest) :
    Triple (fun t => t = { s with version := some v })
      (onStore (Store.onWorld (Locking.lockVersion cfg.settings.me v.uid "NBD")))
      (fun _ t => t.Open cfg.settings.me rest others v)
      fun _ t => t.Owes cfg.settings.me rest others ∧ t.cowVersion = none := by
  obtain ⟨-, hcow, hholds⟩ := hs
  constructor
  · rintro t _ u rfl h
    obtain ⟨store, hstore, rfl⟩ := Proc.returns_onPart.mp h
    obtain ⟨w, hw, rfl⟩ := Proc.returns_onPart.mp hstore
    exact ⟨rfl, hcow, (Locking.holds_lock.returns hholds hw).2⟩
  · rintro t e u rfl h
    obtain ⟨store, hstore, rfl⟩ := Proc.raises_onPart.mp h
    obtain ⟨w, hw, rfl⟩ := Proc.raises_onPart.mp hstore
    refine ⟨⟨rest, Locking.holds_lock.raises hholds hw, ?_⟩, hcow⟩
    dsimp only
    rw [hcow, lockNames_version, Set.sdiff_singleton_eq_self hfree]

theorem locks_exportName {fixed noZeros : Bool} {opt length : ℕ} {data : Option Bytes}
    (hs : s.Idle cfg.settings.me rest others)
    (hfree : ∀ v ∈ s.store.world.db.versions, ∀ d ∈ data,
      (Phase.optionData fixed noZeros optExportname length).asksFor d = some v.uid →
        Locking.versionLockName v.uid ∉ rest) :
    Triple (fun t => t = s) (exportName cfg fixed noZeros opt data)
      (fun phase t => t.Owns cfg.settings.me rest others ∧ phase.Suits t.version t.cowVersion ∧
        phase ≠ .ended)
      fun _ t => t.Owes cfg.settings.me rest others ∧ t.cowVersion = none := by
  have hidle (t : Session κ) (ht : t = s) :
      t.Owes cfg.settings.me rest others ∧ t.cowVersion = none := by
    rw [ht]
    exact ⟨hs.owns.owes, hs.2.1⟩
  unfold exportName
  refine Triple.bind (M := fun d t => t = s ∧ data = some d)
    (Triple.ofOption (fun d hd t ht => ⟨ht, hd⟩) fun _ t ht => hidle t ht) fun d => ?_
  refine Triple.bind (M := fun uid t => (t = s ∧ data = some d) ∧
    (Phase.optionData fixed noZeros optExportname length).asksFor d = some uid) ?_ fun uid => ?_
  · unfold decodeAscii
    refine Triple.bind (M := fun _ t => (t = s ∧ data = some d) ∧
      (d.all fun b => b.toNat < 128) = true)
      (Triple.raiseIf ?_ fun _ t ht => hidle t ht.1) fun _ => Triple.pure ?_
    · intro hno t ht
      refine ⟨ht, ?_⟩
      rw [List.all_eq_true]
      intro b hb
      rw [decide_eq_true_eq]
      by_contra hlt
      exact hno ⟨b, hb, by omega⟩
    · rintro t ⟨ht, hascii⟩
      refine ⟨ht, ?_⟩
      rw [Phase.asksFor, if_pos ⟨rfl, hascii⟩]
  · refine Triple.bind (M := fun _ t => (t = s ∧ data = some d) ∧
      (Phase.optionData fixed noZeros optExportname length).asksFor d = some uid)
      (Triple.raiseIf (fun _ t ht => ht) fun _ t ht => hidle t ht.1.1) fun _ => ?_
    refine Triple.get_bind ?_
    rintro s' ⟨⟨rfl, hdata⟩, hasks⟩
    split
    · refine Triple.bind (M := fun _ t => t.Idle cfg.settings.me rest others) ?_ fun _ => ?_
      · refine Triple.raiseIf ?_ fun _ t ht => hidle t ht
        rintro - t rfl
        exact hs
      · refine Triple.bind (M := fun _ t => t.Idle cfg.settings.me rest others) ?_ fun _ =>
          idle_pure
        exact Triple.modify fun _ h => h
    · refine Triple.bind (M := fun v t => t = s' ∧ v ∈ s'.store.world.db.versions ∧ v.uid = uid)
        (Triple.ofOption ?_ fun _ t ht => hidle t ht) fun v => ?_
      · rintro v hv t rfl
        refine ⟨rfl, ?_⟩
        have hmem := List.mem_of_mem_head? hv
        have hfilter := (cfg.order_perm _).mem_iff.mp hmem
        obtain ⟨hrow, huid⟩ := List.mem_filter.mp hfilter
        exact ⟨hrow, of_decide_eq_true huid uid rfl⟩
      · refine Triple.bind (M := fun _ t => t = { s' with version := some v } ∧
          Locking.versionLockName v.uid ∉ rest) (Triple.modify ?_) fun _ => ?_
        · rintro t ⟨rfl, hv, rfl⟩
          exact ⟨rfl, hfree v hv d hdata hasks⟩
        · refine Triple.of_pre fun hno => ?_
          refine Triple.bind (locks_open hs hno) fun _ => ?_
          have hwrite {bytes : Bytes} : Triple (fun t : Session κ =>
              t.Open cfg.settings.me rest others v) (write bytes)
              (fun _ t => t.Open cfg.settings.me rest others v)
              fun _ t => t.Owes cfg.settings.me rest others ∧ t.cowVersion = none :=
            Triple.modify fun _ h => h
          refine Triple.bind (M := fun _ t => t.Open cfg.settings.me rest others v) ?_ fun _ =>
            hwrite.bind fun _ => hwrite.bind fun _ => Triple.pure ?_
          · unfold pack
            refine Triple.bind (M := fun _ t => t.Open cfg.settings.me rest others v) ?_ fun _ =>
              Triple.pure fun _ h => h
            exact Triple.raiseIf (fun _ _ h => h) fun _ t h => ⟨(h.owns hno).owes, h.2.1⟩
          · intro t h
            refine ⟨h.owns hno, ?_, by simp⟩
            rw [Phase.Suits, h.1]
            simp

theorem locks_handleOption {fixed noZeros : Bool} {opt : ℕ} {data : Option Bytes} (length : ℕ)
    (hs : s.Idle cfg.settings.me rest others)
    (hfree : ∀ v ∈ s.store.world.db.versions, ∀ d ∈ data,
      (Phase.optionData fixed noZeros opt length).asksFor d = some v.uid →
        Locking.versionLockName v.uid ∉ rest) :
    Triple (fun t => t = s) (handleOption cfg fixed noZeros opt data)
      (fun phase t => t.Owns cfg.settings.me rest others ∧ phase.Suits t.version t.cowVersion ∧
        phase ≠ .ended)
      fun _ t => t.Owes cfg.settings.me rest others ∧ t.cowVersion = none := by
  have hidle (t : Session κ) (h : t.Idle cfg.settings.me rest others) :
      t.Owes cfg.settings.me rest others ∧ t.cowVersion = none := ⟨h.owns.owes, h.2.1⟩
  have hwrite {bytes : Bytes} : Triple (fun t : Session κ => t.Idle cfg.settings.me rest others)
      (write bytes) (fun _ t => t.Idle cfg.settings.me rest others)
      fun _ t => t.Owes cfg.settings.me rest others ∧ t.cowVersion = none :=
    Triple.modify fun _ h => h
  have hpre {α : Type} {p : Action κ α} {Q : α → Session κ → Prop} {E : Error → Session κ → Prop}
      (h : Triple (fun t => t.Idle cfg.settings.me rest others) p Q E) :
      Triple (fun t => t = s) p Q E := by
    apply h.pre
    rintro t rfl
    exact hs
  unfold handleOption
  split_ifs with hexport hlist habort
  · subst hexport
    exact locks_exportName hs hfree
  · refine Triple.get_bind ?_
    rintro s' rfl
    refine hpre (Triple.bind (M := fun _ t => t.Idle cfg.settings.me rest others) ?_ fun _ =>
      hwrite.bind fun _ => idle_pure)
    have hkeeps (versions : List Version) : (Proc.forEach (listVersion opt) versions).Keeps
        fun t : Session κ => t.Idle cfg.settings.me rest others := by
      apply Proc.Keeps.forEach
      intro v _
      have hpack {width n : ℕ} :
          (pack width n).Keeps fun t : Session κ => t.Idle cfg.settings.me rest others :=
        Proc.Keeps.raiseIf.bind fun _ => Proc.Keeps.pure
      have hencode {text : String} :
          (encodeAscii text).Keeps fun t : Session κ => t.Idle cfg.settings.me rest others :=
        Proc.Keeps.raiseIf.bind fun _ => Proc.Keeps.pure
      exact hencode.bind fun _ => hpack.bind fun _ => keeps_idle_write.bind fun _ =>
        keeps_idle_write
    exact (Triple.of_keeps (hkeeps _)).mono (fun _ h => h) (fun _ _ h => h) fun _ t h => hidle t h
  · exact hpre (hwrite.bind fun _ => Triple.raise hidle)
  · refine hpre (Triple.bind (M := fun _ t => t.Idle cfg.settings.me rest others)
      (Triple.raiseIf (fun _ _ h => h) fun _ => hidle) fun _ => hwrite.bind fun _ => idle_pure)

/-! Requests. -/

/-- A handler in the transmission phase. -/
def Serves (me : Process) (rest : Set String) (others : Set Lock) (s : Session κ) : Prop :=
  s.Owns me rest others ∧ s.version ≠ none

/-- What is done to the store alone leaves the locks if it leaves the world. -/
theorem keeps_serves_onStore {α : Type} {p : Store.Action κ α}
    (hp : ∀ w, p.Keeps fun store => store.world = w) :
    (onStore p).Keeps fun s => s.Serves me rest others := by
  rintro s r t h ⟨⟨names, hnames, hrest, hsub⟩, hversion⟩
  obtain ⟨store, hstore, rfl⟩ := Proc.onPart_eq_some.mp h
  have hworld : store.world = s.store.world := hp _ hstore rfl
  exact ⟨⟨names, by rw [hworld]; exact hnames, hrest, hsub⟩, hversion⟩

theorem serves_nbdResponse {handle error : ℕ} {data : Bytes} {E : Error → Session κ → Prop} :
    Triple (fun s : Session κ => s.Serves me rest others) (nbdResponse handle error data)
      (fun _ s => s.Serves me rest others) E :=
  Triple.modify fun _ h => h

/-- An exception of a read or of a write is answered. -/
theorem serves_tryExcept {α : Type} {p : Action κ α} {a : α} {E : Error → Session κ → Prop}
    (hp : p.Keeps fun s => s.Serves me rest others) :
    Triple (fun s : Session κ => s.Serves me rest others)
      (Proc.tryExcept p fun _ => pure a) (fun _ s => s.Serves me rest others) E :=
  ((Triple.of_keeps hp).mono (fun _ h => h) (fun _ _ h => h) fun _ _ h => h).tryExcept
    fun _ => Triple.pure fun _ h => h

theorem serves_pure {E : Error → Session κ → Prop} {phase : Phase}
    (hphase : phase = .request ∨ ∃ handle offset length, phase = .payload handle offset length) :
    Triple (fun s : Session κ => s.Serves me rest others) (pure phase)
      (fun phase t => t.Owns me rest others ∧ phase.Suits t.version t.cowVersion ∧
        phase ≠ .ended) E := by
  apply Triple.pure
  rintro s ⟨howns, hversion⟩
  obtain rfl | ⟨handle, offset, length, rfl⟩ := hphase
  · exact ⟨howns, hversion, by simp⟩
  · exact ⟨howns, hversion, by simp⟩

theorem locks_handleRequest {cmd handle offset length : ℕ}
    (hs : s.Serves cfg.settings.me rest others) :
    Triple (fun t => t = s) (handleRequest cfg cmd handle offset length)
      (fun phase t => t.Owns cfg.settings.me rest others ∧ phase.Suits t.version t.cowVersion ∧
        (phase = .ended → cmd = cmdDisc ∧ t = s))
      fun _ _ => False := by
  have hwaits {p : Action κ Phase} (h : Triple (fun t : Session κ => t.Serves cfg.settings.me rest
      others) p (fun phase t => t.Owns cfg.settings.me rest others ∧
        phase.Suits t.version t.cowVersion ∧ phase ≠ .ended) fun _ _ => False) :
      Triple (fun t => t = s) p
        (fun phase t => t.Owns cfg.settings.me rest others ∧ phase.Suits t.version t.cowVersion ∧
          (phase = .ended → cmd = cmdDisc ∧ t = s)) fun _ _ => False := by
    refine h.mono ?_ ?_ fun _ _ h => h
    · rintro t rfl
      exact hs
    · rintro phase t ⟨howns, hsuits, hne⟩
      exact ⟨howns, hsuits, fun hended => absurd hended hne⟩
  unfold handleRequest
  refine Triple.get_bind ?_
  rintro s' rfl
  split_ifs with hdisc hwrite hread hflush
  · apply Triple.pure
    rintro t rfl
    exact ⟨hs.1, trivial, fun _ => ⟨hdisc, rfl⟩⟩
  · exact hwaits (serves_pure (.inr ⟨_, _, _, rfl⟩))
  · apply hwaits
    refine Triple.bind (M := fun _ t => t.Serves cfg.settings.me rest others)
      (Triple.ofOption (fun _ _ _ h => h) fun hnone => absurd hnone hs.2) fun version => ?_
    have hread : (onStore do
        let data ← Store.read cfg.culled version s'.cowVersion offset length
        pure (some data)).Keeps fun t : Session κ => t.Serves cfg.settings.me rest others :=
      keeps_serves_onStore fun _ => Store.keeps_world_read.bind fun _ => Proc.Keeps.pure
    refine (serves_tryExcept hread).bind fun data => ?_
    cases data with
    | none => exact serves_nbdResponse.bind fun _ => serves_pure (.inl rfl)
    | some data => exact serves_nbdResponse.bind fun _ => serves_pure (.inl rfl)
  · exact hwaits (serves_nbdResponse.bind fun _ => serves_pure (.inl rfl))
  · exact hwaits (serves_nbdResponse.bind fun _ => serves_pure (.inl rfl))

/-- The first write takes the lock of the copy; where it fails there is no copy. -/
theorem locks_cowVersionOf (hcow : LocksCow cfg) (hs : s.Serves cfg.settings.me rest others) :
    Triple (fun t => t = s) (cowVersionOf cfg) (fun _ t => t.Serves cfg.settings.me rest others)
      fun _ t => t.Owes cfg.settings.me rest others ∧ t.cowVersion = none := by
  unfold cowVersionOf
  refine Triple.get_bind ?_
  rintro s' rfl
  cases hc : s'.cowVersion with
  | some c =>
    apply Triple.pure
    rintro t rfl
    exact hs
  | none =>
    dsimp only
    refine Triple.bind (M := fun _ t => t = s')
      (Triple.ofOption (fun _ _ _ h => h) fun hnone => absurd hnone hs.2) fun version => ?_
    obtain ⟨⟨names, hnames, hrest, hsub⟩, hversion⟩ := hs
    have hcreate := hcow version names others
    refine Triple.bind (M := fun c t => t.version = s'.version ∧
      Locking.versionLockName c.uid ∉ names ∧
        t.store.world.Holds cfg.settings.me (names ∪ {Locking.versionLockName c.uid}) others)
      ⟨?_, ?_⟩ fun c => Triple.bind (M := fun _ t => t.Serves cfg.settings.me rest others)
        (Triple.modify ?_) fun _ => Triple.pure fun _ h => h
    · rintro t c u rfl h
      obtain ⟨store, hstore, rfl⟩ := Proc.returns_onPart.mp h
      exact ⟨rfl, hcreate.returns hnames hstore⟩
    · rintro t e u rfl h
      obtain ⟨store, hstore, rfl⟩ := Proc.raises_onPart.mp h
      exact ⟨⟨names, hcreate.raises hnames hstore, hrest⟩, hc⟩
    · rintro t ⟨ht, hfresh, hholds⟩
      rw [hc, ← ht] at hrest hsub
      refine ⟨⟨_, hholds, ?_, ?_⟩, by rw [ht]; exact hversion⟩
      · dsimp only
        rw [lockNames_cow, ← hrest]
        ext n
        simp only [Set.mem_sdiff, Set.mem_union, Set.mem_singleton_iff]
        constructor
        · rintro ⟨hn | hn, hno⟩
          · exact ⟨hn, fun hmem => hno (.inl hmem)⟩
          · exact absurd (.inr hn) hno
        · rintro ⟨hn, hno⟩
          refine ⟨.inl hn, ?_⟩
          rintro (hmem | rfl)
          · exact hno hmem
          · exact hfresh hn
      · dsimp only
        rw [lockNames_cow]
        exact Set.union_subset_union_left _ hsub

theorem locks_handleWrite (hcow : LocksCow cfg) {handle offset : ℕ}
    (hs : s.Serves cfg.settings.me rest others) :
    Triple (fun t => t = s) (handleWrite cfg handle offset data)
      (fun phase t => t.Owns cfg.settings.me rest others ∧ phase.Suits t.version t.cowVersion ∧
        phase ≠ .ended)
      fun _ t => t.Owes cfg.settings.me rest others ∧ t.cowVersion = none := by
  unfold handleWrite
  split
  · have hserves (t : Session κ) (ht : t = s) : t.Serves cfg.settings.me rest others := by
      rw [ht]
      exact hs
    exact (serves_nbdResponse.bind fun _ => serves_pure (.inl rfl)).pre hserves
  · refine (locks_cowVersionOf hcow hs).bind fun c => ?_
    have hwrite : (onStore do
        Store.write c offset data
        pure 0).Keeps fun t : Session κ => t.Serves cfg.settings.me rest others :=
      keeps_serves_onStore fun _ => Store.keeps_world_write.bind fun _ => Proc.Keeps.pure
    exact (serves_tryExcept hwrite).bind fun _ => serves_nbdResponse.bind fun _ =>
      serves_pure (.inl rfl)

/-- Whatever the client sends: a handler that goes on has its locks, and one that is over can give
back what it has. -/
theorem locks_resume (hcow : LocksCow cfg) (hs : s.Owns cfg.settings.me rest others)
    (hsuits : phase.Suits s.version s.cowVersion) (hlive : phase ≠ .ended)
    (hfree : ∀ v ∈ s.store.world.db.versions, phase.asksFor data = some v.uid →
      Locking.versionLockName v.uid ∉ rest) :
    Triple (fun t => t = s) (resume cfg phase data)
      (fun next t => t.Owns cfg.settings.me rest others ∧ next.Suits t.version t.cowVersion ∧
        (next = .ended → Ends phase data s t))
      fun _ t => t.Owes cfg.settings.me rest others ∧ Ends phase data s t := by
  have hwaits {p : Action κ Phase} (h : Triple (fun t => t = s) p
      (fun next t => t.Owns cfg.settings.me rest others ∧ next.Suits t.version t.cowVersion ∧
        next ≠ .ended) fun _ t => t.Owes cfg.settings.me rest others ∧ t.cowVersion = none) :
      Triple (fun t => t = s) p
        (fun next t => t.Owns cfg.settings.me rest others ∧ next.Suits t.version t.cowVersion ∧
          (next = .ended → Ends phase data s t))
        fun _ t => t.Owes cfg.settings.me rest others ∧ Ends phase data s t := by
    refine h.mono (fun _ h => h) ?_ ?_
    · rintro next t ⟨howns, hsuits, hne⟩
      exact ⟨howns, hsuits, fun hended => absurd hended hne⟩
    · rintro e t ⟨howes, hnone⟩
      exact ⟨howes, .of_none hnone⟩
  cases phase with
  | ended => exact absurd rfl hlive
  | flags =>
    have hidle := hs.idle hsuits.1 hsuits.2
    refine hwaits (Triple.bind (M := fun _ t => t.Idle cfg.settings.me rest others)
      (Triple.raiseIf ?_ ?_) fun _ => idle_pure)
    · rintro - t rfl
      exact hidle
    · rintro - t rfl
      exact ⟨hs.owes, hidle.2.1⟩
  | option fixed noZeros =>
    have hidle := hs.idle hsuits.1 hsuits.2
    refine hwaits (Triple.bind (M := fun _ t => t = s) (Triple.raiseIf (fun _ _ h => h) ?_)
      fun _ => ?_)
    · rintro - t rfl
      exact ⟨hs.owes, hidle.2.1⟩
    · split
      · apply Triple.pure
        rintro t rfl
        exact ⟨hs, hsuits, by simp⟩
      · exact locks_handleOption 0 hidle fun _ _ _ hd => absurd hd (by simp)
  | optionData fixed noZeros opt length =>
    have hidle := hs.idle hsuits.1 hsuits.2
    refine hwaits (locks_handleOption length hidle ?_)
    rintro v hv d hd hasks
    obtain rfl := Option.some.inj hd
    exact hfree v hv hasks
  | request =>
    have hserves : s.Serves cfg.settings.me rest others := ⟨hs, hsuits⟩
    refine Triple.bind (M := fun _ t => t = s) (Triple.raiseIf (fun _ _ h => h) ?_) fun _ => ?_
    · rintro hmagic t rfl
      exact ⟨hs.owes, fun _ => ⟨⟨rfl, .inl hmagic⟩, rfl, rfl⟩⟩
    · split
      · have hpre (t : Session κ) (ht : t = s) : t.Serves cfg.settings.me rest others := by
          rw [ht]
          exact hserves
        exact hwaits ((serves_nbdResponse.bind fun _ => serves_pure (.inl rfl)).pre hpre)
      · rename_i hflags
        refine (locks_handleRequest hserves).mono (fun _ h => h) ?_ fun _ _ h => h.elim
        rintro next t ⟨howns, hsuits, hdisc⟩
        refine ⟨howns, hsuits, fun hended _ => ?_⟩
        obtain ⟨hcmd, rfl⟩ := hdisc hended
        exact ⟨⟨rfl, .inr ⟨not_not.mp hflags, hcmd⟩⟩, rfl, rfl⟩
  | payload handle offset length => exact hwaits (locks_handleWrite hcow ⟨hs, hsuits⟩)

/-- From one wait to the next wait or to the end. -/
theorem locks_turn [DecidableEq κ] {next : Phase} (hcow : LocksCow cfg)
    (hs : s.Owns cfg.settings.me rest others) (hsuits : phase.Suits s.version s.cowVersion)
    (hlive : phase ≠ .ended)
    (hfree : ∀ v ∈ s.store.world.db.versions, phase.asksFor data = some v.uid →
      Locking.versionLockName v.uid ∉ rest)
    (hfixate : phase.Closes data → ∀ c, s.cowVersion = some c →
      ∃ u, (Store.fixate cfg.settings (cfg.fixates c) c).Returns s.store () u)
    (h : turn cfg phase data s = some (next, t)) :
    (next = .ended ∧ t.store.world.Holds cfg.settings.me rest others) ∨
      next ≠ .ended ∧ t.Owns cfg.settings.me rest others ∧
        next.Suits t.version t.cowVersion := by
  have hresume := locks_resume hcow hs hsuits hlive hfree
  have hfinish {u : Session κ} (howes : u.Owes cfg.settings.me rest others)
      (hends : Ends phase data s u) (h : finish cfg u = some (next, t)) :
      next = .ended ∧ t.store.world.Holds cfg.settings.me rest others := by
    refine holds_finish howes ?_ h
    intro c hc
    obtain ⟨hcloses, hstore, hsame⟩ := hends (by rw [hc]; simp)
    rw [hstore]
    exact hfixate hcloses c (by rw [← hsame, hc])
  unfold turn at h
  split at h
  · cases h
  · rename_i e u hu
    obtain ⟨howes, hends⟩ := hresume.raises rfl hu
    exact .inl (hfinish howes hends h)
  · rename_i u hu
    obtain ⟨howns, -, hends⟩ := hresume.returns rfl hu
    exact .inl (hfinish howns.owes (hends rfl) h)
  · rename_i phase' u hne hu
    obtain ⟨howns, hsuits', -⟩ := hresume.returns rfl hu
    obtain ⟨rfl, rfl⟩ := Prod.mk.inj (Option.some.inj h)
    exact .inr ⟨hne, howns, hsuits'⟩

end Session
end Benji.Nbd
