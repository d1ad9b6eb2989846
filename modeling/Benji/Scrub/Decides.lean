import Benji.Scrub.Outcome

/-! When a deep-scrub decides whether a version is intact. -/
namespace Benji
open Lib Scrub

variable {κ : Type} {S : Settings κ} {w : World κ} {cache : Option (ReadCache κ)}
  {versionUid : String} {v : Version} {sched : Scrub.Schedule}

/-- The blocks of a version that have an object. -/
def objectBlocks (db : Database κ) (v : Version) : List (Block κ) :=
  ((List.range v.blocksCount).map (db.blocks.getBlockByIdx v)).filter fun b => b.uid.isSome

/-- The object is there, its metadata agrees with the row, and its data has the checksum. -/
def Verifies (hash : Bytes → κ) (objects : Objects κ) (storage : ℕ) (b : Block κ) : Prop :=
  ∃ uid o d m, b.uid = some uid ∧ objects storage uid = some o ∧ o.metadata = .decoded m ∧
    o.length = m.objectSize ∧ m.size = b.size ∧ m.checksum = b.checksum ∧ o.data = .ok d ∧
    b.checksum = some (hash d)

/-- Everything a deep-scrub of all blocks is for: `r` is its outcome and `t` its last state. -/
structure Decided (S : Settings κ) (w : World κ) (versionUid : String) (v : Version)
    (r : Except Error Unit) (t : Scrub κ) : Prop where
  storageReads : t.storageReads.Perm (objectBlocks w.db v)
  cacheReads : t.cacheReads = []
  consumed : t.consumed.Perm (objectBlocks w.db v)
  returns : r = .ok () ↔
    ∀ b ∈ objectBlocks w.db v, Verifies S.dataHexdigest w.objects v.storage.id b
  valid : r = .ok () → t.world.db.getByUid versionUid = some { v with status := .valid }
  raises : r ≠ .ok () → ∃ message, r = .error (.scrubbingError message)
  marked : r ≠ .ok () → ∀ b ∈ objectBlocks w.db v,
    ¬ Verifies S.dataHexdigest w.objects v.storage.id b ↔
      ∀ c ∈ t.world.db.blocks, c.uid = b.uid → c.valid = false
  invalid : r ≠ .ok () → ∀ b ∈ objectBlocks w.db v,
    ¬ Verifies S.dataHexdigest w.objects v.storage.id b →
      ∀ c ∈ t.world.db.blocks, c.uid = b.uid →
        ∀ x ∈ t.world.db.versions, x.id = c.versionId → x.status = .invalid

def DecidesIntact [DecidableEq κ] (S : Settings κ) (w : World κ) (cache : Option (ReadCache κ))
    (versionUid : String) (v : Version) (sched : Scrub.Schedule) : Prop :=
  ∀ r t, deepScrub S versionUid none {} sched (start w cache none) = some (r, t) →
    Decided S w versionUid v r t

theorem toRead_all (hp : 0 < S.blocksPerCall) (db : Database κ) :
    toRead S v {} none db = objectBlocks db v := by
  rw [toRead, BlockTable.blocks_eq hp, objectBlocks]
  apply List.filter_congr
  intro b hb
  simp [Scrub.wanted, Scrub.seen]

theorem Database.getByUid_setStatus {db : Database κ} {status : VersionStatus}
    (h : db.getByUid versionUid = some v) :
    (db.setStatus v.id status).getByUid versionUid = some { v with status := status } := by
  have hkeep : ((fun x : Version => decide (x.uid = versionUid)) ∘
      fun x => if x.id = v.id then { x with status := status } else x) =
        fun x => decide (x.uid = versionUid) := by
    funext x
    simp only [Function.comp_apply]
    split <;> rfl
  unfold getByUid at h
  unfold getByUid setStatus mapStatus mapVersions Table.update
  rw [List.find?_map, hkeep, h, Option.map_some, if_pos rfl]

/-- A version that somebody has locked is not scrubbed. -/
theorem deepScrub_of_locked [DecidableEq κ] (S : Settings κ) (source : Option Source)
    (sample : Sample) (sched : Scrub.Schedule) (cache : Option (ReadCache κ))
    (history : Option (List (ℕ × BlockUid))) (h : Locking.isVersionLocked versionUid w = true) :
    ∃ e t, (deepScrub S versionUid source sample sched).Raises (start w cache history) e t ∧
      ∀ message, e ≠ .scrubbingError message := by
  obtain ⟨e, u, hlock, he⟩ : ∃ e u, (Locking.lockVersion S.me versionUid "Deep-scrubbing").Raises
      w e u ∧ ∀ message, e ≠ .scrubbingError message := by
    unfold Proc.Raises Locking.lockVersion Locking.lock
    split_ifs with hheld hother
    · exact ⟨_, _, rfl, fun _ => nofun⟩
    · exact ⟨_, _, rfl, fun _ => nofun⟩
    · have hl : Locking.isLocked (Locking.versionLockName versionUid) w = true := h
      simp [hl] at hother
  refine ⟨e, { start w cache history with world := u }, Proc.raises_bind.mpr (.inl ?_), he⟩
  unfold Proc.Raises at hlock ⊢
  unfold onWorld Proc.onPart
  dsimp only [start]
  rw [hlock]

/-- A deep-scrub decides whether a version is intact only where there is nothing to decide: as
soon as one block has an object, its read is submitted to one instance and waited for on another. -/
theorem deepScrub_decides_iff [DecidableEq κ] (hp : 0 < S.blocksPerCall)
    (hget : w.db.getByUid versionUid = some v) (hs : v.status ≠ .incomplete) :
    DecidesIntact S w cache versionUid v sched ↔
      Locking.isVersionLocked versionUid w = false ∧
        ∀ idx < v.blocksCount, (w.db.blocks.getBlockByIdx v idx).uid = none := by
  have hscrub : v.status.isDeepScrubbable = true := by
    cases hst : v.status with
    | incomplete => exact absurd hst hs
    | valid => rfl
    | invalid => rfl
  have hnil : objectBlocks w.db v = [] ↔
      ∀ idx < v.blocksCount, (w.db.blocks.getBlockByIdx v idx).uid = none := by
    simp [objectBlocks]
  rw [← hnil]
  constructor
  · intro hdec
    cases hl : Locking.isVersionLocked versionUid w with
    | true =>
      obtain ⟨e, t, ht, hne⟩ := deepScrub_of_locked S none {} sched cache none hl
      obtain ⟨message, hm⟩ := (hdec _ _ ht).raises nofun
      exact absurd (Except.error.inj hm) (hne message)
    | false =>
      refine ⟨rfl, ?_⟩
      by_contra hne
      obtain ⟨t, ht, -⟩ := deepScrub_of_ne_nil none sched cache hget hscrub hl
        (by rwa [toRead_all hp])
      obtain ⟨message, hm⟩ := (hdec _ _ ht).raises nofun
      exact absurd (Except.error.inj hm) nofun
  · rintro ⟨hl, hempty⟩ r t ht
    obtain ⟨u, hu, hsr, hcr, hcon, hworld⟩ := deepScrub_of_nil none sched cache hget hscrub hl
      (by rw [toRead_all hp, hempty])
    obtain ⟨rfl, rfl⟩ := Prod.mk.inj (Option.some.inj (ht.symm.trans hu))
    have hvalid : t.world.db.getByUid versionUid = some { v with status := .valid } := by
      rw [hworld, if_pos rfl]
      exact Database.getByUid_setStatus hget
    refine ⟨?_, hcr, ?_, ?_, fun _ => hvalid, ?_, ?_, ?_⟩
    · rw [hsr, hempty]
    · rw [hcon, hempty]
    · simp [hempty]
    · exact fun h => absurd rfl h
    · exact fun h => absurd rfl h
    · exact fun h => absurd rfl h

section Example

def oneBlockSettings : Settings Bytes := ⟨⟨"host", "1"⟩, 2, id, 3, 2⟩

def oneBlockVersion : Version := ⟨1, "v1", ⟨1, "file"⟩, 2, 2, .valid, none⟩

/-- An intact version of one block. -/
def oneBlockDatabase : Database Bytes where
  versions := ⟨[oneBlockVersion], by decide⟩
  blocks := ⟨[⟨1, 0, some ⟨1, 1⟩, some [7, 8], 2, true⟩], by decide⟩
  deletedBlocks := .empty
  locks := .empty

def oneBlockWorld : World Bytes where
  db := oneBlockDatabase
  committed := oneBlockDatabase
  objects := fun storage uid =>
    if storage = 1 ∧ uid = ⟨1, 1⟩ then some ⟨2, .ok [7, 8], .decoded ⟨2, 2, some [7, 8]⟩⟩ else none
  versionObjects := fun _ _ => none

private theorem oneBlock_verifies : ∀ b ∈ objectBlocks oneBlockWorld.db oneBlockVersion,
    Verifies oneBlockSettings.dataHexdigest oneBlockWorld.objects 1 b := by
  have hblocks : objectBlocks oneBlockWorld.db oneBlockVersion =
      [⟨1, 0, some ⟨1, 1⟩, some [7, 8], 2, true⟩] := by decide
  intro b hb
  rw [hblocks, List.mem_singleton] at hb
  subst hb
  exact ⟨_, _, _, _, rfl, rfl, rfl, rfl, rfl, rfl, rfl, rfl⟩

/-- The deep-scrub of an intact version raises. -/
theorem deepScrub_misses_results :
    (∀ b ∈ objectBlocks oneBlockWorld.db oneBlockVersion,
      Verifies oneBlockSettings.dataHexdigest oneBlockWorld.objects 1 b) ∧
    ¬ DecidesIntact oneBlockSettings oneBlockWorld none "v1" oneBlockVersion ⟨[], []⟩ := by
  refine ⟨oneBlock_verifies, ?_⟩
  intro hdec
  have hread : toRead oneBlockSettings oneBlockVersion {} none oneBlockWorld.db ≠ [] := by decide
  obtain ⟨t, ht, -⟩ := deepScrub_of_ne_nil none ⟨[], []⟩ none
    (by decide : oneBlockWorld.db.getByUid "v1" = some oneBlockVersion) rfl (by decide) hread
  exact absurd ((hdec _ _ ht).returns.mpr oneBlock_verifies) nofun

theorem deepScrub_decides_example :
    DecidesIntact oneBlockSettings oneBlockWorld none "v1" oneBlockVersion ⟨[], []⟩ ↔
      Locking.isVersionLocked "v1" oneBlockWorld = false ∧
        ∀ idx < oneBlockVersion.blocksCount,
          (oneBlockWorld.db.blocks.getBlockByIdx oneBlockVersion idx).uid = none :=
  deepScrub_decides_iff (by decide) (by decide) (by decide)

end Example

end Benji
