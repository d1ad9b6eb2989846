import Benji.Storage

/-! Storage instances with the reads submitted to them, and the read cache of a storage. Every
call of `StorageFactory.get_by_name` makes a new instance. -/
namespace Benji
open Lib

variable {κ : Type}

/-- There is no data when only the metadata was asked for. -/
abbrev ReadResult (κ : Type) := Except Error (Option Bytes × Metadata κ)

structure ReadJob (κ : Type) where
  block : Block κ
  metadataOnly : Bool
  /-- `none` until a thread of the storage has done the job. -/
  result : Option (ReadResult κ) := none

structure StorageInstance (κ : Type) where
  storage : ℕ
  futures : List (ReadJob κ) := []
  useReadCache : Bool := true

structure ReadCache (κ : Type) where
  metadata : BlockUid → Option (Metadata κ)
  data : BlockUid → Option Bytes

/-- With `metadata_only` no transform is undone, so the data cannot fail. -/
def readMetadata (objects : Objects κ) (storage : ℕ) (b : Block κ) : Except Error (Metadata κ) :=
  (readObject (fun s u => (objects s u).map fun o => { o with data := .ok [] }) storage b).map
    Prod.snd

namespace ReadJob

def key (job : ReadJob κ) : BlockUid := job.block.uid.getD ⟨0, 0⟩

/-- `StorageBase._read`. -/
def readStorage (objects : Objects κ) (storage : ℕ) (job : ReadJob κ) : ReadResult κ :=
  if job.metadataOnly then (readMetadata objects storage job.block).map fun m => (none, m)
  else (readObject objects storage job.block).map fun r => (some r.1, r.2)

/-- Empty data in the cache counts as no data. -/
def readCache (c : ReadCache κ) (job : ReadJob κ) : Option (Option Bytes × Metadata κ) :=
  match c.metadata job.key, job.metadataOnly with
  | none, _ => none
  | some m, true => some (none, m)
  | some m, false => match c.data job.key with
    | none => none
    | some data => if data = [] then none else some (some data, m)

def putCache (c : ReadCache κ) (job : ReadJob κ) : ReadResult κ → ReadCache κ
  | .error _ => c
  | .ok (none, m) => { c with metadata := Function.update c.metadata job.key (some m) }
  | .ok (some data, m) =>
    { metadata := Function.update c.metadata job.key (some m)
      data := Function.update c.data job.key (some data) }

end ReadJob

/-- A process that scrubs a version. -/
structure Scrub (κ : Type) where
  world : World κ
  /-- `none` where no cache is configured. -/
  cache : Option (ReadCache κ) := none
  instances : List (StorageInstance κ) := []
  /-- The blocks read by the threads, from the storage and from the cache. -/
  storageReads : List (Block κ) := []
  cacheReads : List (Block κ) := []
  /-- The blocks whose results the main loop has taken. -/
  consumed : List (Block κ) := []
  history : Option (List (ℕ × BlockUid)) := none
  readJobs : ℕ := 0
  doneReadJobs : ℕ := 0
  valid : Bool := true
  affectedVersionUids : List String := []

abbrev ScrubAction (κ α : Type) := Proc Error (Scrub κ) α

namespace Scrub

def onWorld {α : Type} (p : Action κ α) : ScrubAction κ α :=
  Proc.onPart Scrub.world (fun s w => { s with world := w }) p

/-- `StorageFactory.get_by_name`. -/
def getByName (storage : ℕ) : ScrubAction κ ℕ := fun s =>
  some (.ok s.instances.length, { s with instances := s.instances ++ [{ storage := storage }] })

def futures (s : Scrub κ) (i : ℕ) : List (ReadJob κ) :=
  ((s.instances[i]?).map StorageInstance.futures).getD []

/-- The old setting, which `use_read_cache` gives back. -/
def usesReadCache (s : Scrub κ) (i : ℕ) : Bool :=
  ((s.instances[i]?).map StorageInstance.useReadCache).getD false

def modifyInstance (i : ℕ) (f : StorageInstance κ → StorageInstance κ) (s : Scrub κ) : Scrub κ :=
  { s with instances := s.instances.modify i f }

def useReadCache (i : ℕ) (enable : Bool) : Scrub κ → Scrub κ :=
  modifyInstance i fun inst => { inst with useReadCache := enable }

def readBlockAsync (i : ℕ) (block : Block κ) (metadataOnly : Bool) : Scrub κ → Scrub κ :=
  modifyInstance i fun inst => { inst with
    futures := inst.futures ++ [{ block := block, metadataOnly := metadataOnly }] }

def setResult (i k : ℕ) (r : ReadResult κ) : Scrub κ → Scrub κ :=
  modifyInstance i fun inst => { inst with
    futures := inst.futures.modify k fun job => { job with result := some r } }

/-- The cached answer to a job, unless the instance bypasses the cache. -/
def cached (s : Scrub κ) (inst : StorageInstance κ) (job : ReadJob κ) :
    Option (Option Bytes × Metadata κ) :=
  if inst.useReadCache then s.cache.bind job.readCache else none

/-- A thread does job `k` of instance `i`. What it read from the storage is put into the cache
whatever `useReadCache` says. -/
def doJob (inst : StorageInstance κ) (job : ReadJob κ) (i k : ℕ) (s : Scrub κ) : Scrub κ :=
  match s.cached inst job with
  | some r => setResult i k (.ok r) { s with cacheReads := s.cacheReads ++ [job.block] }
  | none =>
    setResult i k (job.readStorage s.world.objects inst.storage)
      { s with
        storageReads := s.storageReads ++ [job.block]
        cache := s.cache.map fun c =>
          job.putCache c (job.readStorage s.world.objects inst.storage) }

/-- Jobs that do not exist, or are done, are left alone. -/
def runJob (s : Scrub κ) (at_ : ℕ × ℕ) : Scrub κ :=
  match s.instances[at_.1]? with
  | none => s
  | some inst => match inst.futures[at_.2]? with
    | none => s
    | some job => match job.result with
      | some _ => s
      | none => s.doJob inst job at_.1 at_.2

def work (jobs : List (ℕ × ℕ)) (s : Scrub κ) : Scrub κ := jobs.foldl runJob s

/-- What happens before the main loop takes its next result, and which one it takes. -/
structure Round where
  work : List (ℕ × ℕ)
  pick : ℕ

/-- The next entry of `read_get_completed`, done at the latest when it is taken. -/
def takeCompleted (i : ℕ) (round : Round) : ScrubAction κ (Block κ × ReadResult κ) := fun s =>
  let s := s.work round.work
  let k := round.pick % (s.futures i).length
  let s := s.runJob (i, k)
  match (s.futures i)[k]? with
  | none => none
  | some job => match job.result with
    | none => none
    | some r => some (.ok (job.block, r),
        { s.modifyInstance i fun inst => { inst with futures := inst.futures.eraseIdx k } with
          consumed := s.consumed ++ [job.block]
          doneReadJobs := s.doneReadJobs + 1 })

/-- `for entry in storage.read_get_completed()`: until the instance has no futures left. -/
def forCompleted (i : ℕ) (body : Block κ × ReadResult κ → ScrubAction κ Unit) :
    List Round → ScrubAction κ Unit
  | [] => fun s => if s.futures i = [] then some (.ok (), s) else none
  | round :: rounds => fun s =>
    if s.futures i = [] then some (.ok (), s)
    else Proc.andThen (takeCompleted i round)
      (fun entry => Proc.andThen (body entry) fun _ => forCompleted i body rounds) s

/-- The loop over an instance to which nothing was submitted ends at once. -/
theorem forCompleted_of_nil {i : ℕ} {body : Block κ × ReadResult κ → ScrubAction κ Unit}
    {rounds : List Round} {s : Scrub κ} (h : s.futures i = []) :
    forCompleted i body rounds s = some (.ok (), s) := by
  cases rounds with
  | nil => exact if_pos h
  | cons round rounds => exact if_pos h

section Frame
variable {s t u : Scrub κ} {i j k : ℕ}

theorem futures_modifyInstance_of_ne {f : StorageInstance κ → StorageInstance κ} (h : i ≠ j) :
    (s.modifyInstance i f).futures j = s.futures j := by
  simp only [futures, modifyInstance, List.getElem?_modify_ne _ _ h]

theorem futures_modifyInstance_self {f : StorageInstance κ → StorageInstance κ}
    {inst : StorageInstance κ} (h : s.instances[i]? = some inst) :
    (s.modifyInstance i f).futures i = (f inst).futures := by
  simp only [futures, modifyInstance, List.getElem?_modify_eq, h, Option.map_eq_map,
    Option.map_some, Option.getD_some]

theorem futures_modifyInstance_none {f : StorageInstance κ → StorageInstance κ}
    (h : s.instances[i]? = none) : (s.modifyInstance i f).futures i = [] := by
  simp only [futures, modifyInstance, List.getElem?_modify_eq, h, Option.map_eq_map,
    Option.map_none, Option.getD_none]

/-- A change to an instance that keeps the number of its futures. -/
theorem length_futures_modifyInstance {f : StorageInstance κ → StorageInstance κ}
    (hf : ∀ inst, (f inst).futures.length = inst.futures.length) :
    ((s.modifyInstance i f).futures j).length = (s.futures j).length := by
  by_cases h : i = j
  · subst h
    cases hi : s.instances[i]? with
    | none => rw [futures_modifyInstance_none hi, futures, hi, Option.map_none, Option.getD_none]
    | some inst =>
      rw [futures_modifyInstance_self hi, hf, futures, hi, Option.map_some, Option.getD_some]
  · rw [futures_modifyInstance_of_ne h]

/-- What the threads of the storages do not change. -/
structure UpToReads (s t : Scrub κ) : Prop where
  world : t.world = s.world
  futures : ∀ j, (t.futures j).length = (s.futures j).length
  instances : t.instances.length = s.instances.length
  consumed : t.consumed = s.consumed
  history : t.history = s.history
  readJobs : t.readJobs = s.readJobs
  doneReadJobs : t.doneReadJobs = s.doneReadJobs
  valid : t.valid = s.valid
  affected : t.affectedVersionUids = s.affectedVersionUids

theorem UpToReads.refl (s : Scrub κ) : s.UpToReads s :=
  ⟨rfl, fun _ => rfl, rfl, rfl, rfl, rfl, rfl, rfl, rfl⟩

theorem UpToReads.trans (h : s.UpToReads t) (k : t.UpToReads u) : s.UpToReads u :=
  ⟨k.world.trans h.world, fun j => (k.futures j).trans (h.futures j),
    k.instances.trans h.instances, k.consumed.trans h.consumed, k.history.trans h.history,
    k.readJobs.trans h.readJobs, k.doneReadJobs.trans h.doneReadJobs, k.valid.trans h.valid,
    k.affected.trans h.affected⟩

theorem UpToReads.futures_nil (h : s.UpToReads t) (hs : s.futures j = []) : t.futures j = [] := by
  rw [← List.length_eq_zero_iff, h.futures, hs, List.length_nil]

theorem UpToReads.of_modifyInstance {f : StorageInstance κ → StorageInstance κ}
    (hf : ∀ inst, (f inst).futures.length = inst.futures.length) :
    s.UpToReads (s.modifyInstance i f) :=
  ⟨rfl, fun _ => length_futures_modifyInstance hf, List.length_modify _ _ _, rfl, rfl, rfl, rfl,
    rfl, rfl⟩

theorem UpToReads.of_useReadCache (enable : Bool) : s.UpToReads (s.useReadCache i enable) :=
  .of_modifyInstance fun _ => rfl

private theorem upToReads_setResult (r : ReadResult κ) : s.UpToReads (s.setResult i k r) :=
  .of_modifyInstance fun _ => List.length_modify _ _ _

theorem UpToReads.of_doJob (s : Scrub κ) (inst : StorageInstance κ) (job : ReadJob κ)
    (i k : ℕ) : s.UpToReads (s.doJob inst job i k) := by
  have hlog (c : Option (ReadCache κ)) (l m : List (Block κ)) : s.UpToReads
      { s with cache := c, storageReads := l, cacheReads := m } :=
    ⟨rfl, fun _ => rfl, rfl, rfl, rfl, rfl, rfl, rfl, rfl⟩
  unfold doJob
  split
  · exact (hlog _ _ _).trans (upToReads_setResult _)
  · exact (hlog _ _ _).trans (upToReads_setResult _)

theorem UpToReads.of_runJob (s : Scrub κ) (p : ℕ × ℕ) : s.UpToReads (s.runJob p) := by
  unfold runJob
  cases s.instances[p.1]? with
  | none => exact .refl s
  | some inst =>
    dsimp only
    cases inst.futures[p.2]? with
    | none => exact .refl s
    | some job =>
      dsimp only
      cases job.result with
      | some r => exact .refl s
      | none =>
        exact .of_doJob s inst job _ _

/-- However far the threads get, the main loop finds the same jobs. -/
theorem UpToReads.of_work (jobs : List (ℕ × ℕ)) (s : Scrub κ) : s.UpToReads (s.work jobs) := by
  induction jobs generalizing s with
  | nil => exact .refl s
  | cons p jobs ih => exact (UpToReads.of_runJob s p).trans (ih (s.runJob p))

end Frame

end Scrub
end Benji
