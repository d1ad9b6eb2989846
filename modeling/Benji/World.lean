import Benji.Lib.Proc
import Benji.Database.Writes

/-! The state a server process works on: its database session, what the session has
committed, and the objects in the storages. The locks are rows of the database. -/
namespace Benji
open Lib

/-- The exceptions, under the names of their classes and with their messages. -/
inductive Error where
  | usageError (message : String)
  | inputDataError (message : String)
  | internalError (message : String)
  | alreadyLocked (message : String)
  | scrubbingError (message : String)
  | keyError (message : String)
  | valueError (message : String)
  | eofError (message : String)
  | osError (message : String)
  | fileExistsError (message : String)
  | fileNotFoundError
  | integrityError
  | typeError
  | attributeError (message : String)
  | permissionError (message : String)
  | assertionError
  | invalidBlock (message : String) (idx : ℕ) (uid : Option BlockUid)
  | blockNotFound (message : String) (uid : BlockUid)
  | other (message : String)
  deriving DecidableEq, Repr

/-- The metadata companion of an object, as far as reading a block looks at it. -/
structure Metadata (κ : Type) where
  objectSize : ℕ
  size : ℕ
  checksum : Option κ
  deriving DecidableEq, Repr

/-- The companion object with the metadata; it is written after the data. -/
inductive MetadataObject (κ : Type) where
  | missing
  | invalid
  | decoded (metadata : Metadata κ)
  deriving DecidableEq, Repr

structure StoredObject (κ : Type) where
  /-- The length of the object itself, as `object_size` records it. -/
  length : ℕ
  /-- What undoing the transforms makes of it. -/
  data : Except Error Bytes
  metadata : MetadataObject κ

abbrev Objects (κ : Type) := ℕ → BlockUid → Option (StoredObject κ)

def Objects.put {κ : Type} (objects : Objects κ) (storage : ℕ) (uid : BlockUid)
    (o : Option (StoredObject κ)) : Objects κ := fun s u =>
  if s = storage ∧ u = uid then o else objects s u

@[simp] theorem Objects.put_self {κ : Type} {objects : Objects κ} {storage : ℕ} {uid : BlockUid}
    {o : Option (StoredObject κ)} : objects.put storage uid o storage uid = o := by
  simp [Objects.put]

theorem Objects.put_of_ne {κ : Type} {objects : Objects κ} {storage s : ℕ} {uid u : BlockUid}
    {o : Option (StoredObject κ)} (h : (s, u) ≠ (storage, uid)) :
    objects.put storage uid o s u = objects s u := by
  rw [Objects.put, if_neg]
  intro he
  exact h (by rw [he.1, he.2])

structure World (κ : Type) where
  /-- The rows as this session sees them, its own pending changes included. -/
  db : Database κ
  committed : Database κ
  objects : Objects κ
  /-- The metadata backups of versions, by storage and version uid. -/
  versionObjects : ℕ → String → Option (Version × List (Block κ))

/-- No versions and no locks. -/
def emptyWorld : World Unit where
  db := ⟨.empty, .empty, .empty, .empty⟩
  committed := ⟨.empty, .empty, .empty, .empty⟩
  objects := fun _ _ => none
  versionObjects := fun _ _ => none

abbrev Action (κ α : Type) := Proc Error (World κ) α

variable {κ : Type}

def jobsMessage (kind : String) (submitted completed : ℕ) : Error :=
  .internalError (s!"Number of submitted and completed {kind} jobs inconsistent " ++
    s!"(submitted: {submitted}, completed {completed}).")

namespace World

def mapDb (w : World κ) (f : Database κ → Database κ) : World κ := { w with db := f w.db }

def setBlocks (w : World κ) (t : BlockTable κ) : World κ :=
  w.mapDb fun db => { db with blocks := t }

def commit (w : World κ) : World κ := { w with committed := w.db }

def rollback (w : World κ) : World κ := { w with db := w.committed }

/-- `_timed_commit`: whether the interval has run out is up to the clock. -/
def timedCommit (due : Bool) (w : World κ) : World κ := if due then w.commit else w

@[simp] theorem commit_db (w : World κ) : w.commit.db = w.db := rfl

@[simp] theorem commit_objects (w : World κ) : w.commit.objects = w.objects := rfl

@[simp] theorem mapDb_objects (w : World κ) (f : Database κ → Database κ) :
    (w.mapDb f).objects = w.objects := rfl

@[simp] theorem mapDb_db (w : World κ) (f : Database κ → Database κ) :
    (w.mapDb f).db = f w.db := rfl

@[simp] theorem timedCommit_db (due : Bool) (w : World κ) : (w.timedCommit due).db = w.db := by
  unfold timedCommit
  split <;> rfl

@[simp] theorem timedCommit_objects (due : Bool) (w : World κ) :
    (w.timedCommit due).objects = w.objects := by
  unfold timedCommit
  split <;> rfl

end World

namespace Locking

variable {me : Process} {lockName reason : String} {lockedMsg : Option String}
  {overrideLock : Bool} {w u : World κ}

def isLocked (lockName : String) (w : World κ) : Bool := (w.db.locks.find? lockName).isSome

def heldBy (me : Process) (lockName : String) (w : World κ) : Bool :=
  match w.db.locks.find? lockName with
  | some l => l.owner = me
  | none => false

def putLock (l : Lock) (w : World κ) : World κ :=
  (w.mapDb fun db => { db with locks := db.locks.put l }).commit

def eraseLock (lockName : String) (w : World κ) : World κ :=
  (w.mapDb fun db => { db with locks := db.locks.erase lockName }).commit

def rollbackAndRaise {α : Type} (e : Error) : Action κ α := do
  Proc.modify World.rollback
  Proc.raise e

def lock (me : Process) (lockName reason : String) (lockedMsg : Option String)
    (overrideLock : Bool) : Action κ Unit := fun w =>
  if heldBy me lockName w then
    rollbackAndRaise (.internalError s!"Attempt to acquire lock {lockName} twice.") w
  else if !overrideLock && isLocked lockName w then
    rollbackAndRaise
      (.alreadyLocked (lockedMsg.getD s!"Lock {lockName} is already taken.")) w
  else Proc.modify (putLock ⟨lockName, me, reason⟩) w

def notHeld (lockName : String) : Error :=
  .internalError s!"Lock {lockName} isn't held by this instance or doesn't exist."

def updateLock (me : Process) (lockName reason : String) : Action κ Unit := fun w =>
  if heldBy me lockName w then Proc.modify (putLock ⟨lockName, me, reason⟩) w
  else rollbackAndRaise (notHeld lockName) w

/-- Releasing a lock commits whatever else the session has pending. -/
def unlock (me : Process) (lockName : String) : Action κ Unit := fun w =>
  if heldBy me lockName w then Proc.modify (eraseLock lockName) w
  else rollbackAndRaise (notHeld lockName) w

def versionLockName (versionUid : String) : String := s!"Version {versionUid}"

def lockVersion (me : Process) (versionUid reason : String) : Action κ Unit :=
  lock me (versionLockName versionUid) reason
    (some s!"Version {versionUid} is already locked.") false

def isVersionLocked (versionUid : String) (w : World κ) : Bool :=
  isLocked (versionLockName versionUid) w

def updateVersionLock (me : Process) (versionUid reason : String) : Action κ Unit :=
  updateLock me (versionLockName versionUid) reason

def unlockVersion (me : Process) (versionUid : String) : Action κ Unit :=
  unlock me (versionLockName versionUid)

@[simp] theorem returns_rollbackAndRaise {α : Type} {a : α} {e : Error} :
    ¬ (rollbackAndRaise e : Action κ α).Returns w a u := by
  simp [rollbackAndRaise]

theorem returns_lock : (lock me lockName reason lockedMsg overrideLock).Returns w () u ↔
    heldBy me lockName w = false ∧ (overrideLock = true ∨ isLocked lockName w = false) ∧
      putLock ⟨lockName, me, reason⟩ w = u := by
  have hr := fun e => returns_rollbackAndRaise (w := w) (u := u) (a := ()) (e := e)
  have hm := Proc.returns_modify (ε := Error) (s := w) (t := u) (a := ())
    (f := putLock ⟨lockName, me, reason⟩)
  unfold Proc.Returns at hr hm ⊢
  unfold lock
  split_ifs with hh ho
  · simp [hr, hh]
  · have hb : overrideLock = false ∧ isLocked lockName w = true := by simpa using ho
    simp [hr, hb]
  · have hb : overrideLock = true ∨ isLocked lockName w = false := by
      cases overrideLock <;> simp_all
    rw [hm]
    simp [hh, hb]

theorem returns_updateLock : (updateLock me lockName reason).Returns w () u ↔
    heldBy me lockName w = true ∧ putLock ⟨lockName, me, reason⟩ w = u := by
  have hr := returns_rollbackAndRaise (w := w) (u := u) (a := ()) (e := notHeld lockName)
  unfold Proc.Returns at hr ⊢
  unfold updateLock
  split_ifs with hh
  · simp [Proc.modify, hh]
  · simp [hr, hh]

theorem returns_unlock : (unlock me lockName).Returns w () u ↔
    heldBy me lockName w = true ∧ eraseLock lockName w = u := by
  have hr := returns_rollbackAndRaise (w := w) (u := u) (a := ()) (e := notHeld lockName)
  unfold Proc.Returns at hr ⊢
  unfold unlock
  split_ifs with hh
  · simp [Proc.modify, hh]
  · simp [hr, hh]

section Keeps
variable {I : World κ → Prop}

theorem keeps_rollbackAndRaise {α : Type} {e : Error} (hr : ∀ w, I w → I w.rollback) :
    (rollbackAndRaise e : Action κ α).Keeps I :=
  (Proc.Keeps.modify hr).bind fun _ => Proc.Keeps.raise

theorem keeps_unlock (hr : ∀ w, I w → I w.rollback)
    (he : ∀ w, heldBy me lockName w = true → I w → I (eraseLock lockName w)) :
    (unlock me lockName).Keeps I := by
  intro w r u h hw
  unfold unlock at h
  split_ifs at h with hh
  · cases h
    exact he w hh hw
  · exact keeps_rollbackAndRaise hr h hw

end Keeps

theorem heldBy_putLock : heldBy me lockName (putLock ⟨lockName, me, reason⟩ w) = true := by
  have h : (w.db.locks.put ⟨lockName, me, reason⟩).find? lockName = some ⟨lockName, me, reason⟩ :=
    Table.find?_put_self
  simp [heldBy, putLock, h]

end Locking

/-- `u` differs from `w` in its locks at most, and in what is committed. -/
structure World.UpToLocks (w u : World κ) : Prop where
  versions : u.db.versions = w.db.versions
  blocks : u.db.blocks = w.db.blocks
  deletedBlocks : u.db.deletedBlocks = w.db.deletedBlocks
  objects : u.objects = w.objects
  versionObjects : u.versionObjects = w.versionObjects

namespace World.UpToLocks
variable {w u x : World κ}

theorem refl (w : World κ) : w.UpToLocks w := ⟨rfl, rfl, rfl, rfl, rfl⟩

theorem trans (h : w.UpToLocks u) (k : u.UpToLocks x) : w.UpToLocks x :=
  ⟨k.versions.trans h.versions, k.blocks.trans h.blocks, k.deletedBlocks.trans h.deletedBlocks,
    k.objects.trans h.objects, k.versionObjects.trans h.versionObjects⟩

theorem of_commit (w : World κ) : w.UpToLocks w.commit := ⟨rfl, rfl, rfl, rfl, rfl⟩

theorem of_timedCommit (w : World κ) (due : Bool) : w.UpToLocks (w.timedCommit due) := by
  unfold timedCommit
  split
  · exact of_commit w
  · exact refl w

/-- The block table may be replaced before or after a commit. -/
theorem setBlocks_timedCommit (w : World κ) (due : Bool) (t t' : BlockTable κ) :
    (w.setBlocks t').UpToLocks (((w.setBlocks t).timedCommit due).setBlocks t') := by
  unfold timedCommit
  split
  all_goals exact ⟨rfl, rfl, rfl, rfl, rfl⟩

theorem of_putLock (w : World κ) (l : Lock) : w.UpToLocks (Locking.putLock l w) :=
  ⟨rfl, rfl, rfl, rfl, rfl⟩

theorem of_eraseLock (w : World κ) (lockName : String) :
    w.UpToLocks (Locking.eraseLock lockName w) := ⟨rfl, rfl, rfl, rfl, rfl⟩

theorem of_lockVersion {me : Process} {versionUid reason : String}
    (h : (Locking.lockVersion me versionUid reason).Returns w () u) : w.UpToLocks u := by
  obtain ⟨-, -, rfl⟩ := Locking.returns_lock.mp h
  exact of_putLock w _

theorem of_updateVersionLock {me : Process} {versionUid reason : String}
    (h : (Locking.updateVersionLock me versionUid reason).Returns w () u) : w.UpToLocks u := by
  obtain ⟨-, rfl⟩ := Locking.returns_updateLock.mp h
  exact of_putLock w _

theorem of_unlockVersion {me : Process} {versionUid : String}
    (h : (Locking.unlockVersion me versionUid).Returns w () u) : w.UpToLocks u := by
  obtain ⟨-, rfl⟩ := Locking.returns_unlock.mp h
  exact of_eraseLock w _

end World.UpToLocks
end Benji
