import Benji.Backup.Locks
import Benji.Lib.Triple

/-! The operations on the metadata of several versions: all of them are locked before the first
one is worked on, and every lock that was taken is released whatever happens. -/
namespace Benji
open Lib Locking
open Proc (Triple)

variable {κ : Type}

/-- An operation with its local variable `locked_version_uids`. -/
abbrev ManyAction (κ α : Type) := Proc Error (World κ × List String) α

namespace Many

def onWorld {α : Type} (p : Action κ α) : ManyAction κ α :=
  Proc.onPart Prod.fst (fun s w => (w, s.2)) p

/-- `Locking.lock_version(..); locked_version_uids.append(..)`. -/
def lockOne (me : Process) (reason versionUid : String) : ManyAction κ Unit := do
  onWorld (lockVersion me versionUid reason)
  Proc.modify fun s => (s.1, s.2 ++ [versionUid])

/-- `for version_uid in locked_version_uids: Locking.unlock_version(version_uid)`. -/
def unlockAll (me : Process) : ManyAction κ Unit := do
  let s ← Proc.get
  Proc.forEach (fun versionUid => onWorld (unlockVersion me versionUid)) s.2

/-- The `try` and its `finally`. -/
def withLocks (me : Process) (reason : String) (versionUids : List String)
    (body : Action κ Unit) : ManyAction κ Unit :=
  Proc.tryFinally
    (do
      Proc.forEach (lockOne me reason) versionUids
      onWorld body)
    (unlockAll me)

end Many

open Many

def withVersionLocks (me : Process) (reason : String) (versionUids : List String)
    (body : Action κ Unit) : Action κ Unit := do
  let _ ← Proc.zoom (fun w => (w, [])) Prod.fst (withLocks me reason versionUids body)
  pure ()

/-- `Version.get_by_uid`. -/
def getVersionByUid (versionUid : String) : Action κ Version := do
  let w ← Proc.get
  Proc.ofOption (w.db.getByUid versionUid) (.keyError s!"Version {versionUid} not found.")

/-- `Benji.metadata_export`; `failure` is what writing to the file raises. -/
def metadataExport (me : Process) (versionUids : List String) (failure : Option Error) :
    Action κ Unit :=
  withVersionLocks me "Exporting version metadata" versionUids do
    Proc.forEach (fun versionUid => do
      let _ ← getVersionByUid versionUid
      pure ()) versionUids
    match failure with
    | some e => Proc.raise e
    | none => pure ()

/-- `Benji.metadata_backup` with locking; `failure` is what writing an object raises. -/
def metadataBackupAll (me : Process) (versionUids : List String)
    (failure : String → Option Error) : Action κ Unit := do
  Proc.forEach (fun versionUid => do
    let _ ← getVersionByUid versionUid
    pure ()) versionUids
  withVersionLocks me "Backing up version metadata" versionUids
    (Proc.forEach (fun versionUid => metadataBackup versionUid (failure versionUid)) versionUids)

/-- `Benji.metadata_restore`; `restoreOne` reads the metadata of a version and imports it. -/
def metadataRestore (me : Process) (versionUids : List String)
    (restoreOne : String → Action κ Unit) : Action κ Unit :=
  withVersionLocks me "Restoring version metadata" versionUids
    (Proc.forEach restoreOne versionUids)

namespace Many
variable {me : Process} {reason : String} {versionUids : List String} {names : Set String}
  {others : Set Lock}

def lockNames (versionUids : List String) : Set String := {n | n ∈ versionUids.map versionLockName}

theorem lockNames_append {versionUid : String} :
    lockNames (versionUids ++ [versionUid]) =
      lockNames versionUids ∪ {versionLockName versionUid} := by
  unfold lockNames
  ext n
  rw [Set.mem_ofPred, List.map_append, List.mem_append, List.map_singleton, List.mem_singleton]
  rfl

/-- The locks held are those held before and those on the list, none of them twice. -/
structure Holding (me : Process) (names : Set String) (others : Set Lock)
    (s : World κ × List String) : Prop where
  holds : s.1.Holds me (names ∪ lockNames s.2) others
  fresh : ∀ versionUid ∈ s.2, versionLockName versionUid ∉ names
  nodup : s.2.Nodup

theorem keeps_lockOne {versionUid : String} :
    (lockOne (κ := κ) me reason versionUid).Keeps (Holding me names others) := by
  intro s r t h hs
  cases r with
  | error e =>
    rcases Proc.raises_bind.mp h with hlock | ⟨_, u, -, hu⟩
    · obtain ⟨w, hw, rfl⟩ := Proc.raises_onPart.mp hlock
      exact ⟨holds_lock.raises hs.holds hw, hs.fresh, hs.nodup⟩
    · exact absurd hu Proc.raises_modify
  | ok _ =>
    obtain ⟨_, u, hlock, hu⟩ := Proc.returns_bind.mp h
    obtain ⟨w, hw, rfl⟩ := Proc.returns_onPart.mp hlock
    obtain rfl := Proc.returns_modify.mp hu
    obtain ⟨hfree, hheld⟩ := holds_lock.returns hs.holds hw
    refine ⟨?_, ?_, ?_⟩
    · rw [lockNames_append, ← Set.union_assoc]
      exact hheld
    · intro uid huid
      rcases List.mem_append.mp huid with huid | huid
      · exact hs.fresh uid huid
      · obtain rfl := List.mem_singleton.mp huid
        exact fun hn => hfree (.inl hn)
    · refine List.nodup_append.mpr ⟨hs.nodup, List.nodup_singleton _, ?_⟩
      rintro uid huid _ hmem rfl
      obtain rfl := List.mem_singleton.mp hmem
      exact hfree (.inr (List.mem_map_of_mem huid))

theorem keeps_body {body : Action κ Unit}
    (h : ∀ locks, body.Keeps fun w => w.HasLocks locks) :
    (onWorld body).Keeps (Holding me names others) := by
  intro s r t hrun hs
  obtain ⟨w, hw, rfl⟩ := Proc.onPart_eq_some.mp hrun
  have hheld : body.Keeps fun w => w.Holds me (names ∪ lockNames s.2) others :=
    World.Holds.keeps h
  exact ⟨hheld hw hs.holds, hs.fresh, hs.nodup⟩

theorem lockNames_cons_sdiff {versionUid : String} (hnew : versionUid ∉ versionUids)
    (hfresh : versionLockName versionUid ∉ names) :
    (names ∪ lockNames (versionUid :: versionUids)) \ {versionLockName versionUid} =
      names ∪ lockNames versionUids := by
  have hnot : versionLockName versionUid ∉ names ∪ lockNames versionUids := by
    rintro (hn | hn)
    · exact hfresh hn
    · obtain ⟨uid, huid, heq⟩ := List.mem_map.mp hn
      exact hnew (versionLockName_injective heq ▸ huid)
  have hcons : names ∪ lockNames (versionUid :: versionUids) =
      (names ∪ lockNames versionUids) ∪ {versionLockName versionUid} := by
    rw [Set.union_assoc]
    congr 1
    ext n
    simp [lockNames, eq_comm]
  rw [hcons, Set.union_sdiff_right, Set.sdiff_singleton_eq_self hnot]

/-- Every lock on the list is released, and nothing raises on the way. -/
theorem holds_unlockEach (versionUids : List String) :
    Triple (fun s : World κ × List String => s.1.Holds me (names ∪ lockNames versionUids) others ∧
        versionUids.Nodup ∧ ∀ uid ∈ versionUids, versionLockName uid ∉ names)
      (Proc.forEach (fun uid => onWorld (unlockVersion me uid)) versionUids)
      (fun _ s => s.1.Holds me names others) fun _ _ => False := by
  induction versionUids with
  | nil =>
    refine .pure fun s hs => ?_
    obtain ⟨hheld, -⟩ := hs
    simpa [lockNames] using hheld
  | cons uid uids ih =>
    refine .bind (M := fun _ s => s.1.Holds me (names ∪ lockNames uids) others ∧
      uids.Nodup ∧ ∀ uid ∈ uids, versionLockName uid ∉ names) ?_ fun _ => ih
    have hmem : versionLockName uid ∈ names ∪ lockNames (uid :: uids) := .inr (by simp [lockNames])
    constructor
    · rintro s _ t ⟨hheld, hnodup, hfresh⟩ h
      obtain ⟨w, hw, rfl⟩ := Proc.returns_onPart.mp h
      obtain ⟨hnew, hnodup⟩ := List.nodup_cons.mp hnodup
      have hunlocked := (holds_unlock.returns hheld hw).2
      rw [lockNames_cons_sdiff hnew (hfresh uid List.mem_cons_self)] at hunlocked
      exact ⟨hunlocked, hnodup, fun other hother => hfresh other (List.mem_cons_of_mem _ hother)⟩
    · rintro s e t ⟨hheld, -⟩ h
      obtain ⟨w, hw, rfl⟩ := Proc.raises_onPart.mp h
      exact (holds_unlock.raises hheld hw).1 hmem

theorem holds_unlockAll : Triple (Holding (κ := κ) me names others) (unlockAll me)
    (fun _ s => s.1.Holds me names others) fun _ _ => False := by
  refine Triple.get_bind fun s hs => (holds_unlockEach s.2).pre ?_
  rintro t rfl
  exact ⟨hs.holds, hs.nodup, hs.fresh⟩

theorem keeps_loop {body : Action κ Unit}
    (hbody : ∀ locks, body.Keeps fun w => w.HasLocks locks) :
    (Proc.forEach (lockOne me reason) versionUids >>= fun _ => onWorld body).Keeps
      (Holding me names others) :=
  (Proc.Keeps.forEach fun _ _ => keeps_lockOne).bind fun _ => keeps_body hbody

/-- However the body ends, the locks are those held before. -/
theorem holds_withLocks {body : Action κ Unit}
    (hbody : ∀ locks, body.Keeps fun w => w.HasLocks locks) :
    Triple (Holding me names others) (withLocks me reason versionUids body)
      (fun _ s => s.1.Holds me names others) fun _ s => s.1.Holds me names others := by
  have hunlock : Triple (Holding (κ := κ) me names others) (unlockAll me)
      (fun _ s => s.1.Holds me names others) fun _ s => s.1.Holds me names others :=
    holds_unlockAll.mono (fun _ h => h) (fun _ _ h => h) fun _ _ h => h.elim
  exact (Triple.of_keeps (keeps_loop hbody)).tryFinally (fun _ => hunlock) fun _ => hunlock

end Many

theorem holds_withVersionLocks {me : Process} {reason : String} {versionUids : List String}
    {names : Set String} {others : Set Lock} {body : Action κ Unit}
    (hbody : ∀ locks, body.Keeps fun w => w.HasLocks locks) :
    (withVersionLocks me reason versionUids body).Keeps fun w => w.Holds me names others := by
  refine Proc.Keeps.bind ?_ fun _ => Proc.Keeps.pure
  intro w r u h hw
  have hstart : Holding me names others (w, []) :=
    ⟨by simpa [lockNames] using hw, by simp, List.nodup_nil⟩
  cases r with
  | ok a =>
    obtain ⟨hs, rfl⟩ := Proc.returns_zoom.mp h
    exact (holds_withLocks hbody).returns hstart hs
  | error e =>
    obtain ⟨s, hs, rfl⟩ := Proc.raises_zoom.mp h
    exact (holds_withLocks hbody).raises hstart hs

theorem Many.returns_lockEach {me : Process} {reason : String} {versionUids : List String}
    {s t : World κ × List String}
    (h : (Proc.forEach (lockOne me reason) versionUids).Returns s () t) :
    t.2 = s.2 ++ versionUids := by
  induction versionUids generalizing s with
  | nil =>
    obtain rfl := Proc.returns_forEach_nil.mp h
    rw [List.append_nil]
  | cons uid uids ih =>
    obtain ⟨u, hone, hrest⟩ := Proc.returns_forEach_cons.mp h
    obtain ⟨_, x, hlock, hu⟩ := Proc.returns_bind.mp hone
    obtain ⟨w, -, rfl⟩ := Proc.returns_onPart.mp hlock
    obtain rfl := Proc.returns_modify.mp hu
    rw [ih hrest, List.append_assoc, List.singleton_append]

theorem holds_emptyWorld (me : Process) : emptyWorld.Holds me ∅ ∅ := by
  have hown : ∀ n, LockTable.holds .empty me n = true ↔ n ∈ (∅ : Set String) := by
    intro n
    simp [LockTable.holds_iff]
  exact ⟨.empty, ⟨rfl, rfl⟩, hown, by simp⟩

theorem keeps_getVersionByUid {versionUid : String} {I : World κ → Prop} :
    (getVersionByUid (κ := κ) versionUid >>= fun _ => pure ()).Keeps I :=
  (Proc.Keeps.get.bind fun _ => Proc.Keeps.ofOption).bind fun _ => Proc.Keeps.pure

/-- Whatever of a list of versions is exported, backed up or restored, and wherever it raises, the
process ends with the locks it began with, and so do all others. -/
theorem metadata_locks (me : Process) (names : Set String) (others : Set Lock)
    (versionUids : List String) :
    (∀ failure, (metadataExport (κ := κ) me versionUids failure).Keeps
        fun w => w.Holds me names others) ∧
      (∀ failure, (metadataBackupAll (κ := κ) me versionUids failure).Keeps
        fun w => w.Holds me names others) ∧
      ∀ restoreOne : String → Action κ Unit,
        (∀ uid locks, (restoreOne uid).Keeps fun w => w.HasLocks locks) →
          (metadataRestore me versionUids restoreOne).Keeps fun w => w.Holds me names others := by
  refine ⟨fun failure => ?_, fun failure => ?_, fun restoreOne hrestore => ?_⟩
  · refine holds_withVersionLocks fun locks => ?_
    refine (Proc.Keeps.forEach fun _ _ => keeps_getVersionByUid).bind fun _ => ?_
    cases failure with
    | none => exact Proc.Keeps.pure
    | some e => exact Proc.Keeps.raise
  · refine (Proc.Keeps.forEach fun _ _ => keeps_getVersionByUid).bind fun _ => ?_
    exact holds_withVersionLocks fun locks =>
      Proc.Keeps.forEach fun _ _ => keeps_locks_metadataBackup
  · exact holds_withVersionLocks fun locks => Proc.Keeps.forEach fun uid _ => hrestore uid locks

end Benji
