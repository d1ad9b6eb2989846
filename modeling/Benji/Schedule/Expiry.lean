import Benji.World
import Benji.Lib.Steps
import Benji.Schedule.Tick

/-! `delete_expired_versions`: what a run of the task removes, and what is left behind by a
history of runs. -/
namespace Benji.Schedule
open Lib

/-- The columns of a version that its removal looks at; `expiredAt` is a time in Saigon. -/
structure VersionRow where
  uid : String
  isProtected : Bool
  expiredAt : Option ℤ
  deriving DecidableEq, Repr

structure State where
  versions : Table VersionRow.uid
  locks : Table Lock.lockName

/-- What fails when versions are removed, by uid: `Version.remove`, or the removal of the
metadata backup that comes after it. -/
structure Faults where
  remove : String → Option Error
  storage : String → Option Error

abbrev Action (α : Type) := Proc Error State α

def lockVersion (me : Process) (uid reason : String) : Action Unit := do
  let s ← Proc.get
  let lock := s.locks.find? (Locking.versionLockName uid)
  Proc.raiseIf (lock.any fun l => l.owner = me)
    (.internalError s!"Attempt to acquire lock {Locking.versionLockName uid} twice.")
  Proc.raiseIf lock.isSome (.alreadyLocked s!"Version {uid} is already locked.")
  Proc.modify fun s => { s with locks := s.locks.put ⟨Locking.versionLockName uid, me, reason⟩ }

def unlockVersion (me : Process) (uid : String) : Action Unit := do
  let s ← Proc.get
  let lock := s.locks.find? (Locking.versionLockName uid)
  Proc.raiseIf (¬ lock.any fun l => l.owner = me) (Locking.notHeld (Locking.versionLockName uid))
  Proc.modify fun s => { s with locks := s.locks.erase (Locking.versionLockName uid) }

/-- `version.remove()`; a row that is gone cannot be deleted once more. -/
def remove (faults : Faults) (uid : String) : Action Unit :=
  match faults.remove uid with
  | some e => Proc.raise e
  | none => do
    let s ← Proc.get
    Proc.raiseIf (s.versions.find? uid = none) (.other "InvalidRequestError")
    Proc.modify fun s => { s with versions := s.versions.erase uid }

def rmMetadata (faults : Faults) (uid : String) : Action Unit :=
  match faults.storage uid with
  | some e => Proc.raise e
  | none => pure ()

/-- `Benji.rm` with `force`, under the lock of the version. -/
def rm (me : Process) (faults : Faults) (uid : String) : Action Unit := do
  lockVersion me uid "Removing version"
  Proc.tryFinally
    (do
      let s ← Proc.get
      let version ← Proc.ofOption (s.versions.find? uid) (.keyError s!"Version {uid} not found.")
      Proc.raiseIf (version.isProtected = true)
        (.other s!"Version {uid} is protected, will not delete it.")
      remove faults uid
      rmMetadata faults uid)
    (unlockVersion me uid)

/-- One round of the loop; every exception is logged. -/
def removeExpired (me : Process) (faults : Faults) (version : VersionRow) : Action Unit :=
  Proc.tryExcept
    (do
      rm me faults version.uid
      remove faults version.uid)
    fun _ => pure ()

/-- The query: `expired_at` from midnight of today up to midnight of tomorrow. -/
def expiredVersions (utcNow : ℤ) (s : State) : List VersionRow :=
  let now := getLocalTime utcNow / 86400 * 86400
  s.versions.rows.filter fun v => v.expiredAt.any fun e => now ≤ e && e < now + 86400

def deleteExpiredVersions (me : Process) (faults : Faults) (utcNow : ℤ) : Action Unit := do
  let s ← Proc.get
  Proc.forEach (removeExpired me faults) (expiredVersions utcNow s)

/-! ### What a run removes -/

section
variable {me : Process} {faults : Faults} {utcNow : ℤ} {s t : State} {uid : String}
  {v : VersionRow}

/-- The version can be removed: it is neither locked nor protected, and nothing fails. -/
structure Removable (faults : Faults) (s : State) (v : VersionRow) : Prop where
  unlocked : s.locks.find? (Locking.versionLockName v.uid) = none
  unprotected : v.isProtected = false
  no_fault : faults.remove v.uid = none

/-- The state inside `rm`. -/
def locked (me : Process) (uid : String) (s : State) : State :=
  { s with locks := s.locks.put ⟨Locking.versionLockName uid, me, "Removing version"⟩ }

theorem returns_lockVersion (h : s.locks.find? (Locking.versionLockName uid) = none) :
    (lockVersion me uid "Removing version").Returns s () (locked me uid s) := by
  refine Proc.returns_bind.mpr ⟨s, s, Proc.returns_get.mpr ⟨rfl, rfl⟩, ?_⟩
  rw [h]
  refine Proc.returns_bind.mpr ⟨(), s, Proc.returns_raiseIf.mpr ⟨by simp, rfl⟩, ?_⟩
  refine Proc.returns_bind.mpr ⟨(), s, Proc.returns_raiseIf.mpr ⟨by simp, rfl⟩, ?_⟩
  exact Proc.returns_modify.mpr rfl

theorem raises_lockVersion (h : s.locks.find? (Locking.versionLockName uid) ≠ none) :
    ∃ e, (lockVersion me uid "Removing version").Raises s e s := by
  obtain ⟨l, hl⟩ := Option.ne_none_iff_exists'.mp h
  have hget : (Proc.get : Action State).Returns s s s := Proc.returns_get.mpr ⟨rfl, rfl⟩
  by_cases hme : l.owner = me
  · refine ⟨.internalError s!"Attempt to acquire lock {Locking.versionLockName uid} twice.",
      Proc.raises_bind.mpr (.inr ⟨s, s, hget, ?_⟩)⟩
    rw [hl]
    exact Proc.raises_bind.mpr (.inl (Proc.raises_raiseIf.mpr ⟨by simp [hme], rfl, rfl⟩))
  · refine ⟨.alreadyLocked s!"Version {uid} is already locked.",
      Proc.raises_bind.mpr (.inr ⟨s, s, hget, ?_⟩)⟩
    rw [hl]
    refine Proc.raises_bind.mpr (.inr ⟨(), s, Proc.returns_raiseIf.mpr ⟨by simp [hme], rfl⟩, ?_⟩)
    exact Proc.raises_bind.mpr (.inl (Proc.raises_raiseIf.mpr ⟨rfl, rfl, rfl⟩))

/-- The lock is given back, whatever became of the version. -/
theorem returns_unlockVersion (h : s.locks.find? (Locking.versionLockName uid) = none)
    {versions : Table VersionRow.uid} :
    (unlockVersion me uid).Returns { locked me uid s with versions := versions } ()
      { s with versions := versions } := by
  have hfind : (locked me uid s).locks.find? (Locking.versionLockName uid) =
      some ⟨Locking.versionLockName uid, me, "Removing version"⟩ := Table.find?_put_self
  refine Proc.returns_bind.mpr ⟨_, _, Proc.returns_get.mpr ⟨rfl, rfl⟩, ?_⟩
  refine Proc.returns_bind.mpr ⟨(), _, Proc.returns_raiseIf.mpr ⟨?_, rfl⟩, ?_⟩
  · simp [hfind]
  · refine Proc.returns_modify.mpr ?_
    let lock : Lock := ⟨Locking.versionLockName uid, me, "Removing version"⟩
    have herase : (s.locks.put lock).erase lock.lockName = s.locks := Table.erase_put h
    change { s with versions := versions, locks := (s.locks.put lock).erase lock.lockName } = _
    rw [herase]

theorem returns_remove (hfault : faults.remove uid = none) (h : s.versions.find? uid ≠ none) :
    (remove faults uid).Returns s () { s with versions := s.versions.erase uid } := by
  rw [remove, hfault]
  refine Proc.returns_bind.mpr ⟨s, s, Proc.returns_get.mpr ⟨rfl, rfl⟩, ?_⟩
  exact Proc.returns_bind.mpr
    ⟨(), s, Proc.returns_raiseIf.mpr ⟨h, rfl⟩, Proc.returns_modify.mpr rfl⟩

theorem raises_remove (h : faults.remove uid ≠ none ∨ s.versions.find? uid = none) :
    ∃ e, (remove faults uid).Raises s e s := by
  cases hfault : faults.remove uid with
  | some e =>
    rw [remove, hfault]
    exact ⟨e, Proc.raises_raise.mpr ⟨rfl, rfl⟩⟩
  | none =>
    have hnone : s.versions.find? uid = none := by
      cases h with
      | inl h => exact absurd hfault h
      | inr h => exact h
    rw [remove, hfault]
    refine ⟨.other "InvalidRequestError",
      Proc.raises_bind.mpr (.inr ⟨s, s, Proc.returns_get.mpr ⟨rfl, rfl⟩, ?_⟩)⟩
    exact Proc.raises_bind.mpr (.inl (Proc.raises_raiseIf.mpr ⟨hnone, rfl, rfl⟩))

/-- A round of the loop removes its version or changes nothing. -/
theorem returns_removeExpired (hv : v ∈ s.versions) :
    ∃ t, (removeExpired me faults v).Returns s () t ∧ t.locks = s.locks ∧
      ∀ w, w ∈ t.versions ↔ w ∈ s.versions ∧ ¬ (w = v ∧ Removable faults s v) := by
  have hfind : s.versions.find? v.uid = some v := Table.find?_of_mem hv
  have hcaught {p : Action Unit} {u : State} (h : ∃ e, p.Raises s e u) :
      (Proc.tryExcept p fun _ => pure ()).Returns s () u := by
    obtain ⟨e, he⟩ := h
    exact Proc.returns_tryExcept.mpr (.inr ⟨e, u, he, Proc.returns_pure.mpr ⟨rfl, rfl⟩⟩)
  have hkept (h : ∃ e, (rm me faults v.uid).Raises s e s) (hnot : ¬ Removable faults s v) :
      ∃ t, (removeExpired me faults v).Returns s () t ∧ t.locks = s.locks ∧
        ∀ w, w ∈ t.versions ↔ w ∈ s.versions ∧ ¬ (w = v ∧ Removable faults s v) := by
    obtain ⟨e, he⟩ := h
    refine ⟨s, hcaught ⟨e, Proc.raises_bind.mpr (.inl he)⟩, rfl, ?_⟩
    intro w
    simp [hnot]
  by_cases hlock : s.locks.find? (Locking.versionLockName v.uid) = none
  · -- The body of `rm` runs in the state with the lock, and the lock is given back.
    have hbody {p : Action Unit} {e : Error} (hp : p.Raises (locked me v.uid s) e
        (locked me v.uid s)) (hrm : rm me faults v.uid = do
          lockVersion me v.uid "Removing version"
          Proc.tryFinally p (unlockVersion me v.uid)) :
        ∃ e, (rm me faults v.uid).Raises s e s := by
      rw [hrm]
      refine ⟨e, Proc.raises_bind.mpr (.inr ⟨(), _, returns_lockVersion hlock, ?_⟩)⟩
      exact Proc.raises_tryFinally.mpr (.inl ⟨_, hp, returns_unlockVersion hlock⟩)
    have hget : (Proc.get : Action State).Returns (locked me v.uid s) (locked me v.uid s)
        (locked me v.uid s) := Proc.returns_get.mpr ⟨rfl, rfl⟩
    have hfound {e : Error} : (Proc.ofOption ((locked me v.uid s).versions.find? v.uid) e :
        Action VersionRow).Returns (locked me v.uid s) v (locked me v.uid s) :=
      Proc.returns_ofOption.mpr ⟨hfind, rfl⟩
    by_cases hprotected : v.isProtected = true
    · apply hkept
      · refine hbody (e := .other s!"Version {v.uid} is protected, will not delete it.") ?_ rfl
        refine Proc.raises_bind.mpr (.inr ⟨_, _, hget, ?_⟩)
        refine Proc.raises_bind.mpr (.inr ⟨_, _, hfound, ?_⟩)
        exact Proc.raises_bind.mpr (.inl (Proc.raises_raiseIf.mpr ⟨hprotected, rfl, rfl⟩))
      · intro h
        exact absurd hprotected (by simp [h.unprotected])
    · have hpass {e : Error} : (Proc.raiseIf (v.isProtected = true) e : Action Unit).Returns
          (locked me v.uid s) () (locked me v.uid s) :=
        Proc.returns_raiseIf.mpr ⟨hprotected, rfl⟩
      by_cases hfault : faults.remove v.uid = none
      · -- The version is removed; what fails afterwards does not bring it back.
        let gone : State := { s with versions := s.versions.erase v.uid }
        have hremoved : ∀ w, w ∈ gone.versions ↔
            w ∈ s.versions ∧ ¬ (w = v ∧ Removable faults s v) := by
          have hr : Removable faults s v := ⟨hlock, by simpa using hprotected, hfault⟩
          intro w
          simp only [gone, Table.mem_erase, hr, and_true]
          constructor
          · intro h
            exact ⟨h.1, fun he => h.2 (congrArg VersionRow.uid he)⟩
          · intro h
            exact ⟨h.1, fun he => h.2 (Table.eq_of_key_eq h.1 hv he)⟩
        have hrow : (remove faults v.uid).Returns (locked me v.uid s) ()
            { locked me v.uid s with versions := s.versions.erase v.uid } :=
          returns_remove hfault (by rw [locked, hfind]; simp)
        refine ⟨gone, ?_, rfl, hremoved⟩
        apply hcaught
        cases hstorage : faults.storage v.uid with
        | some e =>
          refine ⟨e, Proc.raises_bind.mpr (.inl ?_)⟩
          refine Proc.raises_bind.mpr (.inr ⟨(), _, returns_lockVersion hlock, ?_⟩)
          refine Proc.raises_tryFinally.mpr (.inl ⟨_, ?_, returns_unlockVersion hlock⟩)
          refine Proc.raises_bind.mpr (.inr ⟨_, _, hget, ?_⟩)
          refine Proc.raises_bind.mpr (.inr ⟨_, _, hfound, ?_⟩)
          refine Proc.raises_bind.mpr (.inr ⟨_, _, hpass, ?_⟩)
          refine Proc.raises_bind.mpr (.inr ⟨_, _, hrow, ?_⟩)
          rw [rmMetadata, hstorage]
          exact Proc.raises_raise.mpr ⟨rfl, rfl⟩
        | none =>
          have hrm : (rm me faults v.uid).Returns s () gone := by
            refine Proc.returns_bind.mpr ⟨(), _, returns_lockVersion hlock, ?_⟩
            refine Proc.returns_tryFinally.mpr ⟨_, ?_, returns_unlockVersion hlock⟩
            refine Proc.returns_bind.mpr ⟨_, _, hget, ?_⟩
            refine Proc.returns_bind.mpr ⟨_, _, hfound, ?_⟩
            refine Proc.returns_bind.mpr ⟨_, _, hpass, ?_⟩
            refine Proc.returns_bind.mpr ⟨_, _, hrow, ?_⟩
            rw [rmMetadata, hstorage]
            exact Proc.returns_pure.mpr ⟨rfl, rfl⟩
          have hgone : gone.versions.find? v.uid = none := Table.find?_erase_self
          obtain ⟨e, he⟩ := @raises_remove faults _ _ (.inr hgone)
          exact ⟨e, Proc.raises_bind.mpr (.inr ⟨(), gone, hrm, he⟩)⟩
      · apply hkept
        · obtain ⟨e, he⟩ := raises_remove (s := locked me v.uid s) (.inl hfault)
          refine hbody (e := e) ?_ rfl
          refine Proc.raises_bind.mpr (.inr ⟨_, _, hget, ?_⟩)
          refine Proc.raises_bind.mpr (.inr ⟨_, _, hfound, ?_⟩)
          refine Proc.raises_bind.mpr (.inr ⟨_, _, hpass, ?_⟩)
          exact Proc.raises_bind.mpr (.inl he)
        · intro h
          exact hfault h.no_fault
  · apply hkept
    · obtain ⟨e, he⟩ := @raises_lockVersion me _ _ hlock
      exact ⟨e, Proc.raises_bind.mpr (.inl he)⟩
    · intro h
      exact hlock h.unlocked

/-- The loop removes the versions it goes over that can be removed. -/
theorem returns_forEach_removeExpired {vs : List VersionRow} (hvs : ∀ v ∈ vs, v ∈ s.versions)
    (hn : vs.Nodup) :
    ∃ t, (Proc.forEach (removeExpired me faults) vs).Returns s () t ∧ t.locks = s.locks ∧
      ∀ w, w ∈ t.versions ↔ w ∈ s.versions ∧ ¬ (w ∈ vs ∧ Removable faults s w) := by
  induction vs generalizing s with
  | nil => exact ⟨s, Proc.returns_forEach_nil.mpr rfl, rfl, fun w => by simp⟩
  | cons v vs ih =>
    obtain ⟨hnot, hn⟩ := List.nodup_cons.mp hn
    obtain ⟨u, hu, hlocks, hmem⟩ := @returns_removeExpired me faults s v
      (hvs v List.mem_cons_self)
    have hrest : ∀ w ∈ vs, w ∈ u.versions := by
      intro w hw
      refine (hmem w).mpr ⟨hvs w (List.mem_cons_of_mem _ hw), ?_⟩
      intro h
      exact hnot (h.1 ▸ hw)
    obtain ⟨t, ht, hlocks', hmem'⟩ := ih hrest hn
    have hsame (w : VersionRow) : Removable faults u w ↔ Removable faults s w := by
      constructor
      · intro h
        exact ⟨hlocks ▸ h.unlocked, h.unprotected, h.no_fault⟩
      · intro h
        exact ⟨hlocks ▸ h.unlocked, h.unprotected, h.no_fault⟩
    refine ⟨t, Proc.returns_forEach_cons.mpr ⟨u, hu, ht⟩, hlocks'.trans hlocks, ?_⟩
    intro w
    rw [hmem' w, hmem w, hsame w, List.mem_cons]
    by_cases hw : w = v
    · simp [hw, hnot]
    · simp [hw]

/-- The day of a run, in Saigon. -/
def dayOfRun (utcNow : ℤ) : ℤ := dayOf (getLocalTime utcNow)

/-- The query selects what expires on the day of the run. -/
theorem mem_expiredVersions : v ∈ expiredVersions utcNow s ↔
    v ∈ s.versions ∧ ∃ e, v.expiredAt = some e ∧ dayOf e = dayOfRun utcNow := by
  rw [expiredVersions, List.mem_filter, Table.mem_def]
  apply and_congr_right
  intro _
  cases he : v.expiredAt with
  | none => simp
  | some e =>
    simp only [Option.any_some, Bool.and_eq_true, decide_eq_true_eq, Option.some.injEq,
      exists_eq_left', dayOf, dayOfRun]
    omega

/-- What is gone after a run expired on its day and could be removed. -/
theorem deleteExpiredVersions_spec :
    ∃ t, (deleteExpiredVersions me faults utcNow).Returns s () t ∧ t.locks = s.locks ∧
      ∀ v, v ∈ t.versions ↔ v ∈ s.versions ∧ ¬ ((∃ e, v.expiredAt = some e ∧
        dayOf e = dayOfRun utcNow) ∧ Removable faults s v) := by
  have hrows : s.versions.rows.Nodup := List.Nodup.of_map _ s.versions.nodup
  obtain ⟨t, ht, hlocks, hmem⟩ := @returns_forEach_removeExpired me faults s
    (expiredVersions utcNow s) (fun v hv => (mem_expiredVersions.mp hv).1)
    (hrows.filter _)
  refine ⟨t, Proc.returns_bind.mpr ⟨s, s, Proc.returns_get.mpr ⟨rfl, rfl⟩, ht⟩, hlocks, ?_⟩
  intro v
  rw [hmem v, mem_expiredVersions]
  constructor
  · intro h
    exact ⟨h.1, fun hr => h.2 ⟨⟨h.1, hr.1⟩, hr.2⟩⟩
  · intro h
    exact ⟨h.1, fun hr => h.2 ⟨hr.1.2, hr.2⟩⟩

/-! ### Histories -/

/-- What happens to the table of versions; `other` is whatever goes on between two runs. -/
inductive Event where
  | deleteExpired (me : Process) (faults : Faults) (utcNow : ℤ)
  | create (version : VersionRow)
  | drop (uid : String)
  | protect (uid : String) (isProtected : Bool)
  | lock (l : Lock)
  | unlock (lockName : String)

/-- `Benji.protect`. -/
def protect (versions : Table VersionRow.uid) (uid : String) (isProtected : Bool) :
    Table VersionRow.uid :=
  versions.update (fun v => { v with isProtected := if v.uid = uid then isProtected else
    v.isProtected }) fun _ => rfl

def step (s : State) : Event → Option State
  | .deleteExpired me faults utcNow =>
    ((deleteExpiredVersions me faults utcNow).outcome s).map Prod.snd
  | .create version => (s.versions.insert? version).map fun t => { s with versions := t }
  | .drop uid => some { s with versions := s.versions.erase uid }
  | .protect uid isProtected =>
    some { s with versions := protect s.versions uid isProtected }
  | .lock l => (s.locks.insert? l).map fun t => { s with locks := t }
  | .unlock lockName => some { s with locks := s.locks.erase lockName }

/-- Neither protected nor locked. -/
structure Free (s : State) (v : VersionRow) : Prop where
  unlocked : s.locks.find? (Locking.versionLockName v.uid) = none
  unprotected : v.isProtected = false

/-- What the task is for: it removes nothing that expires later, and without a failure it
leaves nothing behind that has expired. -/
structure Expires (s t : State) (faults : Faults) (utcNow : ℤ) : Prop where
  kept : ∀ v ∈ s.versions, v ∉ t.versions → ∀ e, v.expiredAt = some e → dayOf e ≤ dayOfRun utcNow
  gone : (∀ uid, faults.remove uid = none) → ∀ v ∈ t.versions, Free t v →
    ∀ e, v.expiredAt = some e → dayOfRun utcNow < dayOf e

/-- Nothing is stored that could have been removed and expired on a day before. -/
def NoneMissed (s : State) (faults : Faults) (utcNow : ℤ) : Prop :=
  (∀ uid, faults.remove uid = none) → ∀ v ∈ s.versions, Free s v →
    ∀ e, v.expiredAt = some e → dayOfRun utcNow ≤ dayOf e

/-- One run. -/
theorem expires_iff (h : step s (.deleteExpired me faults utcNow) = some t) :
    Expires s t faults utcNow ↔ NoneMissed s faults utcNow := by
  obtain ⟨u, hu, hlocks, hmem⟩ := @deleteExpiredVersions_spec me faults utcNow s
  have hrun : step s (.deleteExpired me faults utcNow) = some u := by
    simp only [step, Proc.outcome, show deleteExpiredVersions me faults utcNow s = _ from hu,
      Option.map_some]
  obtain rfl : u = t := Option.some.inj (hrun.symm.trans h)
  have hfree (v : VersionRow) : Free u v ↔ Free s v := by
    constructor
    · intro hf
      exact ⟨hlocks ▸ hf.unlocked, hf.unprotected⟩
    · intro hf
      exact ⟨hlocks ▸ hf.unlocked, hf.unprotected⟩
  constructor
  · intro hx hfaults v hv hf e he
    by_cases hday : dayOf e = dayOfRun utcNow
    · omega
    · have hstays : v ∈ u.versions := by
        refine (hmem v).mpr ⟨hv, ?_⟩
        intro hr
        obtain ⟨e', he', hday'⟩ := hr.1
        rw [he] at he'
        exact hday (Option.some.inj he' ▸ hday')
      have hlt := hx.gone hfaults v hstays ((hfree v).mpr hf) e he
      omega
  · intro hx
    constructor
    · intro v hv hnot e he
      by_contra hlt
      refine hnot ((hmem v).mpr ⟨hv, ?_⟩)
      intro hr
      obtain ⟨e', he', hday'⟩ := hr.1
      rw [he] at he'
      rw [Option.some.inj he'] at hlt
      omega
    · intro hfaults v hv hf e he
      have hin := (hmem v).mp hv
      have hle := hx hfaults v hin.1 ((hfree v).mp hf) e he
      have hne : dayOf e ≠ dayOfRun utcNow := by
        intro hday
        have hfs := (hfree v).mp hf
        exact hin.2 ⟨⟨e, he, hday⟩, ⟨hfs.unlocked, hfs.unprotected, hfaults v.uid⟩⟩
      omega

/-- A property of every run of the task in a history. -/
def Always (P : State → State → Faults → ℤ → Prop) (s : State) : List Event → Prop
  | [] => True
  | e :: es => ∀ t, step s e = some t →
    (∀ me faults utcNow, e = .deleteExpired me faults utcNow → P s t faults utcNow) ∧
      Always P t es

/-- The task does what it is for in a history exactly where no run comes too late. -/
theorem always_expires_iff (es : List Event) :
    Always Expires s es ↔ Always (fun s _ => NoneMissed s) s es := by
  induction es generalizing s with
  | nil => rfl
  | cons e es ih =>
    simp only [Always]
    apply forall_congr'
    intro t
    apply forall_congr'
    intro ht
    rw [ih]
    apply and_congr_left'
    constructor
    · intro h me faults utcNow he
      subst he
      exact (expires_iff ht).mp (h me faults utcNow rfl)
    · intro h me faults utcNow he
      subst he
      exact (expires_iff ht).mpr (h me faults utcNow rfl)

end

/-- The 1st of January 2024 at one o'clock in the morning. -/
def exampleExpiry : ℤ := 19723 * 86400 + 3600

/-- The 2nd of January 2024, seven o'clock in the morning in Saigon. -/
def exampleRunTime : ℤ := 19724 * 86400

/-- One version that expires on the day before the run. -/
def exampleState : State := ⟨⟨[⟨"v1", false, some exampleExpiry⟩], by decide⟩, .empty⟩

theorem expired_yesterday_kept :
    ¬ ∀ (s : State) (es : List Event), Always Expires s es := by
  intro h
  let faults : Faults := ⟨fun _ => none, fun _ => none⟩
  have hrun := h exampleState [.deleteExpired ⟨"host", "1"⟩ faults exampleRunTime]
  obtain ⟨t, ht, hlocks, hmem⟩ := @deleteExpiredVersions_spec ⟨"host", "1"⟩
    faults exampleRunTime exampleState
  have hstep : step exampleState (.deleteExpired ⟨"host", "1"⟩ faults exampleRunTime) = some t := by
    simp only [step, Proc.outcome,
      show deleteExpiredVersions _ faults exampleRunTime exampleState = _ from ht, Option.map_some]
  have hgone := ((hrun t hstep).1 _ faults exampleRunTime rfl).gone (fun _ => rfl)
    ⟨"v1", false, some exampleExpiry⟩
  have hstays : (⟨"v1", false, some exampleExpiry⟩ : VersionRow) ∈ t.versions := by
    refine (hmem _).mpr ⟨List.mem_singleton.mpr rfl, ?_⟩
    intro hr
    obtain ⟨e, he, hday⟩ := hr.1
    obtain rfl : exampleExpiry = e := Option.some.inj he
    exact absurd hday (by decide)
  have hfree : Free t ⟨"v1", false, some exampleExpiry⟩ := ⟨by rw [hlocks]; rfl, rfl⟩
  exact absurd (hgone hstays hfree exampleExpiry rfl) (by decide)

end Benji.Schedule
