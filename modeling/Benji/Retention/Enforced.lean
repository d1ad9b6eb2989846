import Benji.Retention.Enforce
import Benji.Retention.Later

/-! What enforcing a retention policy removes and what it returns. -/
namespace Benji
open Lib

namespace Locking
variable {κ : Type} {me : Process} {versionUid reason lockName : String} {w u : World κ} {e : Error}

/-- A lock is refused when it is taken, by whomever. -/
theorem raises_lockVersion (h : (lockVersion me versionUid reason).Raises w e u) :
    isVersionLocked versionUid w = true := by
  unfold Proc.Raises lockVersion lock at h
  unfold isVersionLocked
  split_ifs at h with hheld hlocked
  · unfold heldBy at hheld
    unfold isLocked
    cases hfind : w.db.locks.find? (versionLockName versionUid) with
    | none =>
      rw [hfind] at hheld
      cases hheld
    | some l => rfl
  · simpa using hlocked
  · cases h

theorem raises_unlock (h : (unlock me lockName).Raises w e u) : e = notHeld lockName := by
  unfold Proc.Raises unlock at h
  split_ifs at h with hheld
  · cases h
  · have herror : (rollbackAndRaise (notHeld lockName) : Action κ Unit) w =
        some (.error (notHeld lockName), w.rollback) := rfl
    rw [herror] at h
    cases h
    rfl

end Locking

namespace Retention
variable {κ : Type} {A : Attributes κ} {E : Env κ} {F : RetentionFilter}
  {selects : Version → Info → Bool} {dryRun : Bool} {groupLabel : Option String}
  {versionUid : String} {days : ℤ} {v : Version} {c d : Catalog κ} {e : Error}

/-- Where `rm` with `force` succeeds; an incomplete version is no exception. -/
def removable (t : Tables κ) (versionUid : String) : Bool :=
  match t.world.db.getByUid versionUid with
  | some v => !(t.info v.id).isProtected && !Locking.isVersionLocked versionUid t.world
  | none => false

theorem removable_iff {t : Tables κ} : removable t versionUid = true ↔
    ∃ v, t.world.db.getByUid versionUid = some v ∧ (t.info v.id).isProtected = false ∧
      Locking.isVersionLocked versionUid t.world = false := by
  unfold removable
  cases t.world.db.getByUid versionUid <;> simp

/-- Removing a metadata backup fails in no way that is mistaken for a failed removal. -/
def BackupsGo (E : Env κ) : Prop := ∀ v e, E.rmVersion v = .error e → handled e = false

theorem returns_removeBackup (h : (removeBackup E v).Returns c () d) : c = d := by
  unfold removeBackup at h
  split_ifs at h
  · exact (Proc.returns_pure.mp h).2
  · cases hrm : E.rmVersion v with
    | ok a =>
      rw [hrm] at h
      exact (Proc.returns_pure.mp h).2
    | error e =>
      rw [hrm] at h
      cases e
      case fileNotFoundError => exact (Proc.returns_pure.mp h).2
      all_goals exact absurd h Proc.returns_raise

theorem raises_removeBackup (hE : BackupsGo E) (h : (removeBackup E v).Raises c e d) :
    handled e = false := by
  unfold removeBackup at h
  split_ifs at h
  · exact absurd h Proc.raises_pure
  · cases hrm : E.rmVersion v with
    | ok a =>
      rw [hrm] at h
      exact absurd h Proc.raises_pure
    | error e' =>
      have hnot := hE v e' hrm
      rw [hrm] at h
      cases e'
      case fileNotFoundError => exact absurd h Proc.raises_pure
      all_goals
        rw [← (Proc.raises_raise.mp h).1]
        exact hnot

theorem returns_rmLocked (h : (rmLocked E versionUid true days).Returns c () d) :
    ∃ v, c.world.db.getByUid versionUid = some v ∧ (c.info v.id).isProtected = false ∧
      d = removeRow E v c := by
  unfold rmLocked at h
  simp only [Proc.returns_bind, Proc.returns_get, Proc.returns_ofOption, Proc.returns_raiseIf,
    Proc.returns_modify] at h
  obtain ⟨_, _, ⟨rfl, rfl⟩, v, _, ⟨hget, rfl⟩, _, _, ⟨hprotected, rfl⟩, _, _, ⟨-, rfl⟩, _, _,
    ⟨-, rfl⟩, _, _, rfl, hbackup⟩ := h
  exact ⟨v, hget, by simpa using hprotected, (returns_removeBackup hbackup).symm⟩

theorem raises_rmLocked (hE : BackupsGo E) (h : (rmLocked E versionUid true days).Raises c e d)
    (he : handled e = true) : c = d ∧ (c.world.db.getByUid versionUid = none ∨
      ∃ v, c.world.db.getByUid versionUid = some v ∧ (c.info v.id).isProtected = true) := by
  unfold rmLocked at h
  simp only [Proc.raises_bind, Proc.raises_get, Proc.returns_get, Proc.raises_ofOption,
    Proc.returns_ofOption, Proc.raises_raiseIf, Proc.returns_raiseIf, Proc.raises_modify,
    Proc.returns_modify, false_or, Bool.true_eq_false, false_and] at h
  obtain ⟨_, _, ⟨rfl, rfl⟩, ⟨hget, -, rfl⟩ | ⟨v, _, ⟨hget, rfl⟩, ⟨hprotected, -, rfl⟩ |
    ⟨_, _, ⟨-, rfl⟩, _, _, ⟨-, rfl⟩, _, _, ⟨-, rfl⟩, _, _, -, hbackup⟩⟩⟩ := h
  · exact ⟨rfl, .inl hget⟩
  · exact ⟨rfl, .inr ⟨v, hget, hprotected⟩⟩
  · rw [raises_removeBackup hE hbackup] at he
    cases he

theorem returns_rm (h : (rm E versionUid true days).Returns c () d) :
    removable c.toTables versionUid = true ∧ d.turns = c.turns ∧
      ∃ v, v.uid = versionUid ∧ d.removed = c.removed ++ [v] := by
  unfold rm onWorld at h
  simp only [Proc.returns_bind, Proc.returns_onPart, Proc.returns_tryFinally] at h
  obtain ⟨_, _, ⟨w, hlock, rfl⟩, _, hrm, u, -, rfl⟩ := h
  have hsame := World.UpToLocks.of_lockVersion hlock
  obtain ⟨v, hget, hprotected, rfl⟩ := returns_rmLocked hrm
  have hget : w.db.getByUid versionUid = some v := hget
  have hfree := (Locking.returns_lock.mp hlock).2.1
  have hget' : c.world.db.getByUid versionUid = some v := by
    unfold Database.getByUid at hget ⊢
    rw [← hsame.versions]
    exact hget
  have hfree : Locking.isVersionLocked versionUid c.world = false :=
    hfree.resolve_left Bool.false_ne_true
  exact ⟨removable_iff.mpr ⟨v, hget', hprotected, hfree⟩, rfl, v,
    (Database.getByUid_spec hget').2, rfl⟩

theorem raises_rm (hE : BackupsGo E) (h : (rm E versionUid true days).Raises c e d)
    (he : handled e = true) :
    removable c.toTables versionUid = false ∧ d.turns = c.turns ∧ d.removed = c.removed := by
  unfold rm onWorld at h
  rw [Proc.raises_bind] at h
  simp only [Proc.returns_onPart, Proc.raises_onPart, Proc.raises_tryFinally] at h
  obtain ⟨w, hlock, rfl⟩ | ⟨_, _, ⟨w, hlock, rfl⟩, hrest⟩ := h
  · refine ⟨?_, rfl, rfl⟩
    rw [Bool.eq_false_iff, ne_eq, removable_iff]
    rintro ⟨v, -, -, hfree⟩
    rw [Locking.raises_lockVersion hlock] at hfree
    cases hfree
  · have hsame := World.UpToLocks.of_lockVersion hlock
    have hget : w.db.getByUid versionUid = c.world.db.getByUid versionUid := by
      unfold Database.getByUid
      rw [hsame.versions]
    obtain ⟨t, hrm, u, -, rfl⟩ | ⟨_, t, -, u, hunlock, rfl⟩ := hrest
    · obtain ⟨rfl, hnot⟩ := raises_rmLocked hE hrm he
      refine ⟨?_, rfl, rfl⟩
      rw [Bool.eq_false_iff, ne_eq, removable_iff]
      rintro ⟨v, hv, hprotected, -⟩
      have hnot : w.db.getByUid versionUid = none ∨
          ∃ v, w.db.getByUid versionUid = some v ∧ (c.info v.id).isProtected = true := hnot
      rw [hget, hv] at hnot
      cases hnot with
      | inl hnone => cases hnone
      | inr hsome =>
        obtain ⟨v', heq, hprotected'⟩ := hsome
        cases heq
        rw [hprotected] at hprotected'
        cases hprotected'
    · rw [Locking.raises_unlock hunlock] at he
      cases he

theorem returns_removeOne (hE : BackupsGo E) {stays : Bool}
    (h : (removeOne E v).Returns c stays d) :
    stays = removable (E.others c.turns.length c.toTables) v.uid ∧
      d.turns = c.turns ++ [(v, E.others c.turns.length c.toTables)] ∧
      d.removed.map Version.uid = c.removed.map Version.uid ++ if stays then [v.uid] else [] := by
  unfold removeOne at h
  simp only [Proc.returns_bind, Proc.returns_modify, Proc.returns_tryExcept, Proc.returns_pure]
    at h
  obtain ⟨_, _, rfl, ⟨_, _, hrm, rfl, rfl⟩ | ⟨e, t, hraises, hhandler⟩⟩ := h
  · obtain ⟨hremovable, hturns, r, hr, hremoved⟩ := returns_rm hrm
    refine ⟨hremovable.symm, hturns, ?_⟩
    rw [hremoved, List.map_append, List.map_singleton, hr]
    rfl
  · by_cases he : handled e = true
    · rw [if_pos he, Proc.returns_pure] at hhandler
      obtain ⟨rfl, rfl⟩ := hhandler
      have hrm : (rm E v.uid true 0).Raises (takeTurn E v c) e t := by
        rw [Proc.raises_bind] at hraises
        cases hraises with
        | inl hrm => exact hrm
        | inr hpure =>
          obtain ⟨_, _, -, hpure⟩ := hpure
          exact absurd hpure Proc.raises_pure
      obtain ⟨hnot, hturns, hremoved⟩ := raises_rm hE hrm he
      refine ⟨hnot.symm, hturns, ?_⟩
      rw [hremoved]
      exact (List.append_nil _).symm
    · rw [if_neg he] at hhandler
      exact absurd hhandler Proc.returns_raise

/-- The loop keeps in the set it returns what it has removed: the versions that are there at their
turn, not protected and not locked. -/
theorem returns_removeAll (hE : BackupsGo E) {versions stay : List Version}
    (h : (removeAll E versions).Returns c stay d) :
    ∃ turns, d.turns = c.turns ++ turns ∧ turns.map Prod.fst = versions ∧
      stay = (turns.filter fun p => removable p.2 p.1.uid).map Prod.fst ∧
      d.removed.map Version.uid = c.removed.map Version.uid ++ stay.map Version.uid := by
  induction versions generalizing c stay with
  | nil =>
    obtain ⟨rfl, rfl⟩ := Proc.returns_pure.mp h
    exact ⟨[], (List.append_nil _).symm, rfl, rfl, (List.append_nil _).symm⟩
  | cons v versions ih =>
    unfold removeAll at h
    simp only [Proc.returns_bind, Proc.returns_pure] at h
    obtain ⟨stays, b, hone, rest, _, hall, rfl, rfl⟩ := h
    obtain ⟨hstays, hturns, hremoved⟩ := returns_removeOne hE hone
    obtain ⟨turns, hturns', hmap, hrest, hremoved'⟩ := ih hall
    refine ⟨(v, E.others c.turns.length c.toTables) :: turns, ?_, ?_, ?_, ?_⟩
    · rw [hturns', hturns, List.append_assoc]
      rfl
    · rw [List.map_cons, hmap]
    · rw [List.filter_cons, ← hstays, hrest]
      cases stays <;> rfl
    · rw [hremoved', hremoved]
      cases stays <;> simp

/-- What the retention filter dismisses of the versions of each volume. -/
def dismissals (F : RetentionFilter) (selects : Version → Info → Bool) (t : Tables κ) :
    Set Version :=
  {v | v ∈ F.filter (fun u => (t.info u.id).createdAt)
    ((considered selects t).filter fun u => (t.info u.id).volume = (t.info v.id).volume)}

/-- The versions dismissed and those with the same value of the group label. -/
def closure (F : RetentionFilter) (selects : Version → Info → Bool) (groupLabel : Option String)
    (t : Tables κ) : Set Version :=
  {u | u ∈ dismissals F selects t ∨ u ∈ t.world.db.versions ∧ ∃ g, groupLabel = some g ∧
    ∃ v ∈ dismissals F selects t, ∃ value,
      (g, value) ∈ (t.info v.id).labels ∧ (g, value) ∈ (t.info u.id).labels}

/-- Not protected, incomplete, locked or gone. -/
def Deletable (t : Tables κ) (versionUid : String) : Prop :=
  removable t versionUid = true ∧
    ∀ v, t.world.db.getByUid versionUid = some v → v.status.isRemovable = true

/-- The right versions are removed and reported. -/
structure Right (F : RetentionFilter) (selects : Version → Info → Bool) (dryRun : Bool)
    (groupLabel : Option String) (t : Tables κ) (returned : List Version) (d : Catalog κ) :
    Prop where
  reported : ∀ uid, uid ∈ returned.map Version.uid ↔ uid ∈ d.removed.map Version.uid
  dry : dryRun = true → d.removed = []
  once : (d.turns.map Prod.fst).Nodup
  turns : dryRun = false → ∀ v, v ∈ d.turns.map Prod.fst ↔ v ∈ closure F selects groupLabel t
  removed : ∀ uid, uid ∈ d.removed.map Version.uid ↔
    ∃ p ∈ d.turns, p.1.uid = uid ∧ Deletable p.2 uid

def Enforces (A : Attributes κ) (E : Env κ) (F : RetentionFilter)
    (selects : Version → Info → Bool) (dryRun : Bool) (groupLabel : Option String)
    (t : Tables κ) : Prop :=
  ∃ returned d, (enforceRetentionPolicy A E F selects dryRun groupLabel).Returns ⟨t, [], []⟩
    returned d ∧ Right F selects dryRun groupLabel t returned d

theorem mem_considered {t : Tables κ} : v ∈ considered selects t ↔ v ∈ t.world.db.versions ∧
    selects v (t.info v.id) = true ∧ (t.info v.id).isProtected = false ∧
      v.status.isRemovable = true := by
  unfold considered orderBy
  rw [List.mem_filter, (List.perm_insertionSort _ _).mem_iff, List.mem_filter, and_assoc]
  simp [Table.mem_def]

theorem considered_eq_nil {t : Tables κ} : considered selects t = [] ↔
    ∀ v ∈ t.world.db.versions, selects v (t.info v.id) = true →
      (t.info v.id).isProtected = true ∨ v.status = .incomplete := by
  rw [List.eq_nil_iff_forall_not_mem]
  refine forall_congr' fun v => ?_
  rw [mem_considered]
  constructor
  · intro hnot hv hselects
    by_contra hor
    rw [not_or] at hor
    refine hnot ⟨hv, hselects, by simpa using hor.1, ?_⟩
    simpa [VersionStatus.isRemovable] using hor.2
  · rintro hall ⟨hv, hselects, hprotected, hstatus⟩
    cases hall hv hselects with
    | inl h =>
      rw [h] at hprotected
      cases hprotected
    | inr h =>
      rw [h] at hstatus
      cases hstatus

/-- The first version that is considered is asked for a date. -/
theorem toRemove_declared {t : Tables κ} (h : considered selects t ≠ []) :
    ∃ e, toRemove declared F selects groupLabel t = .error e := by
  have hgroups := groups_foldl (fun v : Version => (t.info v.id).volume) (considered selects t)
  obtain ⟨v, hv⟩ := List.exists_mem_of_ne_nil _ h
  have hvolume : v ∈ (considered selects t).filter fun u =>
      (t.info u.id).volume = (t.info v.id).volume :=
    List.mem_filter.mpr ⟨hv, decide_eq_true rfl⟩
  have hentry := (hgroups.mem_iff (t.info v.id).volume _).mpr ⟨rfl, List.ne_nil_of_mem hvolume⟩
  unfold toRemove versionsByVolume
  cases hd : (considered selects t).foldl
      (fun d a => appendAt (t.info a.id).volume a d) [] with
  | nil =>
    rw [hd] at hentry
    cases hentry
  | cons group rest =>
    have hfirst := (hgroups.mem_iff group.1 group.2).mp (hd ▸ List.mem_cons_self)
    cases hversions : group.2 with
    | nil =>
      rw [hversions] at hfirst
      exact absurd hfirst.1.symm hfirst.2
    | cons u us =>
      refine ⟨.attributeError "'Version' object has no attribute 'date'", ?_⟩
      have hfilter : filterVersions (declared (κ := κ)) F t.info group.2 =
          .error (.attributeError "'Version' object has no attribute 'date'") := by
        rw [hversions]
        rfl
      unfold dismissedVersions
      dsimp only
      rw [List.foldlM_cons, hfilter]
      rfl

theorem not_returns_declared {returned : List Version}
    (h : considered selects c.toTables ≠ []) :
    ¬ (enforceRetentionPolicy declared E F selects dryRun groupLabel).Returns c returned d := by
  obtain ⟨e, he⟩ : ∃ e, toRemove declared F selects groupLabel c.toTables = .error e :=
    toRemove_declared h
  unfold enforceRetentionPolicy
  simp [Proc.returns_bind, he]

/-- Enforcement does what it should exactly when there is nothing to consider. -/
theorem enforces_iff (E : Env κ) (F : RetentionFilter) (selects : Version → Info → Bool)
    (dryRun : Bool) (groupLabel : Option String) (t : Tables κ) :
    Enforces declared E F selects dryRun groupLabel t ↔
      ∀ v ∈ t.world.db.versions, selects v (t.info v.id) = true →
        (t.info v.id).isProtected = true ∨ v.status = .incomplete := by
  rw [← considered_eq_nil]
  constructor
  · rintro ⟨returned, d, hreturns, -⟩
    by_contra hne
    exact not_returns_declared (c := ⟨t, [], []⟩) hne hreturns
  · intro hnil
    have hnone : toRemove declared F selects groupLabel t = .ok [] := by
      unfold toRemove
      rw [hnil]
      cases groupLabel <;> rfl
    have hgoes : dismissals F selects t = ∅ := by
      refine Set.eq_empty_of_forall_notMem fun v hv => ?_
      have hv : v ∈ F.filter (fun u => (t.info u.id).createdAt)
          ((considered selects t).filter fun u =>
            (t.info u.id).volume = (t.info v.id).volume) := hv
      rw [hnil] at hv
      have hrest := RetentionFilter.filter_subset hv
      unfold RetentionFilter.rest RetentionFilter.sorted at hrest
      rw [List.filter_nil, List.insertionSort_nil, List.drop_nil] at hrest
      cases hrest
    have hclosure (v : Version) : v ∉ closure F selects groupLabel t := by
      unfold closure
      rw [hgoes]
      simp
    refine ⟨[], ⟨t, [], []⟩, ?_, ?_⟩
    · unfold enforceRetentionPolicy
      rw [Proc.returns_bind]
      refine ⟨_, _, Proc.returns_get.mpr ⟨rfl, rfl⟩, ?_⟩
      rw [hnone]
      cases dryRun <;> exact Proc.returns_pure.mpr ⟨rfl, rfl⟩
    · constructor
      · intro uid
        exact Iff.rfl
      · intro _
        rfl
      · exact .nil
      · intro _ v
        simp [hclosure v]
      · intro uid
        simp

/-- Whatever the attributes are, what is returned has been removed, and nothing else has; it was
neither protected nor locked when its turn came. -/
theorem enforce_reports (hE : BackupsGo E) {t : Tables κ} {returned : List Version}
    (h : (enforceRetentionPolicy A E F selects dryRun groupLabel).Returns ⟨t, [], []⟩ returned d) :
    ∀ uid, (uid ∈ returned.map Version.uid ↔ uid ∈ d.removed.map Version.uid) ∧
      (uid ∈ d.removed.map Version.uid ↔
        ∃ p ∈ d.turns, p.1.uid = uid ∧ removable p.2 uid = true) := by
  intro uid
  unfold enforceRetentionPolicy at h
  rw [Proc.returns_bind] at h
  obtain ⟨c, _, hget, h⟩ := h
  obtain ⟨rfl, rfl⟩ := Proc.returns_get.mp hget
  cases hversions : toRemove A F selects groupLabel t with
  | error e =>
    rw [hversions] at h
    exact absurd h Proc.returns_raise
  | ok versions =>
    rw [hversions] at h
    cases dryRun with
    | true =>
      obtain ⟨rfl, rfl⟩ := Proc.returns_pure.mp h
      simp
    | false =>
      have h : (removeAll E versions >>= fun removed =>
          pure (removed.insertionSort fun v w => v.uid ≤ w.uid)).Returns
          (⟨t, [], []⟩ : Catalog κ) returned d := h
      simp only [Proc.returns_bind, Proc.returns_pure] at h
      obtain ⟨stay, _, hall, rfl, heq⟩ := h
      rw [heq] at hall
      obtain ⟨turns, hturns, -, hstay, hremoved⟩ := returns_removeAll hE hall
      have hturns : d.turns = turns := hturns
      have hremoved : d.removed.map Version.uid = stay.map Version.uid := hremoved
      rw [hremoved, hturns]
      constructor
      · exact ((List.perm_insertionSort _ stay).map _).mem_iff
      · rw [hstay]
        simp only [List.map_map, List.mem_map, List.mem_filter, Function.comp_apply]
        constructor
        · rintro ⟨p, ⟨hp, hremovable⟩, rfl⟩
          exact ⟨p, hp, rfl, hremovable⟩
        · rintro ⟨p, hp, rfl, hremovable⟩
          exact ⟨p, ⟨hp, hremovable⟩, rfl⟩

section Example

def dailyVersion : Version := ⟨1, "V1", ⟨1, "file"⟩, 8, 2, .valid, none⟩

def dailyDatabase : Database Unit where
  versions := ⟨[dailyVersion], by decide⟩
  blocks := .empty
  deletedBlocks := .empty
  locks := .empty

def dailyTables : Tables Unit where
  world := ⟨dailyDatabase, dailyDatabase, fun _ _ => none, fun _ _ => none⟩
  info _ := ⟨"volume", false, 63814914000000000, []⟩

def dailyEnv : Env Unit where
  me := ⟨"host", "1"⟩
  others _ t := t
  rmVersion _ := .ok ()
  date _ := 0
  ageDays _ := 0
  keepMetadataBackup := false

/-- One valid version that is not protected, and a rule that keeps it. -/
theorem enforce_fails_on_valid_version :
    ¬ Enforces declared dailyEnv (RetentionFilter.hourly 63814914000000000) (fun _ _ => true)
      false none dailyTables := by
  rintro ⟨returned, d, hreturns, -⟩
  have hconsidered : considered (fun _ _ => true) dailyTables ≠ [] := by decide
  exact not_returns_declared (c := ⟨dailyTables, [], []⟩) hconsidered hreturns

end Example

end Retention

end Benji
