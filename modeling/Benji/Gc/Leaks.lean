import Benji.Gc.Safety

/-! No object gets lost: whoever does not refer to it has it on a list. -/
namespace Benji.Gc
open Lib State

variable {κ : Type} {s t : State κ} {x : Session κ} {r : Run} {dt : ℕ} {e : Event κ}

/-- An object that was written for a committed row, and is still there, has a row, waits in
`deleted_blocks`, or is being removed by a run in progress. -/
def NoLeak (s : State κ) : Prop :=
  ∀ o ∈ s.objects, o.2 ∈ s.referenced → (∃ b ∈ s.db.blocks, b.uid = some o.2) ∨
    (∃ d ∈ s.db.deletedBlocks, d.storageId = o.1 ∧ d.uid = o.2) ∨ ∃ r ∈ s.runs, o ∈ r.stage.hits

/-- When a removal raises, the run leaves none of its objects behind. -/
def LeavesNothing (s : State κ) (storageId : Option ℕ) (job : ℕ × BlockUid) (gone : Bool) : Prop :=
  ∀ r ∈ s.runs, r.storageId = storageId → ∀ o ∈ r.stage.hits, o ∈ s.objects → gone = true ∧ o = job

/-- No removal that raises leaves objects behind, and no uid drops out of use behind the back of
a run or a backup. -/
def Tidy (s : State κ) : Event κ → Prop
  | .rmFails storageId job gone => LeavesNothing s storageId job gone
  | .dropFalsePositives storageId => FalsePositivesInUse s storageId
  | .commit id => KeepsUids s id
  | _ => True

instance {e : Event κ} : Decidable (Tidy s e) :=
  match e with
  | .rmFails storageId job gone => inferInstanceAs (Decidable (∀ r ∈ s.runs,
      r.storageId = storageId → ∀ o ∈ r.stage.hits, o ∈ s.objects → gone = true ∧ o = job))
  | .dropFalsePositives storageId => inferInstanceAs (Decidable (∀ r ∈ s.runs,
      r.storageId = storageId → ∀ uid ∈ r.stage.falsePositives, s.inUse uid = true))
  | .commit id => inferInstanceAs (Decidable (∀ x ∈ s.sessions, x.id = id → ∀ b ∈ s.db.blocks,
      ∀ uid ∈ b.uid, ∃ c ∈ (x.view s.db).blocks, c.uid = some uid))
  | .tick | .create _ | .clone _ _ _ | .dedup _ _ _ _ _ | .sparse _ _ _ | .write _ _
  | .collect _ _ _ _ | .close _ | .removeVersion _ _ | .startRun _ | .select _ _ | .check _
  | .dropHits _ | .submit _ | .rmBlock _ _ | .rmOrphan _ | .commitRun _ | .finishRun _ =>
    isTrue trivial

/-- The ways in which an object is kept track of; a row that is about to be deleted is none. -/
def OnList (s : State κ) (o : ℕ × BlockUid) : Prop :=
  (∃ b ∈ s.db.blocks, b.uid = some o.2) ∨
    (∃ d ∈ s.db.deletedBlocks, d.storageId = o.1 ∧ d.uid = o.2 ∧ ∀ r ∈ s.runs, d.id ∉ r.deleting) ∨
    ∃ r ∈ s.runs, o ∈ r.stage.hits

def Tracked (s : State κ) : Prop := ∀ o ∈ s.objects, o.2 ∈ s.referenced → OnList s o

namespace Tracked

theorem noLeak (h : Tracked s) : NoLeak s := by
  intro o ho href
  refine (h o ho href).imp_right (Or.imp_left ?_)
  rintro ⟨d, hd, hst, hu, -⟩
  exact ⟨d, hd, hst, hu⟩

/-- A run goes on: it keeps its hits, and the `deleted_blocks` rows it takes are of uids in use
or of hits. -/
theorem putRun (h : Tracked s)
    (hhits : ∀ r' ∈ s.runs, r'.storageId = r.storageId → ∀ o ∈ s.objects, o ∈ r'.stage.hits →
      o ∈ r.stage.hits)
    (hdel : ∀ d ∈ s.db.deletedBlocks, d.id ∈ r.deleting → (∀ r' ∈ s.runs, d.id ∉ r'.deleting) →
      (∃ b ∈ s.db.blocks, b.uid = some d.uid) ∨ (d.storageId, d.uid) ∈ r.stage.hits) :
    Tracked (s.putRun r) := by
  intro o ho href
  have hself : r ∈ (s.putRun r).runs := Table.mem_put.mpr (.inl rfl)
  rcases h o ho href with hrow | ⟨d, hd, hst, hu, hfree⟩ | ⟨r', hr', hmem⟩
  · exact .inl hrow
  · by_cases hid : d.id ∈ r.deleting
    · rcases hdel d hd hid hfree with hrow | hhit
      · exact .inl (hu ▸ hrow)
      · rw [hst, hu] at hhit
        exact .inr (.inr ⟨r, hself, hhit⟩)
    · refine .inr (.inl ⟨d, hd, hst, hu, ?_⟩)
      intro r' hr'
      rcases Table.mem_put.mp hr' with rfl | ⟨hr', -⟩
      · exact hid
      · exact hfree r' hr'
  · by_cases hkey : r'.storageId = r.storageId
    · exact .inr (.inr ⟨r, hself, hhits r' hr' hkey o ho hmem⟩)
    · exact .inr (.inr ⟨r', Table.mem_put.mpr (.inr ⟨hr', hkey⟩), hmem⟩)

/-- A run that goes on without a `DELETE` and keeps its hits. -/
theorem advance (h : Tracked s) (hr : r ∈ s.runs) {stage : Stage}
    (hsub : ∀ o ∈ s.objects, o ∈ r.stage.hits → o ∈ stage.hits) :
    Tracked (s.putRun { r with stage := stage }) := by
  refine h.putRun ?_ fun _ _ hid hfree => absurd hid (hfree r hr)
  intro r' hr' hkey o ho hmem
  obtain rfl := Table.eq_of_key_eq hr' hr hkey
  exact hsub o ho hmem

theorem afterDelete (h : Tracked s) (hr : r ∈ s.runs) {uids : List BlockUid} {next : Stage}
    (hsub : ∀ o ∈ r.stage.hits, o ∈ next.hits)
    (hdel : ∀ d ∈ s.db.deletedBlocks, d.uid ∈ uids →
      (∃ b ∈ s.db.blocks, b.uid = some d.uid) ∨ (d.storageId, d.uid) ∈ next.hits) :
    Tracked (s.putRun (r.afterDelete s uids next)) := by
  refine h.putRun ?_ ?_
  · intro r' hr' hkey o ho hmem
    obtain rfl := Table.eq_of_key_eq hr' hr hkey
    exact hsub o hmem
  · intro d hd hid hnew
    rcases List.mem_append.mp hid with hid | hid
    · obtain ⟨d', hd', he⟩ := List.mem_map.mp hid
      obtain ⟨hd', hu⟩ := List.mem_filter.mp hd'
      obtain rfl := Table.eq_of_key_eq hd' hd he
      exact hdel _ hd (by simpa using hu)
    · exact absurd hid (hnew r hr)

/-- Where only sessions and unreferenced objects change, nothing gets lost. -/
theorem of_objects (h : Tracked s) (hdb : t.db.blocks = s.db.blocks)
    (hdel : t.db.deletedBlocks = s.db.deletedBlocks) (hruns : t.runs = s.runs)
    (href : t.referenced = s.referenced)
    (hobj : ∀ o ∈ t.objects, o ∈ s.objects ∨ o.2 ∉ s.referenced) : Tracked t := by
  intro o ho hr
  rw [href] at hr
  unfold OnList
  rw [hdb, hdel, hruns]
  rcases hobj o ho with ho | hn
  · exact h o ho hr
  · exact absurd hr hn

theorem removeObject (h : Tracked s) (job : ℕ × BlockUid) : Tracked (s.removeObject job) :=
  h.of_objects rfl rfl rfl rfl fun _ ho => .inl (List.mem_filter.mp ho).1

theorem commitDeleting (h : Tracked s) (hr : r ∈ s.runs) : Tracked (s.commitDeleting r) := by
  intro o ho href
  refine (h o ho href).imp_right (Or.imp_left ?_)
  rintro ⟨d, hd, hst, hu, hfree⟩
  have hnot := hfree r hr
  exact ⟨d, Table.mem_filter.mpr ⟨hd, by simpa using hnot⟩, hst, hu, hfree⟩

/-- A run ends that has no object left to remove. -/
theorem endRun (h : Tracked s) (hr : r ∈ s.runs) (hhits : ∀ o ∈ s.objects, o ∉ r.stage.hits) :
    Tracked (s.endRun r) := by
  intro o ho href
  rcases h.commitDeleting hr o ho href with hrow | ⟨d, hd, hst, hu, hfree⟩ | ⟨r', hr', hmem⟩
  · exact .inl hrow
  · exact .inr (.inl ⟨d, hd, hst, hu, fun r' hr' => hfree r' (Table.mem_erase.mp hr').1⟩)
  · refine .inr (.inr ⟨r', Table.mem_erase.mpr ⟨hr', ?_⟩, hmem⟩)
    intro hkey
    obtain rfl := Table.eq_of_key_eq hr' hr hkey
    exact hhits o ho hmem

theorem commit (h : Tracked s) (hx : x ∈ s.sessions) (hkeep : KeepsUids s x.id) : Tracked
    { s.putSession { x with ops := [] } with
      db := { s.db with blocks := applyOps s.db.blocks x.version x.ops }
      referenced := (applyOps s.db.blocks x.version x.ops).rows.filterMap Block.uid ++
        s.referenced } := by
  intro o ho href
  by_cases hnew : o.2 ∈ (applyOps s.db.blocks x.version x.ops).rows.filterMap Block.uid
  · exact .inl (List.mem_filterMap.mp hnew)
  · have hold : o.2 ∈ s.referenced := (List.mem_append.mp href).resolve_left hnew
    rcases h o ho hold with ⟨b, hb, hu⟩ | hrest
    · exact .inl (hkeep x hx rfl b hb o.2 hu)
    · exact .inr hrest

theorem removeVersion (h : Tracked s) (hk : Known s) (hlocks : RowLocks s) {v : Version}
    {date : ℕ → ℕ} (hv : v ∈ s.db.versions) :
    Tracked { s with db := s.db.removeVersion v date } := by
  intro o ho href
  rcases h o ho href with ⟨b, hb, hu⟩ | ⟨d, hd, hrest⟩ | hhit
  · by_cases hid : b.versionId = v.id
    · -- The row is gone, and `deleted_blocks` has a row for it that nobody has seen yet.
      obtain ⟨d, hd, hdu, hst, -, hnew⟩ :=
        Database.exists_deletedBlock_of_removed date hb hid hu
      obtain ⟨-, w, hw, hwid, hhome⟩ := hk.rows b hb o.2 hu
      obtain rfl : w = v := Table.eq_of_key_eq hw hv (hwid.trans hid)
      refine .inr (.inl ⟨d, hd, hst.trans (hhome.trans (hk.objects o ho).1.symm), hdu, ?_⟩)
      intro r hr hdel
      obtain ⟨d', hd', he⟩ := hlocks.exists_row r hr d.id hdel
      exact absurd he (Nat.ne_of_lt (hnew d' hd'))
    · exact .inl ⟨b, Database.mem_blocks_removeVersion.mpr ⟨hb, hid⟩, hu⟩
  · exact .inr (.inl ⟨d, Database.mem_deletedBlocks_removeVersion hd, hrest⟩)
  · exact .inr (.inr hhit)

theorem effect (h : Tracked s) (hk : Known s) (hlocks : RowLocks s) (hok : Tidy s e)
    (he : Effect dt s e t) : Tracked t := by
  cases he with
  | tick => exact h
  | create v hv => exact h
  | lookup _ x hx op hop => exact h
  | sparse _ x hx idx size => exact h
  | write _ x hx idx hi =>
    refine h.of_objects rfl rfl rfl rfl ?_
    intro o ho
    rcases List.mem_cons.mp ho with rfl | ho
    · refine .inr ?_
      intro href
      obtain ⟨i, hm, -, hu⟩ := (hk.referenced _ href).2 x hx rfl
      have hidx : idx = i := by simpa [blockUid] using congrArg BlockUid.right hu
      exact hi (hidx ▸ hm)
    · exact .inl ho
  | collect _ x hx idx hi checksum size => exact h
  | commit x hx hv hlive => exact h.commit hx hok
  | close _ x => exact h
  | removeVersion v date hv => exact h.removeVersion hk hlocks hv
  | startRun _ storageId hr =>
    refine h.putRun ?_ fun _ _ hid => absurd hid List.not_mem_nil
    intro r' hr' hkey
    exact absurd hkey (Table.find?_eq_none.mp hr r' hr')
  | select _ r hr hstage candidates hc =>
    refine h.advance hr fun o _ ho => ?_
    rw [hstage] at ho
    exact ho
  | falsePositive _ r hr c candidates falsePositives hitList hstage =>
    refine h.advance hr fun o _ ho => ?_
    rw [hstage] at ho
    exact ho
  | hit r hr c candidates falsePositives hitList hstage hu =>
    refine h.advance hr fun o _ ho => ?_
    rw [hstage] at ho
    exact List.mem_insert_of_mem ho
  | dropFalsePositives r hr falsePositives hitList hstage hfree =>
    refine h.afterDelete hr ?_ ?_
    · intro o ho
      rw [hstage] at ho
      exact ho
    · intro d hd hmem
      exact .inl (inUse_eq_true.mp (hok r hr rfl d.uid (by rw [hstage]; exact hmem)))
  | noHits _ r hr hstage =>
    refine h.advance hr fun o _ ho => ?_
    rw [hstage] at ho
    exact ho
  | dropHits _ r hr hitList hstage hfree =>
    refine h.afterDelete hr ?_ ?_
    · intro o ho
      rw [hstage] at ho
      exact List.mem_append_left _ ho
    · intro d hd hmem
      obtain ⟨o, ho, hu⟩ := List.mem_map.mp hmem
      have hst := ((hk.runs r hr).2 o (by rw [hstage]; exact ho)).2
      have hdst := (hk.deleted d hd).2
      have hod : (d.storageId, d.uid) = o := by
        refine Prod.ext ?_ hu.symm
        rw [hst, hu]
        exact hdst
      exact .inr (List.mem_append_left _ (hod ▸ ho))
  | submit _ r hr hitList st hstage =>
    refine h.advance hr fun o _ ho => ?_
    rw [hstage] at ho
    have hmem : o ∈ hitList := by simpa [Stage.hits] using ho
    by_cases he : o.1 = st
    · exact List.mem_append_right _ (List.mem_filter.mpr ⟨hmem, decide_eq_true he⟩)
    · exact List.mem_append_left _ (List.mem_filter.mpr ⟨hmem, decide_eq_true he⟩)
  | rmBlock _ r hr hitList jobs hstage job hj =>
    refine (h.removeObject job).advance hr fun o hobj ho => ?_
    have hne := (List.mem_filter.mp hobj).2
    rw [hstage] at ho
    rcases List.mem_append.mp ho with ho | ho
    · exact List.mem_append_left _ ho
    · exact List.mem_append_right _ (List.mem_filter.mpr ⟨ho, hne⟩)
  | rmFails r hr hitList jobs hstage job hj gone =>
    have hleft := hok r hr rfl
    cases gone with
    | false => exact h.endRun hr fun o ho hmem => absurd (hleft o hmem ho).1 Bool.false_ne_true
    | true =>
      refine (h.removeObject job).endRun hr fun o ho hmem => ?_
      obtain ⟨ho, hne⟩ := List.mem_filter.mp ho
      exact of_decide_eq_true hne (hleft o hmem ho).2
  | rmOrphan _ job hj => exact h.removeObject job
  | commitRun _ r hr hstage =>
    refine (h.commitDeleting hr).putRun ?_ fun _ _ hid => absurd hid List.not_mem_nil
    intro r' hr' hkey o _ ho
    obtain rfl := Table.eq_of_key_eq hr' hr hkey
    rw [hstage] at ho
    exact absurd ho List.not_mem_nil
  | finishRun _ r hr hstage =>
    refine h.endRun hr fun o _ ho => ?_
    rw [hstage] at ho
    exact absurd ho List.not_mem_nil

end Tracked

/-- In every interleaving whose steps are tidy, a later cleanup can find every object that is
not in use any more. -/
theorem gc_leaks_nothing [DecidableEq κ] (h : Steps (step dt) Tidy init s) : NoLeak s := by
  refine (h.invariant (I := fun s => Known s ∧ RowLocks s ∧ Tracked s) ⟨.init, .init, ?_⟩
    ?_).2.2.noLeak
  · exact fun o ho => absurd ho List.not_mem_nil
  · rintro s e t ⟨hk, hl, ht⟩ hok hstep
    have he := effect_of_step hstep
    exact ⟨hk.effect he, hl.effect he, ht.effect hk hl hok he⟩

section Example

/-- Version 1 is removed, and when a `clean` comes to its block the removal raises. -/
def failingClean : List (Event Bytes) :=
  firstBackup ++ [.removeVersion 1 fun _ => 0, .startRun (some 1), .select (some 1) [],
    .check (some 1), .dropFalsePositives (some 1), .dropHits (some 1), .submit (some 1),
    .rmFails (some 1) (1, ⟨1, 1⟩) false]

/-- The row of the object is gone with the release of the lock, and the object is not. -/
theorem failed_clean_leaks : ∃ s : State Bytes, Reaches (step 3600) init s ∧ ¬ NoLeak s := by
  have hrun : (run (step 3600) init failingClean).any (fun s => s.objects = [(1, ⟨1, 1⟩)] ∧
      s.referenced = [⟨1, 1⟩] ∧ s.db.blocks.rows = [] ∧ s.db.deletedBlocks.rows = [] ∧
      s.runs.rows.length = 0) = true := by
    decide +kernel
  obtain ⟨s, hs, hf⟩ := exists_reaches_of_run hrun
  obtain ⟨hobj, href, hblocks, hdel, hruns⟩ := of_decide_eq_true hf
  refine ⟨s, hs, ?_⟩
  intro hno
  have ho : ((1, ⟨1, 1⟩) : ℕ × BlockUid) ∈ s.objects := by
    rw [hobj]
    exact List.mem_singleton_self _
  rcases hno _ ho (by rw [href]; exact List.mem_singleton_self _) with ⟨b, hb, -⟩ | ⟨d, hd, -⟩ |
    ⟨r, hr, -⟩
  · rw [Table.mem_def, hblocks] at hb
    exact absurd hb List.not_mem_nil
  · rw [Table.mem_def, hdel] at hd
    exact absurd hd List.not_mem_nil
  · rw [Table.mem_def, List.length_eq_zero_iff.mp hruns] at hr
    exact absurd hr List.not_mem_nil

/-- Two versions are backed up. The first is removed and cleaned up after, then the second one is
removed. -/
def cleanBetween : List (Event Bytes) :=
  firstBackup ++ [.create secondVersion, .write 2 0, .collect 2 0 [9, 9] 2, .commit 2, .close 2,
    .removeVersion 1 fun _ => 0, .startRun (some 1), .select (some 1) [], .check (some 1),
    .dropFalsePositives (some 1), .dropHits (some 1), .submit (some 1),
    .rmBlock (some 1) (1, ⟨1, 1⟩), .commitRun (some 1), .finishRun (some 1),
    .removeVersion 2 fun _ => 0]

theorem gc_leaks_nothing_example : ∃ s : State Bytes, s.objects = [(1, ⟨2, 1⟩)] ∧
    ⟨2, 1⟩ ∈ s.referenced ∧ s.db.blocks.rows = [] ∧ NoLeak s := by
  have hrun : (runIf (step 1) Tidy init cleanBetween).any (fun s => s.objects = [(1, ⟨2, 1⟩)] ∧
      ⟨2, 1⟩ ∈ s.referenced ∧ s.db.blocks.rows = []) = true := by
    decide +kernel
  obtain ⟨s, hs, hf⟩ := exists_steps_of_runIf hrun
  obtain ⟨hobj, href, hblocks⟩ := of_decide_eq_true hf
  exact ⟨s, hobj, href, hblocks, gc_leaks_nothing hs⟩

end Example

end Benji.Gc
