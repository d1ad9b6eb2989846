import Benji.Servicer.Effect

/-! Versions that are valid and the backups that have completed. -/
namespace Benji.Servicer
open Lib

variable {κ : Type} {s t : State κ} {x y : Session κ} {e : Event κ} {sparseChecksum : ℕ → κ}

/-- What each stage of a session leaves to do, and the counts of its jobs. -/
structure Session.Progress (x : Session κ) : Prop where
  reads : x.readJobs = x.doneReadJobs + x.reads.length
  writes : x.writeJobs = x.doneWriteJobs + x.writes.length
  queued : x.stage = .clone ∨ x.stage = .queue ∨ x.next = x.version.blocksCount ∧ x.loaded = []
  loaded : x.stage = .queue ∨ x.loaded = []
  noReads : x.stage = .queue ∨ x.stage = .loop ∨ x.reads = []
  noWrites : x.stage = .loop ∨ x.writes = []
  noCow : x.stage = .cow ∨ x.stage = .fixate ∨ x.cow = []

namespace Session.Progress

theorem begin (v : Version) (base : Option Version) (nbd : Bool)
    (readBlocks sparseBlocks : List ℕ) :
    (Session.begin (κ := κ) v base nbd readBlocks sparseBlocks).Progress :=
  ⟨rfl, rfl, .inl rfl, .inr rfl, .inr (.inr rfl), .inr rfl, .inr (.inr rfl)⟩

theorem length_eraseIdx_succ {α : Type} {l : List α} {k : ℕ} {a : α} (h : l[k]? = some a) :
    (l.eraseIdx k).length + 1 = l.length := by
  obtain ⟨hk, -⟩ := List.getElem?_eq_some_iff.mp h
  rw [List.length_eraseIdx_of_lt hk]
  omega

theorem of_local (h : x.Progress) (hy : Local s x e y) : y.Progress := by
  cases hy with
  | clone _ hstage hnext =>
    exact ⟨h.reads, h.writes, .inl hstage, h.loaded, h.noReads, h.noWrites, h.noCow⟩
  | createBlocks n hstage =>
    exact ⟨h.reads, h.writes, .inl hstage, h.loaded, h.noReads, h.noWrites, h.noCow⟩
  | load _ hstage hnext =>
    exact ⟨h.reads, h.writes, .inr (.inl hstage), .inl hstage, .inl hstage, h.noWrites, h.noCow⟩
  | queueRead _ block rest hstage hloaded =>
    have hreads : x.readJobs + 1 = x.doneReadJobs + (x.reads ++ [block]).length := by
      have := h.reads
      simp only [List.length_append, List.length_singleton]
      omega
    exact ⟨hreads, h.writes, .inr (.inl hstage), .inl hstage, .inl hstage, h.noWrites, h.noCow⟩
  | queueSparse _ block rest hstage hloaded =>
    exact ⟨h.reads, h.writes, .inr (.inl hstage), .inl hstage, .inl hstage, h.noWrites, h.noCow⟩
  | queueKeep _ block rest hstage hloaded hvalid =>
    exact ⟨h.reads, h.writes, .inr (.inl hstage), .inl hstage, .inl hstage, h.noWrites, h.noCow⟩
  | startLoop _ hstage hnext hloaded =>
    have hcow : x.cow = [] := by
      rcases h.noCow with hc | hc | hc
      · rw [hstage] at hc
        cases hc
      · rw [hstage] at hc
        cases hc
      · exact hc
    exact ⟨h.reads, h.writes, .inr (.inr ⟨hnext, hloaded⟩), .inr hloaded, .inr (.inl rfl),
      .inl rfl, .inr (.inr hcow)⟩
  | readSparse _ k block hstage hblock =>
    have hlen := length_eraseIdx_succ hblock
    have hreads : x.readJobs = x.doneReadJobs + 1 + (x.reads.eraseIdx k).length := by
      have := h.reads
      omega
    exact ⟨hreads, h.writes, h.queued, h.loaded, .inr (.inl hstage), h.noWrites, h.noCow⟩
  | readKnown _ k block b hstage hblock hb hvalid =>
    have hlen := length_eraseIdx_succ hblock
    have hreads : x.readJobs = x.doneReadJobs + 1 + (x.reads.eraseIdx k).length := by
      have := h.reads
      omega
    exact ⟨hreads, h.writes, h.queued, h.loaded, .inr (.inl hstage), h.noWrites, h.noCow⟩
  | collect _ k j hstage hj =>
    have hlen := length_eraseIdx_succ hj
    have hwrites : x.writeJobs = x.doneWriteJobs + 1 + (x.writes.eraseIdx k).length := by
      have := h.writes
      omega
    exact ⟨h.reads, hwrites, h.queued, h.loaded, h.noReads, .inl hstage, h.noCow⟩
  | cowWrite _ idx hstage hidx =>
    exact ⟨h.reads, h.writes, h.queued, h.loaded, h.noReads, h.noWrites, .inl hstage⟩
  | startFixate _ hstage =>
    have hne : x.stage ≠ .clone ∧ x.stage ≠ .queue ∧ x.stage ≠ .loop := by
      rw [hstage]
      decide
    refine ⟨h.reads, h.writes, ?_, ?_, ?_, ?_, .inr (.inl rfl)⟩
    · exact .inr (.inr ((h.queued.resolve_left hne.1).resolve_left hne.2.1))
    · exact .inr (h.loaded.resolve_left hne.2.1)
    · exact .inr (.inr ((h.noReads.resolve_left hne.2.1).resolve_left hne.2.2))
    · exact .inr (h.noWrites.resolve_left hne.2.2)
  | fixateSparse _ idx size rest hstage hcow =>
    exact ⟨h.reads, h.writes, h.queued, h.loaded, h.noReads, h.noWrites, .inr (.inl hstage)⟩
  | rollback _ idx rest hstage hcow =>
    exact ⟨h.reads, h.writes, h.queued, h.loaded, h.noReads, h.noWrites, .inr (.inl hstage)⟩

theorem submit {k : ℕ} {block : Block κ} (job : Job κ) (h : x.Progress) (hstage : x.stage = .loop)
    (hblock : x.reads[k]? = some block) : (State.addJob (State.taken x k) job).Progress := by
  have hlen := length_eraseIdx_succ hblock
  have hreads : x.readJobs = x.doneReadJobs + 1 + (x.reads.eraseIdx k).length := by
    have := h.reads
    omega
  have hwrites : x.writeJobs + 1 = x.doneWriteJobs + (x.writes ++ [job]).length := by
    have := h.writes
    simp only [List.length_append, List.length_singleton]
    omega
  exact ⟨hreads, hwrites, h.queued, h.loaded, .inr (.inl hstage), .inl hstage, h.noCow⟩

theorem save (h : x.Progress) (hstage : x.stage = .clone) (hnext : x.next = x.version.blocksCount) :
    ({ x with
      ops := []
      stage := if x.nbd then .cow else .queue
      next := if x.nbd then x.next else 0 } : Session κ).Progress := by
  have hne : x.stage ≠ .queue ∧ x.stage ≠ .loop ∧ x.stage ≠ .cow ∧ x.stage ≠ .fixate := by
    rw [hstage]
    decide
  have hloaded := h.loaded.resolve_left hne.1
  have hreads := (h.noReads.resolve_left hne.1).resolve_left hne.2.1
  have hwrites := h.noWrites.resolve_left hne.2.1
  have hcow := (h.noCow.resolve_left hne.2.2.1).resolve_left hne.2.2.2
  cases hn : x.nbd with
  | true =>
    exact ⟨h.reads, h.writes, .inr (.inr ⟨hnext, hloaded⟩), .inr hloaded, .inr (.inr hreads),
      .inr hwrites, .inl rfl⟩
  | false =>
    exact ⟨h.reads, h.writes, .inr (.inl rfl), .inl rfl, .inl rfl, .inr hwrites,
      .inr (.inr hcow)⟩

/-- Where the counts agree at the end, nothing is outstanding. -/
theorem allDone (h : x.Progress) (hc : x.Consistent) : x.AllDone := by
  rcases hc with ⟨hstage, hr, hw⟩ | ⟨hstage, hcow⟩
  · have hne : x.stage ≠ .clone ∧ x.stage ≠ .queue ∧ x.stage ≠ .cow ∧ x.stage ≠ .fixate := by
      rw [hstage]
      decide
    obtain ⟨hnext, hloaded⟩ := (h.queued.resolve_left hne.1).resolve_left hne.2.1
    have hcow := (h.noCow.resolve_left hne.2.2.1).resolve_left hne.2.2.2
    have hreads := h.reads
    have hwrites := h.writes
    exact ⟨hnext, by rw [hloaded]; rfl, by omega, by omega, by rw [hcow]; rfl⟩
  · have hne : x.stage ≠ .clone ∧ x.stage ≠ .queue ∧ x.stage ≠ .loop := by
      rw [hstage]
      decide
    obtain ⟨hnext, hloaded⟩ := (h.queued.resolve_left hne.1).resolve_left hne.2.1
    have hreads := (h.noReads.resolve_left hne.2.1).resolve_left hne.2.2
    have hwrites := h.noWrites.resolve_left hne.2.2
    exact ⟨hnext, by rw [hloaded]; rfl, by rw [hreads]; rfl, by rw [hwrites]; rfl,
      by rw [hcow]; rfl⟩

end Session.Progress

/-- Every session is where its stage says. -/
def Underway (s : State κ) : Prop := ∀ x ∈ s.sessions, x.Progress

namespace Underway

theorem putSession (h : Underway s) (hy : y.Progress) : Underway (s.putSession y) := by
  intro z hz
  rcases mem_sessions_putSession.mp hz with rfl | ⟨hz, -⟩
  · exact hy
  · exact h z hz

theorem endSession (h : Underway s) : Underway (s.endSession x) :=
  fun y hy => h y (Table.mem_erase.mp hy).1

theorem effect (h : Underway s) (he : Effect sparseChecksum s e t) : Underway t := by
  cases he with
  | create _ v hid hstatus => exact h
  | start v size blockSize b base readBlocks sparseBlocks hfree hv =>
    exact h.putSession (.begin _ _ _ _ _)
  | createCow v w base hid hstatus => exact h.putSession (s := s) (.begin _ _ _ _ _)
  | session _ x y hx hy => exact h.putSession ((h x hx).of_local hy)
  | save _ x hx hstage hnext hpackage => exact h.putSession (s := s) ((h x hx).save hstage hnext)
  | commit _ x hx =>
    have hp := h x hx
    exact h.putSession (s := s)
      ⟨hp.reads, hp.writes, hp.queued, hp.loaded, hp.noReads, hp.noWrites, hp.noCow⟩
  | readNew _ x hx k block checksum hstage hblock =>
    exact h.putSession
      ((h x hx).submit (s.newJob (State.taken x k) block checksum) hstage hblock)
  | write j hj raises => exact h
  | dropWrite _ ticket => exact h
  | complete _ x hx hc hops => exact h.endSession
  | close _ x failed => exact h.endSession
  | refuse _ failed => exact h
  | setInvalid _ id failed => exact h
  | fixate x hx checksum size idx rest hstage hcow hsparse =>
    have hp := h x hx
    have hy : (({ x with cow := rest } : Session κ).setBlock idx (some (x.blockUid idx))
        (some checksum) size).Progress :=
      ⟨hp.reads, hp.writes, hp.queued, hp.loaded, hp.noReads, hp.noWrites, .inr (.inl hstage)⟩
    exact h.putSession (s := s) hy
  | fixateFails x hx checksum idx rest hstage hcow hsparse =>
    have hp := h x hx
    have hy : ({ x with cow := rest, ops := [] } : Session κ).Progress :=
      ⟨hp.reads, hp.writes, hp.queued, hp.loaded, hp.noReads, hp.noWrites, .inr (.inl hstage)⟩
    exact h.putSession (s := s) hy
  | removeVersion _ v date => exact h
  | cleanup _ ids o => exact h
  | setBlockValid uid valid => exact h
  | deepScrub v hv hfree hstatus hsparse => exact h
  | idle => exact h

theorem init : Underway (init : State κ) := fun _ hx => absurd hx Table.not_mem_empty

end Underway

/-- A valid version has a backup, or a fixate, that completed its loop with everything done. -/
def ValidCompleted (s : State κ) : Prop :=
  ∀ v ∈ s.db.versions, v.status = .valid → v.id ∈ s.completed

/-- No deep-scrub of an invalid version all of whose blocks are sparse, unless a backup of it
has completed. -/
def Restored (s : State κ) : Event κ → Prop
  | .deepScrub id => ∀ v ∈ s.db.versions, v.id = id → v.status = .invalid → s.AllSparse v →
      id ∈ s.completed
  | _ => True

instance {s : State κ} {e : Event κ} : Decidable (Restored s e) :=
  match e with
  | .deepScrub id => inferInstanceAs (Decidable (∀ v ∈ s.db.versions, v.id = id →
      v.status = .invalid → s.AllSparse v → id ∈ s.completed))
  | .create _ | .start .. | .refuse _ | .createCow .. | .clone _ | .createBlocks .. | .save _
  | .load _ | .queue _ | .startLoop _ | .read .. | .write .. | .dropWrite _ | .collect ..
  | .commit _ | .finish _ | .fail _ | .setInvalid _ | .cowWrite .. | .startFixate _ | .fixate ..
  | .fixateFails .. | .fixateDone _ | .removeVersion .. | .cleanup .. | .setBlockValid .. =>
    isTrue trivial

namespace ValidCompleted

/-- Writes that set no status to valid. -/
theorem of_versions (h : ValidCompleted s) (hcompleted : t.completed = s.completed)
    (hversions : ∀ w ∈ t.db.versions, w.status = .valid →
      ∃ v ∈ s.db.versions, v.id = w.id ∧ v.status = .valid) : ValidCompleted t := by
  intro w hw hst
  obtain ⟨v, hv, hid, hvst⟩ := hversions w hw hst
  rw [hcompleted, ← hid]
  exact h v hv hvst

theorem commit (h : ValidCompleted s) :
    ValidCompleted ({ s with db := s.committed x } : State κ) := by
  refine h.of_versions rfl ?_
  intro w hw hst
  obtain ⟨v, hv, hid, hvst⟩ := @Database.of_mem_setSize _ _ x.id _ _ _ hw
  exact ⟨v, hv, hid, hvst.trans hst⟩

theorem create {v : Version} (h : ValidCompleted s) (hstatus : v.status = .incomplete) :
    ValidCompleted ({ s with
      nextId := s.nextId + 1
      db := { s.db with versions := s.db.versions.put v } } : State κ) := by
  refine h.of_versions rfl ?_
  intro w hw hst
  rcases Table.mem_put.mp hw with rfl | ⟨hw, -⟩
  · rw [hstatus] at hst
    cases hst
  · exact ⟨w, hw, rfl, hst⟩

theorem effect (h : ValidCompleted s) (hu : Underway s) (hok : Restored s e)
    (he : Effect sparseChecksum s e t) : ValidCompleted t := by
  cases he with
  | create _ v hid hstatus => exact h.create hstatus
  | start v size blockSize b base readBlocks sparseBlocks hfree hv => exact h
  | createCow v w base hid hstatus => exact h.create hstatus
  | session _ x y hx hy => exact h
  | save _ x hx hstage hnext hpackage => exact h.commit (x := x)
  | commit _ x hx => exact h.commit (x := x)
  | readNew _ x hx k block checksum hstage hblock => exact h
  | write j hj raises => exact h
  | dropWrite _ ticket => exact h
  | complete _ x hx hc hops =>
    have hall := (hu x hx).allDone hc
    have hcompleted : (s.completeAs x).completed = x.id :: s.completed := if_pos hall
    intro w hw hst
    rw [hcompleted]
    rcases Database.of_mem_setStatus hw with ⟨hid, -, -⟩ | ⟨-, hw⟩
    · rw [hid]
      exact List.mem_cons_self
    · exact List.mem_cons_of_mem _ (h w hw hst)
  | close _ x failed => exact h
  | refuse _ failed => exact h
  | setInvalid _ id failed =>
    refine h.of_versions rfl ?_
    intro w hw hst
    rcases Database.of_mem_setStatus hw with ⟨-, hinvalid, -⟩ | ⟨-, hw⟩
    · rw [hinvalid] at hst
      cases hst
    · exact ⟨w, hw, rfl, hst⟩
  | fixate x hx checksum size idx rest hstage hcow hsparse => exact h
  | fixateFails x hx checksum idx rest hstage hcow hsparse => exact h
  | removeVersion _ v date =>
    refine h.of_versions rfl ?_
    intro w hw hst
    exact ⟨w, (Database.mem_versions_removeVersion.mp hw).1, rfl, hst⟩
  | cleanup _ ids o => exact h
  | setBlockValid uid valid =>
    refine h.of_versions rfl ?_
    intro w hw hst
    rcases Database.of_mem_versions_setBlockValid hw with hw | ⟨hinvalid, -⟩
    · exact ⟨w, hw, rfl, hst⟩
    · rw [hinvalid] at hst
      cases hst
  | deepScrub v hv hfree hstatus hsparse =>
    intro w hw hst
    rcases Database.of_mem_setStatus hw with ⟨hid, -, -⟩ | ⟨-, hw⟩
    · rw [hid]
      cases hvst : v.status with
      | incomplete => exact absurd hvst hstatus
      | valid => exact h v hv hvst
      | invalid => exact hok v hv rfl hvst hsparse
    · exact h w hw hst
  | idle => exact h

theorem init : ValidCompleted (init : State κ) := fun _ hv => absurd hv Table.not_mem_empty

end ValidCompleted

/-- In a run in which no deep-scrub passes over the leftovers of failed backups alone, a version is
valid only after a backup of it, or its fixate, has completed. -/
theorem valid_only_if_completed [DecidableEq κ] (sparseChecksum : ℕ → κ) {s : State κ}
    (h : Steps (step sparseChecksum) Restored init s) : ValidCompleted s := by
  have hboth : Underway s ∧ ValidCompleted s := by
    refine h.invariant (I := fun s => Underway s ∧ ValidCompleted s) ⟨.init, .init⟩ ?_
    rintro s e t ⟨hu, hv⟩ hok hs
    have he := effect_of_step hs
    exact ⟨hu.effect he, hv.effect hu hok he⟩
  exact hboth.2

section Example

def exampleStorage : Storage := ⟨1, "file"⟩

/-- A version of `size` blocks of one byte, as `Version.create` leaves it. -/
def newVersion (id size : ℕ) (uid : String) : Version :=
  ⟨id, uid, exampleStorage, size, 1, .incomplete, none⟩

/-- A backup of a version of one block, up to the read. -/
def toRead (id : ℕ) : List (Event ℕ) :=
  [.start id 1 1 none [0] [], .clone id, .createBlocks id 1, .save id, .load id, .queue id]

/-- The rest of that backup, where the data is new. -/
def fromRead (id ticket checksum : ℕ) : List (Event ℕ) :=
  [.startLoop id, .read id 0 checksum 0, .write ticket false, .collect id 0, .commit id, .finish id]

/-- A deep-scrub sets the version of a failed backup valid, as there is nothing to read. -/
theorem failed_backup_valid :
    ∃ s, Reaches (step fun _ => 0) (init : State ℕ) s ∧ ¬ ValidCompleted s := by
  have hrun : (run (step fun _ => 0) init (.create (newVersion 1 1 "v1") :: toRead 1 ++
      [.fail 1, .setInvalid 1, .deepScrub 1])).any (fun s =>
        decide (∃ v ∈ s.db.versions, v.status = .valid ∧ v.id ∉ s.completed)) = true := by
    decide +kernel
  obtain ⟨s, hs, hf⟩ := exists_reaches_of_run hrun
  obtain ⟨v, hv, hst, hnot⟩ := of_decide_eq_true hf
  exact ⟨s, hs, fun h => hnot (h v hv hst)⟩

theorem valid_only_if_completed_example :
    ∃ s : State ℕ, (∃ v ∈ s.db.versions, v.status = .valid) ∧ ValidCompleted s := by
  have hrun : (runIf (step fun _ => 0) Restored init (.create (newVersion 1 1 "v1") :: toRead 1 ++
      fromRead 1 0 5 ++ [.deepScrub 1])).any (fun s =>
        decide (∃ v ∈ s.db.versions, v.status = .valid)) = true := by
    decide +kernel
  obtain ⟨s, hs, hf⟩ := exists_steps_of_runIf hrun
  exact ⟨s, of_decide_eq_true hf, valid_only_if_completed (fun _ => 0) hs⟩

end Example

end Benji.Servicer
