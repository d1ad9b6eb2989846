import Benji.Scrub.Decides
import Benji.Servicer.System

/-! The event `deepScrub` is what a call of `deep_scrub` does to the versions and their blocks. -/
namespace Benji.Servicer
open Lib

variable {κ : Type} {S : Settings κ} {w : World κ} {versionUid : String}
  {v : Version} {s : State κ}

theorem allSparse_iff (hp : 0 < S.blocksPerCall) (hblocks : s.db.blocks = w.db.blocks) :
    s.AllSparse v ↔ Scrub.toRead S v {} none w.db = [] := by
  rw [toRead_all hp, objectBlocks, List.filter_eq_nil_iff]
  unfold State.AllSparse
  rw [hblocks]
  simp

/-- A deep-scrub of a version that nobody has locked leaves the versions and the blocks as the
step does, whether it returns or raises. -/
theorem deepScrub_step [DecidableEq κ] (sparseChecksum : ℕ → κ) (source : Option Source)
    (sched : Scrub.Schedule)
    (cache : Option (ReadCache κ)) (hp : 0 < S.blocksPerCall)
    (hget : w.db.getByUid versionUid = some v) (hstatus : v.status.isDeepScrubbable = true)
    (hfree : Locking.isVersionLocked versionUid w = false) (hsession : s.sessions.find? v.id = none)
    (hversions : s.db.versions = w.db.versions) (hblocks : s.db.blocks = w.db.blocks) :
    ∃ r t u, deepScrub S versionUid source {} sched (Scrub.start w cache none) = some (r, t) ∧
      step sparseChecksum s (.deepScrub v.id) = some u ∧
        t.world.db.versions = u.db.versions ∧ t.world.db.blocks = u.db.blocks := by
  have hfind : s.db.versions.find? v.id = some v := by
    rw [hversions]
    exact Table.find?_of_mem (Database.getByUid_spec hget).1
  have hstep : step sparseChecksum s (.deepScrub v.id) =
      some (if s.AllSparse v then { s with db := s.db.setStatus v.id .valid } else s) := by
    simp only [step, State.deepScrub, hsession, hfind, if_true, Option.bind_some, hstatus]
  by_cases hsparse : s.AllSparse v
  · obtain ⟨t, ht, -, -, -, hw⟩ := Scrub.deepScrub_of_nil source sched cache hget hstatus hfree
      ((allSparse_iff hp hblocks).mp hsparse)
    refine ⟨_, t, _, ht, hstep, ?_, ?_⟩
    · rw [hw, if_pos hsparse]
      have hset : (s.db.setStatus v.id .valid).versions =
          (w.db.setStatus v.id .valid).versions := by
        rw [Database.setStatus, hversions]
        rfl
      exact hset.symm
    · rw [hw, if_pos hsparse]
      exact hblocks.symm
  · have hne : Scrub.toRead S v {} none w.db ≠ [] := fun h =>
      hsparse ((allSparse_iff hp hblocks).mpr h)
    obtain ⟨t, ht, -, hw⟩ := Scrub.deepScrub_of_ne_nil source sched cache hget hstatus hfree hne
    refine ⟨_, t, _, ht, hstep, ?_, ?_⟩
    · rw [hw, if_neg hsparse]
      exact hversions.symm
    · rw [hw, if_neg hsparse]
      exact hblocks.symm

/-- The intact version of one block, and no backup under way. -/
def oneBlockState : State Bytes where
  nextId := 2
  nextTicket := 1
  db := oneBlockDatabase
  objects _ _ := none
  sessions := .empty
  jobs := .empty
  written := []
  failed := []
  completed := []

theorem deepScrub_step_example : ∃ r t u,
    deepScrub oneBlockSettings "v1" none {} ⟨[], []⟩ (Scrub.start oneBlockWorld none none) =
      some (r, t) ∧
    step (fun _ => []) oneBlockState (.deepScrub 1) = some u ∧
    t.world.db.versions = u.db.versions ∧ t.world.db.blocks = u.db.blocks :=
  deepScrub_step (fun _ => []) none ⟨[], []⟩ none (by decide)
    (by decide : oneBlockWorld.db.getByUid "v1" = some oneBlockVersion) rfl (by decide) rfl rfl rfl

end Benji.Servicer
