import Benji.Gc.System

/-! What one step can do, said once for all invariants. -/
namespace Benji.Gc
open Lib State

variable {κ : Type} {s t : State κ} {x : Session κ} {r : Run} {op : Op κ}

theorem onSession_eq_some {id : ℕ} {f : Session κ → Option (State κ)} :
    s.onSession id f = some t ↔ ∃ x ∈ s.sessions, x.id = id ∧ f x = some t := by
  simp only [onSession, Option.bind_eq_some_iff, Table.find?_eq_some, and_assoc]

theorem onRun_eq_some {storageId : Option ℕ} {f : Run → Option (State κ)} :
    s.onRun storageId f = some t ↔ ∃ r ∈ s.runs, r.storageId = storageId ∧ f r = some t := by
  simp only [onRun, Option.bind_eq_some_iff, Table.find?_eq_some, and_assoc]

/-- A row the session sees is committed, or one of its own. -/
theorem mem_applyOps {table : BlockTable κ} {v : Version} {ops : List (Op κ)} {b : Block κ}
    (h : b ∈ applyOps table v ops) : b ∈ table ∨
      ∃ op ∈ ops, b = ⟨v.id, op.idx, op.uid, op.checksum, op.size, op.valid⟩ := by
  unfold applyOps at h
  induction ops generalizing table with
  | nil => exact .inl h
  | cons op ops ih =>
    rcases ih h with h | ⟨op', hop, hb⟩
    · rcases BlockTable.mem_setBlock.mp h with ⟨-, hb⟩ | ⟨h, -⟩
      · exact .inr ⟨op, List.mem_cons_self, hb⟩
      · exact .inl h
    · exact .inr ⟨op', List.mem_cons_of_mem _ hop, hb⟩

/-- A row is prepared for a uid the session relies on already, or for one that a committed row
of its storage has now. -/
def Looked (s : State κ) (x : Session κ) (op : Op κ) : Prop :=
  (∃ op' ∈ x.ops, op'.uid = op.uid ∧ op'.since = op.since) ∨
    op.since = s.now ∧ ∃ b ∈ s.db.blocks, b.uid = op.uid ∧
      s.db.inStorage x.version.storage.id b = true

theorem looked_of_since (hs : op.since = x.since s.now op.uid)
    (h : (∃ op' ∈ x.ops, op'.uid = op.uid) ∨ ∃ b ∈ s.db.blocks, b.uid = op.uid ∧
      s.db.inStorage x.version.storage.id b = true) : Looked s x op := by
  unfold Session.since at hs
  cases hf : x.ops.find? fun op' => op'.uid = op.uid with
  | some op' =>
    have hu : op'.uid = op.uid := by simpa using List.find?_some hf
    rw [hf] at hs
    exact .inl ⟨op', List.mem_of_find?_eq_some hf, hu, hs.symm⟩
  | none =>
    rw [hf] at hs
    refine .inr ⟨hs, ?_⟩
    rcases h with ⟨op', hmem, hu⟩ | h
    · have hne := List.find?_eq_none.mp hf op' hmem
      simp [hu] at hne
    · exact h

theorem looked_clone {baseId idx : ℕ} (hs : s.clone baseId idx x = some t) :
    ∃ op, Looked s x op ∧ t = s.putSession (x.addOp op) := by
  unfold clone at hs
  cases hb : s.db.versions.find? baseId with
  | none => simp [hb] at hs
  | some base =>
    cases hr : s.db.blocks.row? base idx with
    | none => simp [hb, hr] at hs
    | some b =>
      simp only [hb, hr, Option.ite_none_right_eq_some, Option.some.injEq] at hs
      obtain ⟨hst, rfl⟩ := hs
      obtain ⟨hmem, hv, -⟩ := BlockTable.row?_eq_some.mp hr
      have hfind : s.db.versions.find? b.versionId = some base := by
        rw [hv]
        exact Table.find?_of_mem (Table.mem_of_find? hb)
      have hin : s.db.inStorage x.version.storage.id b = true := by
        rw [Database.inStorage, hfind]
        simp [hst]
      exact ⟨_, looked_of_since rfl (.inr ⟨b, hmem, rfl, hin⟩), rfl⟩

theorem looked_dedup [DecidableEq κ] {idx size pick : ℕ} {checksum : κ}
    (hs : s.dedup idx checksum size pick x = some t) :
    ∃ op, Looked s x op ∧ t = s.putSession (x.addOp op) := by
  unfold dedup at hs
  cases hb : (x.view s.db).getBlockByChecksum x.version checksum pick with
  | none => simp [hb] at hs
  | some b =>
    simp only [hb, Option.ite_none_right_eq_some, Option.some.injEq] at hs
    obtain ⟨-, rfl⟩ := hs
    obtain ⟨hmem, -, -, hin⟩ := Database.getBlockByChecksum_spec hb
    refine ⟨_, looked_of_since rfl ?_, rfl⟩
    rcases mem_applyOps hmem with hmem | ⟨op, hop, rfl⟩
    · exact .inr ⟨b, hmem, rfl, hin⟩
    · exact .inl ⟨op, hop, rfl⟩

/-- The run `r` after it has issued a `DELETE` for the uids. -/
def Run.afterDelete (r : Run) (s : State κ) (uids : List BlockUid) (next : Stage) : Run :=
  { r with
    stage := next
    deleting := (s.db.deletedBlocks.rows.filter fun d => d.uid ∈ uids).map DeletedBlock.id ++
      r.deleting }

/-- No other session has deleted a row of the uids without committing. -/
def Unblocked (s : State κ) (r : Run) (uids : List BlockUid) : Prop :=
  ∀ d ∈ s.db.deletedBlocks, d.uid ∈ uids →
    ∀ r' ∈ s.runs, r'.storageId ≠ r.storageId → d.id ∉ r'.deleting

inductive Effect (dt : ℕ) (s : State κ) : Event κ → State κ → Prop
  | tick : Effect dt s .tick { s with now := s.now + 1 }
  | create (v : Version) (hv : v.id = s.nextId) : Effect dt s (.create v) { s with
      nextId := s.nextId + 1
      db := { s.db with versions := s.db.versions.put v }
      sessions := s.sessions.put { version := v }
      home := Function.update s.home v.id v.storage.id }
  | lookup (e : Event κ) (x : Session κ) (hx : x ∈ s.sessions) (op : Op κ)
      (hop : Looked s x op) : Effect dt s e (s.putSession (x.addOp op))
  | sparse (e : Event κ) (x : Session κ) (hx : x ∈ s.sessions) (idx size : ℕ) :
      Effect dt s e (s.putSession (x.addOp ⟨idx, none, none, size, true, s.now⟩))
  | write (e : Event κ) (x : Session κ) (hx : x ∈ s.sessions) (idx : ℕ) (hi : idx ∉ x.handled) :
      Effect dt s e { s.putSession { x with
        handled := idx :: x.handled, inFlight := idx :: x.inFlight } with
        objects := (x.version.storage.id, blockUid x idx) :: s.objects }
  | collect (e : Event κ) (x : Session κ) (hx : x ∈ s.sessions) (idx : ℕ) (hi : idx ∈ x.inFlight)
      (checksum : κ) (size : ℕ) : Effect dt s e (s.putSession
        { x.addOp ⟨idx, some (blockUid x idx), some checksum, size, true, s.now⟩ with
          inFlight := x.inFlight.filter fun i => i ≠ idx })
  | commit (x : Session κ) (hx : x ∈ s.sessions)
      (hv : s.db.versions.find? x.id = some x.version) (hlive : x.Live dt s.now) :
      Effect dt s (.commit x.id) { s.putSession { x with ops := [] } with
        db := { s.db with blocks := applyOps s.db.blocks x.version x.ops }
        referenced := (applyOps s.db.blocks x.version x.ops).rows.filterMap Block.uid ++
          s.referenced }
  | close (e : Event κ) (x : Session κ) :
      Effect dt s e { s with sessions := s.sessions.erase x.id }
  | removeVersion (v : Version) (date : ℕ → ℕ) (hv : v ∈ s.db.versions) :
      Effect dt s (.removeVersion v.id date) { s with db := s.db.removeVersion v date }
  | startRun (e : Event κ) (storageId : Option ℕ) (hr : s.runs.find? storageId = none) :
      Effect dt s e (s.putRun { storageId := storageId, cutOffDate := s.now - dt })
  | select (e : Event κ) (r : Run) (hr : r ∈ s.runs) (hstage : r.stage = .select)
      (candidates : List DeletedBlock) (hc : ∀ d ∈ candidates, d ∈ s.db.deletedBlocks) :
      Effect dt s e (s.putRun { r with stage := .check candidates [] [] })
  | falsePositive (e : Event κ) (r : Run) (hr : r ∈ s.runs) (c : DeletedBlock)
      (candidates : List DeletedBlock) (falsePositives : List BlockUid)
      (hitList : List (ℕ × BlockUid))
      (hstage : r.stage = .check (c :: candidates) falsePositives hitList) :
      Effect dt s e (s.putRun { r with
        stage := .check candidates (falsePositives.insert c.uid) hitList })
  | hit (r : Run) (hr : r ∈ s.runs) (c : DeletedBlock) (candidates : List DeletedBlock)
      (falsePositives : List BlockUid) (hitList : List (ℕ × BlockUid))
      (hstage : r.stage = .check (c :: candidates) falsePositives hitList)
      (hu : ∀ b ∈ s.db.blocks, b.uid ≠ some c.uid) :
      Effect dt s (.check r.storageId) (s.putRun { r with
        stage := .check candidates falsePositives (hitList.insert (c.storageId, c.uid)) })
  | dropFalsePositives (r : Run) (hr : r ∈ s.runs) (falsePositives : List BlockUid)
      (hitList : List (ℕ × BlockUid)) (hstage : r.stage = .check [] falsePositives hitList)
      (hfree : Unblocked s r falsePositives) : Effect dt s (.dropFalsePositives r.storageId)
        (s.putRun (r.afterDelete s falsePositives (.dropHits hitList)))
  | noHits (e : Event κ) (r : Run) (hr : r ∈ s.runs) (hstage : r.stage = .dropHits []) :
      Effect dt s e (s.putRun { r with stage := .select })
  | dropHits (e : Event κ) (r : Run) (hr : r ∈ s.runs) (hitList : List (ℕ × BlockUid))
      (hstage : r.stage = .dropHits hitList) (hfree : Unblocked s r (hitList.map Prod.snd)) :
      Effect dt s e (s.putRun (r.afterDelete s (hitList.map Prod.snd) (.remove hitList [])))
  | submit (e : Event κ) (r : Run) (hr : r ∈ s.runs) (hitList : List (ℕ × BlockUid)) (st : ℕ)
      (hstage : r.stage = .remove hitList []) : Effect dt s e (s.putRun { r with
        stage := .remove (hitList.filter fun j => j.1 ≠ st) (hitList.filter fun j => j.1 = st) })
  | rmBlock (e : Event κ) (r : Run) (hr : r ∈ s.runs) (hitList jobs : List (ℕ × BlockUid))
      (hstage : r.stage = .remove hitList jobs) (job : ℕ × BlockUid) (hj : job ∈ jobs) :
      Effect dt s e ((s.removeObject job).putRun { r with
        stage := .remove hitList (jobs.filter fun j => j ≠ job) })
  | rmFails (r : Run) (hr : r ∈ s.runs) (hitList jobs : List (ℕ × BlockUid))
      (hstage : r.stage = .remove hitList jobs) (job : ℕ × BlockUid) (hj : job ∈ jobs)
      (gone : Bool) : Effect dt s (.rmFails r.storageId job gone)
        { (if gone then s.removeObject job else s).endRun r with
          orphans := s.orphans ++ jobs.filter fun j => j ≠ job }
  | rmOrphan (e : Event κ) (job : ℕ × BlockUid) (hj : job ∈ s.orphans) :
      Effect dt s e { s.removeObject job with orphans := s.orphans.filter fun j => j ≠ job }
  | commitRun (e : Event κ) (r : Run) (hr : r ∈ s.runs) (hstage : r.stage = .remove [] []) :
      Effect dt s e ((s.commitDeleting r).putRun { r with stage := .select, deleting := [] })
  | finishRun (e : Event κ) (r : Run) (hr : r ∈ s.runs) (hstage : r.stage = .select) :
      Effect dt s e (s.endRun r)

section Inversion
variable {dt : ℕ} {e : Event κ}

theorem effect_of_deleteRows {uids : List BlockUid} {next : Stage}
    (hs : s.deleteRows uids r next = some t) :
    Unblocked s r uids ∧ t = s.putRun (r.afterDelete s uids next) := by
  unfold deleteRows at hs
  rw [Option.ite_none_right_eq_some] at hs
  obtain ⟨hfree, hs⟩ := hs
  exact ⟨hfree, (Option.some.inj hs).symm⟩

theorem effect_of_check (hr : r ∈ s.runs) (hs : s.check r = some t) :
    Effect dt s (.check r.storageId) t := by
  unfold check at hs
  split at hs
  · rename_i c candidates falsePositives hitList hstage
    split_ifs at hs with hu
    · obtain rfl := Option.some.inj hs
      exact .falsePositive _ r hr c candidates falsePositives hitList hstage
    · obtain rfl := Option.some.inj hs
      refine .hit r hr c candidates falsePositives hitList hstage ?_
      intro b hb he
      apply hu
      exact List.any_eq_true.mpr ⟨b, hb, by simpa using he⟩
  all_goals cases hs

theorem effect_of_select {ids : List ℕ} (hr : r ∈ s.runs) (hs : s.select ids r = some t) :
    Effect dt s e t := by
  unfold select at hs
  split at hs
  · rename_i hstage
    rw [Option.ite_none_right_eq_some] at hs
    obtain rfl := Option.some.inj hs.2
    refine .select _ r hr hstage _ ?_
    intro d hd
    have helig : d ∈ s.eligible r := by
      unfold chosen at hd
      split at hd
      · exact hd
      · exact (List.mem_filter.mp hd).1
    exact (List.mem_filter.mp helig).1
  all_goals cases hs

theorem effect_of_dropFalsePositives (hr : r ∈ s.runs) (hs : s.dropFalsePositives r = some t) :
    Effect dt s (.dropFalsePositives r.storageId) t := by
  unfold dropFalsePositives at hs
  split at hs
  · rename_i falsePositives hitList hstage
    obtain ⟨hfree, rfl⟩ := effect_of_deleteRows hs
    exact .dropFalsePositives r hr falsePositives hitList hstage hfree
  all_goals cases hs

theorem effect_of_dropHits (hr : r ∈ s.runs) (hs : s.dropHits r = some t) : Effect dt s e t := by
  unfold dropHits at hs
  split at hs
  · rename_i hstage
    obtain rfl := Option.some.inj hs
    exact .noHits e r hr hstage
  · rename_i h hitList hstage
    obtain ⟨hfree, rfl⟩ := effect_of_deleteRows hs
    exact .dropHits e r hr (h :: hitList) hstage hfree
  all_goals cases hs

theorem effect_of_submit (hr : r ∈ s.runs) (hs : s.submit r = some t) : Effect dt s e t := by
  unfold submit at hs
  split at hs
  · rename_i h hitList hstage
    obtain rfl := Option.some.inj hs
    exact .submit e r hr (h :: hitList) h.1 hstage
  all_goals cases hs

theorem effect_of_rmBlock {job : ℕ × BlockUid} (hr : r ∈ s.runs) (hs : s.rmBlock job r = some t) :
    Effect dt s e t := by
  unfold rmBlock at hs
  split at hs
  · rename_i hitList jobs hstage
    rw [Option.ite_none_right_eq_some] at hs
    obtain rfl := Option.some.inj hs.2
    exact .rmBlock e r hr hitList jobs hstage job hs.1
  all_goals cases hs

theorem effect_of_rmFails {job : ℕ × BlockUid} {gone : Bool} (hr : r ∈ s.runs)
    (hs : s.rmFails job gone r = some t) : Effect dt s (.rmFails r.storageId job gone) t := by
  unfold rmFails at hs
  split at hs
  · rename_i hitList jobs hstage
    rw [Option.ite_none_right_eq_some] at hs
    obtain rfl := Option.some.inj hs.2
    exact .rmFails r hr hitList jobs hstage job hs.1 gone
  all_goals cases hs

theorem effect_of_commitRun (hr : r ∈ s.runs) (hs : s.commitRun r = some t) :
    Effect dt s e t := by
  unfold commitRun at hs
  split at hs
  · rename_i hstage
    obtain rfl := Option.some.inj hs
    exact .commitRun e r hr hstage
  all_goals cases hs

theorem effect_of_finishRun (hr : r ∈ s.runs) (hs : s.finishRun r = some t) :
    Effect dt s e t := by
  unfold finishRun at hs
  split at hs
  · rename_i hstage
    rw [Option.ite_none_right_eq_some] at hs
    obtain rfl := Option.some.inj hs.2
    exact .finishRun e r hr hstage
  all_goals cases hs

theorem effect_of_step [DecidableEq κ] (hs : step dt s e = some t) : Effect dt s e t := by
  cases e with
  | tick =>
    obtain rfl := Option.some.inj hs
    exact .tick
  | create v =>
    unfold step create at hs
    rw [Option.ite_none_right_eq_some] at hs
    obtain rfl := Option.some.inj hs.2
    exact .create v hs.1
  | clone id baseId idx =>
    obtain ⟨x, hx, -, hs⟩ := onSession_eq_some.mp hs
    obtain ⟨op, hop, rfl⟩ := looked_clone hs
    exact .lookup _ x hx op hop
  | dedup id idx checksum size pick =>
    obtain ⟨x, hx, -, hs⟩ := onSession_eq_some.mp hs
    obtain ⟨op, hop, rfl⟩ := looked_dedup hs
    exact .lookup _ x hx op hop
  | sparse id idx size =>
    obtain ⟨x, hx, -, hs⟩ := onSession_eq_some.mp hs
    obtain rfl := Option.some.inj hs
    exact .sparse _ x hx idx size
  | write id idx =>
    obtain ⟨x, hx, -, hs⟩ := onSession_eq_some.mp hs
    unfold write at hs
    split_ifs at hs with hi
    obtain rfl := Option.some.inj hs
    exact .write _ x hx idx hi
  | collect id idx checksum size =>
    obtain ⟨x, hx, -, hs⟩ := onSession_eq_some.mp hs
    unfold collect at hs
    rw [Option.ite_none_right_eq_some] at hs
    obtain rfl := Option.some.inj hs.2
    exact .collect _ x hx idx hs.1 checksum size
  | commit id =>
    obtain ⟨x, hx, rfl, hf⟩ := onSession_eq_some.mp hs
    unfold State.commit at hf
    rw [Option.ite_none_right_eq_some] at hf
    obtain ⟨⟨hv, hlive⟩, hf⟩ := hf
    obtain rfl := Option.some.inj hf
    exact .commit x hx hv hlive
  | close id =>
    obtain ⟨x, hx, -, hs⟩ := onSession_eq_some.mp hs
    obtain rfl := Option.some.inj hs
    exact .close _ x
  | removeVersion id date =>
    unfold step State.removeVersion at hs
    cases hv : s.db.versions.find? id with
    | none => simp [hv] at hs
    | some v =>
      simp only [hv, Option.ite_none_right_eq_some] at hs
      obtain rfl := Option.some.inj hs.2
      obtain ⟨hmem, rfl⟩ := Table.find?_eq_some.mp hv
      exact .removeVersion v date hmem
  | startRun storageId =>
    unfold step State.startRun at hs
    cases hr : s.runs.find? storageId with
    | some r => simp [hr] at hs
    | none =>
      simp only [hr] at hs
      obtain rfl := Option.some.inj hs
      exact .startRun _ storageId hr
  | select storageId ids =>
    obtain ⟨r, hr, rfl, hf⟩ := onRun_eq_some.mp hs
    exact effect_of_select hr hf
  | check storageId =>
    obtain ⟨r, hr, rfl, hf⟩ := onRun_eq_some.mp hs
    exact effect_of_check hr hf
  | dropFalsePositives storageId =>
    obtain ⟨r, hr, rfl, hf⟩ := onRun_eq_some.mp hs
    exact effect_of_dropFalsePositives hr hf
  | dropHits storageId =>
    obtain ⟨r, hr, rfl, hf⟩ := onRun_eq_some.mp hs
    exact effect_of_dropHits hr hf
  | submit storageId =>
    obtain ⟨r, hr, rfl, hf⟩ := onRun_eq_some.mp hs
    exact effect_of_submit hr hf
  | rmBlock storageId job =>
    obtain ⟨r, hr, rfl, hf⟩ := onRun_eq_some.mp hs
    exact effect_of_rmBlock hr hf
  | rmFails storageId job gone =>
    obtain ⟨r, hr, rfl, hf⟩ := onRun_eq_some.mp hs
    exact effect_of_rmFails hr hf
  | rmOrphan job =>
    unfold step State.rmOrphan at hs
    rw [Option.ite_none_right_eq_some] at hs
    obtain rfl := Option.some.inj hs.2
    exact .rmOrphan _ job hs.1
  | commitRun storageId =>
    obtain ⟨r, hr, rfl, hf⟩ := onRun_eq_some.mp hs
    exact effect_of_commitRun hr hf
  | finishRun storageId =>
    obtain ⟨r, hr, rfl, hf⟩ := onRun_eq_some.mp hs
    exact effect_of_finishRun hr hf

end Inversion

end Benji.Gc
