import Benji.Gc.Invariant

/-! No committed row loses its object, in any interleaving whose steps are careful. -/
namespace Benji.Gc
open Lib State

variable {κ : Type} {s t : State κ} {x : Session κ} {r : Run} {dt : ℕ} {e : Event κ}
  {uid : BlockUid}

/-- The objects of the rows that are committed in `s` are there in `t`. -/
def KeepsObjects (s t : State κ) : Prop :=
  ∀ b ∈ s.db.blocks, ∀ uid, b.uid = some uid → ∀ storage, s.db.inStorage storage b = true →
    (storage, uid) ∈ t.objects

section Careful

/-- The `deleted_blocks` rows of a removal bear the time of its commit. -/
def DatedAtCommit (s : State κ) (id : ℕ) (date : ℕ → ℕ) : Prop :=
  ∀ b ∈ s.db.blocks, b.versionId = id → date b.idx = s.now

/-- The next candidate is in use, or every one of its `deleted_blocks` rows is older than the
cut off date. -/
def CandidateIsOld (s : State κ) (storageId : Option ℕ) : Prop :=
  ∀ r ∈ s.runs, r.storageId = storageId → ∀ c ∈ r.stage.candidates.head?, s.inUse c.uid = false →
    ∀ d ∈ s.db.deletedBlocks, d.uid = c.uid → d.date < r.cutOffDate

/-- The false positives of the run are still in use. -/
def FalsePositivesInUse (s : State κ) (storageId : Option ℕ) : Prop :=
  ∀ r ∈ s.runs, r.storageId = storageId → ∀ uid ∈ r.stage.falsePositives, s.inUse uid = true

/-- Every uid of a committed row is in a row that the session of the backup sees. -/
def KeepsUids (s : State κ) (id : ℕ) : Prop :=
  ∀ x ∈ s.sessions, x.id = id → ∀ b ∈ s.db.blocks, ∀ uid ∈ b.uid,
    ∃ c ∈ (x.view s.db).blocks, c.uid = some uid

def Careful (s : State κ) : Event κ → Prop
  | .removeVersion id date => DatedAtCommit s id date
  | .check storageId => CandidateIsOld s storageId
  | .dropFalsePositives storageId => FalsePositivesInUse s storageId
  | .commit id => KeepsUids s id
  | _ => True

instance {e : Event κ} : Decidable (Careful s e) :=
  match e with
  | .removeVersion id date => inferInstanceAs
      (Decidable (∀ b ∈ s.db.blocks, b.versionId = id → date b.idx = s.now))
  | .check storageId => inferInstanceAs (Decidable (∀ r ∈ s.runs, r.storageId = storageId →
      ∀ c ∈ r.stage.candidates.head?, s.inUse c.uid = false →
        ∀ d ∈ s.db.deletedBlocks, d.uid = c.uid → d.date < r.cutOffDate))
  | .dropFalsePositives storageId => inferInstanceAs (Decidable (∀ r ∈ s.runs,
      r.storageId = storageId → ∀ uid ∈ r.stage.falsePositives, s.inUse uid = true))
  | .commit id => inferInstanceAs (Decidable (∀ x ∈ s.sessions, x.id = id → ∀ b ∈ s.db.blocks,
      ∀ uid ∈ b.uid, ∃ c ∈ (x.view s.db).blocks, c.uid = some uid))
  | .tick | .create _ | .clone _ _ _ | .dedup _ _ _ _ _ | .sparse _ _ _ | .write _ _
  | .collect _ _ _ _ | .close _ | .startRun _ | .select _ _ | .dropHits _ | .submit _
  | .rmBlock _ _ | .rmFails _ _ _ | .rmOrphan _ | .commitRun _ | .finishRun _ => isTrue trivial

end Careful

theorem inUse_eq_true : s.inUse uid = true ↔ ∃ b ∈ s.db.blocks, b.uid = some uid := by
  simp [inUse, Table.mem_def]

theorem inUse_eq_false : s.inUse uid = false ↔ ∀ b ∈ s.db.blocks, b.uid ≠ some uid := by
  simp [inUse, Table.mem_def]

/-- A committed row has the uid, or will have it if a backup commits in time. -/
def Needed (dt : ℕ) (s : State κ) (uid : BlockUid) : Prop :=
  (∃ b ∈ s.db.blocks, b.uid = some uid) ∨
    ∃ x ∈ s.sessions, x.Live dt s.now ∧ ∃ op ∈ x.ops, op.uid = some uid

/-- The object is there, and nobody is about to remove it. -/
def Stored (s : State κ) (uid : BlockUid) : Prop :=
  (s.home uid.left, uid) ∈ s.objects ∧ (∀ r ∈ s.runs, ∀ o ∈ r.stage.hits, o.2 ≠ uid) ∧
    ∀ o ∈ s.orphans, o.2 ≠ uid

/-- What keeps a uid that was looked up at `since` from being removed: a row, a
`deleted_blocks` row that is younger than the lookup, or that it is not known to anyone else. -/
def Protected (s : State κ) (since : ℕ) (uid : BlockUid) : Prop :=
  (∃ b ∈ s.db.blocks, b.uid = some uid) ∨
    (∃ d ∈ s.db.deletedBlocks, d.uid = uid ∧ since ≤ d.date ∧ ∀ r ∈ s.runs, d.id ∉ r.deleting) ∨
    uid ∉ s.referenced

structure Safe (dt : ℕ) (s : State κ) : Prop where
  cutOff : ∀ r ∈ s.runs, ∀ n < r.cutOffDate, n + dt < s.now
  stored : ∀ uid, Needed dt s uid → Stored s uid
  lookups : ∀ x ∈ s.sessions, x.Live dt s.now → ∀ op ∈ x.ops, ∀ uid, op.uid = some uid →
    Protected s op.since uid
  inFlight : ∀ x ∈ s.sessions, ∀ idx ∈ x.inFlight,
    (x.version.storage.id, blockUid x idx) ∈ s.objects

theorem not_done_of_inFlight {idx : ℕ} (h : idx ∈ x.inFlight) : ¬ Done x (blockUid x idx) := by
  rintro ⟨i, -, hn, hu⟩
  have hi : idx = i := by
    have := congrArg BlockUid.right hu
    simpa [blockUid] using this
  exact hn (hi ▸ h)

/-- Nobody else knows an object whose result has not been taken. -/
theorem Known.not_referenced (h : Known s) (hx : x ∈ s.sessions) {idx : ℕ}
    (hi : idx ∈ x.inFlight) : blockUid x idx ∉ s.referenced :=
  fun hu => not_done_of_inFlight hi ((h.referenced _ hu).2 x hx rfl)

theorem needed_of_op (hx : x ∈ s.sessions) (hl : x.Live dt s.now) {op : Op κ} (hop : op ∈ x.ops)
    (hu : op.uid = some uid) : Needed dt s uid := .inr ⟨x, hx, hl, op, hop, hu⟩

namespace Safe

theorem init : Safe dt (init : State κ) where
  cutOff _ h := absurd h Table.not_mem_empty
  stored _ h := by
    rcases h with ⟨b, hb, -⟩ | ⟨x, hx, -⟩
    · exact absurd hb Table.not_mem_empty
    · exact absurd hx Table.not_mem_empty
  lookups _ h := absurd h Table.not_mem_empty
  inFlight _ h := absurd h Table.not_mem_empty

theorem not_needed_of_hit (h : Safe dt s) (hr : r ∈ s.runs) {o : ℕ × BlockUid}
    (ho : o ∈ r.stage.hits) : ¬ Needed dt s o.2 :=
  fun hn => (h.stored _ hn).2.1 r hr o ho rfl

/-- A run goes on: it may put uids on its hit list that nobody needs, and delete
`deleted_blocks` rows whose uid is in use or that nobody needs. -/
theorem putRun (h : Safe dt s) (hcut : ∀ n < r.cutOffDate, n + dt < s.now)
    (hhits : ∀ o ∈ r.stage.hits, ¬ Needed dt s o.2)
    (hdel : ∀ d ∈ s.db.deletedBlocks, d.id ∈ r.deleting → (∀ r' ∈ s.runs, d.id ∉ r'.deleting) →
      (∃ b ∈ s.db.blocks, b.uid = some d.uid) ∨ ¬ Needed dt s d.uid) : Safe dt (s.putRun r) := by
  constructor
  · intro r' hr'
    rcases Table.mem_put.mp hr' with rfl | ⟨hr', -⟩
    · exact hcut
    · exact h.cutOff r' hr'
  · intro uid hn
    obtain ⟨ho, hh, hor⟩ := h.stored uid hn
    refine ⟨ho, ?_, hor⟩
    intro r' hr' o hmem
    rcases Table.mem_put.mp hr' with rfl | ⟨hr', -⟩
    · intro he
      exact hhits o hmem (he ▸ hn)
    · exact hh r' hr' o hmem
  · intro x hx hl op hop uid hu
    rcases h.lookups x hx hl op hop uid hu with hp | ⟨d, hd, rfl, hs, hfree⟩ | hp
    · exact .inl hp
    · by_cases hid : d.id ∈ r.deleting
      · rcases hdel d hd hid hfree with hrow | hn
        · exact .inl hrow
        · exact absurd (needed_of_op hx hl hop hu) hn
      · refine .inr (.inl ⟨d, hd, rfl, hs, ?_⟩)
        intro r' hr'
        rcases Table.mem_put.mp hr' with rfl | ⟨hr', -⟩
        · exact hid
        · exact hfree r' hr'
    · exact .inr (.inr hp)
  · exact h.inFlight

/-- A run that goes on without a `DELETE` and without new hits. -/
theorem advance (h : Safe dt s) (hr : r ∈ s.runs) {stage : Stage}
    (hsub : ∀ o ∈ stage.hits, ¬ Needed dt s o.2) :
    Safe dt (s.putRun { r with stage := stage }) :=
  h.putRun (h.cutOff r hr) hsub fun _ _ hid hfree => absurd hid (hfree r hr)

theorem removeObject (h : Safe dt s) (hk : Known s) {job : ℕ × BlockUid}
    (hn : ¬ Needed dt s job.2) (href : Referenced s job) : Safe dt (s.removeObject job) := by
  refine ⟨h.cutOff, ?_, h.lookups, ?_⟩
  · intro uid hu
    obtain ⟨ho, hrest⟩ := h.stored uid hu
    refine ⟨List.mem_filter.mpr ⟨ho, ?_⟩, hrest⟩
    refine decide_eq_true ?_
    intro he
    apply hn
    rw [← he]
    exact hu
  · intro x hx idx hi
    refine List.mem_filter.mpr ⟨h.inFlight x hx idx hi, decide_eq_true ?_⟩
    intro he
    apply hk.not_referenced hx hi
    rw [← he] at href
    exact href.1

/-- The commit of a run's session takes away only rows that protect nobody. -/
theorem commitDeleting (h : Safe dt s) (hr : r ∈ s.runs) : Safe dt (s.commitDeleting r) := by
  refine ⟨h.cutOff, h.stored, ?_, h.inFlight⟩
  intro x hx hl op hop uid hu
  rcases h.lookups x hx hl op hop uid hu with hp | ⟨d, hd, hdu, hs, hfree⟩ | hp
  · exact .inl hp
  · have hnot := hfree r hr
    exact .inr (.inl ⟨d, Table.mem_filter.mpr ⟨hd, by simpa using hnot⟩, hdu, hs, hfree⟩)
  · exact .inr (.inr hp)

theorem endRun (h : Safe dt s) (hr : r ∈ s.runs) : Safe dt (s.endRun r) := by
  have hc := h.commitDeleting hr
  refine ⟨fun r' hr' => hc.cutOff r' (Table.mem_erase.mp hr').1, ?_, ?_, hc.inFlight⟩
  · intro uid hu
    obtain ⟨ho, hh, hor⟩ := hc.stored uid hu
    exact ⟨ho, fun r' hr' => hh r' (Table.mem_erase.mp hr').1, hor⟩
  · intro x hx hl op hop uid hu
    refine (hc.lookups x hx hl op hop uid hu).imp_right (Or.imp_left ?_)
    rintro ⟨d, hd, hdu, hs, hfree⟩
    exact ⟨d, hd, hdu, hs, fun r' hr' => hfree r' (Table.mem_erase.mp hr').1⟩

theorem withOrphans (h : Safe dt s) {orphans : List (ℕ × BlockUid)}
    (hn : ∀ o ∈ orphans, ¬ Needed dt s o.2) : Safe dt { s with orphans := orphans } := by
  refine ⟨h.cutOff, ?_, h.lookups, h.inFlight⟩
  intro uid hu
  obtain ⟨ho, hh, -⟩ := h.stored uid hu
  refine ⟨ho, hh, ?_⟩
  rintro o hmem rfl
  exact hn o hmem hu

/-- A session whose rows are protected and stored goes on. -/
theorem putSession (h : Safe dt s) (hops : x.Live dt s.now → ∀ op ∈ x.ops, ∀ uid,
      op.uid = some uid → Protected s op.since uid ∧ Stored s uid)
    (hfl : ∀ idx ∈ x.inFlight, (x.version.storage.id, blockUid x idx) ∈ s.objects) :
    Safe dt (s.putSession x) := by
  refine ⟨h.cutOff, ?_, ?_, ?_⟩
  · rintro uid (hrow | ⟨y, hy, hl, op, hop, hu⟩)
    · exact h.stored uid (.inl hrow)
    · rcases Table.mem_put.mp hy with rfl | ⟨hy, -⟩
      · exact (hops hl op hop uid hu).2
      · exact h.stored uid (needed_of_op hy hl hop hu)
  · intro y hy hl op hop uid hu
    rcases Table.mem_put.mp hy with rfl | ⟨hy, -⟩
    · exact (hops hl op hop uid hu).1
    · exact h.lookups y hy hl op hop uid hu
  · intro y hy
    rcases Table.mem_put.mp hy with rfl | ⟨hy, -⟩
    · exact hfl
    · exact h.inFlight y hy

theorem of_session (h : Safe dt s) (hx : x ∈ s.sessions) (hl : x.Live dt s.now) {op : Op κ}
    (hop : op ∈ x.ops) (hu : op.uid = some uid) : Protected s op.since uid ∧ Stored s uid :=
  ⟨h.lookups x hx hl op hop uid hu, h.stored uid (needed_of_op hx hl hop hu)⟩

theorem addOp (h : Safe dt s) (hx : x ∈ s.sessions) {op : Op κ}
    (hop : x.Live dt s.now → ∀ uid, op.uid = some uid → Protected s op.since uid ∧ Stored s uid) :
    Safe dt (s.putSession (x.addOp op)) := by
  refine h.putSession ?_ (h.inFlight x hx)
  intro hl op' hop' uid hu
  have hl' : x.Live dt s.now := fun o ho => hl o (List.mem_append_left _ ho)
  rcases List.mem_append.mp hop' with hmem | hmem
  · exact h.of_session hx hl' hmem hu
  · rw [List.mem_singleton.mp hmem] at hu ⊢
    exact hop hl' uid hu

/-- A uid that was looked up is protected by what it was found in. -/
theorem of_looked (h : Safe dt s) (hx : x ∈ s.sessions) {op : Op κ} (hop : Looked s x op)
    (hl : x.Live dt s.now) (hu : op.uid = some uid) :
    Protected s op.since uid ∧ Stored s uid := by
  rcases hop with ⟨op', hmem, hu', hs⟩ | ⟨-, b, hb, hbu, -⟩
  · rw [← hs]
    exact h.of_session hx hl hmem (hu'.trans hu)
  · have hrow : ∃ b ∈ s.db.blocks, b.uid = some uid := ⟨b, hb, hbu.trans hu⟩
    exact ⟨.inl hrow, h.stored uid (.inl hrow)⟩

theorem commit (h : Safe dt s) (hx : x ∈ s.sessions) (hlive : x.Live dt s.now)
    (hkeep : KeepsUids s x.id) : Safe dt { s.putSession { x with ops := [] } with
      db := { s.db with blocks := applyOps s.db.blocks x.version x.ops }
      referenced := (applyOps s.db.blocks x.version x.ops).rows.filterMap Block.uid ++
        s.referenced } := by
  refine ⟨h.cutOff, ?_, ?_, ?_⟩
  · rintro uid (⟨b, hb, hu⟩ | ⟨y, hy, hl, op, hop, hu⟩)
    · rcases mem_applyOps hb with hb | ⟨op, hop, rfl⟩
      · exact h.stored uid (.inl ⟨b, hb, hu⟩)
      · exact h.stored uid (needed_of_op hx hlive hop hu)
    · rcases Table.mem_put.mp hy with rfl | ⟨hy, -⟩
      · exact absurd hop List.not_mem_nil
      · exact h.stored uid (needed_of_op hy hl hop hu)
  · intro y hy hl op hop uid hu
    rcases Table.mem_put.mp hy with rfl | ⟨hy, -⟩
    · exact absurd hop List.not_mem_nil
    · rcases h.lookups y hy hl op hop uid hu with ⟨b, hb, hbu⟩ | hp | hp
      · exact .inl (hkeep x hx rfl b hb uid hbu)
      · exact .inr (.inl hp)
      · by_cases hnew : uid ∈ (applyOps s.db.blocks x.version x.ops).rows.filterMap Block.uid
        · exact .inl (List.mem_filterMap.mp hnew)
        · refine .inr (.inr ?_)
          intro hc
          rcases List.mem_append.mp hc with hc | hc
          · exact hnew hc
          · exact hp hc
  · intro y hy
    rcases Table.mem_put.mp hy with rfl | ⟨hy, -⟩
    · exact h.inFlight x hx
    · exact h.inFlight y hy

theorem removeVersion (h : Safe dt s) (hk : Known s) (hlocks : RowLocks s) {v : Version}
    {date : ℕ → ℕ} (hdate : DatedAtCommit s v.id date) :
    Safe dt { s with db := s.db.removeVersion v date } := by
  refine ⟨h.cutOff, ?_, ?_, h.inFlight⟩
  · rintro uid (⟨b, hb, hu⟩ | hop)
    · exact h.stored uid (.inl ⟨b, (Database.mem_blocks_removeVersion.mp hb).1, hu⟩)
    · exact h.stored uid (.inr hop)
  · intro x hx hl op hop uid hu
    rcases h.lookups x hx hl op hop uid hu with ⟨b, hb, hbu⟩ | ⟨d, hd, hrest⟩ | hp
    · by_cases hv : b.versionId = v.id
      · -- The row is gone, and its `deleted_blocks` row is as young as can be.
        obtain ⟨d, hd, hdu, -, hdate', hnew⟩ :=
          Database.exists_deletedBlock_of_removed date hb hv hbu
        refine .inr (.inl ⟨d, hd, hdu, ?_, ?_⟩)
        · rw [hdate', hdate b hb hv]
          exact ((hk.sessions x hx).2.2.2 op hop).1
        · intro r hr hid
          obtain ⟨d', hd', he⟩ := hlocks.exists_row r hr d.id hid
          exact absurd he (Nat.ne_of_lt (hnew d' hd'))
      · exact .inl ⟨b, Database.mem_blocks_removeVersion.mpr ⟨hb, hv⟩, hbu⟩
    · exact .inr (.inl ⟨d, Database.mem_deletedBlocks_removeVersion hd, hrest⟩)
    · exact .inr (.inr hp)

/-- The heart of the matter: a uid that goes to the hit list is needed by nobody. -/
theorem not_needed_of_candidate (h : Safe dt s) (hk : Known s) (hr : r ∈ s.runs)
    {c : DeletedBlock} (hc : c ∈ r.stage.candidates)
    (hold : ∀ d ∈ s.db.deletedBlocks, d.uid = c.uid → d.date < r.cutOffDate)
    (hu : ∀ b ∈ s.db.blocks, b.uid ≠ some c.uid) : ¬ Needed dt s c.uid := by
  rintro (⟨b, hb, hbu⟩ | ⟨x, hx, hl, op, hop, hop'⟩)
  · exact hu b hb hbu
  · rcases h.lookups x hx hl op hop _ hop' with ⟨b, hb, hbu⟩ | ⟨d, hd, hdu, hs, -⟩ | hp
    · exact hu b hb hbu
    · have hcut := h.cutOff r hr d.date (hold d hd hdu)
      have hlive := hl op hop
      omega
    · exact hp ((hk.runs r hr).1 c hc).1

theorem tick (h : Safe dt s) : Safe dt { s with now := s.now + 1 } := by
  have hlive : ∀ {y : Session κ}, y.Live dt (s.now + 1) → y.Live dt s.now := by
    intro y hl op hop
    have := hl op hop
    omega
  refine ⟨fun r hr n hn => Nat.lt_succ_of_lt (h.cutOff r hr n hn), ?_, ?_, h.inFlight⟩
  · rintro uid (hrow | ⟨y, hy, hl, hop⟩)
    · exact h.stored uid (.inl hrow)
    · exact h.stored uid (.inr ⟨y, hy, hlive hl, hop⟩)
  · exact fun y hy hl => h.lookups y hy (hlive hl)

theorem create (h : Safe dt s) (hk : Known s) {v : Version} (hv : v.id = s.nextId) : Safe dt
    { s with
      nextId := s.nextId + 1
      db := { s.db with versions := s.db.versions.put v }
      sessions := s.sessions.put { version := v }
      home := Function.update s.home v.id v.storage.id } := by
  have hput := h.putSession (x := { version := v }) (fun _ _ hop => absurd hop List.not_mem_nil)
    fun _ hi => absurd hi List.not_mem_nil
  refine ⟨h.cutOff, ?_, hput.lookups, hput.inFlight⟩
  intro uid hn
  obtain ⟨ho, hrest⟩ := hput.stored uid hn
  refine ⟨?_, hrest⟩
  have hlt : uid.left < s.nextId := (hk.objects _ ho).2
  have hhome : Function.update s.home v.id v.storage.id uid.left = s.home uid.left :=
    Function.update_of_ne (by omega) _ _
  show (Function.update s.home v.id v.storage.id uid.left, uid) ∈ s.objects
  rw [hhome]
  exact ho

theorem addObject (h : Safe dt s) (o : ℕ × BlockUid) :
    Safe dt { s with objects := o :: s.objects } :=
  ⟨h.cutOff, fun uid hn => ⟨List.mem_cons_of_mem _ (h.stored uid hn).1, (h.stored uid hn).2⟩,
    h.lookups, fun x hx idx hi => List.mem_cons_of_mem _ (h.inFlight x hx idx hi)⟩

theorem write (h : Safe dt s) (hx : x ∈ s.sessions) {idx : ℕ} : Safe dt { s.putSession { x with
      handled := idx :: x.handled, inFlight := idx :: x.inFlight } with
    objects := (x.version.storage.id, blockUid x idx) :: s.objects } := by
  have hobj := h.addObject (x.version.storage.id, blockUid x idx)
  refine hobj.putSession (x := { x with
    handled := idx :: x.handled, inFlight := idx :: x.inFlight }) ?_ ?_
  · exact fun hl op hop uid hu => hobj.of_session hx hl hop hu
  · intro i hi
    rcases List.mem_cons.mp hi with rfl | hi
    · exact List.mem_cons_self
    · exact hobj.inFlight x hx i hi

/-- An object that nobody else knows is safe from everybody. -/
theorem collect (h : Safe dt s) (hk : Known s) (hx : x ∈ s.sessions) {idx : ℕ}
    (hi : idx ∈ x.inFlight) {checksum : κ} {size : ℕ} : Safe dt (s.putSession
      { x.addOp ⟨idx, some (blockUid x idx), some checksum, size, true, s.now⟩ with
        inFlight := x.inFlight.filter fun i => i ≠ idx }) := by
  have hnew := hk.not_referenced hx hi
  have hobj := h.inFlight x hx idx hi
  rw [(hk.sessions x hx).2.1] at hobj
  refine h.putSession ?_ fun i hmem => h.inFlight x hx i (List.mem_filter.mp hmem).1
  intro hl op hop uid hu
  rcases List.mem_append.mp hop with hop | hop
  · exact h.of_session hx (fun o ho => hl o (List.mem_append_left _ ho)) hop hu
  · rw [List.mem_singleton.mp hop] at hu
    obtain rfl := Option.some.inj hu
    refine ⟨.inr (.inr hnew), hobj, ?_, ?_⟩
    · intro r hr o ho he
      exact hnew (he ▸ ((hk.runs r hr).2 o ho).1)
    · intro o ho he
      exact hnew (he ▸ (hk.orphans o ho).1)

theorem close (h : Safe dt s) : Safe dt { s with sessions := s.sessions.erase x.id } := by
  refine ⟨h.cutOff, ?_, fun y hy => h.lookups y (Table.mem_erase.mp hy).1,
    fun y hy => h.inFlight y (Table.mem_erase.mp hy).1⟩
  rintro uid (hrow | ⟨y, hy, hop⟩)
  · exact h.stored uid (.inl hrow)
  · exact h.stored uid (.inr ⟨y, (Table.mem_erase.mp hy).1, hop⟩)

theorem afterDelete (h : Safe dt s) (hr : r ∈ s.runs) {uids : List BlockUid} {next : Stage}
    (hhits : ∀ o ∈ next.hits, ¬ Needed dt s o.2)
    (hdel : ∀ uid ∈ uids, (∃ b ∈ s.db.blocks, b.uid = some uid) ∨ ¬ Needed dt s uid) :
    Safe dt (s.putRun (r.afterDelete s uids next)) := by
  refine h.putRun (h.cutOff r hr) hhits ?_
  intro d hd hid hnew
  rcases List.mem_append.mp hid with hid | hid
  · obtain ⟨d', hd', he⟩ := List.mem_map.mp hid
    obtain ⟨hd', hu⟩ := List.mem_filter.mp hd'
    obtain rfl := Table.eq_of_key_eq hd' hd he
    exact hdel _ (by simpa using hu)
  · exact absurd hid (hnew r hr)

theorem not_needed_of_orphan (h : Safe dt s) {o : ℕ × BlockUid} (ho : o ∈ s.orphans) :
    ¬ Needed dt s o.2 := fun hn => (h.stored _ hn).2.2 o ho rfl

/-- The third invariant; `Careful` is used where a removal, a check, a false positive or a
commit could break it. -/
theorem effect (h : Safe dt s) (hk : Known s) (hlocks : RowLocks s) (hok : Careful s e)
    (he : Effect dt s e t) : Safe dt t := by
  cases he with
  | tick => exact h.tick
  | create v hv => exact h.create hk hv
  | lookup _ x hx op hop => exact h.addOp hx fun hl uid hu => h.of_looked hx hop hl hu
  | sparse _ x hx idx size => exact h.addOp hx fun _ uid hu => absurd hu nofun
  | write _ x hx idx hi => exact h.write hx
  | collect _ x hx idx hi checksum size => exact h.collect hk hx hi
  | commit x hx hv hlive => exact h.commit hx hlive hok
  | close _ x => exact h.close
  | removeVersion v date hv => exact h.removeVersion hk hlocks hok
  | startRun _ storageId hr =>
    refine h.putRun ?_ (fun _ ho => absurd ho List.not_mem_nil)
      fun _ _ hid => absurd hid List.not_mem_nil
    intro n hn
    have : n < s.now - dt := hn
    omega
  | select _ r hr hstage candidates hc => exact h.advance hr fun _ ho => absurd ho List.not_mem_nil
  | falsePositive _ r hr c candidates falsePositives hitList hstage =>
    refine h.advance hr ?_
    intro o ho
    exact h.not_needed_of_hit hr (by rw [hstage]; exact ho)
  | hit r hr c candidates falsePositives hitList hstage hu =>
    refine h.advance hr ?_
    intro o ho
    rcases List.mem_insert_iff.mp ho with rfl | ho
    · have hmem : c ∈ r.stage.candidates := by
        rw [hstage]
        exact List.mem_cons_self
      have hold := hok r hr rfl c (by rw [hstage]; rfl) (inUse_eq_false.mpr hu)
      exact h.not_needed_of_candidate hk hr hmem hold hu
    · exact h.not_needed_of_hit hr (by rw [hstage]; exact ho)
  | dropFalsePositives r hr falsePositives hitList hstage hfree =>
    refine h.afterDelete hr ?_ ?_
    · intro o ho
      exact h.not_needed_of_hit hr (by rw [hstage]; exact ho)
    · intro uid hmem
      exact .inl (inUse_eq_true.mp (hok r hr rfl uid (by rw [hstage]; exact hmem)))
  | noHits _ r hr hstage => exact h.advance hr fun _ ho => absurd ho List.not_mem_nil
  | dropHits _ r hr hitList hstage hfree =>
    have hnot : ∀ o ∈ hitList, ¬ Needed dt s o.2 :=
      fun o ho => h.not_needed_of_hit hr (by rw [hstage]; exact ho)
    refine h.afterDelete hr ?_ ?_
    · intro o ho
      exact hnot o (by simpa [Stage.hits] using ho)
    · intro uid hmem
      obtain ⟨o, ho, rfl⟩ := List.mem_map.mp hmem
      exact .inr (hnot o ho)
  | submit _ r hr hitList st hstage =>
    refine h.advance hr ?_
    intro o ho
    refine h.not_needed_of_hit hr ?_
    rw [hstage]
    refine List.mem_append_left _ ?_
    rcases List.mem_append.mp ho with ho | ho
    · exact (List.mem_filter.mp ho).1
    · exact (List.mem_filter.mp ho).1
  | rmBlock _ r hr hitList jobs hstage job hj =>
    have hhit : ∀ o ∈ hitList ++ jobs, o ∈ r.stage.hits := by
      intro o ho
      rw [hstage]
      exact ho
    have hmem := hhit job (List.mem_append_right _ hj)
    have hrm := h.removeObject hk (h.not_needed_of_hit hr hmem) ((hk.runs r hr).2 job hmem)
    refine hrm.advance hr ?_
    intro o ho
    refine h.not_needed_of_hit hr (hhit o ?_)
    rcases List.mem_append.mp ho with ho | ho
    · exact List.mem_append_left _ ho
    · exact List.mem_append_right _ (List.mem_filter.mp ho).1
  | rmFails r hr hitList jobs hstage job hj gone =>
    have hhit : ∀ o ∈ jobs, o ∈ r.stage.hits := by
      intro o ho
      rw [hstage]
      exact List.mem_append_right _ ho
    have hall : ∀ o ∈ s.orphans ++ jobs.filter (fun j => j ≠ job), ¬ Needed dt s o.2 := by
      intro o ho
      rcases List.mem_append.mp ho with ho | ho
      · exact h.not_needed_of_orphan ho
      · exact h.not_needed_of_hit hr (hhit o (List.mem_filter.mp ho).1)
    cases gone with
    | false => exact (h.endRun hr).withOrphans hall
    | true =>
      have hmem := hhit job hj
      have hrm := h.removeObject hk (h.not_needed_of_hit hr hmem) ((hk.runs r hr).2 job hmem)
      exact (hrm.endRun hr).withOrphans hall
  | rmOrphan _ job hj =>
    have hrm := h.removeObject hk (h.not_needed_of_orphan hj) (hk.orphans job hj)
    exact hrm.withOrphans fun o ho => h.not_needed_of_orphan (List.mem_filter.mp ho).1
  | commitRun _ r hr hstage =>
    exact (h.commitDeleting hr).putRun (h.cutOff r hr) (fun _ ho => absurd ho List.not_mem_nil)
      fun _ _ hid => absurd hid List.not_mem_nil
  | finishRun _ r hr hstage => exact h.endRun hr

theorem eq_of_removed {objects : List (ℕ × BlockUid)} {o job : ℕ × BlockUid}
    (ho : o ∈ objects) (hno : o ∉ objects.filter fun o => o ≠ job) : o = job := by
  by_contra hne
  exact hno (List.mem_filter.mpr ⟨ho, decide_eq_true hne⟩)

/-- An object that a step removes is needed by nobody. -/
theorem not_needed_of_removed (h : Safe dt s) (he : Effect dt s e t) {o : ℕ × BlockUid}
    (ho : o ∈ s.objects) (hno : o ∉ t.objects) : ¬ Needed dt s o.2 := by
  cases he with
  | tick => exact absurd ho hno
  | create v hv => exact absurd ho hno
  | lookup _ x hx op hop => exact absurd ho hno
  | sparse _ x hx idx size => exact absurd ho hno
  | write _ x hx idx hi => exact absurd (List.mem_cons_of_mem _ ho) hno
  | collect _ x hx idx hi checksum size => exact absurd ho hno
  | commit x hx hv hlive => exact absurd ho hno
  | close _ x => exact absurd ho hno
  | removeVersion v date hv => exact absurd ho hno
  | startRun _ storageId hr => exact absurd ho hno
  | select _ r hr hstage candidates hc => exact absurd ho hno
  | falsePositive _ r hr c candidates falsePositives hitList hstage => exact absurd ho hno
  | hit r hr c candidates falsePositives hitList hstage hu => exact absurd ho hno
  | dropFalsePositives r hr falsePositives hitList hstage hfree => exact absurd ho hno
  | noHits _ r hr hstage => exact absurd ho hno
  | dropHits _ r hr hitList hstage hfree => exact absurd ho hno
  | submit _ r hr hitList st hstage => exact absurd ho hno
  | rmBlock _ r hr hitList jobs hstage job hj =>
    obtain rfl := eq_of_removed ho hno
    refine h.not_needed_of_hit hr ?_
    rw [hstage]
    exact List.mem_append_right _ hj
  | rmFails r hr hitList jobs hstage job hj gone =>
    cases gone with
    | false => exact absurd ho hno
    | true =>
      obtain rfl := eq_of_removed ho hno
      refine h.not_needed_of_hit hr ?_
      rw [hstage]
      exact List.mem_append_right _ hj
  | rmOrphan _ job hj =>
    obtain rfl := eq_of_removed ho hno
    exact h.not_needed_of_orphan hj
  | commitRun _ r hr hstage => exact absurd ho hno
  | finishRun _ r hr hstage => exact absurd ho hno

end Safe

/-- The three invariants together, along a run of careful steps. -/
theorem safe_of_steps [DecidableEq κ] (h : Steps (step dt) Careful init s) :
    Known s ∧ RowLocks s ∧ Safe dt s := by
  refine h.invariant (I := fun s => Known s ∧ RowLocks s ∧ Safe dt s)
    ⟨.init, .init, .init⟩ ?_
  rintro s e t ⟨hk, hl, hs⟩ hok hstep
  have he := effect_of_step hstep
  exact ⟨hk.effect he, hl.effect he, hs.effect hk hl hok he⟩

/-- In every interleaving of backups, removals, `cleanup` and `clean` whose steps are careful,
every committed row has its object, and no further careful step removes it. -/
theorem gc_keeps_objects [DecidableEq κ] (h : Steps (step dt) Careful init s) :
    KeepsObjects s s ∧ ∀ e t, step dt s e = some t → KeepsObjects s t := by
  obtain ⟨hk, -, hs⟩ := safe_of_steps h
  have hself : KeepsObjects s s := by
    intro b hb uid hu storage hst
    rw [hk.home_of_inStorage hb hu hst]
    exact (hs.stored uid (.inl ⟨b, hb, hu⟩)).1
  refine ⟨hself, ?_⟩
  intro e t hstep b hb uid hu storage hst
  by_contra hno
  exact hs.not_needed_of_removed (effect_of_step hstep) (hself b hb uid hu storage hst) hno
    (.inl ⟨b, hb, hu⟩)

section Example

def firstVersion : Version := ⟨1, "v1", ⟨1, "file"⟩, 2, 2, .incomplete, none⟩

def secondVersion : Version := ⟨2, "v2", ⟨1, "file"⟩, 2, 2, .incomplete, none⟩

/-- Version 1 has been backed up. -/
def firstBackup : List (Event Bytes) :=
  [.create firstVersion, .write 1 0, .collect 1 0 [7, 8] 2, .commit 1, .close 1]

/-- While version 1 is removed and its storage is cleaned, version 2 is backed up: it finds the
block before the removal and commits its row before the object goes. -/
def cleanDuringBackup : List (Event Bytes) :=
  firstBackup ++ [.create secondVersion, .dedup 2 0 [7, 8] 2 0, .removeVersion 1 fun _ => 0,
    .startRun (some 1), .select (some 1) [], .check (some 1), .commit 2,
    .dropFalsePositives (some 1), .dropHits (some 1), .submit (some 1),
    .rmBlock (some 1) (1, ⟨1, 1⟩)]

/-- A `clean` takes no notice of how long a block has been unused. -/
theorem clean_removes_referenced :
    ∃ s : State Bytes, Reaches (step 3600) init s ∧ ¬ KeepsObjects s s := by
  have hrun : (run (step 3600) init cleanDuringBackup).any (fun s => s.objects = [] ∧
      s.db.blocks.rows = [⟨2, 0, some ⟨1, 1⟩, some [7, 8], 2, true⟩] ∧
      s.db.versions.rows = [secondVersion]) = true := by
    decide +kernel
  obtain ⟨s, hs, hf⟩ := exists_reaches_of_run hrun
  obtain ⟨hobj, hblocks, hversions⟩ := of_decide_eq_true hf
  refine ⟨s, hs, ?_⟩
  intro hkeep
  have hmem : (⟨2, 0, some ⟨1, 1⟩, some [7, 8], 2, true⟩ : Block Bytes) ∈ s.db.blocks := by
    rw [Table.mem_def, hblocks]
    exact List.mem_singleton_self _
  have hfind : s.db.versions.find? 2 = some secondVersion := by
    rw [Table.find?, hversions]
    rfl
  have hin := hkeep _ hmem ⟨1, 1⟩ rfl 1 (by rw [Database.inStorage, hfind]; rfl)
  rw [hobj] at hin
  exact absurd hin List.not_mem_nil

/-- A `clean` removes the block of version 1, long after the version was removed. -/
def removeAndClean : List (Event Bytes) :=
  firstBackup ++ [.removeVersion 1 fun _ => 0, .tick, .tick, .startRun (some 1),
    .select (some 1) [], .check (some 1), .dropFalsePositives (some 1), .dropHits (some 1),
    .submit (some 1), .rmBlock (some 1) (1, ⟨1, 1⟩), .commitRun (some 1), .finishRun (some 1)]

theorem gc_keeps_objects_example : ∃ s : State Bytes, s.objects = [] ∧ KeepsObjects s s ∧
    ∀ e t, step 1 s e = some t → KeepsObjects s t := by
  have hrun : (runIf (step 1) Careful init removeAndClean).any
      (fun s => s.objects = []) = true := by
    decide +kernel
  obtain ⟨s, hs, hf⟩ := exists_steps_of_runIf hrun
  exact ⟨s, of_decide_eq_true hf, gc_keeps_objects hs⟩

end Example

end Benji.Gc
