import Benji.Gc.Effect

/-! What holds in every state: which uids there are, which storage they belong to, and which
`deleted_blocks` rows a session has in its hands. -/
namespace Benji.Gc
open Lib State

variable {κ : Type} {s t : State κ} {x y : Session κ} {r : Run} {dt : ℕ} {e : Event κ}

/-- The uid of a block whose write the backup has finished with. -/
def Done (x : Session κ) (uid : BlockUid) : Prop :=
  ∃ idx ∈ x.handled, idx ∉ x.inFlight ∧ uid = blockUid x idx

/-- The uid has been in a committed row, and this is the storage of its object. -/
def Referenced (s : State κ) (o : ℕ × BlockUid) : Prop :=
  o.2 ∈ s.referenced ∧ o.1 = s.home o.2.left

def SessionOk (s : State κ) (x : Session κ) : Prop :=
  x.id < s.nextId ∧ x.version.storage.id = s.home x.id ∧ (∀ idx ∈ x.inFlight, idx ∈ x.handled) ∧
    ∀ op ∈ x.ops, op.since ≤ s.now ∧
      ∀ uid, op.uid = some uid → Referenced s (x.version.storage.id, uid) ∨ Done x uid

def Stage.candidates : Stage → List DeletedBlock
  | select => []
  | check candidates _ _ => candidates
  | dropHits _ => []
  | remove _ _ => []

/-- The false positives of a round in which every candidate has been checked. -/
def Stage.falsePositives : Stage → List BlockUid
  | select => []
  | check [] falsePositives _ => falsePositives
  | check (_ :: _) _ _ => []
  | dropHits _ => []
  | remove _ _ => []

def RunOk (s : State κ) (r : Run) : Prop :=
  (∀ c ∈ r.stage.candidates, Referenced s (c.storageId, c.uid)) ∧
    ∀ o ∈ r.stage.hits, Referenced s o

structure Known (s : State κ) : Prop where
  versions : ∀ v ∈ s.db.versions, v.id < s.nextId
  rows : ∀ b ∈ s.db.blocks, ∀ uid, b.uid = some uid → uid ∈ s.referenced ∧
    ∃ v ∈ s.db.versions, v.id = b.versionId ∧ v.storage.id = s.home uid.left
  referenced : ∀ uid ∈ s.referenced, uid.left < s.nextId ∧
    ∀ x ∈ s.sessions, x.id = uid.left → Done x uid
  sessions : ∀ x ∈ s.sessions, SessionOk s x
  deleted : ∀ d ∈ s.db.deletedBlocks, Referenced s (d.storageId, d.uid)
  runs : ∀ r ∈ s.runs, RunOk s r
  orphans : ∀ o ∈ s.orphans, Referenced s o
  objects : ∀ o ∈ s.objects, o.1 = s.home o.2.left ∧ o.2.left < s.nextId

theorem Done.left_eq {uid : BlockUid} (h : Done x uid) : uid.left = x.id := by
  obtain ⟨idx, -, -, rfl⟩ := h
  rfl

namespace Known

theorem init : Known (init : State κ) where
  versions _ h := absurd h Table.not_mem_empty
  rows _ h := absurd h Table.not_mem_empty
  referenced _ h := absurd h List.not_mem_nil
  sessions _ h := absurd h Table.not_mem_empty
  deleted _ h := absurd h Table.not_mem_empty
  runs _ h := absurd h Table.not_mem_empty
  orphans _ h := absurd h List.not_mem_nil
  objects _ h := absurd h List.not_mem_nil

theorem putRun (h : Known s) (hr : RunOk s r) : Known (s.putRun r) := by
  refine ⟨h.versions, h.rows, h.referenced, h.sessions, h.deleted, ?_, h.orphans, h.objects⟩
  intro r' hr'
  rcases Table.mem_put.mp hr' with rfl | ⟨hmem, -⟩
  · exact hr
  · exact h.runs r' hmem

theorem putSession (h : Known s) (hx : SessionOk s x)
    (hd : ∀ uid ∈ s.referenced, x.id = uid.left → Done x uid) : Known (s.putSession x) := by
  refine ⟨h.versions, h.rows, ?_, ?_, h.deleted, h.runs, h.orphans, h.objects⟩
  · intro uid hu
    refine ⟨(h.referenced uid hu).1, ?_⟩
    intro y hy hid
    rcases Table.mem_put.mp hy with rfl | ⟨hmem, -⟩
    · exact hd uid hu hid
    · exact (h.referenced uid hu).2 y hmem hid
  · intro y hy
    rcases Table.mem_put.mp hy with rfl | ⟨hmem, -⟩
    · exact hx
    · exact h.sessions y hmem

theorem addOp (h : Known s) (hx : x ∈ s.sessions) {op : Op κ} (hs : op.since ≤ s.now)
    (hop : ∀ uid, op.uid = some uid → Referenced s (x.version.storage.id, uid) ∨ Done x uid) :
    Known (s.putSession (x.addOp op)) := by
  obtain ⟨hid, hhome, hfl, hops⟩ := h.sessions x hx
  refine h.putSession ⟨hid, hhome, hfl, ?_⟩ fun uid hu he => (h.referenced uid hu).2 x hx he
  intro op' hop'
  rcases List.mem_append.mp hop' with hmem | hmem
  · exact hops op' hmem
  · rw [List.mem_singleton.mp hmem]
    exact ⟨hs, hop⟩

theorem removeObject (h : Known s) (job : ℕ × BlockUid) : Known (s.removeObject job) :=
  ⟨h.versions, h.rows, h.referenced, h.sessions, h.deleted, h.runs, h.orphans,
    fun o ho => h.objects o (List.mem_filter.mp ho).1⟩

theorem commitDeleting (h : Known s) : Known (s.commitDeleting r) :=
  ⟨h.versions, h.rows, h.referenced, h.sessions,
    fun d hd => h.deleted d (Table.mem_filter.mp hd).1, h.runs, h.orphans, h.objects⟩

theorem endRun (h : Known s) : Known (s.endRun r) :=
  ⟨h.versions, h.rows, h.referenced, h.sessions,
    fun d hd => h.deleted d (Table.mem_filter.mp hd).1,
    fun r' hr' => h.runs r' (Table.mem_erase.mp hr').1, h.orphans, h.objects⟩

theorem withOrphans (h : Known s) {orphans : List (ℕ × BlockUid)}
    (ho : ∀ o ∈ orphans, Referenced s o) : Known { s with orphans := orphans } :=
  ⟨h.versions, h.rows, h.referenced, h.sessions, h.deleted, h.runs, ho, h.objects⟩

/-- The storage of a row is that of its uid. -/
theorem home_of_inStorage (h : Known s) {b : Block κ} {uid : BlockUid} {storage : ℕ}
    (hb : b ∈ s.db.blocks) (hu : b.uid = some uid) (hst : s.db.inStorage storage b = true) :
    storage = s.home uid.left := by
  obtain ⟨-, v, hv, hid, hhome⟩ := h.rows b hb uid hu
  have hf : s.db.versions.find? b.versionId = some v := Table.find?_eq_some.mpr ⟨hv, hid⟩
  rw [Database.inStorage, hf] at hst
  rw [← hhome]
  exact (of_decide_eq_true hst).symm

theorem of_looked (h : Known s) (hx : x ∈ s.sessions) {op : Op κ} (hop : Looked s x op) :
    op.since ≤ s.now ∧
      ∀ uid, op.uid = some uid → Referenced s (x.version.storage.id, uid) ∨ Done x uid := by
  rcases hop with ⟨op', hmem, hu, hs⟩ | ⟨hs, b, hb, hu, hst⟩
  · rw [← hu, ← hs]
    exact (h.sessions x hx).2.2.2 op' hmem
  · refine ⟨le_of_eq hs, ?_⟩
    intro uid huid
    rw [huid] at hu
    exact .inl ⟨(h.rows b hb uid hu).1, h.home_of_inStorage hb hu hst⟩

theorem create (h : Known s) {v : Version} (hv : v.id = s.nextId) : Known { s with
    nextId := s.nextId + 1
    db := { s.db with versions := s.db.versions.put v }
    sessions := s.sessions.put { version := v }
    home := Function.update s.home v.id v.storage.id } := by
  have hhome : ∀ i, i < s.nextId → Function.update s.home v.id v.storage.id i = s.home i := by
    intro i hi
    exact Function.update_of_ne (by omega) _ _
  have href : ∀ o, Referenced s o → o.1 = Function.update s.home v.id v.storage.id o.2.left := by
    intro o ho
    rw [hhome _ (h.referenced _ ho.1).1]
    exact ho.2
  refine ⟨?_, ?_, ?_, ?_, ?_, ?_, ?_, ?_⟩
  · intro w hw
    rcases Table.mem_put.mp hw with rfl | ⟨hw, -⟩
    · exact hv ▸ Nat.lt_succ_self _
    · exact Nat.lt_succ_of_lt (h.versions w hw)
  · intro b hb uid hu
    obtain ⟨hr, w, hw, hid, hst⟩ := h.rows b hb uid hu
    refine ⟨hr, w, Table.mem_put.mpr (.inr ⟨hw, ?_⟩), hid, ?_⟩
    · have := h.versions w hw
      omega
    · exact hst.trans (hhome _ (h.referenced uid hr).1).symm
  · intro uid hu
    obtain ⟨hlt, hd⟩ := h.referenced uid hu
    refine ⟨Nat.lt_succ_of_lt hlt, ?_⟩
    intro x hx hid
    rcases Table.mem_put.mp hx with rfl | ⟨hx, -⟩
    · have : v.id = uid.left := hid
      omega
    · exact hd x hx hid
  · intro x hx
    rcases Table.mem_put.mp hx with rfl | ⟨hx, -⟩
    · exact ⟨hv ▸ Nat.lt_succ_self _, (Function.update_self v.id _ s.home).symm,
        fun _ hi => absurd hi List.not_mem_nil, fun _ hop => absurd hop List.not_mem_nil⟩
    · obtain ⟨hid, hst, hfl, hops⟩ := h.sessions x hx
      refine ⟨Nat.lt_succ_of_lt hid, hst.trans (hhome _ hid).symm, hfl, ?_⟩
      intro op hop
      refine ⟨(hops op hop).1, ?_⟩
      intro uid hu
      exact ((hops op hop).2 uid hu).imp_left fun ho => ⟨ho.1, href _ ho⟩
  · exact fun d hd => ⟨(h.deleted d hd).1, href _ (h.deleted d hd)⟩
  · intro r hr
    obtain ⟨hc, ho⟩ := h.runs r hr
    exact ⟨fun c hmem => ⟨(hc c hmem).1, href _ (hc c hmem)⟩,
      fun o hmem => ⟨(ho o hmem).1, href _ (ho o hmem)⟩⟩
  · exact fun o ho => ⟨(h.orphans o ho).1, href _ (h.orphans o ho)⟩
  · intro o ho
    obtain ⟨hst, hlt⟩ := h.objects o ho
    exact ⟨hst.trans (hhome _ hlt).symm, Nat.lt_succ_of_lt hlt⟩

theorem write (h : Known s) (hx : x ∈ s.sessions) {idx : ℕ} (hi : idx ∉ x.handled) :
    Known { s.putSession { x with handled := idx :: x.handled, inFlight := idx :: x.inFlight } with
      objects := (x.version.storage.id, blockUid x idx) :: s.objects } := by
  have hmono : ∀ uid, Done x uid →
      Done { x with handled := idx :: x.handled, inFlight := idx :: x.inFlight } uid := by
    rintro uid ⟨i, hm, hn, hu⟩
    refine ⟨i, List.mem_cons_of_mem _ hm, ?_, hu⟩
    intro hc
    rcases List.mem_cons.mp hc with rfl | hc
    · exact hi hm
    · exact hn hc
  obtain ⟨hid, hst, hfl, hops⟩ := h.sessions x hx
  have hfl' : ∀ i ∈ idx :: x.inFlight, i ∈ idx :: x.handled := by
    intro i hmem
    rcases List.mem_cons.mp hmem with rfl | hmem
    · exact List.mem_cons_self
    · exact List.mem_cons_of_mem _ (hfl i hmem)
  have hput := h.putSession
    (x := { x with handled := idx :: x.handled, inFlight := idx :: x.inFlight })
    ⟨hid, hst, hfl', fun op hop => ⟨(hops op hop).1,
      fun uid hu => ((hops op hop).2 uid hu).imp_right (hmono uid)⟩⟩
    fun uid hu he => hmono uid ((h.referenced uid hu).2 x hx he)
  refine ⟨hput.versions, hput.rows, hput.referenced, hput.sessions, hput.deleted, hput.runs,
    hput.orphans, ?_⟩
  intro o ho
  rcases List.mem_cons.mp ho with rfl | ho
  · exact ⟨hst, hid⟩
  · exact h.objects o ho

theorem collect (h : Known s) (hx : x ∈ s.sessions) {idx : ℕ} (hi : idx ∈ x.inFlight)
    {checksum : κ} {size : ℕ} : Known (s.putSession
      { x.addOp ⟨idx, some (blockUid x idx), some checksum, size, true, s.now⟩ with
        inFlight := x.inFlight.filter fun i => i ≠ idx }) := by
  have hmono : ∀ uid, Done x uid → Done
      { x.addOp ⟨idx, some (blockUid x idx), some checksum, size, true, s.now⟩ with
        inFlight := x.inFlight.filter fun i => i ≠ idx } uid := by
    rintro uid ⟨i, hm, hn, hu⟩
    exact ⟨i, hm, fun hc => hn (List.mem_filter.mp hc).1, hu⟩
  obtain ⟨hid, hst, hfl, hops⟩ := h.sessions x hx
  refine h.putSession ⟨hid, hst, fun i hmem => hfl i (List.mem_filter.mp hmem).1, ?_⟩
    fun uid hu he => hmono uid ((h.referenced uid hu).2 x hx he)
  intro op hop
  rcases List.mem_append.mp hop with hop | hop
  · exact ⟨(hops op hop).1, fun uid hu => ((hops op hop).2 uid hu).imp_right (hmono uid)⟩
  · rw [List.mem_singleton.mp hop]
    refine ⟨le_rfl, ?_⟩
    intro uid hu
    refine .inr ⟨idx, hfl idx hi, ?_, (Option.some.inj hu).symm⟩
    simp

theorem commit (h : Known s) (hx : x ∈ s.sessions)
    (hv : s.db.versions.find? x.id = some x.version) :
    Known { s.putSession { x with ops := [] } with
      db := { s.db with blocks := applyOps s.db.blocks x.version x.ops }
      referenced := (applyOps s.db.blocks x.version x.ops).rows.filterMap Block.uid ++
        s.referenced } := by
  obtain ⟨hid, hst, hfl, hops⟩ := h.sessions x hx
  have hmono : ∀ uid ∈ s.referenced, uid ∈
      (applyOps s.db.blocks x.version x.ops).rows.filterMap Block.uid ++ s.referenced :=
    fun uid hu => List.mem_append_right _ hu
  refine ⟨h.versions, ?_, ?_, ?_, fun d hd => ⟨hmono _ (h.deleted d hd).1, (h.deleted d hd).2⟩,
    ?_, fun o ho => ⟨hmono _ (h.orphans o ho).1, (h.orphans o ho).2⟩, h.objects⟩
  · intro b hb uid hu
    refine ⟨List.mem_append_left _ (List.mem_filterMap.mpr ⟨b, hb, hu⟩), ?_⟩
    rcases mem_applyOps hb with hb | ⟨op, hop, rfl⟩
    · exact (h.rows b hb uid hu).2
    · refine ⟨x.version, Table.mem_of_find? hv, rfl, ?_⟩
      rcases (hops op hop).2 uid hu with href | hd
      · exact href.2
      · exact hst.trans (congrArg s.home hd.left_eq.symm)
  · intro uid hu
    -- A uid that is new in the table is one of the backup's own.
    have hcase : uid ∈ s.referenced ∨ Done x uid := by
      rcases List.mem_append.mp hu with hu | hu
      · obtain ⟨b, hb, hu⟩ := List.mem_filterMap.mp hu
        rcases mem_applyOps hb with hb | ⟨op, hop, rfl⟩
        · exact .inl (h.rows b hb uid hu).1
        · exact ((hops op hop).2 uid hu).imp_left And.left
      · exact .inl hu
    rcases hcase with hu | hd
    · obtain ⟨hlt, hdone⟩ := h.referenced uid hu
      refine ⟨hlt, ?_⟩
      intro y hy he
      rcases Table.mem_put.mp hy with rfl | ⟨hy, -⟩
      · exact hdone x hx he
      · exact hdone y hy he
    · refine ⟨hd.left_eq ▸ hid, ?_⟩
      intro y hy he
      rcases Table.mem_put.mp hy with rfl | ⟨hy, hne⟩
      · exact hd
      · exact absurd (he.trans hd.left_eq) hne
  · intro y hy
    rcases Table.mem_put.mp hy with rfl | ⟨hy, -⟩
    · exact ⟨hid, hst, hfl, fun _ hop => absurd hop List.not_mem_nil⟩
    · obtain ⟨hid', hst', hfl', hops'⟩ := h.sessions y hy
      refine ⟨hid', hst', hfl', fun op hop => ⟨(hops' op hop).1, ?_⟩⟩
      intro uid hu
      exact ((hops' op hop).2 uid hu).imp_left fun ho => ⟨hmono _ ho.1, ho.2⟩
  · intro r hr
    obtain ⟨hc, ho⟩ := h.runs r hr
    exact ⟨fun c hmem => ⟨hmono _ (hc c hmem).1, (hc c hmem).2⟩,
      fun o hmem => ⟨hmono _ (ho o hmem).1, (ho o hmem).2⟩⟩

theorem removeVersion (h : Known s) {v : Version} {date : ℕ → ℕ} (hv : v ∈ s.db.versions) :
    Known { s with db := s.db.removeVersion v date } := by
  refine ⟨?_, ?_, h.referenced, h.sessions, ?_, h.runs, h.orphans, h.objects⟩
  · intro w hw
    exact h.versions w (Database.mem_versions_removeVersion.mp hw).1
  · intro b hb uid hu
    obtain ⟨hb, hne⟩ := Database.mem_blocks_removeVersion.mp hb
    obtain ⟨hr, w, hw, hid, hst⟩ := h.rows b hb uid hu
    exact ⟨hr, w, Database.mem_versions_removeVersion.mpr ⟨hw, hid ▸ hne⟩, hid, hst⟩
  · intro d hd
    rcases Database.of_mem_deletedBlocks_removeVersion hd with hd | ⟨b, hb, hid, hu, hst, -⟩
    · exact h.deleted d hd
    · obtain ⟨hr, w, hw, hwid, hhome⟩ := h.rows b hb _ hu
      have hwv : w = v := Table.eq_of_key_eq hw hv (hwid.trans hid)
      exact ⟨hr, hst.trans (hwv ▸ hhome)⟩

theorem tick (h : Known s) : Known { s with now := s.now + 1 } := by
  refine ⟨h.versions, h.rows, h.referenced, ?_, h.deleted, h.runs, h.orphans, h.objects⟩
  intro x hx
  obtain ⟨hid, hst, hfl, hops⟩ := h.sessions x hx
  exact ⟨hid, hst, hfl, fun op hop => ⟨Nat.le_succ_of_le (hops op hop).1, (hops op hop).2⟩⟩

theorem close (h : Known s) : Known { s with sessions := s.sessions.erase x.id } :=
  ⟨h.versions, h.rows,
    fun uid hu => ⟨(h.referenced uid hu).1,
      fun y hy he => (h.referenced uid hu).2 y (Table.mem_erase.mp hy).1 he⟩,
    fun y hy => h.sessions y (Table.mem_erase.mp hy).1, h.deleted, h.runs, h.orphans, h.objects⟩

/-- The first of the three invariants. -/
theorem effect (h : Known s) (he : Effect dt s e t) : Known t := by
  cases he with
  | tick => exact h.tick
  | create v hv => exact h.create hv
  | lookup _ x hx op hop =>
    obtain ⟨hs, hu⟩ := h.of_looked hx hop
    exact h.addOp hx hs hu
  | sparse _ x hx idx size => exact h.addOp hx le_rfl fun _ hu => absurd hu nofun
  | write _ x hx idx hi => exact h.write hx hi
  | collect _ x hx idx hi checksum size => exact h.collect hx hi
  | commit x hx hv hlive => exact h.commit hx hv
  | close _ x => exact h.close
  | removeVersion v date hv => exact h.removeVersion hv
  | startRun _ storageId hr =>
    exact h.putRun ⟨fun _ hc => absurd hc List.not_mem_nil, fun _ ho => absurd ho List.not_mem_nil⟩
  | select _ r hr hstage candidates hc =>
    exact h.putRun ⟨fun c hmem => h.deleted c (hc c hmem), fun _ ho => absurd ho List.not_mem_nil⟩
  | falsePositive _ r hr c candidates falsePositives hitList hstage =>
    obtain ⟨hc, ho⟩ := h.runs r hr
    rw [hstage] at hc ho
    exact h.putRun ⟨fun d hd => hc d (List.mem_cons_of_mem _ hd), ho⟩
  | hit r hr c candidates falsePositives hitList hstage hu =>
    obtain ⟨hc, ho⟩ := h.runs r hr
    rw [hstage] at hc ho
    refine h.putRun ⟨fun d hd => hc d (List.mem_cons_of_mem _ hd), ?_⟩
    intro o hmem
    rcases List.mem_insert_iff.mp hmem with rfl | hmem
    · exact hc c List.mem_cons_self
    · exact ho o hmem
  | dropFalsePositives r hr falsePositives hitList hstage hfree =>
    have ho := (h.runs r hr).2
    rw [hstage] at ho
    exact h.putRun ⟨fun _ hc => absurd hc List.not_mem_nil, ho⟩
  | noHits _ r hr hstage =>
    exact h.putRun ⟨fun _ hc => absurd hc List.not_mem_nil, fun _ ho => absurd ho List.not_mem_nil⟩
  | dropHits _ r hr hitList hstage hfree =>
    have ho := (h.runs r hr).2
    rw [hstage] at ho
    refine h.putRun ⟨fun _ hc => absurd hc List.not_mem_nil, ?_⟩
    intro o hmem
    exact ho o (by simpa [Stage.hits, Run.afterDelete] using hmem)
  | submit _ r hr hitList st hstage =>
    have ho := (h.runs r hr).2
    rw [hstage] at ho
    refine h.putRun ⟨fun _ hc => absurd hc List.not_mem_nil, ?_⟩
    intro o hmem
    refine ho o (List.mem_append_left _ ?_)
    rcases List.mem_append.mp hmem with hmem | hmem
    · exact (List.mem_filter.mp hmem).1
    · exact (List.mem_filter.mp hmem).1
  | rmBlock _ r hr hitList jobs hstage job hj =>
    have ho := (h.runs r hr).2
    rw [hstage] at ho
    refine (h.removeObject job).putRun ⟨fun _ hc => absurd hc List.not_mem_nil, ?_⟩
    intro o hmem
    rcases List.mem_append.mp hmem with hmem | hmem
    · exact ho o (List.mem_append_left _ hmem)
    · exact ho o (List.mem_append_right _ (List.mem_filter.mp hmem).1)
  | rmFails r hr hitList jobs hstage job hj gone =>
    have ho := (h.runs r hr).2
    rw [hstage] at ho
    have hall : ∀ o ∈ s.orphans ++ jobs.filter (fun j => j ≠ job), Referenced s o := by
      intro o hmem
      rcases List.mem_append.mp hmem with hmem | hmem
      · exact h.orphans o hmem
      · exact ho o (List.mem_append_right _ (List.mem_filter.mp hmem).1)
    cases gone with
    | false => exact h.endRun.withOrphans hall
    | true => exact (h.removeObject job).endRun.withOrphans hall
  | rmOrphan _ job hj =>
    exact (h.removeObject job).withOrphans fun o ho => h.orphans o (List.mem_filter.mp ho).1
  | commitRun _ r hr hstage =>
    exact h.commitDeleting.putRun
      ⟨fun _ hc => absurd hc List.not_mem_nil, fun _ ho => absurd ho List.not_mem_nil⟩
  | finishRun _ r hr hstage => exact h.endRun

end Known

/-- The `deleted_blocks` rows in the hands of a session are still in the table, and no two
sessions have the same row. -/
structure RowLocks (s : State κ) : Prop where
  exists_row : ∀ r ∈ s.runs, ∀ id ∈ r.deleting, ∃ d ∈ s.db.deletedBlocks, d.id = id
  disjoint : ∀ r ∈ s.runs, ∀ r' ∈ s.runs, r.storageId ≠ r'.storageId →
    ∀ id ∈ r.deleting, id ∉ r'.deleting

namespace RowLocks

theorem init : RowLocks (init : State κ) :=
  ⟨fun _ h => absurd h Table.not_mem_empty, fun _ h => absurd h Table.not_mem_empty⟩

theorem putRun (h : RowLocks s)
    (hrow : ∀ id ∈ r.deleting, ∃ d ∈ s.db.deletedBlocks, d.id = id)
    (hdis : ∀ r' ∈ s.runs, r.storageId ≠ r'.storageId → ∀ id ∈ r.deleting, id ∉ r'.deleting) :
    RowLocks (s.putRun r) := by
  constructor
  · intro r' hr'
    rcases Table.mem_put.mp hr' with rfl | ⟨hr', -⟩
    · exact hrow
    · exact h.exists_row r' hr'
  · intro r₁ h₁ r₂ h₂ hne id hid
    rcases Table.mem_put.mp h₁ with rfl | ⟨hm₁, -⟩
    · rcases Table.mem_put.mp h₂ with rfl | ⟨hm₂, -⟩
      · exact absurd rfl hne
      · exact hdis r₂ hm₂ hne id hid
    · rcases Table.mem_put.mp h₂ with rfl | ⟨hm₂, -⟩
      · intro hc
        exact hdis r₁ hm₁ hne.symm id hc hid
      · exact h.disjoint r₁ hm₁ r₂ hm₂ hne id hid

/-- A run that goes on without a `DELETE` or a commit. -/
theorem advance (h : RowLocks s) (hr : r ∈ s.runs) {stage : Stage} :
    RowLocks (s.putRun { r with stage := stage }) :=
  h.putRun (h.exists_row r hr) fun r' hr' => h.disjoint r hr r' hr'

theorem afterDelete (h : RowLocks s) (hr : r ∈ s.runs) {uids : List BlockUid} {next : Stage}
    (hfree : Unblocked s r uids) : RowLocks (s.putRun (r.afterDelete s uids next)) := by
  apply h.putRun
  · intro id hid
    rcases List.mem_append.mp hid with hid | hid
    · obtain ⟨d, hd, rfl⟩ := List.mem_map.mp hid
      exact ⟨d, (List.mem_filter.mp hd).1, rfl⟩
    · exact h.exists_row r hr id hid
  · intro r' hr' hne id hid
    rcases List.mem_append.mp hid with hid | hid
    · obtain ⟨d, hd, rfl⟩ := List.mem_map.mp hid
      obtain ⟨hd, hu⟩ := List.mem_filter.mp hd
      exact hfree d hd (by simpa using hu) r' hr' hne.symm
    · exact h.disjoint r hr r' hr' hne id hid

/-- The rows that the session of `r` deletes for good are in nobody else's hands. -/
theorem exists_row_of_commit (h : RowLocks s) (hr : r ∈ s.runs) :
    ∀ r' ∈ s.runs, r'.storageId ≠ r.storageId → ∀ id ∈ r'.deleting,
      ∃ d ∈ (s.commitDeleting r).db.deletedBlocks, d.id = id := by
  intro r' hr' hne id hid
  obtain ⟨d, hd, rfl⟩ := h.exists_row r' hr' id hid
  have hnot := h.disjoint r' hr' r hr hne d.id hid
  exact ⟨d, Table.mem_filter.mpr ⟨hd, by simpa using hnot⟩, rfl⟩

theorem endRun (h : RowLocks s) (hr : r ∈ s.runs) : RowLocks (s.endRun r) := by
  constructor
  · intro r' hr'
    obtain ⟨hr', hne⟩ := Table.mem_erase.mp hr'
    exact h.exists_row_of_commit hr r' hr' hne
  · intro r₁ h₁ r₂ h₂
    exact h.disjoint r₁ (Table.mem_erase.mp h₁).1 r₂ (Table.mem_erase.mp h₂).1

theorem commitRun (h : RowLocks s) (hr : r ∈ s.runs) : RowLocks
    ((s.commitDeleting r).putRun { r with stage := .select, deleting := [] }) := by
  constructor
  · intro r' hr'
    rcases Table.mem_put.mp hr' with rfl | ⟨hr', hne⟩
    · exact fun _ hid => absurd hid List.not_mem_nil
    · exact h.exists_row_of_commit hr r' hr' hne
  · intro r₁ h₁ r₂ h₂ hne id hid
    rcases Table.mem_put.mp h₁ with rfl | ⟨h₁, -⟩
    · exact absurd hid List.not_mem_nil
    · rcases Table.mem_put.mp h₂ with rfl | ⟨h₂, -⟩
      · exact List.not_mem_nil
      · exact h.disjoint r₁ h₁ r₂ h₂ hne id hid

theorem of_deletedBlocks (h : RowLocks s) (hr : t.runs = s.runs)
    (hd : ∀ d ∈ s.db.deletedBlocks, d ∈ t.db.deletedBlocks) : RowLocks t := by
  constructor
  · rw [hr]
    intro r hr id hid
    obtain ⟨d, hmem, he⟩ := h.exists_row r hr id hid
    exact ⟨d, hd d hmem, he⟩
  · rw [hr]
    exact h.disjoint

/-- The second invariant. -/
theorem effect (h : RowLocks s) (he : Effect dt s e t) : RowLocks t := by
  cases he with
  | tick => exact h.of_deletedBlocks rfl fun _ hd => hd
  | create v hv => exact h.of_deletedBlocks rfl fun _ hd => hd
  | lookup _ x hx op hop => exact h.of_deletedBlocks rfl fun _ hd => hd
  | sparse _ x hx idx size => exact h.of_deletedBlocks rfl fun _ hd => hd
  | write _ x hx idx hi => exact h.of_deletedBlocks rfl fun _ hd => hd
  | collect _ x hx idx hi checksum size => exact h.of_deletedBlocks rfl fun _ hd => hd
  | commit x hx hv hlive => exact h.of_deletedBlocks rfl fun _ hd => hd
  | close _ x => exact h.of_deletedBlocks rfl fun _ hd => hd
  | removeVersion v date hv =>
    exact h.of_deletedBlocks rfl fun _ hd => Database.mem_deletedBlocks_removeVersion hd
  | startRun _ storageId hr =>
    exact h.putRun (fun _ hid => absurd hid List.not_mem_nil)
      fun _ _ _ _ hid => absurd hid List.not_mem_nil
  | select _ r hr hstage candidates hc => exact h.advance hr
  | falsePositive _ r hr c candidates falsePositives hitList hstage => exact h.advance hr
  | hit r hr c candidates falsePositives hitList hstage hu => exact h.advance hr
  | dropFalsePositives r hr falsePositives hitList hstage hfree => exact h.afterDelete hr hfree
  | noHits _ r hr hstage => exact h.advance hr
  | dropHits _ r hr hitList hstage hfree => exact h.afterDelete hr hfree
  | submit _ r hr hitList st hstage => exact h.advance hr
  | rmBlock _ r hr hitList jobs hstage job hj =>
    exact (h.advance hr).of_deletedBlocks rfl fun _ hd => hd
  | rmFails r hr hitList jobs hstage job hj gone =>
    cases gone with
    | false => exact (h.endRun hr).of_deletedBlocks rfl fun _ hd => hd
    | true => exact (h.endRun hr).of_deletedBlocks rfl fun _ hd => hd
  | rmOrphan _ job hj => exact h.of_deletedBlocks rfl fun _ hd => hd
  | commitRun _ r hr hstage => exact h.commitRun hr
  | finishRun _ r hr hstage => exact h.endRun hr

end RowLocks

end Benji.Gc
