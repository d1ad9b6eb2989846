import Benji.Servicer.System

/-! What a step does: one case for each way it can go. -/
namespace Benji.Servicer
open Lib

variable {κ : Type} {s t : State κ} {x y : Session κ} {e : Event κ}

/-- A row after the session's writes is one of them, or one that none of them replaces. -/
theorem mem_applyOps {v : Version} {ops : List (Block κ)} {b : Block κ} {bs : BlockTable κ}
    (h : b ∈ applyOps bs v ops) : (∃ op ∈ ops, b = { op with versionId := v.id }) ∨
      b ∈ bs ∧ ∀ op ∈ ops, b.key ≠ (v.id, op.idx) := by
  induction ops generalizing bs with
  | nil => exact .inr ⟨h, fun op hop => absurd hop List.not_mem_nil⟩
  | cons op ops ih =>
    rcases ih h with ⟨op', hop, hb⟩ | ⟨hb, hne⟩
    · exact .inl ⟨op', List.mem_cons_of_mem _ hop, hb⟩
    · rcases BlockTable.mem_setBlock.mp hb with ⟨-, hb⟩ | ⟨hb, hk⟩
      · exact .inl ⟨op, List.mem_cons_self, hb⟩
      · refine .inr ⟨hb, ?_⟩
        intro op' hop
        rcases List.mem_cons.mp hop with rfl | hop
        · exact hk
        · exact hne op' hop

theorem mem_sessions_putSession : y ∈ (s.putSession x).sessions ↔
    y = x ∨ y ∈ s.sessions ∧ y.id ≠ x.id := Table.mem_put

theorem onSession_eq_some {id : ℕ} {f : Session κ → Option (State κ)} :
    s.onSession id f = some t ↔ ∃ x ∈ s.sessions, x.id = id ∧ f x = some t := by
  unfold State.onSession
  simp only [Option.bind_eq_some_iff, Table.find?_eq_some, and_assoc]

/-- What the session itself comes to in a step that touches neither the database nor a
storage. -/
inductive Local (s : State κ) (x : Session κ) : Event κ → Session κ → Prop
  | clone (e : Event κ) (hstage : x.stage = .clone) (hnext : x.next < x.version.blocksCount) :
      Local s x e { x with
        next := x.next + 1
        package := x.package ++
          [clonedBlock x.version x.next (State.oldBlock (x.view s.db) x.base x.next)] }
  | createBlocks (n : ℕ) (hstage : x.stage = .clone) : Local s x (.createBlocks x.id n) { x with
        package := x.package.drop n
        ops := x.ops ++ x.storedRows n }
  | load (e : Event κ) (hstage : x.stage = .queue) (hnext : x.next < x.version.blocksCount) :
      Local s x e { x with
        next := x.next + 1
        loaded := x.loaded ++ [(x.view s.db).blocks.getBlockByIdx x.version x.next] }
  | queueRead (e : Event κ) (block : Block κ) (rest : List (Block κ)) (hstage : x.stage = .queue)
      (hloaded : x.loaded = block :: rest) : Local s x e { x with
        loaded := rest
        reads := x.reads ++ [block]
        readJobs := x.readJobs + 1 }
  | queueSparse (e : Event κ) (block : Block κ) (rest : List (Block κ)) (hstage : x.stage = .queue)
      (hloaded : x.loaded = block :: rest) :
      Local s x e ({ x with loaded := rest }.setBlock block.idx none none block.size)
  | queueKeep (e : Event κ) (block : Block κ) (rest : List (Block κ)) (hstage : x.stage = .queue)
      (hloaded : x.loaded = block :: rest) (hvalid : block.valid = true) :
      Local s x e { x with loaded := rest }
  | startLoop (e : Event κ) (hstage : x.stage = .queue) (hnext : x.next = x.version.blocksCount)
      (hloaded : x.loaded = []) : Local s x e { x with stage := .loop }
  | readSparse (e : Event κ) (k : ℕ) (block : Block κ) (hstage : x.stage = .loop)
      (hblock : x.reads[k]? = some block) :
      Local s x e ((State.taken x k).setBlock block.idx none none block.size)
  | readKnown (e : Event κ) (k : ℕ) (block b : Block κ) (hstage : x.stage = .loop)
      (hblock : x.reads[k]? = some block) (hb : b ∈ (x.view s.db).blocks)
      (hvalid : b.valid = true) :
      Local s x e ((State.taken x k).setBlock block.idx b.uid b.checksum b.size)
  | collect (e : Event κ) (k : ℕ) (j : Job κ) (hstage : x.stage = .loop)
      (hj : x.writes[k]? = some j) : Local s x e ({ x with
        writes := x.writes.eraseIdx k
        doneWriteJobs := x.doneWriteJobs + 1 }.setBlock j.idx (some j.uid) (some j.checksum) j.size)
  | cowWrite (e : Event κ) (idx : ℕ) (hstage : x.stage = .cow) (hidx : idx ∉ x.cow) :
      Local s x e { x with cow := x.cow ++ [idx] }
  | startFixate (e : Event κ) (hstage : x.stage = .cow) : Local s x e { x with stage := .fixate }
  | fixateSparse (e : Event κ) (idx size : ℕ) (rest : List ℕ) (hstage : x.stage = .fixate)
      (hcow : x.cow = idx :: rest) :
      Local s x e ({ x with cow := rest }.setBlock idx none none size)
  | rollback (e : Event κ) (idx : ℕ) (rest : List ℕ) (hstage : x.stage = .fixate)
      (hcow : x.cow = idx :: rest) : Local s x e { x with cow := rest, ops := [] }

/-- The counts at the end of the main loop of `backup`, or of `fixate`. -/
def Session.Consistent (x : Session κ) : Prop :=
  (x.stage = .loop ∧ x.readJobs = x.doneReadJobs ∧ x.writeJobs = x.doneWriteJobs) ∨
    x.stage = .fixate ∧ x.cow = []

/-- The state once the version of the session is set valid. -/
def State.completeAs (s : State κ) (x : Session κ) : State κ :=
  { s.endSession x with
    db := s.db.setStatus x.id .valid
    completed := if x.AllDone then x.id :: s.completed else s.completed }

/-- A new session on `v`. -/
def Session.begin (v : Version) (base : Option Version) (nbd : Bool)
    (readBlocks sparseBlocks : List ℕ) : Session κ where
  version := v
  base := base
  nbd := nbd
  readBlocks := readBlocks
  sparseBlocks := sparseBlocks

inductive Effect (sparseChecksum : ℕ → κ) (s : State κ) : Event κ → State κ → Prop
  | create (e : Event κ) (v : Version) (hid : v.id = s.nextId) (hstatus : v.status = .incomplete) :
      Effect sparseChecksum s e { s with
        nextId := s.nextId + 1
        db := { s.db with versions := s.db.versions.put v } }
  | start (v : Version) (size blockSize : ℕ) (b : Option ℕ) (base : Option Version)
      (readBlocks sparseBlocks : List ℕ) (hfree : s.sessions.find? v.id = none)
      (hv : v ∈ s.db.versions) :
      Effect sparseChecksum s (.start v.id size blockSize b readBlocks sparseBlocks)
        (s.putSession (.begin { v with size := size, blockSize := blockSize } base false readBlocks
          sparseBlocks))
  | createCow (v w : Version) (base : ℕ) (hid : v.id = s.nextId)
      (hstatus : v.status = .incomplete) : Effect sparseChecksum s (.createCow v base)
        { s.putSession (.begin v (some w) true [] []) with
          nextId := s.nextId + 1
          db := { s.db with versions := s.db.versions.put v } }
  | session (e : Event κ) (x y : Session κ) (hx : x ∈ s.sessions) (hy : Local s x e y) :
      Effect sparseChecksum s e (s.putSession y)
  | save (e : Event κ) (x : Session κ) (hx : x ∈ s.sessions) (hstage : x.stage = .clone)
      (hnext : x.next = x.version.blocksCount) (hpackage : x.package = []) :
      Effect sparseChecksum s e { s.putSession { x with
          ops := []
          stage := if x.nbd then .cow else .queue
          next := if x.nbd then x.next else 0 } with
        db := s.committed x }
  | commit (e : Event κ) (x : Session κ) (hx : x ∈ s.sessions) :
      Effect sparseChecksum s e { s.putSession { x with ops := [] } with db := s.committed x }
  | readNew (e : Event κ) (x : Session κ) (hx : x ∈ s.sessions) (k : ℕ) (block : Block κ)
      (checksum : κ) (hstage : x.stage = .loop) (hblock : x.reads[k]? = some block) :
      Effect sparseChecksum s e (s.submit (State.taken x k) block checksum)
  | write (j : Job κ) (hj : j ∈ s.jobs) (raises : Bool) :
      Effect sparseChecksum s (.write j.ticket raises)
        { s.putObject j.storageId j.uid (some j.checksum) with
          jobs := s.jobs.erase j.ticket
          written := if raises then s.written else j.ticket :: s.written }
  | dropWrite (e : Event κ) (ticket : ℕ) :
      Effect sparseChecksum s e { s with jobs := s.jobs.erase ticket }
  | complete (e : Event κ) (x : Session κ) (hx : x ∈ s.sessions) (hc : x.Consistent)
      (hops : x.ops = []) : Effect sparseChecksum s e (s.completeAs x)
  | close (e : Event κ) (x : Session κ) (failed : List ℕ) :
      Effect sparseChecksum s e { s.endSession x with failed := failed }
  | refuse (e : Event κ) (failed : List ℕ) : Effect sparseChecksum s e { s with failed := failed }
  | setInvalid (e : Event κ) (id : ℕ) (failed : List ℕ) : Effect sparseChecksum s e { s with
      db := s.db.setStatus id .invalid, failed := failed }
  | fixate (x : Session κ) (hx : x ∈ s.sessions) (checksum : κ) (size idx : ℕ) (rest : List ℕ)
      (hstage : x.stage = .fixate) (hcow : x.cow = idx :: rest)
      (hsparse : checksum ≠ sparseChecksum x.version.blockSize) :
      Effect sparseChecksum s (.fixate x.id checksum size)
        ((s.putObject x.version.storage.id (x.blockUid idx) (some checksum)).putSession
          ({ x with cow := rest }.setBlock idx (some (x.blockUid idx)) (some checksum) size))
  | fixateFails (x : Session κ) (hx : x ∈ s.sessions) (checksum : κ) (idx : ℕ) (rest : List ℕ)
      (hstage : x.stage = .fixate) (hcow : x.cow = idx :: rest)
      (hsparse : checksum ≠ sparseChecksum x.version.blockSize) :
      Effect sparseChecksum s (.fixateFails x.id checksum)
        ((s.putObject x.version.storage.id (x.blockUid idx) none).putSession
          { x with cow := rest, ops := [] })
  | removeVersion (e : Event κ) (v : Version) (date : ℕ → ℕ) :
      Effect sparseChecksum s e { s with db := s.db.removeVersion v date }
  | cleanup (e : Event κ) (ids : List ℕ) (o : ℕ → BlockUid → Option κ) :
      Effect sparseChecksum s e { s with
        objects := o
        db := { s.db with deletedBlocks := s.db.deletedBlocks.filter fun d => d.id ∉ ids } }
  | setBlockValid (uid : BlockUid) (valid : Bool) :
      Effect sparseChecksum s (.setBlockValid uid valid)
        { s with db := s.db.setBlockValid (some uid) valid }
  | deepScrub (v : Version) (hv : v ∈ s.db.versions) (hfree : s.sessions.find? v.id = none)
      (hstatus : v.status ≠ .incomplete) (hsparse : s.AllSparse v) :
      Effect sparseChecksum s (.deepScrub v.id) { s with db := s.db.setStatus v.id .valid }
  | idle (e : Event κ) : Effect sparseChecksum s e s

section Inversion
variable {sparseChecksum : ℕ → κ}

theorem effect_of_fail (hs : s.fail x = some t) : Effect sparseChecksum s e t := by
  obtain rfl := Option.some.inj hs
  exact .close e x _

theorem effect_of_start {id size blockSize : ℕ} {base : Option ℕ} {readBlocks sparseBlocks : List ℕ}
    (hs : s.start id size blockSize base readBlocks sparseBlocks = some t) :
    Effect sparseChecksum s (.start id size blockSize base readBlocks sparseBlocks) t := by
  unfold State.start at hs
  rw [Option.ite_none_right_eq_some, Option.bind_eq_some_iff] at hs
  obtain ⟨hfree, v, hv, hs⟩ := hs
  obtain ⟨hmem, rfl⟩ := Table.find?_eq_some.mp hv
  cases base with
  | none =>
    obtain rfl := Option.some.inj hs
    exact .start v size blockSize none none readBlocks sparseBlocks hfree hmem
  | some b =>
    obtain ⟨w, -, rfl⟩ := Option.map_eq_some_iff.mp hs
    exact .start v size blockSize (some b) (some w) readBlocks sparseBlocks hfree hmem

theorem effect_of_createCow {v : Version} {base : ℕ} (hs : s.createCow v base = some t) :
    Effect sparseChecksum s (.createCow v base) t := by
  unfold State.createCow State.create at hs
  simp only [Option.bind_eq_some_iff, Option.ite_none_right_eq_some, Option.some.injEq] at hs
  obtain ⟨_, ⟨⟨hid, hstatus⟩, rfl⟩, w, -, -, rfl⟩ := hs
  exact .createCow v w base hid hstatus

theorem effect_of_createBlocks {n : ℕ} (hx : x ∈ s.sessions) (hs : s.createBlocks n x = some t) :
    Effect sparseChecksum s (.createBlocks x.id n) t := by
  unfold State.createBlocks at hs
  rw [Option.ite_none_right_eq_some] at hs
  obtain ⟨hstage, hs⟩ := hs
  split at hs
  · obtain rfl := Option.some.inj hs
    exact .session _ x _ hx (.createBlocks n hstage)
  · exact effect_of_fail hs

theorem effect_of_save (hx : x ∈ s.sessions) (hs : s.save x = some t) :
    Effect sparseChecksum s e t := by
  unfold State.save State.commitAs at hs
  simp only [Option.ite_none_right_eq_some, Option.some.injEq] at hs
  obtain ⟨⟨hstage, hnext, hpackage⟩, -, rfl⟩ := hs
  exact .save e x hx hstage hnext (List.length_eq_zero_iff.mp hpackage)

theorem effect_of_queue (hx : x ∈ s.sessions) (hs : s.queue x = some t) :
    Effect sparseChecksum s e t := by
  unfold State.queue at hs
  split at hs
  · rename_i block rest hstage hloaded
    split_ifs at hs with hread hsparse
    · obtain rfl := Option.some.inj hs
      exact .session e x _ hx (.queueRead e block rest hstage hloaded)
    · obtain rfl := Option.some.inj hs
      exact .session e x _ hx (.queueSparse e block rest hstage hloaded)
    · obtain rfl := Option.some.inj hs
      have hvalid : block.valid = true := by
        by_contra hne
        exact hread (.inr (Bool.eq_false_iff.mpr hne))
      exact .session e x _ hx (.queueKeep e block rest hstage hloaded hvalid)
  · cases hs

theorem effect_of_read [DecidableEq κ] {k pick : ℕ} {checksum : κ} (hx : x ∈ s.sessions)
    (hs : s.read sparseChecksum k checksum pick x = some t) : Effect sparseChecksum s e t := by
  unfold State.read at hs
  rw [Option.ite_none_right_eq_some, Option.map_eq_some_iff] at hs
  obtain ⟨hstage, block, hblock, rfl⟩ := hs
  split_ifs with hsparse
  · exact .session e x _ hx (.readSparse e k block hstage hblock)
  · split
    · rename_i b hb
      obtain ⟨hb, -⟩ := Option.filter_eq_some_iff.mp hb
      obtain ⟨hmem, -, hvalid, -⟩ := Database.getBlockByChecksum_spec hb
      exact .session e x _ hx (.readKnown e k block b hstage hblock hmem hvalid)
    · exact .readNew e x hx k block checksum hstage hblock

theorem effect_of_collect {k : ℕ} (hx : x ∈ s.sessions) (hs : s.collect k x = some t) :
    Effect sparseChecksum s e t := by
  unfold State.collect at hs
  rw [Option.ite_none_right_eq_some, Option.map_eq_some_iff] at hs
  obtain ⟨hstage, j, hj, rfl⟩ := hs
  obtain ⟨hj, -⟩ := Option.filter_eq_some_iff.mp hj
  exact .session e x _ hx (.collect e k j hstage hj)

theorem effect_of_complete (hx : x ∈ s.sessions) (hc : x.Consistent)
    (hs : s.complete x = some t) : Effect sparseChecksum s e t := by
  unfold State.complete at hs
  simp only [Option.ite_none_right_eq_some, Option.some.injEq] at hs
  obtain ⟨⟨-, hops⟩, rfl⟩ := hs
  exact .complete e x hx hc (List.length_eq_zero_iff.mp hops)

theorem effect_of_fixate [DecidableEq κ] {checksum : κ} {size : ℕ} (hx : x ∈ s.sessions)
    (hs : s.fixate sparseChecksum checksum size x = some t) :
    Effect sparseChecksum s (.fixate x.id checksum size) t := by
  unfold State.fixate at hs
  split at hs
  · rename_i idx rest hstage hcow
    split_ifs at hs with hsparse
    · obtain rfl := Option.some.inj hs
      exact .session _ x _ hx (.fixateSparse _ idx size rest hstage hcow)
    · obtain rfl := Option.some.inj hs
      exact .fixate x hx checksum size idx rest hstage hcow hsparse
  · cases hs

theorem effect_of_fixateFails [DecidableEq κ] {checksum : κ} (hx : x ∈ s.sessions)
    (hs : s.fixateFails sparseChecksum checksum x = some t) :
    Effect sparseChecksum s (.fixateFails x.id checksum) t := by
  unfold State.fixateFails at hs
  split at hs
  · rename_i idx rest hstage hcow
    split_ifs at hs with hsparse
    · obtain rfl := Option.some.inj hs
      exact .session _ x _ hx (.rollback _ idx rest hstage hcow)
    · obtain rfl := Option.some.inj hs
      exact .fixateFails x hx checksum idx rest hstage hcow hsparse
  · cases hs

theorem effect_of_cleanup {ids : List ℕ} {objects : List (ℕ × BlockUid)}
    (hs : s.cleanup ids objects = some t) : Effect sparseChecksum s e t := by
  obtain rfl := Option.some.inj hs
  have hfold : ∃ o, objects.foldl (fun s o => s.putObject o.1 o.2 none) s =
      { s with objects := o } := by
    clear hs
    induction objects generalizing s with
    | nil => exact ⟨s.objects, rfl⟩
    | cons o rest ih =>
      obtain ⟨o', ho⟩ := ih (s := s.putObject o.1 o.2 none)
      exact ⟨o', ho⟩
  obtain ⟨o, ho⟩ := hfold
  rw [ho]
  exact .cleanup e ids o

theorem effect_of_deepScrub {id : ℕ} (hs : s.deepScrub id = some t) :
    Effect sparseChecksum s (.deepScrub id) t := by
  unfold State.deepScrub at hs
  rw [Option.ite_none_right_eq_some, Option.bind_eq_some_iff] at hs
  obtain ⟨hfree, v, hv, hs⟩ := hs
  obtain ⟨hmem, rfl⟩ := Table.find?_eq_some.mp hv
  simp only [Option.ite_none_right_eq_some, Option.some.injEq] at hs
  obtain ⟨hstatus, rfl⟩ := hs
  split_ifs with hsparse
  · refine .deepScrub v hmem hfree ?_ hsparse
    intro he
    rw [he] at hstatus
    exact absurd hstatus (by decide)
  · exact .idle _

theorem effect_of_step [DecidableEq κ] (hs : step sparseChecksum s e = some t) :
    Effect sparseChecksum s e t := by
  cases e with
  | create v =>
    unfold step State.create at hs
    rw [Option.ite_none_right_eq_some] at hs
    obtain ⟨⟨hid, hstatus⟩, hs⟩ := hs
    obtain rfl := Option.some.inj hs
    exact .create _ v hid hstatus
  | start id size blockSize base readBlocks sparseBlocks => exact effect_of_start hs
  | refuse id =>
    obtain rfl := Option.some.inj hs
    exact .refuse _ _
  | createCow v base => exact effect_of_createCow hs
  | clone id =>
    obtain ⟨x, hx, rfl, hf⟩ := onSession_eq_some.mp hs
    unfold State.clone at hf
    rw [Option.ite_none_right_eq_some] at hf
    obtain ⟨⟨hstage, hnext⟩, hf⟩ := hf
    obtain rfl := Option.some.inj hf
    exact .session _ x _ hx (.clone _ hstage hnext)
  | createBlocks id n =>
    obtain ⟨x, hx, rfl, hf⟩ := onSession_eq_some.mp hs
    exact effect_of_createBlocks hx hf
  | save id =>
    obtain ⟨x, hx, rfl, hf⟩ := onSession_eq_some.mp hs
    exact effect_of_save hx hf
  | load id =>
    obtain ⟨x, hx, rfl, hf⟩ := onSession_eq_some.mp hs
    unfold State.load at hf
    rw [Option.ite_none_right_eq_some] at hf
    obtain ⟨⟨hstage, hnext⟩, hf⟩ := hf
    obtain rfl := Option.some.inj hf
    exact .session _ x _ hx (.load _ hstage hnext)
  | queue id =>
    obtain ⟨x, hx, rfl, hf⟩ := onSession_eq_some.mp hs
    exact effect_of_queue hx hf
  | startLoop id =>
    obtain ⟨x, hx, rfl, hf⟩ := onSession_eq_some.mp hs
    unfold State.startLoop at hf
    rw [Option.ite_none_right_eq_some] at hf
    obtain ⟨⟨hstage, hnext, hloaded⟩, hf⟩ := hf
    obtain rfl := Option.some.inj hf
    exact .session _ x _ hx (.startLoop _ hstage hnext (List.length_eq_zero_iff.mp hloaded))
  | read id k checksum pick =>
    obtain ⟨x, hx, rfl, hf⟩ := onSession_eq_some.mp hs
    exact effect_of_read hx hf
  | write ticket raises =>
    obtain ⟨j, hj, rfl⟩ := Option.map_eq_some_iff.mp hs
    obtain ⟨hmem, rfl⟩ := Table.find?_eq_some.mp hj
    exact .write j hmem raises
  | dropWrite ticket =>
    obtain rfl := Option.some.inj hs
    exact .dropWrite _ ticket
  | collect id k =>
    obtain ⟨x, hx, rfl, hf⟩ := onSession_eq_some.mp hs
    exact effect_of_collect hx hf
  | commit id =>
    obtain ⟨x, hx, rfl, hf⟩ := onSession_eq_some.mp hs
    unfold State.commit State.commitAs at hf
    rw [Option.ite_none_right_eq_some] at hf
    obtain rfl := Option.some.inj hf.2
    exact .commit _ x hx
  | finish id =>
    obtain ⟨x, hx, rfl, hf⟩ := onSession_eq_some.mp hs
    unfold State.finish at hf
    rw [Option.ite_none_right_eq_some] at hf
    exact effect_of_complete hx (.inl hf.1) hf.2
  | fail id =>
    obtain ⟨x, -, rfl, hf⟩ := onSession_eq_some.mp hs
    exact effect_of_fail hf
  | setInvalid id =>
    unfold step State.setInvalid at hs
    rw [Option.ite_none_right_eq_some] at hs
    obtain rfl := Option.some.inj hs.2
    exact .setInvalid _ id _
  | cowWrite id idx =>
    obtain ⟨x, hx, rfl, hf⟩ := onSession_eq_some.mp hs
    unfold State.cowWrite at hf
    rw [Option.ite_none_right_eq_some] at hf
    obtain ⟨⟨hstage, hidx⟩, hf⟩ := hf
    obtain rfl := Option.some.inj hf
    exact .session _ x _ hx (.cowWrite _ idx hstage hidx)
  | startFixate id =>
    obtain ⟨x, hx, rfl, hf⟩ := onSession_eq_some.mp hs
    unfold State.startFixate at hf
    rw [Option.ite_none_right_eq_some] at hf
    obtain rfl := Option.some.inj hf.2
    exact .session _ x _ hx (.startFixate _ hf.1)
  | fixate id checksum size =>
    obtain ⟨x, hx, rfl, hf⟩ := onSession_eq_some.mp hs
    exact effect_of_fixate hx hf
  | fixateFails id checksum =>
    obtain ⟨x, hx, rfl, hf⟩ := onSession_eq_some.mp hs
    exact effect_of_fixateFails hx hf
  | fixateDone id =>
    obtain ⟨x, hx, rfl, hf⟩ := onSession_eq_some.mp hs
    unfold State.fixateDone at hf
    rw [Option.ite_none_right_eq_some] at hf
    obtain ⟨⟨hstage, hcow⟩, hf⟩ := hf
    exact effect_of_complete hx (.inr ⟨hstage, List.length_eq_zero_iff.mp hcow⟩) hf
  | removeVersion id date =>
    obtain ⟨v, -, rfl⟩ := Option.map_eq_some_iff.mp hs
    exact .removeVersion _ v date
  | cleanup ids objects => exact effect_of_cleanup hs
  | setBlockValid uid valid =>
    obtain rfl := Option.some.inj hs
    exact .setBlockValid uid valid
  | deepScrub id => exact effect_of_deepScrub hs

end Inversion

end Benji.Servicer
