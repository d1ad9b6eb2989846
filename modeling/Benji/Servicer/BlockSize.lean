import Benji.Database.Tables
import Benji.Lib.Steps

/-! The block size of a version: what the API stores, when a backup replaces it, and which
status the version has by then. -/
namespace Benji.Servicer.BlockSize
open Lib

/-- A row of `versions`; the API does not look at the block size it is given. -/
structure VersionRow where
  id : ℕ
  size : ℤ
  blockSize : ℤ
  status : VersionStatus
  deriving DecidableEq, Repr

/-- A backup that has set the size and the block size of its version; they are `locked` in the
database together with the first lock. -/
structure Backup where
  ticket : ℕ
  versionId : ℕ
  newSize : ℤ
  newBlockSize : ℤ
  locked : Bool
  deriving DecidableEq, Repr

structure State where
  nextId : ℕ
  versions : Table VersionRow.id
  backups : Table Backup.ticket
  /-- The versions with rows in `blocks`. -/
  blocks : List ℕ

inductive Event where
  | create (blockSize : Option ℤ)
  /-- A backup fails before it has set anything: no source, or a base version that does not fit. -/
  | refuse (id : ℕ)
  | start (ticket id : ℕ) (sourceSize : ℤ)
  | lock (ticket : ℕ)
  | createBlocks (ticket : ℕ)
  | finish (ticket : ℕ)
  /-- A backup fails at a later step. -/
  | fail (ticket : ℕ)
  | setBlockInvalid (ids : List ℕ)
  | deepScrub (id : ℕ)
  | remove (id : ℕ)

namespace State

def setStatus (s : State) (id : ℕ) (status : VersionStatus) : State :=
  let f (v : VersionRow) := { v with status := if v.id = id then status else v.status }
  { s with versions := s.versions.update f fun _ => rfl }

def setSize (s : State) (id : ℕ) (size blockSize : ℤ) : State :=
  let f (v : VersionRow) := { v with
    size := if v.id = id then size else v.size
    blockSize := if v.id = id then blockSize else v.blockSize }
  { s with versions := s.versions.update f fun _ => rfl }

/-- `block_size or 0`. -/
def create (s : State) (blockSize : Option ℤ) : State :=
  { s with
    nextId := s.nextId + 1
    versions := s.versions.put ⟨s.nextId, 0, blockSize.getD 0, .incomplete⟩ }

/-- `defaultBlockSize` is the block size of the configuration. -/
def start (defaultBlockSize : ℤ) (s : State) (ticket id : ℕ) (sourceSize : ℤ) : Option State :=
  if s.backups.find? ticket = none then (s.versions.find? id).map fun v =>
    let newBlockSize := if v.blockSize ≠ 0 then v.blockSize else defaultBlockSize
    { s with backups := s.backups.put ⟨ticket, id, sourceSize, newBlockSize, false⟩ }
  else none

/-- Taking the lock commits the session. -/
def lock (s : State) (ticket : ℕ) : Option State :=
  (s.backups.find? ticket).map fun b =>
    { s.setSize b.versionId b.newSize b.newBlockSize with
      backups := s.backups.put { b with locked := true } }

def createBlocks (s : State) (ticket : ℕ) : Option State :=
  ((s.backups.find? ticket).filter fun b => b.locked = true).map fun b =>
    { s with blocks := b.versionId :: s.blocks }

def finish (s : State) (ticket : ℕ) : Option State :=
  ((s.backups.find? ticket).filter fun b => b.locked = true).map fun b =>
    { s.setStatus b.versionId .valid with backups := s.backups.erase ticket }

/-- What is not committed is rolled back; then the servicer sets the status. -/
def fail (s : State) (ticket : ℕ) : Option State :=
  (s.backups.find? ticket).map fun b =>
    { s.setStatus b.versionId .invalid with backups := s.backups.erase ticket }

/-- `set_block_valid` marks every version that has the block. -/
def setBlockInvalid (s : State) (ids : List ℕ) : Option State :=
  if ∀ id ∈ ids, id ∈ s.blocks then some (ids.foldl (fun s id => s.setStatus id .invalid) s)
  else none

def deepScrub (s : State) (id : ℕ) : Option State :=
  ((s.versions.find? id).filter fun v => v.status.isDeepScrubbable).map fun _ =>
    s.setStatus id .valid

def remove (s : State) (id : ℕ) : State :=
  { s with
    versions := s.versions.erase id
    blocks := s.blocks.filter fun i => i ≠ id }

end State

open State in
def step (defaultBlockSize : ℤ) (s : State) : Event → Option State
  | .create blockSize => some (s.create blockSize)
  | .refuse id => some (s.setStatus id .invalid)
  | .start ticket id sourceSize => s.start defaultBlockSize ticket id sourceSize
  | .lock ticket => s.lock ticket
  | .createBlocks ticket => s.createBlocks ticket
  | .finish ticket => s.finish ticket
  | .fail ticket => s.fail ticket
  | .setBlockInvalid ids => s.setBlockInvalid ids
  | .deepScrub id => s.deepScrub id
  | .remove id => some (s.remove id)

def init : State := ⟨1, .empty, .empty, []⟩

/-- `math.ceil(size / block_size)`; `none` is `ZeroDivisionError`. -/
def VersionRow.blocksCount (v : VersionRow) : Option ℤ :=
  if v.blockSize = 0 then none else some (-((-v.size).fdiv v.blockSize))

/-- The row of version `id` has a block size of at least one. -/
def State.Sized (s : State) (id : ℕ) : Prop := ∀ v ∈ s.versions, v.id = id → 1 ≤ v.blockSize

instance {s : State} {id : ℕ} : Decidable (s.Sized id) :=
  inferInstanceAs (Decidable (∀ v ∈ s.versions, _))

/-- A backup starts where the stored block size is not negative, and where it fails before it
has locked its version, the stored block size is not zero either. -/
def Allowed (s : State) : Event → Prop
  | .refuse id => s.Sized id
  | .start _ id _ => ∀ v ∈ s.versions, v.id = id → 0 ≤ v.blockSize
  | .fail ticket => ∀ b ∈ s.backups, b.ticket = ticket → b.locked = false → s.Sized b.versionId
  | _ => True

instance {s : State} {e : Event} : Decidable (Allowed s e) := by
  cases e <;> unfold Allowed <;> infer_instance

structure Inv (s : State) : Prop where
  rows : ∀ v ∈ s.versions, v.status ≠ .incomplete → 1 ≤ v.blockSize
  fresh : ∀ v ∈ s.versions, v.id < s.nextId
  backups : ∀ b ∈ s.backups, 1 ≤ b.newBlockSize ∧ b.versionId < s.nextId ∧
    (b.locked = true → s.Sized b.versionId)
  blocks : ∀ id ∈ s.blocks, id < s.nextId ∧ s.Sized id

theorem init_inv : Inv init where
  rows := by simp [init]
  fresh := by simp [init]
  backups := by simp [init]
  blocks := by simp [init]

section
variable {defaultBlockSize : ℤ} {s t : State} {id : ℕ} {status : VersionStatus}

theorem mem_setStatus {w : VersionRow} (h : w ∈ (s.setStatus id status).versions) :
    ∃ v ∈ s.versions, w = { v with status := if v.id = id then status else v.status } := by
  simp only [State.setStatus, Table.mem_update] at h
  obtain ⟨v, hv, rfl⟩ := h
  exact ⟨v, hv, rfl⟩

theorem sized_setStatus {i : ℕ} (h : s.Sized i) : (s.setStatus id status).Sized i := by
  intro w hw hi
  obtain ⟨v, hv, rfl⟩ := mem_setStatus hw
  exact h v hv hi

/-- A status may be set where the block size is known, or back to incomplete. -/
theorem Inv.setStatus (hi : Inv s) (hs : s.Sized id) : Inv (s.setStatus id status) where
  rows := by
    intro w hw hne
    obtain ⟨v, hv, rfl⟩ := mem_setStatus hw
    by_cases hid : v.id = id
    · exact hs v hv hid
    · simp only [if_neg hid] at hne
      exact hi.rows v hv hne
  fresh := by
    intro w hw
    obtain ⟨v, hv, rfl⟩ := mem_setStatus hw
    exact hi.fresh v hv
  backups := by
    intro b hb
    obtain ⟨hsize, hlt, hlocked⟩ := hi.backups b hb
    exact ⟨hsize, hlt, fun hl => sized_setStatus (hlocked hl)⟩
  blocks := by
    intro i hmem
    obtain ⟨hlt, hsized⟩ := hi.blocks i hmem
    exact ⟨hlt, sized_setStatus hsized⟩

theorem Inv.setStatuses {ids : List ℕ} (hi : Inv s) (h : ∀ i ∈ ids, s.Sized i) :
    Inv (ids.foldl (fun s i => s.setStatus i .invalid) s) := by
  induction ids generalizing s with
  | nil => exact hi
  | cons i ids ih =>
    refine ih (hi.setStatus (h i List.mem_cons_self)) ?_
    intro j hj
    exact sized_setStatus (h j (List.mem_cons_of_mem _ hj))

/-- A backup that is over. -/
theorem Inv.eraseBackup (hi : Inv s) (ticket : ℕ) :
    Inv { s with backups := s.backups.erase ticket } where
  rows := hi.rows
  fresh := hi.fresh
  backups := fun b hb => hi.backups b (Table.mem_erase.mp hb).1
  blocks := hi.blocks

theorem mem_setSize {size blockSize : ℤ} {w : VersionRow}
    (h : w ∈ (s.setSize id size blockSize).versions) : ∃ v ∈ s.versions, v.id = w.id ∧
      v.status = w.status ∧ w.blockSize = if v.id = id then blockSize else v.blockSize := by
  simp only [State.setSize, Table.mem_update] at h
  obtain ⟨v, hv, rfl⟩ := h
  exact ⟨v, hv, rfl, rfl, rfl⟩

theorem sized_setSize_self {size blockSize : ℤ} (h : 1 ≤ blockSize) :
    (s.setSize id size blockSize).Sized id := by
  intro w hw hi
  obtain ⟨v, -, hid, -, hsize⟩ := mem_setSize hw
  rw [hsize, if_pos (hid.trans hi)]
  exact h

theorem sized_setSize {size blockSize : ℤ} {i : ℕ} (hb : 1 ≤ blockSize) (h : s.Sized i) :
    (s.setSize id size blockSize).Sized i := by
  intro w hw hi
  obtain ⟨v, hv, hid, -, hsize⟩ := mem_setSize hw
  rw [hsize]
  split_ifs
  · exact hb
  · exact h v hv (hid.trans hi)

theorem Inv.setSize {size blockSize : ℤ} (hi : Inv s) (hb : 1 ≤ blockSize) :
    Inv (s.setSize id size blockSize) where
  rows := by
    intro w hw hne
    obtain ⟨v, hv, -, hstatus, hsize⟩ := mem_setSize hw
    rw [hsize]
    split_ifs
    · exact hb
    · exact hi.rows v hv (hstatus ▸ hne)
  fresh := by
    intro w hw
    obtain ⟨v, hv, hid, -⟩ := mem_setSize hw
    exact hid ▸ hi.fresh v hv
  backups := by
    intro b hmem
    obtain ⟨hsize, hlt, hlocked⟩ := hi.backups b hmem
    exact ⟨hsize, hlt, fun hl => sized_setSize hb (hlocked hl)⟩
  blocks := by
    intro i hmem
    obtain ⟨hlt, hsized⟩ := hi.blocks i hmem
    exact ⟨hlt, sized_setSize hb hsized⟩

/-- What a step may take away. -/
theorem sized_of_subset {versions : Table VersionRow.id} (h : s.Sized id)
    (hv : ∀ v ∈ versions, v ∈ s.versions) : State.Sized { s with versions := versions } id :=
  fun v hmem => h v (hv v hmem)

theorem create_inv {blockSize : Option ℤ} (hi : Inv s) : Inv (s.create blockSize) := by
  have hold : ∀ v ∈ (s.create blockSize).versions, v.id ≠ s.nextId → v ∈ s.versions := by
    intro v hv hne
    cases Table.mem_put.mp hv with
    | inl h => exact absurd (congrArg VersionRow.id h) hne
    | inr h => exact h.1
  have hsized {i : ℕ} (hlt : i < s.nextId) (h : s.Sized i) : (s.create blockSize).Sized i := by
    intro v hv he
    exact h v (hold v hv (by omega)) he
  refine ⟨?_, ?_, ?_, ?_⟩
  · intro v hv hne
    cases Table.mem_put.mp hv with
    | inl h => exact absurd (congrArg VersionRow.status h) hne
    | inr h => exact hi.rows v h.1 hne
  · intro v hv
    cases Table.mem_put.mp hv with
    | inl h =>
      rw [h]
      exact Nat.lt_succ_self _
    | inr h => exact Nat.lt_succ_of_lt (hi.fresh v h.1)
  · intro b hb
    obtain ⟨hsize, hlt, hlocked⟩ := hi.backups b hb
    exact ⟨hsize, Nat.lt_succ_of_lt hlt, fun hl => hsized hlt (hlocked hl)⟩
  · intro i hmem
    obtain ⟨hlt, h⟩ := hi.blocks i hmem
    exact ⟨Nat.lt_succ_of_lt hlt, hsized hlt h⟩

theorem start_inv {ticket : ℕ} {sourceSize : ℤ} (hd : 1 ≤ defaultBlockSize) (hi : Inv s)
    (ho : ∀ v ∈ s.versions, v.id = id → 0 ≤ v.blockSize)
    (h : s.start defaultBlockSize ticket id sourceSize = some t) : Inv t := by
  unfold State.start at h
  split_ifs at h
  obtain ⟨v, hv, rfl⟩ := Option.map_eq_some_iff.mp h
  obtain ⟨hmem, hid⟩ := Table.find?_eq_some.mp hv
  refine ⟨hi.rows, hi.fresh, ?_, hi.blocks⟩
  intro b hb
  cases Table.mem_put.mp hb with
  | inl hnew =>
    rw [hnew]
    refine ⟨?_, hid ▸ hi.fresh v hmem, fun hl => absurd hl (by simp)⟩
    have hle := ho v hmem hid
    dsimp only
    split_ifs <;> omega
  | inr hold => exact hi.backups b hold.1

theorem lock_inv {ticket : ℕ} (hi : Inv s) (h : s.lock ticket = some t) : Inv t := by
  obtain ⟨b, hb, rfl⟩ := Option.map_eq_some_iff.mp h
  obtain ⟨hsize, hlt, -⟩ := hi.backups b (Table.mem_of_find? hb)
  have hset := @Inv.setSize _ b.versionId b.newSize _ hi hsize
  refine ⟨hset.rows, hset.fresh, ?_, hset.blocks⟩
  intro c hc
  cases Table.mem_put.mp hc with
  | inl hnew =>
    rw [hnew]
    exact ⟨hsize, hlt, fun _ => @sized_setSize_self s _ b.newSize _ hsize⟩
  | inr hold => exact hset.backups c hold.1

/-- The backup and what is known of it once it has locked its version. -/
theorem locked_spec {ticket : ℕ} {b : Backup} (hi : Inv s)
    (h : ((s.backups.find? ticket).filter fun b => b.locked = true) = some b) :
    b ∈ s.backups ∧ b.versionId < s.nextId ∧ s.Sized b.versionId := by
  obtain ⟨hb, hl⟩ := Option.filter_eq_some_iff.mp h
  have hmem := Table.mem_of_find? hb
  obtain ⟨-, hlt, hlocked⟩ := hi.backups b hmem
  exact ⟨hmem, hlt, hlocked (by simpa using hl)⟩

theorem remove_inv (hi : Inv s) : Inv (s.remove id) := by
  have hsub : ∀ v ∈ s.versions.erase id, v ∈ s.versions := fun v hv => (Table.mem_erase.mp hv).1
  refine ⟨?_, ?_, ?_, ?_⟩
  · intro v hv
    exact hi.rows v (hsub v hv)
  · intro v hv
    exact hi.fresh v (hsub v hv)
  · intro b hb
    obtain ⟨hsize, hlt, hlocked⟩ := hi.backups b hb
    exact ⟨hsize, hlt, fun hl => sized_of_subset (hlocked hl) hsub⟩
  · intro i hmem
    obtain ⟨hlt, hsized⟩ := hi.blocks i (List.mem_filter.mp hmem).1
    exact ⟨hlt, sized_of_subset hsized hsub⟩

theorem step_inv {e : Event} (hd : 1 ≤ defaultBlockSize) (hi : Inv s) (ho : Allowed s e)
    (h : step defaultBlockSize s e = some t) : Inv t := by
  cases e with
  | create blockSize => exact Option.some.inj h ▸ create_inv hi
  | refuse id => exact Option.some.inj h ▸ hi.setStatus ho
  | start ticket id sourceSize => exact start_inv hd hi ho h
  | lock ticket => exact lock_inv hi h
  | createBlocks ticket =>
    obtain ⟨b, hb, rfl⟩ := Option.map_eq_some_iff.mp h
    obtain ⟨-, hlt, hsized⟩ := locked_spec hi hb
    refine ⟨hi.rows, hi.fresh, hi.backups, ?_⟩
    intro i hmem
    cases List.mem_cons.mp hmem with
    | inl he =>
      rw [he]
      exact ⟨hlt, hsized⟩
    | inr hold => exact hi.blocks i hold
  | finish ticket =>
    obtain ⟨b, hb, rfl⟩ := Option.map_eq_some_iff.mp h
    obtain ⟨-, -, hsized⟩ := locked_spec hi hb
    exact (hi.setStatus hsized).eraseBackup ticket
  | fail ticket =>
    obtain ⟨b, hb, rfl⟩ := Option.map_eq_some_iff.mp h
    obtain ⟨hmem, hticket⟩ := Table.find?_eq_some.mp hb
    have hsized : s.Sized b.versionId := by
      cases hl : b.locked with
      | true => exact (hi.backups b hmem).2.2 hl
      | false => exact ho b hmem hticket hl
    exact (hi.setStatus hsized).eraseBackup ticket
  | setBlockInvalid ids =>
    change s.setBlockInvalid ids = some t at h
    unfold State.setBlockInvalid at h
    split_ifs at h with hids
    exact Option.some.inj h ▸ hi.setStatuses fun i hmem => (hi.blocks i (hids i hmem)).2
  | deepScrub id =>
    obtain ⟨v, hv, rfl⟩ := Option.map_eq_some_iff.mp h
    obtain ⟨hfind, hstatus⟩ := Option.filter_eq_some_iff.mp hv
    obtain ⟨hmem, hid⟩ := Table.find?_eq_some.mp hfind
    have hne : v.status ≠ .incomplete := by
      intro he
      rw [he] at hstatus
      exact absurd hstatus (by decide)
    refine hi.setStatus ?_
    intro w hw he
    rw [Table.eq_of_key_eq hw hmem (he.trans hid.symm)]
    exact hi.rows v hmem hne
  | remove id => exact Option.some.inj h ▸ remove_inv hi

/-- In every run whose steps are allowed, no version that can be restored, scrubbed or exported
divides by zero. -/
theorem blockSize_pos_of_steps (hd : 1 ≤ defaultBlockSize)
    (h : Steps (step defaultBlockSize) Allowed init t) :
    ∀ v ∈ t.versions, v.status = .valid ∨ v.status = .invalid →
      1 ≤ v.blockSize ∧ v.blocksCount.isSome := by
  have hinv : Inv t := h.invariant init_inv fun hi ho hs => step_inv hd hi ho hs
  intro v hv hstatus
  have hne : v.status ≠ .incomplete := by
    intro he
    rw [he] at hstatus
    simp at hstatus
  have hpos := hinv.rows v hv hne
  refine ⟨hpos, ?_⟩
  have hz : v.blockSize ≠ 0 := by omega
  rw [VersionRow.blocksCount, if_neg hz]
  rfl

end

/-- A backup that is done, and one without a source of a version with a block size. -/
theorem blockSize_pos_of_steps_example : ∃ t, Steps (step 4096) Allowed init t ∧
    (t.versions.rows.map fun v => (v.blockSize, v.status)) =
      [(512, .invalid), (4096, .valid)] ∧
    ∀ v ∈ t.versions, v.status = .valid ∨ v.status = .invalid →
      1 ≤ v.blockSize ∧ v.blocksCount.isSome := by
  obtain ⟨t, ht, hrows⟩ := @exists_steps_of_runIf _ _ (step 4096) Allowed init
    [.create none, .start 0 1 10000, .lock 0, .createBlocks 0, .finish 0,
      .create (some 512), .refuse 2] _
    (f := fun t => (t.versions.rows.map fun v => (v.blockSize, v.status)) =
      [(512, .invalid), (4096, .valid)]) (by decide +kernel)
  exact ⟨t, ht, of_decide_eq_true hrows, blockSize_pos_of_steps (by decide) ht⟩

/-- A version is created without a block size, and its source cannot be opened. -/
theorem invalid_without_block_size :
    ¬ ∀ (defaultBlockSize : ℤ) (t : State), 512 ≤ defaultBlockSize →
      Reaches (step defaultBlockSize) init t →
      ∀ v ∈ t.versions, v.status = .valid ∨ v.status = .invalid → 1 ≤ v.blockSize := by
  intro h
  obtain ⟨t, ht, hrow⟩ := @exists_reaches_of_run _ _ (step 4096) init
    [.create none, .refuse 1]
    (f := fun t => ⟨1, 0, 0, .invalid⟩ ∈ t.versions.rows) (by decide +kernel)
  have hmem : (⟨1, 0, 0, .invalid⟩ : VersionRow) ∈ t.versions.rows := of_decide_eq_true hrow
  have hpos := h 4096 t (by decide) ht _ hmem (.inr rfl)
  exact absurd hpos (by decide)

end Benji.Servicer.BlockSize
