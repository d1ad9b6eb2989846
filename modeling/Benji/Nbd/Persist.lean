import Benji.Nbd.Fixate

/-! What a version reads as that was written to and fixated: the rows that survive the
rollbacks, and the objects they refer to. -/
namespace Benji.Nbd
open Lib

variable {κ : Type}

namespace Store

/-- The row for a file, as far as `set_block` gets to write it. -/
def record [DecidableEq κ] (S : Settings κ) (c : Version) (data : Bytes) (t : BlockTable κ)
    (idx : ℕ) : BlockTable κ :=
  if S.dataHexdigest data = S.dataHexdigest (zeros c.blockSize) then
    t.setBlock c idx none none data.length true
  else t.setBlock c idx (some ⟨c.id, idx + 1⟩) (some (S.dataHexdigest data)) data.length true

/-- The object for a file. -/
def objectOf (S : Settings κ) (b : Block κ) (data : Bytes) : StoredObject κ :=
  ⟨data.length, .ok data, .decoded ⟨data.length, b.size, some (S.dataHexdigest data)⟩⟩

/-- How one block changes the world. -/
structure FixatedBlock [DecidableEq κ] (S : Settings κ) (sched : FixateSchedule) (c : Version)
    (idx : ℕ) (b : Block κ) (data : Bytes) (s t : Store κ) : Prop where
  cow : t.cow = s.cow
  files : ∀ u, t.cowStore.files u = if u = ⟨c.id, idx + 1⟩ then none else s.cowStore.files u
  failed : (sched.setBlockError idx).isSome →
    t.world.db = s.world.committed ∧ t.world.committed = s.world.committed
  recorded : sched.setBlockError idx = none →
    t.world.db = { s.world.db with blocks := record S c data s.world.db.blocks idx } ∧
    t.world.committed = if sched.due idx then t.world.db else s.world.committed
  others : ∀ storage u, (storage, u) ≠ (c.storage.id, ⟨c.id, idx + 1⟩) →
    t.world.objects storage u = s.world.objects storage u
  object : sched.setBlockError idx = none →
    S.dataHexdigest data ≠ S.dataHexdigest (zeros c.blockSize) →
    t.world.objects c.storage.id ⟨c.id, idx + 1⟩ = some (objectOf S b data)

/-- The world with the row of a block written. -/
def recordedWorld (sched : FixateSchedule) (c : Version) (idx : ℕ) (blockUid : Option BlockUid)
    (checksum : Option κ) (size : ℕ) (w : World κ) : World κ :=
  let t := w.db.blocks.setBlock c idx blockUid checksum size true
  (w.setBlocks t).timedCommit (sched.due idx)

/-- The world after an exception, without the object of the block. -/
def revertedWorld (c : Version) (blockUid : Option BlockUid) (w : World κ) : World κ :=
  match blockUid with
  | none => w.rollback
  | some uid => { w.rollback with objects := w.objects.put c.storage.id uid none }

section
variable {S : Settings κ} {sched : FixateSchedule} {c : Version} {idx : ℕ} {b : Block κ}
  {data : Bytes} {s t : Store κ}

theorem returns_onWorld {α : Type} {p : Benji.Action κ α} {a : α} :
    (onWorld p).Returns s a t ↔ ∃ w, p.Returns s.world a w ∧ { s with world := w } = t :=
  Proc.returns_onPart

theorem returns_raiseAny {e : Option Error} {a : Unit} :
    (raiseAny e).Returns s a t ↔ e = none ∧ s = t := by
  cases e <;> simp [raiseAny]

theorem returns_removeFile {uid : BlockUid} (h : (removeFile (some uid)).Returns s () t) :
    t = { s with cowStore := ⟨fun u => if u = uid then none else s.cowStore.files u,
      fun u => u ≠ uid && s.cowStore.blockPresent u⟩ } := by
  simp only [removeFile, BlockStore.rm, Proc.returns_bind, Proc.returns_get, returns_ofExcept,
    Proc.returns_modify] at h
  obtain ⟨_, _, ⟨rfl, rfl⟩, _, _, ⟨hr, rfl⟩, rfl⟩ := h
  rw [Except.ok.inj hr]

/-- `set_block` writes its row, or takes the session back and removes the object. -/
theorem returns_recordBlock {blockUid : Option BlockUid} {checksum : Option κ} {size : ℕ}
    (h : (recordBlock sched c idx blockUid checksum size).Returns s () t) :
    (sched.setBlockError idx = none ∧
      t = { s with world := recordedWorld sched c idx blockUid checksum size s.world }) ∨
    (sched.setBlockError idx).isSome ∧
      t = { s with world := revertedWorld c blockUid s.world } := by
  rcases Proc.returns_tryExcept.mp h with h | ⟨e, u, hu, h⟩
  · obtain ⟨w, hw, rfl⟩ := returns_onWorld.mp h
    unfold setBlock at hw
    cases he : sched.setBlockError idx with
    | some e => simp [he] at hw
    | none =>
      simp only [he, Proc.returns_modify] at hw
      rw [← hw]
      exact .inl ⟨rfl, rfl⟩
  · obtain ⟨w, hw, rfl⟩ := Proc.raises_onPart.mp hu
    unfold setBlock at hw
    cases he : sched.setBlockError idx with
    | none => simp [he] at hw
    | some e' =>
      simp only [he, Locking.rollbackAndRaise, Proc.raises_bind, Proc.raises_modify, false_or,
        Proc.returns_modify, Proc.raises_raise] at hw
      obtain ⟨_, _, rfl, -, rfl⟩ := hw
      refine .inr ⟨rfl, ?_⟩
      cases blockUid with
      | none =>
        simp only [removeBlock, Proc.returns_modify, id_eq] at h
        exact h.symm
      | some uid =>
        simp only [removeBlock, Proc.returns_bind, returns_raiseAny, returns_onWorld,
          Proc.returns_modify] at h
        obtain ⟨_, _, ⟨-, rfl⟩, _, rfl, rfl⟩ := h
        rfl

theorem fixateBlock_spec [DecidableEq κ] (hu : b.uid = some ⟨c.id, idx + 1⟩) (hi : b.idx = idx)
    (hfile : s.cowStore.files ⟨c.id, idx + 1⟩ = some data)
    (h : (fixateBlock S sched c (idx, b)).Returns s () t) :
    FixatedBlock S sched c idx b data s t := by
  have hread : s.cowStore.read (some ⟨c.id, idx + 1⟩) 0 none = .ok data := by
    simp [BlockStore.read, hfile, fileRead]
  subst hi
  simp only [fixateBlock, hu, Proc.returns_bind, Proc.returns_get, returns_ofExcept] at h
  obtain ⟨_, _, ⟨rfl, rfl⟩, _, _, ⟨hr, rfl⟩, h⟩ := h
  obtain rfl := Except.ok.inj (hread.symm.trans hr)
  by_cases hs : S.dataHexdigest data = S.dataHexdigest (zeros c.blockSize)
  · simp only [if_pos hs, Proc.returns_bind] at h
    obtain ⟨_, u, hrm, h⟩ := h
    obtain rfl := returns_removeFile hrm
    rcases returns_recordBlock h with ⟨he, rfl⟩ | ⟨he, rfl⟩
    · refine ⟨rfl, fun _ => rfl, fun hsome => ?_, fun _ => ?_, fun _ _ _ => ?_, fun _ hns => ?_⟩
      · simp [he] at hsome
      · rw [record, if_pos hs]
        unfold recordedWorld World.timedCommit
        split
        · exact ⟨rfl, rfl⟩
        · exact ⟨rfl, rfl⟩
      · rw [recordedWorld, World.timedCommit_objects]
        rfl
      · exact absurd hs hns
    · refine ⟨rfl, fun _ => rfl, fun _ => ⟨rfl, rfl⟩, fun hn => ?_, fun _ _ _ => rfl,
        fun _ hns => absurd hs hns⟩
      simp [hn] at he
  · simp only [if_neg hs, Proc.returns_bind, writeBlock, returns_raiseAny, returns_onWorld,
      Proc.returns_modify] at h
    obtain ⟨_, u, ⟨_, _, ⟨-, rfl⟩, _, rfl, rfl⟩, _, _, hrm, h⟩ := h
    obtain rfl := returns_removeFile hrm
    rcases returns_recordBlock h with ⟨he, rfl⟩ | ⟨he, rfl⟩
    · refine ⟨rfl, fun _ => rfl, fun hsome => ?_, fun _ => ?_, fun storage u hne => ?_,
        fun _ _ => ?_⟩
      · simp [he] at hsome
      · rw [record, if_neg hs]
        unfold recordedWorld World.timedCommit
        split
        · exact ⟨rfl, rfl⟩
        · exact ⟨rfl, rfl⟩
      · rw [recordedWorld, World.timedCommit_objects]
        simp only [World.setBlocks, World.mapDb_objects, writeObject]
        exact Objects.put_of_ne hne
      · rw [recordedWorld, World.timedCommit_objects]
        simp [World.setBlocks, writeObject, objectOf]
    · refine ⟨rfl, fun _ => rfl, fun _ => ⟨rfl, rfl⟩, fun hn => ?_, fun storage u hne => ?_,
        fun hn _ => ?_⟩
      · simp [hn] at he
      · simp only [revertedWorld, writeObject]
        rw [Objects.put_of_ne hne, Objects.put_of_ne hne]
      · simp [hn] at he

end

/-- The blocks whose rows are there when the loop is through: an exception takes back what was
recorded since the last commit. `pending` are the blocks recorded since then. -/
def survivors (sched : FixateSchedule) : List ℕ → List ℕ → List ℕ
  | pending, [] => pending
  | pending, idx :: rest =>
    if (sched.setBlockError idx).isSome then survivors sched [] rest
    else if sched.due idx then pending ++ idx :: survivors sched [] rest
    else survivors sched (pending ++ [idx]) rest

def recordAll [DecidableEq κ] (S : Settings κ) (c : Version) (file : ℕ → Bytes)
    (t : BlockTable κ) (idxs : List ℕ) : BlockTable κ :=
  idxs.foldl (fun t idx => record S c (file idx) t idx) t

section
variable [DecidableEq κ] {S : Settings κ} {sched : FixateSchedule} {c : Version}
  {file : ℕ → Bytes} {db : Database κ} {entries : CowTable κ}

/-- The induction is on the blocks; `base` is what is committed. -/
theorem fixateBlocks_spec (base : BlockTable κ) (pending : List ℕ) {s t : Store κ}
    (hnodup : (entries.map Prod.fst).Nodup)
    (hentries : ∀ e ∈ entries, e.2.uid = some ⟨c.id, e.1 + 1⟩ ∧ e.2.idx = e.1 ∧
      s.cowStore.files ⟨c.id, e.1 + 1⟩ = some (file e.1))
    (hcommitted : s.world.committed = { db with blocks := base })
    (hdb : s.world.db = { db with blocks := recordAll S c file base pending })
    (h : (Proc.forEach (fixateBlock S sched c) entries).Returns s () t) :
    t.world.db = { db with
      blocks := recordAll S c file base (survivors sched pending (entries.map Prod.fst)) } ∧
    (∀ storage u, (∀ e ∈ entries, (storage, u) ≠ (c.storage.id, ⟨c.id, e.1 + 1⟩)) →
      t.world.objects storage u = s.world.objects storage u) ∧
    ∀ e ∈ entries, sched.setBlockError e.1 = none →
      S.dataHexdigest (file e.1) ≠ S.dataHexdigest (zeros c.blockSize) →
      t.world.objects c.storage.id ⟨c.id, e.1 + 1⟩ = some (objectOf S e.2 (file e.1)) := by
  induction entries generalizing s base pending with
  | nil =>
    obtain rfl := Proc.returns_forEach_nil.mp h
    exact ⟨hdb, fun _ _ _ => rfl, fun _ he => absurd he List.not_mem_nil⟩
  | cons e entries ih =>
    obtain ⟨u, hu, hrest⟩ := Proc.returns_forEach_cons.mp h
    obtain ⟨huid, hidx, hfile⟩ := hentries e List.mem_cons_self
    have hone := fixateBlock_spec huid hidx hfile hu
    obtain ⟨hnot, hnodup⟩ := List.nodup_cons.mp hnodup
    have hne (e' : ℕ × Block κ) (he' : e' ∈ entries) :
        (⟨c.id, e'.1 + 1⟩ : BlockUid) ≠ ⟨c.id, e.1 + 1⟩ := by
      intro heq
      have hsame : e'.1 = e.1 := by
        have := (BlockUid.mk.inj heq).2
        omega
      exact hnot (hsame ▸ List.mem_map_of_mem he')
    have hentries' : ∀ e' ∈ entries, e'.2.uid = some ⟨c.id, e'.1 + 1⟩ ∧ e'.2.idx = e'.1 ∧
        u.cowStore.files ⟨c.id, e'.1 + 1⟩ = some (file e'.1) := by
      intro e' he'
      obtain ⟨h1, h2, h3⟩ := hentries e' (List.mem_cons_of_mem _ he')
      refine ⟨h1, h2, ?_⟩
      rw [hone.files, if_neg (hne e' he'), h3]
    -- Where the rows and the committed rows stand after this block.
    have hstep : ∃ base' pending', u.world.committed = { db with blocks := base' } ∧
        u.world.db = { db with blocks := recordAll S c file base' pending' } ∧
        recordAll S c file base (survivors sched pending (e.1 :: entries.map Prod.fst)) =
          recordAll S c file base' (survivors sched pending' (entries.map Prod.fst)) := by
      cases herr : sched.setBlockError e.1 with
      | some err =>
        obtain ⟨h1, h2⟩ := hone.failed (by rw [herr]; rfl)
        refine ⟨base, [], h2.trans hcommitted, h1.trans hcommitted, ?_⟩
        simp [survivors, herr]
      | none =>
        obtain ⟨h1, h2⟩ := hone.recorded herr
        rw [hdb] at h1
        have hrec : record S c (file e.1) (recordAll S c file base pending) e.1 =
            recordAll S c file base (pending ++ [e.1]) := by
          simp [recordAll]
        simp only [hrec] at h1
        by_cases hdue : sched.due e.1
        · rw [if_pos hdue, h1] at h2
          refine ⟨_, [], h2, h1, ?_⟩
          simp [survivors, herr, hdue, recordAll]
        · rw [if_neg hdue] at h2
          refine ⟨base, pending ++ [e.1], h2.trans hcommitted, h1, ?_⟩
          simp [survivors, herr, hdue]
    obtain ⟨base', pending', hc', hd', hsurv⟩ := hstep
    obtain ⟨h1, h2, h3⟩ := ih base' pending' hnodup hentries' hc' hd' hrest
    refine ⟨?_, ?_, ?_⟩
    · rw [List.map_cons, hsurv]
      exact h1
    · intro storage v hv
      rw [h2 storage v fun e' he' => hv e' (List.mem_cons_of_mem _ he')]
      exact hone.others storage v (hv e List.mem_cons_self)
    · intro e' he' herr hsparse
      cases List.mem_cons.mp he' with
      | inl heq =>
        subst heq
        rw [h2 _ _ fun e'' he'' heq => hne e'' he'' (Prod.mk.inj heq).2.symm]
        exact hone.object herr hsparse
      | inr hmem => exact h3 e' hmem herr hsparse

/-- The versions of the database and of its last commit. -/
def SameVersions (versions : Table Version.id) (w : World κ) : Prop :=
  w.db.versions = versions ∧ w.committed.versions = versions

theorem keeps_fixateBlock {versions : Table Version.id} (e : ℕ × Block κ) :
    (fixateBlock S sched c e).Keeps fun s => SameVersions versions s.world := by
  have hfile (uid : Option BlockUid) :
      (removeFile uid : Action κ Unit).Keeps fun s => SameVersions versions s.world := by
    refine Proc.Keeps.get.bind fun s => Proc.Keeps.bind ?_ fun _ => Proc.Keeps.modify fun _ h => h
    intro s r t h hs
    cases h
    exact hs
  have hany (e : Option Error) :
      (raiseAny e : Action κ Unit).Keeps fun s => SameVersions versions s.world := by
    cases e with
    | none => exact Proc.Keeps.modify fun _ h => h
    | some e => exact Proc.Keeps.raise
  have hmod (f : World κ → World κ)
      (hf : ∀ w, SameVersions versions w → SameVersions versions (f w)) :
      (onWorld (Proc.modify f)).Keeps fun s : Store κ => SameVersions versions s.world :=
    (Proc.Keeps.modify hf).onPart (fun _ h => h) fun _ _ _ h => h
  have hrecord (idx : ℕ) (uid : Option BlockUid) (checksum : Option κ) (size : ℕ) :
      (recordBlock sched c idx uid checksum size).Keeps
        fun s => SameVersions versions s.world := by
    apply Proc.Keeps.tryExcept
    · refine Proc.Keeps.onPart (I := SameVersions versions) ?_ (fun _ h => h) fun _ _ _ h => h
      unfold setBlock
      split
      · exact Locking.keeps_rollbackAndRaise fun _ h => ⟨h.2, h.2⟩
      · apply Proc.Keeps.modify
        intro w h
        unfold World.timedCommit
        split
        · exact ⟨h.1, h.1⟩
        · exact h
    · intro _
      unfold removeBlock
      split
      · exact Proc.Keeps.modify fun _ h => h
      · exact (hany _).bind fun _ => hmod _ fun _ h => h
  unfold fixateBlock
  refine Proc.Keeps.get.bind fun s => Proc.Keeps.bind ?_ fun data => ?_
  · intro s r t h hs
    cases h
    exact hs
  · dsimp only
    split
    · exact (hfile _).bind fun _ => hrecord ..
    · refine Proc.Keeps.bind ?_ fun _ => (hfile _).bind fun _ => hrecord ..
      exact (hany _).bind fun _ => hmod _ fun _ h => h

omit [DecidableEq κ] in
/-- Setting the status and what follows it changes no block and no object. -/
theorem finishFixate_spec {w u : World κ} {r : Except Error Unit}
    (h : finishFixate S sched c w = some (r, u)) :
    u.db.blocks = w.db.blocks ∧ u.objects = w.objects := by
  have hkeeps : (do
      Proc.modify (setStatus c.id .valid)
      metadataBackup c.uid sched.metadataError
      Locking.unlockVersion S.me c.uid : Benji.Action κ Unit).Keeps fun x =>
        x.db.blocks = w.db.blocks ∧ x.committed.blocks = w.db.blocks ∧ x.objects = w.objects := by
    refine (Proc.Keeps.modify fun x hx => ⟨hx.1, hx.1, hx.2.2⟩).bind fun _ =>
      Proc.Keeps.bind ?_ fun _ => Locking.keeps_unlock (fun x hx => ⟨hx.2.1, hx.2.1, hx.2.2⟩)
        fun x _ hx => ⟨hx.1, hx.1, hx.2.2⟩
    refine Proc.Keeps.get.bind fun _ => Proc.Keeps.ofOption.bind fun _ => ?_
    split
    · exact Proc.Keeps.raise
    · exact Proc.Keeps.modify fun x hx => hx
  have hcommit : (Proc.modify World.commit : Benji.Action κ Unit).Returns w () w.commit := rfl
  rw [finishFixate, hcommit.bind_eq] at h
  have hu := hkeeps h ⟨rfl, rfl, rfl⟩
  exact ⟨hu.1, hu.2.2⟩

/-- A version that is valid after `fixate` went through all its blocks. -/
theorem fixate_valid {s t : Store κ} {table : CowTable κ} {r : Except Error Unit}
    (hcow : s.cow c.uid = some table) (hversions : s.world.committed.versions = s.world.db.versions)
    (hstatus : ∀ v ∈ s.world.db.versions, v.id = c.id → v.status ≠ .valid)
    (h : fixate S sched c s = some (r, t))
    (hvalid : ∃ v ∈ t.world.db.versions, v.id = c.id ∧ v.status = .valid) :
    ∃ u : Store κ, (Proc.forEach (fixateBlock S sched c) table).Returns s () u ∧
      t.world.db.blocks = u.world.db.blocks ∧ t.world.objects = u.world.objects := by
  have hopen : (cowOf c).Returns s table s := returns_cowOf.mpr ⟨hcow, rfl⟩
  rw [fixate, hopen.bind_eq] at h
  have hloop : (Proc.forEach (fixateBlock S sched c) table).Keeps
      fun s' => SameVersions s.world.db.versions s'.world :=
    Proc.Keeps.forEach fun e _ => keeps_fixateBlock e
  cases r with
  | ok _ =>
    obtain ⟨_, u, hu, hrest⟩ := Proc.returns_bind.mp h
    obtain ⟨_, x, hx, hmod⟩ := Proc.returns_bind.mp hrest
    obtain ⟨w, hw, rfl⟩ := returns_onWorld.mp hx
    obtain rfl := Proc.returns_modify.mp hmod
    exact ⟨u, hu, finishFixate_spec hw⟩
  | error e =>
    rcases Proc.raises_bind.mp h with hraise | ⟨_, u, hu, hrest⟩
    · have hsame := hloop hraise ⟨rfl, hversions⟩
      obtain ⟨v, hv, hid, hs⟩ := hvalid
      rw [hsame.1] at hv
      exact absurd hs (hstatus v hv hid)
    · rcases Proc.raises_bind.mp hrest with hraise | ⟨_, _, _, hraise⟩
      · obtain ⟨w, hw, rfl⟩ := Proc.raises_onPart.mp hraise
        exact ⟨u, hu, finishFixate_spec hw⟩
      · exact absurd hraise Proc.raises_modify

end

end Store
end Benji.Nbd
