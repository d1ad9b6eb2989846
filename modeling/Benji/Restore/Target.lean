import Benji.Restore.Loop

/-! The bytes of the target file while blocks are still to be written. -/
namespace Benji
open Lib

variable {κ : Type}

/-- What a restore puts at the place of a block; nothing for a sparse block that is skipped. -/
def putData (v : Version) (sparse : Bool) (objects : Objects κ) (b : Block κ) : Bytes :=
  match b.uid with
  | some _ => (blockData objects v.storage.id b).getD []
  | none => if sparse then [] else zeros v.blockSize

/-- The target while the blocks in `pending` are not written: elsewhere it has the bytes put
there, and behind them what it had when it was opened. -/
structure TargetInv (v : Version) (put : ℕ → Bytes) (opened : Bytes) (pending : List ℕ)
    (file : Bytes) : Prop where
  length : v.size ≤ file.length
  bytes : ∀ i, file[i]? =
    if i / v.blockSize < v.blocksCount ∧ i / v.blockSize ∉ pending ∧
        i % v.blockSize < (put (i / v.blockSize)).length then
      (put (i / v.blockSize))[i % v.blockSize]?
    else opened[i]?

namespace TargetInv
variable {v : Version} {put : ℕ → Bytes} {opened file : Bytes} {pending pending' : List ℕ}
  {idx : ℕ}

theorem start (h : v.size ≤ opened.length) (hall : ∀ idx < v.blocksCount, idx ∈ pending) :
    TargetInv v put opened pending opened := by
  refine ⟨h, fun i => ?_⟩
  rw [if_neg]
  rintro ⟨hlt, hn, -⟩
  exact hn (hall _ hlt)

theorem congr_pending (h : TargetInv v put opened pending file)
    (he : ∀ i, i ∈ pending' ↔ i ∈ pending) : TargetInv v put opened pending' file := by
  refine ⟨h.length, fun i => ?_⟩
  rw [h.bytes i]
  simp only [he]

/-- A block at whose place nothing is put need not be written. -/
theorem skip (h : TargetInv v put opened pending file) (hput : put idx = [])
    (hp : ∀ i, i ∈ pending' ↔ i ∈ pending ∧ i ≠ idx) :
    TargetInv v put opened pending' file := by
  refine ⟨h.length, fun i => ?_⟩
  rw [h.bytes i]
  by_cases hi : i / v.blockSize = idx
  · rw [if_neg, if_neg]
    all_goals
      rintro ⟨-, -, hlt⟩
      rw [hi, hput] at hlt
      exact absurd hlt (Nat.not_lt_zero _)
  · have he : i / v.blockSize ∈ pending' ↔ i / v.blockSize ∈ pending := by
      rw [hp]
      exact and_iff_left hi
    simp only [he]

/-- The bytes that a write at the place of block `idx` covers. -/
private theorem inside_iff {i n : ℕ} (hb : 0 < v.blockSize) (hn : n ≤ v.blockSize) :
    (idx * v.blockSize ≤ i ∧ i < idx * v.blockSize + n) ↔
      i / v.blockSize = idx ∧ i % v.blockSize < n := by
  have hmod := Nat.div_add_mod' i v.blockSize
  have hlt := Nat.mod_lt i hb
  constructor
  · rintro ⟨h1, h2⟩
    have hdiv : i / v.blockSize = idx := by
      rw [Nat.div_eq_iff hb]
      omega
    rw [hdiv] at hmod
    exact ⟨hdiv, by omega⟩
  · rintro ⟨rfl, h2⟩
    omega

/-- A write puts the bytes of its block in place and leaves all others alone. -/
theorem write (h : TargetInv v put opened pending file) (hb : 0 < v.blockSize)
    (hidx : idx < v.blocksCount) (hlen : (put idx).length ≤ v.blockSize)
    (hp : ∀ i, i ∈ pending' ↔ i ∈ pending ∧ i ≠ idx) :
    TargetInv v put opened pending' (overwrite file (idx * v.blockSize) (put idx)) := by
  by_cases hnil : put idx = []
  · rw [hnil, overwrite_nil]
    exact h.skip hnil hp
  · have hin := (Version.lt_blocksCount hb).mp hidx
    have hfile := h.length
    refine ⟨?_, fun i => ?_⟩
    · rw [length_overwrite hnil]
      omega
    · rw [getElem?_overwrite hnil]
      by_cases hi : i / v.blockSize = idx ∧ i % v.blockSize < (put idx).length
      · have hoff : i - idx * v.blockSize = i % v.blockSize := by
          have hmod := Nat.div_add_mod' i v.blockSize
          rw [hi.1] at hmod
          omega
        have hnot : idx ∉ pending' := fun hmem => ((hp idx).mp hmem).2 rfl
        rw [if_pos ((inside_iff hb hlen).mpr hi), hoff, hi.1, if_pos ⟨hidx, hnot, hi.2⟩]
      · rw [if_neg (fun hx => hi ((inside_iff hb hlen).mp hx)), if_neg (by omega), h.bytes i]
        by_cases hie : i / v.blockSize = idx
        · rw [if_neg, if_neg]
          all_goals
            rintro ⟨-, -, hlt⟩
            rw [hie] at hlt
            exact hi ⟨hie, hlt⟩
        · have he : i / v.blockSize ∈ pending' ↔ i / v.blockSize ∈ pending := by
            rw [hp]
            exact and_iff_left hie
          simp only [he]

end TargetInv

namespace Restore

/-- The blocks that have still to be written to the target, or to be skipped. -/
def pending (R : Restore κ) : List ℕ :=
  R.blocks.map Block.idx ++ R.reads.map Block.idx ++ R.queued.map fun q => q.1.idx

/-- The jobs in flight; `block` are the version's blocks when the restore began. -/
structure Inv (v : Version) (sparse : Bool) (objects : Objects κ) (block : ℕ → Block κ)
    (opened : Bytes) (R : Restore κ) : Prop where
  sameObjects : R.world.objects = objects
  target : ∃ file, R.target = some file ∧
    TargetInv v (fun idx => putData v sparse objects (block idx)) opened R.pending file
  nodup : R.pending.Nodup
  blocks : ∀ b ∈ R.blocks, b = block b.idx ∧ b.idx < v.blocksCount
  reads : ∀ b ∈ R.reads, b = block b.idx ∧ b.idx < v.blocksCount ∧ b.uid.isSome
  queued : ∀ q ∈ R.queued, q.2 = putData v sparse objects (block q.1.idx) ∧
    q.1.idx < v.blocksCount

section Steps
variable {v : Version} {sparse : Bool} {objects : Objects κ} {block : ℕ → Block κ}
  {opened : Bytes} {R R' : Restore κ}

@[simp] theorem mem_pending {i : ℕ} : i ∈ R.pending ↔
    (∃ b ∈ R.blocks, b.idx = i) ∨ (∃ b ∈ R.reads, b.idx = i) ∨ ∃ q ∈ R.queued, q.1.idx = i := by
  simp only [pending, List.mem_append, List.mem_map, or_assoc]

private theorem nodup_parts (h : R.pending.Nodup) :
    (R.blocks.map Block.idx).Nodup ∧ (R.reads.map Block.idx).Nodup ∧
      (R.queued.map fun q => q.1.idx).Nodup := by
  unfold pending at h
  have h12 := (List.nodup_append.mp h).1
  exact ⟨(List.nodup_append.mp h12).1, (List.nodup_append.mp h12).2.1, (List.nodup_append.mp h).2.1⟩

/-- Changes to the counters, the completed writes and the rows do not matter. -/
theorem Inv.congr (h : Inv v sparse objects block opened R)
    (ho : R'.world.objects = R.world.objects) (ht : R'.target = R.target)
    (hb : R'.blocks = R.blocks) (hr : R'.reads = R.reads) (hq : R'.queued = R.queued) :
    Inv v sparse objects block opened R' := by
  have hp : R'.pending = R.pending := by
    rw [pending, hb, hr, hq, pending]
  refine ⟨ho.trans h.sameObjects, ?_, hp ▸ h.nodup, hb ▸ h.blocks, hr ▸ h.reads, hq ▸ h.queued⟩
  rw [ht, hp]
  exact h.target

theorem ioStep_inv (hb : 0 < v.blockSize)
    (hlen : ∀ idx < v.blocksCount, (putData v sparse objects (block idx)).length ≤ v.blockSize)
    {e : Event} (h : Inv v sparse objects block opened R)
    (hs : (ioStep v e).Returns R () R') : Inv v sparse objects block opened R' := by
  unfold Proc.Returns at hs
  cases e with
  | next => exact absurd hs (by simp [ioStep])
  | read idx => exact absurd hs (by simp [ioStep])
  | raise e => exact absurd hs Proc.returns_raise
  | collect idx =>
    simp only [ioStep] at hs
    split at hs
    · simp at hs
    · obtain rfl := (Prod.mk.inj (Option.some.inj hs)).2
      exact h.congr rfl rfl rfl rfl rfl
  | write idx =>
    simp only [ioStep] at hs
    obtain ⟨file, hfile, htarget⟩ := h.target
    cases hq : R.queued.find? fun q => q.1.idx = idx with
    | none => simp [hq] at hs
    | some q =>
      simp only [hq, hfile] at hs
      obtain rfl := (Prod.mk.inj (Option.some.inj hs)).2
      have hmem := List.mem_of_find?_eq_some hq
      have hidx : q.1.idx = idx := by simpa using List.find?_some hq
      subst hidx
      obtain ⟨hd, hlt⟩ := h.queued q hmem
      have hp := perm_cons_filter_of_find? (fun q : Block κ × Bytes => q.1.idx)
        (nodup_parts h.nodup).2.2 hq
      have hout : R.pending.Perm (q.1.idx :: (R.blocks.map Block.idx ++ R.reads.map Block.idx ++
          (R.queued.filter fun c => c.1.idx ≠ q.1.idx).map fun c => c.1.idx)) := by
        unfold pending
        refine ((hp.map fun c => c.1.idx).append_left _).trans ?_
        exact List.perm_middle
      refine ⟨h.sameObjects, ⟨_, rfl, ?_⟩, (List.nodup_cons.mp (hout.nodup_iff.mp h.nodup)).2,
        h.blocks, h.reads, fun c hc => h.queued c (List.mem_of_mem_filter hc)⟩
      rw [hd]
      exact htarget.write hb hlt (hlen _ hlt) fun i => mem_tail_of_perm_cons h.nodup hout

theorem sparseStep_inv (hb : 0 < v.blockSize)
    (hlen : ∀ idx < v.blocksCount, (putData v sparse objects (block idx)).length ≤ v.blockSize)
    {e : Event} (h : Inv v sparse objects block opened R)
    (hs : (sparseStep v sparse e).Returns R () R') : Inv v sparse objects block opened R' := by
  cases e with
  | read idx => exact ioStep_inv hb hlen (e := .read idx) h hs
  | write idx => exact ioStep_inv hb hlen (e := .write idx) h hs
  | collect idx => exact ioStep_inv hb hlen (e := .collect idx) h hs
  | raise e => exact ioStep_inv hb hlen (e := .raise e) h hs
  | next =>
    unfold Proc.Returns sparseStep at hs
    cases hbs : R.blocks with
    | nil => simp [hbs] at hs
    | cons b rest =>
      simp only [hbs] at hs
      have hnodup := h.nodup
      obtain ⟨hblock, hlt⟩ := h.blocks b (by rw [hbs]; exact List.mem_cons_self)
      have hrest : ∀ c ∈ rest, c = block c.idx ∧ c.idx < v.blocksCount := fun c hc =>
        h.blocks c (by rw [hbs]; exact List.mem_cons_of_mem _ hc)
      obtain ⟨file, hfile, htarget⟩ := h.target
      have hpend : R.pending = b.idx :: (rest.map Block.idx ++ R.reads.map Block.idx ++
          R.queued.map fun q => q.1.idx) := by
        rw [pending, hbs]
        rfl
      split_ifs at hs with hu hsp
      · obtain rfl := (Prod.mk.inj (Option.some.inj hs)).2
        have hperm : R.pending.Perm (rest.map Block.idx ++ (R.reads ++ [b]).map Block.idx ++
            R.queued.map fun q => q.1.idx) := by
          rw [hpend, List.map_append, List.map_singleton, ← List.append_assoc]
          exact ((@List.perm_append_comm _ [b.idx] _).append_right _)
        refine ⟨h.sameObjects, ⟨file, hfile, htarget.congr_pending fun i => (hperm.mem_iff).symm⟩,
          hperm.nodup_iff.mp hnodup, hrest, ?_, h.queued⟩
        intro c hc
        rcases List.mem_append.mp hc with hc | hc
        · exact h.reads c hc
        · obtain rfl := List.mem_singleton.mp hc
          exact ⟨hblock, hlt, hu⟩
      · obtain rfl := (Prod.mk.inj (Option.some.inj hs)).2
        have hperm : R.pending.Perm (rest.map Block.idx ++ R.reads.map Block.idx ++
            (R.queued ++ [(b, zeros v.blockSize)]).map fun q => q.1.idx) := by
          rw [hpend, List.map_append, List.map_singleton, ← List.append_assoc]
          exact @List.perm_append_comm _ [b.idx] _
        refine ⟨h.sameObjects, ⟨file, hfile, htarget.congr_pending fun i => (hperm.mem_iff).symm⟩,
          hperm.nodup_iff.mp hnodup, hrest, h.reads, ?_⟩
        intro q hq
        rcases List.mem_append.mp hq with hq | hq
        · exact h.queued q hq
        · obtain rfl := List.mem_singleton.mp hq
          refine ⟨?_, hlt⟩
          have hnone : b.uid = none := by simpa using hu
          rw [← hblock, putData, hnone]
          exact (if_neg (by simp [hsp])).symm
      · obtain rfl := (Prod.mk.inj (Option.some.inj hs)).2
        rw [hpend] at hnodup htarget
        have hnone : b.uid = none := by simpa using hu
        have hput : putData v sparse objects (block b.idx) = [] := by
          rw [← hblock, putData, hnone]
          exact if_pos (by simpa using hsp)
        refine ⟨h.sameObjects, ⟨file, hfile, ?_⟩, (List.nodup_cons.mp hnodup).2, hrest, h.reads,
          h.queued⟩
        exact htarget.skip hput fun i => mem_tail_of_perm_cons hnodup (List.Perm.refl _)

theorem checkData_frame [DecidableEq κ] {S : Settings κ} {b : Block κ} {d : Bytes}
    {m : Metadata κ} (hs : (checkData S b d m).Returns R () R') :
    R'.world.objects = R.world.objects ∧ R'.target = R.target ∧ R'.blocks = R.blocks ∧
      R'.reads = R.reads ∧ R'.queued = R.queued := by
  unfold Proc.Returns checkData at hs
  split at hs
  · obtain rfl := (Prod.mk.inj (Option.some.inj hs)).2
    exact ⟨rfl, rfl, rfl, rfl, rfl⟩
  · simp at hs
  · split_ifs at hs
    all_goals
      obtain rfl := (Prod.mk.inj (Option.some.inj hs)).2
      exact ⟨rfl, rfl, rfl, rfl, rfl⟩

theorem dataStep_inv [DecidableEq κ] {S : Settings κ} (hb : 0 < v.blockSize)
    (hlen : ∀ idx < v.blocksCount, (putData v sparse objects (block idx)).length ≤ v.blockSize)
    (hok : ∀ idx < v.blocksCount, Sound S.dataHexdigest objects v.storage.id (block idx))
    {e : Event} (h : Inv v sparse objects block opened R)
    (hs : (dataStep S v e).Returns R () R') : Inv v sparse objects block opened R' := by
  cases e with
  | next => exact ioStep_inv hb hlen (e := .next) h hs
  | write idx => exact ioStep_inv hb hlen (e := .write idx) h hs
  | collect idx => exact ioStep_inv hb hlen (e := .collect idx) h hs
  | raise e => exact ioStep_inv hb hlen (e := .raise e) h hs
  | read idx =>
    unfold Proc.Returns dataStep at hs
    cases hr : R.reads.find? fun b => b.idx = idx with
    | none => simp [hr] at hs
    | some b =>
      have hmem := List.mem_of_find?_eq_some hr
      have hidx : b.idx = idx := by simpa using List.find?_some hr
      subst hidx
      obtain ⟨hblock, hlt, hu⟩ := h.reads b hmem
      have hsound := hok b.idx hlt
      rw [← hblock] at hsound
      obtain ⟨d, m, hread, hdata, -⟩ := hsound.readObject hu
      have hobj := h.sameObjects
      simp only [hr, hobj, hread] at hs
      obtain ⟨h1, h2, h3, h4, h5⟩ := checkData_frame hs
      have hp := perm_cons_filter_of_find? _ (nodup_parts h.nodup).2.1 hr
      have hperm : R.pending.Perm (R.blocks.map Block.idx ++
          (R.reads.filter fun c => c.idx ≠ b.idx).map Block.idx ++
            (R.queued ++ [(b, d)]).map fun q => q.1.idx) := by
        unfold pending
        rw [List.map_append, List.map_singleton, List.append_assoc, List.append_assoc]
        refine List.Perm.append_left _ ?_
        refine ((hp.map Block.idx).append_right _).trans ?_
        rw [← List.append_assoc]
        exact @List.perm_append_comm _ [b.idx] _
      have hinv : Inv v sparse objects block opened { R with
          reads := R.reads.filter fun c => c.idx ≠ b.idx
          queued := R.queued ++ [(b, d)] } := by
        obtain ⟨file, hfile, htarget⟩ := h.target
        refine ⟨hobj, ⟨file, hfile, htarget.congr_pending fun i => (hperm.mem_iff).symm⟩,
          hperm.nodup_iff.mp h.nodup, h.blocks,
          fun c hc => h.reads c (List.mem_of_mem_filter hc), ?_⟩
        intro q hq
        rcases List.mem_append.mp hq with hq | hq
        · exact h.queued q hq
        · obtain rfl := List.mem_singleton.mp hq
          refine ⟨?_, hlt⟩
          obtain ⟨uid, hus⟩ := Option.isSome_iff_exists.mp hu
          rw [← hblock, putData, hus]
          change d = (blockData objects v.storage.id b).getD []
          rw [hdata, Option.getD_some]
      exact hinv.congr h1 h2 h3 h4 h5

end Steps
end Restore
end Benji
