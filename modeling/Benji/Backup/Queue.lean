import Benji.Backup.Steps

/-! The queueing phase of a backup: blocks are submitted for reading, turned sparse, or kept. -/
namespace Benji
open Lib

variable {κ : Type}

namespace Loop

/-- A block is read when a hint or its own row asks for it. -/
def ToRead (readBlocks : List ℕ) (b : Block κ) : Prop := b.idx ∈ readBlocks ∨ b.valid = false

instance (readBlocks : List ℕ) : DecidablePred (ToRead (κ := κ) readBlocks) :=
  fun _ => inferInstanceAs (Decidable (_ ∨ _))

section Queue
variable {hash : Bytes → κ} {v : Version} {want : ℕ → Bytes} {sparseBlocks readBlocks : List ℕ}
  {due : ℕ → Bool} {L L' : Loop κ} {b : Block κ} {bs : List (Block κ)}

/-- What one round of the queueing loop does, with nothing said about the blocks it keeps. -/
theorem queueBlock_cases (h : (queueBlock v sparseBlocks readBlocks due b).Returns L () L') :
    (ToRead readBlocks b ∧ L' = { L with reads := L.reads ++ [b], readJobs := L.readJobs + 1 }) ∨
    (¬ ToRead readBlocks b ∧ b.idx ∈ sparseBlocks ∧ b.uid.isSome ∧
      L' = { L.setBlock v b.idx none none b.size (due b.idx) with
        stats := { L.stats with bytesSparse := L.stats.bytesSparse + b.size } }) ∨
    (¬ ToRead readBlocks b ∧ b.idx ∈ sparseBlocks ∧ b.uid = none ∧ b.checksum = none ∧
      L' = { L with stats := { L.stats with bytesSparse := L.stats.bytesSparse + b.size } }) ∨
    (¬ ToRead readBlocks b ∧ b.idx ∉ sparseBlocks ∧ L' = L) := by
  unfold Proc.Returns queueBlock at h
  by_cases hr : b.idx ∈ readBlocks ∨ b.valid = false
  · rw [if_pos hr] at h
    exact .inl ⟨hr, (Prod.mk.inj (Option.some.inj h)).2.symm⟩
  rw [if_neg hr] at h
  by_cases hs : b.idx ∈ sparseBlocks
  · rw [if_pos hs] at h
    cases hu : b.uid with
    | some uid =>
      simp only [hu] at h
      exact .inr (.inl ⟨hr, hs, rfl, (Prod.mk.inj (Option.some.inj h)).2.symm⟩)
    | none =>
      cases hk : b.checksum with
      | some c => simp [hu, hk] at h
      | none =>
        simp only [hu, hk] at h
        exact .inr (.inr (.inl ⟨hr, hs, rfl, rfl, (Prod.mk.inj (Option.some.inj h)).2.symm⟩))
  · rw [if_neg hs] at h
    exact .inr (.inr (.inr ⟨hr, hs, (Prod.mk.inj (Option.some.inj h)).2.symm⟩))

/-- The content a block that is not read ends up with. -/
def KeptAs (sparseBlocks : List ℕ) (objects : Objects κ) (storage : ℕ) (b : Block κ) :
    Option Bytes :=
  if b.idx ∈ sparseBlocks then some (zeros b.size) else blockData objects storage b

/-- The state of the queueing loop before the blocks `bs`. -/
structure QueueInv (hash : Bytes → κ) (v : Version) (want : ℕ → Bytes)
    (sparseBlocks readBlocks : List ℕ) (bs : List (Block κ)) (L : Loop κ) : Prop where
  tables : TableInv hash v want L.world (L.reads.map Block.idx ++ bs.map Block.idx)
  nodup : (L.reads.map Block.idx ++ bs.map Block.idx).Nodup
  block : ∀ b ∈ bs, L.world.db.blocks.getBlockByIdx v b.idx = b
  size : ∀ b ∈ bs, b.size = v.blockSizeAt b.idx
  kept : ∀ b ∈ bs, ¬ ToRead readBlocks b →
    KeptAs sparseBlocks L.world.objects v.storage.id b = some (want b.idx)

private theorem mem_append_cons {i j : ℕ} {l r : List ℕ} (hn : (l ++ j :: r).Nodup) :
    i ∈ l ++ r ↔ i ∈ l ++ j :: r ∧ i ≠ j :=
  mem_tail_of_perm_cons hn List.perm_middle

/-- A block that keeps its row is settled without a write. -/
theorem TableInv.keep {w : World κ} {l r : List ℕ} (h : TableInv hash v want w (l ++ b.idx :: r))
    (hn : (l ++ b.idx :: r).Nodup)
    (hs : Settled v w.objects b.idx (want b.idx) (w.db.blocks.getBlockByIdx v b.idx)) :
    TableInv hash v want w (l ++ r) where
  row := h.row
  rows := h.rows
  inRange := fun i hi => h.inRange i ((mem_append_cons hn).mp hi).1
  intact := h.intact
  fresh := fun c hc hst i hi => h.fresh c hc hst i ((mem_append_cons hn).mp hi).1
  wanted := by
    intro i hlt hi
    by_cases he : i = b.idx
    · exact he ▸ hs
    · exact h.wanted i hlt fun hmem => hi ((mem_append_cons hn).mpr ⟨hmem, he⟩)

theorem QueueInv.step (h : QueueInv hash v want sparseBlocks readBlocks (b :: bs) L)
    (hs : (queueBlock v sparseBlocks readBlocks due b).Returns L () L') :
    QueueInv hash v want sparseBlocks readBlocks bs L' := by
  have hblock := h.block b List.mem_cons_self
  have hsize := h.size b List.mem_cons_self
  have hrest : ∀ c ∈ bs, c ∈ b :: bs := fun c hc => List.mem_cons_of_mem _ hc
  have htab := h.tables
  have hnodup := h.nodup
  rw [List.map_cons] at htab hnodup
  have hnodup' : (L.reads.map Block.idx ++ bs.map Block.idx).Nodup :=
    (List.nodup_cons.mp (List.perm_middle.nodup_iff.mp hnodup)).2
  rcases queueBlock_cases hs with ⟨hr, rfl⟩ | ⟨hr, hsp, hu, rfl⟩ | ⟨hr, hsp, hu, hk, rfl⟩ |
    ⟨hr, hsp, rfl⟩
  · refine ⟨?_, ?_, fun c hc => h.block c (hrest c hc), fun c hc => h.size c (hrest c hc),
      fun c hc => h.kept c (hrest c hc)⟩
    · simpa [List.append_assoc] using htab
    · simpa [List.append_assoc] using hnodup
  · have hkept := h.kept b List.mem_cons_self hr
    rw [KeptAs, if_pos hsp] at hkept
    have hset : Settled v L.world.objects b.idx (want b.idx)
        ⟨v.id, b.idx, none, none, b.size, true⟩ := ⟨hsize, rfl, hkept⟩
    have hint : Intact hash L.world.objects v.storage.id
        ⟨v.id, b.idx, none, none, b.size, true⟩ := rfl
    refine ⟨?_, hnodup', ?_, fun c hc => h.size c (hrest c hc), ?_⟩
    · have hidx : b.idx ∈ L.reads.map Block.idx ++ b.idx :: bs.map Block.idx := by simp
      exact htab.settle hidx (by simp [setBlock, World.setBlocks])
        (by simp [setBlock, World.setBlocks]) (by simp [setBlock, World.setBlocks])
        (fun i => mem_append_cons hnodup) hset hint (fun i _ _ => by simp)
    · intro c hc
      have hne : c.idx ≠ b.idx := by
        intro he
        have hnot := (List.nodup_cons.mp (List.nodup_append.mp hnodup).2.1).1
        exact hnot (List.mem_map.mpr ⟨c, hc, he⟩)
      have hold := h.block c (hrest c hc)
      rw [← BlockTable.getBlockByIdx_setBlock_of_ne hne] at hold
      simpa [setBlock, World.setBlocks] using hold
    · intro c hc hrc
      simpa [setBlock, World.setBlocks] using h.kept c (hrest c hc) hrc
  · have hkept := h.kept b List.mem_cons_self hr
    rw [KeptAs, if_pos hsp] at hkept
    have hv : b.valid = true := by simpa [ToRead] using fun hx => hr (.inr hx)
    refine ⟨?_, hnodup', fun c hc => h.block c (hrest c hc), fun c hc => h.size c (hrest c hc),
      fun c hc => h.kept c (hrest c hc)⟩
    refine TableInv.keep htab hnodup ?_
    rw [hblock]
    refine ⟨hsize, hv, ?_⟩
    rw [blockData, hu]
    exact hkept
  · have hkept := h.kept b List.mem_cons_self hr
    rw [KeptAs, if_neg hsp] at hkept
    have hv : b.valid = true := by simpa [ToRead] using fun hx => hr (.inr hx)
    refine ⟨?_, hnodup', fun c hc => h.block c (hrest c hc), fun c hc => h.size c (hrest c hc),
      fun c hc => h.kept c (hrest c hc)⟩
    refine TableInv.keep htab hnodup ?_
    rw [hblock]
    exact ⟨hsize, hv, hkept⟩

/-- What the queueing loop changes besides rows of the version. -/
structure QueueFrame (sparseBlocks readBlocks : List ℕ) (bs : List (Block κ))
    (L L' : Loop κ) : Prop where
  reads : L'.reads = L.reads ++ bs.filter fun b => ToRead readBlocks b
  queued : L'.queued = L.queued
  written : L'.written = L.written
  readJobs : L'.readJobs = L.readJobs + (bs.filter fun b => ToRead readBlocks b).length
  doneReadJobs : L'.doneReadJobs = L.doneReadJobs
  writeJobs : L'.writeJobs = L.writeJobs
  doneWriteJobs : L'.doneWriteJobs = L.doneWriteJobs
  objects : L'.world.objects = L.world.objects
  stats : L'.stats = { L.stats with bytesSparse := L.stats.bytesSparse +
    ((bs.filter fun b => ¬ ToRead readBlocks b ∧ b.idx ∈ sparseBlocks).map Block.size).sum }

private theorem QueueFrame.cons (h : (queueBlock v sparseBlocks readBlocks due b).Returns L () L')
    {L'' : Loop κ} (k : QueueFrame sparseBlocks readBlocks bs L' L'') :
    QueueFrame sparseBlocks readBlocks (b :: bs) L L'' := by
  obtain ⟨hreads, hqueued, hwritten, hrj, hdr, hwj, hdw, hobj, hstats⟩ := k
  rcases queueBlock_cases h with ⟨hr, rfl⟩ | ⟨hr, hsp, -, rfl⟩ | ⟨hr, hsp, -, -, rfl⟩ |
    ⟨hr, hsp, rfl⟩
  · refine ⟨?_, hqueued, hwritten, ?_, hdr, hwj, hdw, hobj, ?_⟩
    · simp [hreads, hr]
    · simp [hrj, hr]
      omega
    · simpa [hr] using hstats
  · refine ⟨?_, hqueued, hwritten, ?_, hdr, hwj, hdw, ?_, ?_⟩
    · simpa [hr, setBlock] using hreads
    · simpa [hr, setBlock] using hrj
    · simpa [setBlock, World.setBlocks] using hobj
    · simp [hstats, hr, hsp, Nat.add_assoc]
  · refine ⟨?_, hqueued, hwritten, ?_, hdr, hwj, hdw, hobj, ?_⟩
    · simpa [hr] using hreads
    · simpa [hr] using hrj
    · simp [hstats, hr, hsp, Nat.add_assoc]
  · refine ⟨?_, hqueued, hwritten, ?_, hdr, hwj, hdw, hobj, ?_⟩
    · simpa [hr] using hreads
    · simpa [hr] using hrj
    · simpa [hr, hsp] using hstats

theorem queue_frame
    (h : (Proc.forEach (queueBlock v sparseBlocks readBlocks due) bs).Returns L () L') :
    QueueFrame sparseBlocks readBlocks bs L L' := by
  induction bs generalizing L with
  | nil =>
    obtain rfl := Proc.returns_forEach_nil.mp h
    exact ⟨by simp, rfl, rfl, rfl, rfl, rfl, rfl, rfl, rfl⟩
  | cons b bs ih =>
    obtain ⟨L1, h1, h2⟩ := Proc.returns_forEach_cons.mp h
    exact .cons h1 (ih h2)

/-- After the queueing loop the blocks to be read are outstanding and all others settled. -/
theorem queue_run (hinv : QueueInv hash v want sparseBlocks readBlocks bs L)
    (h : (Proc.forEach (queueBlock v sparseBlocks readBlocks due) bs).Returns L () L') :
    QueueInv hash v want sparseBlocks readBlocks [] L' := by
  induction bs generalizing L with
  | nil =>
    obtain rfl := Proc.returns_forEach_nil.mp h
    exact hinv
  | cons b bs ih =>
    obtain ⟨L1, h1, h2⟩ := Proc.returns_forEach_cons.mp h
    exact ih (hinv.step h1) h2

end Queue
end Loop
end Benji
