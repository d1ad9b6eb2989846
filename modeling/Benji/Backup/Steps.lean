import Benji.Backup.Invariant

/-! Every event of the block loop keeps its invariant. -/
namespace Benji
open Lib

variable {κ : Type}

namespace Loop

/-- The blocks whose reads or writes have not been handled yet. -/
def outstanding (L : Loop κ) : List ℕ :=
  L.reads.map Block.idx ++ L.queued.map (fun q => q.1.idx) ++ L.written.map Block.idx

def bytesOf (v : Version) (idxs : List ℕ) : ℕ := (idxs.map v.blockSizeAt).sum

/-- A write job for a block of the source. -/
structure Job (hash : Bytes → κ) (v : Version) (io : Source) (b : Block κ) : Prop where
  versionId : b.versionId = v.id
  uid : b.uid = some ⟨v.id, b.idx + 1⟩
  checksum : b.checksum = some (hash (v.sourceBlock io b.idx))
  size : b.size = v.blockSizeAt b.idx

/-- The jobs in flight. `total` is what the completed reads and writes add up to. -/
structure Inv (hash : Bytes → κ) (v : Version) (io : Source) (want : ℕ → Bytes)
    (readTotal total : ℕ) (L : Loop κ) : Prop where
  tables : TableInv hash v want L.world L.outstanding
  nodup : L.outstanding.Nodup
  want : ∀ idx ∈ L.outstanding, want idx = v.sourceBlock io idx
  reads : ∀ b ∈ L.reads, b.versionId = v.id ∧ b.size = v.blockSizeAt b.idx
  queued : ∀ q ∈ L.queued, Job hash v io q.1 ∧ q.2 = v.sourceBlock io q.1.idx
  written : ∀ b ∈ L.written, Job hash v io b ∧
    ∃ o, L.world.objects v.storage.id ⟨v.id, b.idx + 1⟩ = some o ∧
      o.data = .ok (v.sourceBlock io b.idx)
  readJobs : L.readJobs = L.doneReadJobs + L.reads.length
  writeJobs : L.writeJobs = L.doneWriteJobs + (L.queued.length + L.written.length)
  bytesRead : L.stats.bytesRead + bytesOf v (L.reads.map Block.idx) = readTotal
  bytesTotal : L.stats.bytesWritten + L.stats.bytesDeduplicated + L.stats.bytesSparse +
    bytesOf v L.outstanding = total

section Classify
variable [DecidableEq κ] {S : Settings κ} {v : Version} {io : Source} {want : ℕ → Bytes}
  {w : World κ} {out : List ℕ} {block : Block κ} {pick : ℕ}

/-- A row found by the checksum of the data has that data, since hashes do not collide. -/
theorem settled_of_checksum (hinj : Function.Injective S.dataHexdigest)
    (h : TableInv S.dataHexdigest v want w out) {b : Block κ} {d : Bytes} {idx : ℕ}
    (hb : w.db.getBlockByChecksum v (S.dataHexdigest d) pick = some b)
    (hs : b.size = v.blockSizeAt idx) :
    Settled v w.objects idx d ⟨v.id, idx, b.uid, b.checksum, b.size, true⟩ ∧
      Intact S.dataHexdigest w.objects v.storage.id ⟨v.id, idx, b.uid, b.checksum, b.size, true⟩ ∧
      ∀ i ∈ out, b.uid ≠ some ⟨v.id, i + 1⟩ := by
  obtain ⟨hmem, hck, hv, hst⟩ := Database.getBlockByChecksum_spec hb
  have hint := h.intact b hmem hv hst
  obtain ⟨d', hd, hh⟩ := hint.data_of_checksum hck
  obtain rfl := hinj hh
  exact ⟨⟨hs, rfl, hd⟩, hint, h.fresh b hmem hst⟩

/-- The three ways a block that was read is dealt with, and why each is right. -/
theorem classify_spec (pick : ℕ) (hinj : Function.Injective S.dataHexdigest)
    (h : TableInv S.dataHexdigest v want w out) (hs : block.size = v.blockSizeAt block.idx)
    {d : Bytes} :
    match classify S w.db v block d pick with
    | .sparse => Settled v w.objects block.idx d ⟨v.id, block.idx, none, none, block.size, true⟩
    | .existing b => b.size = block.size ∧
        Settled v w.objects block.idx d ⟨v.id, block.idx, b.uid, b.checksum, b.size, true⟩ ∧
        Intact S.dataHexdigest w.objects v.storage.id
          ⟨v.id, block.idx, b.uid, b.checksum, b.size, true⟩ ∧
        ∀ i ∈ out, b.uid ≠ some ⟨v.id, i + 1⟩
    | .new b => b = { block with
        uid := some ⟨v.id, block.idx + 1⟩, checksum := some (S.dataHexdigest d) } := by
  unfold classify
  split_ifs with hc
  · have hz : d = zeros v.blockSize := hinj hc.1
    refine ⟨hs, rfl, ?_⟩
    rw [blockData, hz, hc.2]
  · cases hb : w.db.getBlockByChecksum v (S.dataHexdigest d) pick with
    | none => rfl
    | some b =>
      dsimp only
      split_ifs with he
      · exact ⟨he, settled_of_checksum hinj h hb (he.trans hs)⟩
      · rfl

end Classify

section Step
variable {S : Settings κ} {v : Version} {io : Source} {want : ℕ → Bytes}
  {readTotal total : ℕ} {L L' : Loop κ}

@[simp] theorem mem_outstanding {i : ℕ} : i ∈ L.outstanding ↔
    (∃ b ∈ L.reads, b.idx = i) ∨ (∃ q ∈ L.queued, q.1.idx = i) ∨ ∃ b ∈ L.written, b.idx = i := by
  simp only [outstanding, List.mem_append, List.mem_map, or_assoc]

theorem bytesOf_perm {l l' : List ℕ} (h : l.Perm l') : bytesOf v l = bytesOf v l' :=
  (h.map _).sum_nat

@[simp] theorem bytesOf_cons {i : ℕ} {l : List ℕ} :
    bytesOf v (i :: l) = v.blockSizeAt i + bytesOf v l := by
  simp [bytesOf]

private theorem nodup_parts (h : L.outstanding.Nodup) :
    (L.reads.map Block.idx).Nodup ∧ (L.queued.map fun q => q.1.idx).Nodup ∧
      (L.written.map Block.idx).Nodup := by
  unfold outstanding at h
  have h12 := (List.nodup_append.mp h).1
  exact ⟨(List.nodup_append.mp h12).1, (List.nodup_append.mp h12).2.1, (List.nodup_append.mp h).2.1⟩

/-- Taking the result of a read takes its block out of the list of reads. -/
private theorem perm_reads (h : L.outstanding.Nodup) {b : Block κ} {i : ℕ}
    (hb : L.reads.find? (fun c => c.idx = i) = some b) :
    b ∈ L.reads ∧ b.idx = i ∧ L.reads.Perm (b :: L.reads.filter fun c => c.idx ≠ i) :=
  ⟨List.mem_of_find?_eq_some hb, by simpa using List.find?_some hb,
    perm_cons_filter_of_find? _ (nodup_parts h).1 hb⟩

private theorem outstanding_takeRead (h : L.outstanding.Nodup) {b : Block κ} {d : Bytes}
    (hb : L.reads.find? (fun c => c.idx = b.idx) = some b) :
    L.outstanding.Perm (b.idx :: (L.takeRead b d).outstanding) := by
  obtain ⟨-, -, hp⟩ := perm_reads h hb
  have hm := hp.map Block.idx
  rw [List.map_cons] at hm
  exact (hm.append_right _).append_right _

variable {hash : Bytes → κ}

/-- A block that was read and needs no write is settled at once. -/
theorem Inv.settleRead (h : Inv hash v io want readTotal total L) {b : Block κ} {d : Bytes}
    (hb : L.reads.find? (fun c => c.idx = b.idx) = some b) (hd : d.length = b.size)
    {uid : Option BlockUid} {checksum : Option κ} {size : ℕ} {due : Bool} {stats : Stats}
    (hs : Settled v L.world.objects b.idx (want b.idx) ⟨v.id, b.idx, uid, checksum, size, true⟩)
    (hi : Intact hash L.world.objects v.storage.id ⟨v.id, b.idx, uid, checksum, size, true⟩)
    (hf : ∀ i ∈ L.outstanding, uid ≠ some ⟨v.id, i + 1⟩)
    (hr : stats.bytesRead = L.stats.bytesRead + d.length)
    (ht : stats.bytesWritten + stats.bytesDeduplicated + stats.bytesSparse =
      L.stats.bytesWritten + L.stats.bytesDeduplicated + L.stats.bytesSparse + b.size) :
    Inv hash v io want readTotal total
      { (L.takeRead b d).setBlock v b.idx uid checksum size due with stats := stats } := by
  have hout := outstanding_takeRead (d := d) h.nodup hb
  obtain ⟨hmem, -, hp⟩ := perm_reads h.nodup hb
  obtain ⟨-, hbs⟩ := h.reads b hmem
  have hlen := hp.length_eq
  have hbytes := bytesOf_perm (v := v) (hp.map Block.idx)
  have htot := bytesOf_perm (v := v) hout
  rw [List.map_cons, bytesOf_cons] at hbytes
  rw [bytesOf_cons] at htot
  rw [List.length_cons] at hlen
  refine ⟨?_, (List.nodup_cons.mp (hout.nodup_iff.mp h.nodup)).2, ?_, ?_, h.queued, ?_, ?_,
    h.writeJobs, ?_, ?_⟩
  · have hidx : b.idx ∈ L.outstanding := hout.mem_iff.mpr List.mem_cons_self
    exact h.tables.settle hidx (by simp [setBlock, takeRead, World.setBlocks])
      (by simp [setBlock, takeRead, World.setBlocks])
      (by simp [setBlock, takeRead, World.setBlocks])
      (fun i => mem_tail_of_perm_cons h.nodup hout) hs hi (fun i hi _ => hf i hi)
  · intro i hi
    exact h.want i (hout.mem_iff.mpr (List.mem_cons_of_mem _ hi))
  · intro c hc
    exact h.reads c (List.mem_of_mem_filter hc)
  · intro c hc
    obtain ⟨hj, o, ho, hdo⟩ := h.written c hc
    refine ⟨hj, o, ?_, hdo⟩
    simpa [setBlock, takeRead, World.setBlocks] using ho
  · have := h.readJobs
    change L.readJobs = L.doneReadJobs + 1 + (L.reads.filter fun c => c.idx ≠ b.idx).length
    omega
  · have := h.bytesRead
    change stats.bytesRead + bytesOf v ((L.reads.filter fun c => c.idx ≠ b.idx).map Block.idx) = _
    omega
  · have := h.bytesTotal
    change stats.bytesWritten + stats.bytesDeduplicated + stats.bytesSparse +
      bytesOf v (L.takeRead b d).outstanding = _
    omega

/-- A block that was read and is new joins the queue of the storage. -/
theorem Inv.queueWrite (h : Inv hash v io want readTotal total L) {b : Block κ} {d : Bytes}
    (hb : L.reads.find? (fun c => c.idx = b.idx) = some b) (hd : d = v.sourceBlock io b.idx)
    (hlen : d.length = b.size) :
    Inv hash v io want readTotal total
      { L.takeRead b d with
        queued := L.queued ++
          [({ b with uid := some ⟨v.id, b.idx + 1⟩, checksum := some (hash d) }, d)]
        writeJobs := L.writeJobs + 1 } := by
  obtain ⟨hmem, -, hp⟩ := perm_reads h.nodup hb
  obtain ⟨hv, hbs⟩ := h.reads b hmem
  have hcount := hp.length_eq
  have hbytes := bytesOf_perm (v := v) (hp.map Block.idx)
  rw [List.map_cons, bytesOf_cons] at hbytes
  rw [List.length_cons] at hcount
  have hout : L.outstanding.Perm
      ((L.reads.filter fun c => c.idx ≠ b.idx).map Block.idx ++
        (L.queued ++ [({ b with uid := some ⟨v.id, b.idx + 1⟩, checksum := some (hash d) }, d)]).map
          (fun q : Block κ × Bytes => q.1.idx) ++ L.written.map Block.idx) := by
    refine (outstanding_takeRead (d := d) h.nodup hb).trans ?_
    rw [List.map_append, List.map_singleton, ← List.append_assoc]
    refine List.Perm.trans ?_ ((@List.perm_append_comm _ [b.idx] _).append_right _)
    exact List.Perm.refl _
  refine ⟨h.tables.congr_out fun i => (hout.mem_iff).symm, hout.nodup_iff.mp h.nodup, ?_, ?_, ?_,
    h.written, ?_, ?_, ?_, ?_⟩
  · intro i hi
    exact h.want i (hout.mem_iff.mpr hi)
  · intro c hc
    exact h.reads c (List.mem_of_mem_filter hc)
  · intro q hq
    rcases List.mem_append.mp hq with hq | hq
    · exact h.queued q hq
    · obtain rfl := List.mem_singleton.mp hq
      exact ⟨⟨hv, rfl, by rw [hd], hbs⟩, hd⟩
  · have := h.readJobs
    change L.readJobs = L.doneReadJobs + 1 + (L.reads.filter fun c => c.idx ≠ b.idx).length
    omega
  · have := h.writeJobs
    change L.writeJobs + 1 = L.doneWriteJobs + ((L.queued ++ [_]).length + L.written.length)
    rw [List.length_append, List.length_singleton]
    omega
  · have := h.bytesRead
    change L.stats.bytesRead + d.length +
      bytesOf v ((L.reads.filter fun c => c.idx ≠ b.idx).map Block.idx) = _
    omega
  · rw [← h.bytesTotal, bytesOf_perm hout]
    rfl

/-- A thread of the storage writes the object of a queued block. -/
theorem Inv.write (h : Inv hash v io want readTotal total L) {q : Block κ × Bytes} {i : ℕ}
    (hq : L.queued.find? (fun q => q.1.idx = i) = some q) :
    Inv hash v io want readTotal total
      { L with
        queued := L.queued.filter fun q => q.1.idx ≠ i
        written := L.written ++ [q.1]
        world := { L.world with
          objects := writeObject L.world.objects v.storage.id q.1 q.2 } } := by
  have hqi : q.1.idx = i := by simpa using List.find?_some hq
  have hmem := List.mem_of_find?_eq_some hq
  obtain ⟨hj, hd⟩ := h.queued q hmem
  have hp := perm_cons_filter_of_find? (fun q : Block κ × Bytes => q.1.idx)
    (nodup_parts h.nodup).2.1 hq
  have hcount := hp.length_eq
  rw [List.length_cons] at hcount
  have hobj : writeObject L.world.objects v.storage.id q.1 q.2 =
      L.world.objects.put v.storage.id ⟨v.id, i + 1⟩
        (some ⟨q.2.length, .ok q.2, .decoded ⟨q.2.length, q.1.size, q.1.checksum⟩⟩) := by
    rw [writeObject, hj.uid, hqi]
  have hout : L.outstanding.Perm (L.reads.map Block.idx ++
      (L.queued.filter fun q => q.1.idx ≠ i).map (fun q => q.1.idx) ++
        (L.written ++ [q.1]).map Block.idx) := by
    unfold outstanding
    rw [List.map_append, List.map_singleton, List.append_assoc, List.append_assoc]
    refine List.Perm.append_left _ ?_
    refine ((hp.map fun q => q.1.idx).append_right _).trans ?_
    rw [← List.append_assoc]
    exact (@List.perm_append_comm _ [q.1.idx] _)
  have hmout : i ∈ L.outstanding := by
    rw [mem_outstanding]
    exact .inr (.inl ⟨q, hmem, hqi⟩)
  have htab := h.tables.write hmout
    (some ⟨q.2.length, .ok q.2, .decoded ⟨q.2.length, q.1.size, q.1.checksum⟩⟩)
  rw [← hobj] at htab
  refine ⟨htab.congr_out fun j => (hout.mem_iff).symm, hout.nodup_iff.mp h.nodup, ?_, h.reads, ?_,
    ?_, h.readJobs, ?_, h.bytesRead, ?_⟩
  · intro j hji
    exact h.want j (hout.mem_iff.mpr hji)
  · intro c hc
    exact h.queued c (List.mem_of_mem_filter hc)
  · intro c hc
    change _ ∧ ∃ o, writeObject L.world.objects v.storage.id q.1 q.2 _ _ = some o ∧ _
    rw [hobj]
    rcases List.mem_append.mp hc with hc | hc
    · obtain ⟨hjc, o, ho, hdo⟩ := h.written c hc
      have hne : c.idx ≠ i := by
        intro he
        have hdis := (List.nodup_append.mp h.nodup).2.2
        refine hdis i ?_ c.idx (List.mem_map.mpr ⟨c, hc, rfl⟩) he.symm
        exact List.mem_append.mpr (.inr (List.mem_map.mpr ⟨q, hmem, hqi⟩))
      have hkey : (v.storage.id, (⟨v.id, c.idx + 1⟩ : BlockUid)) ≠
          (v.storage.id, ⟨v.id, i + 1⟩) := by
        simpa using hne
      exact ⟨hjc, o, by rw [Objects.put_of_ne hkey]; exact ho, hdo⟩
    · obtain rfl := List.mem_singleton.mp hc
      refine ⟨hj, ⟨q.2.length, .ok q.2, .decoded ⟨q.2.length, q.1.size, q.1.checksum⟩⟩, ?_,
        congrArg Except.ok hd⟩
      rw [hqi]
      exact Objects.put_self
  · have := h.writeJobs
    change L.writeJobs = L.doneWriteJobs + ((L.queued.filter fun q => q.1.idx ≠ i).length +
      (L.written ++ [q.1]).length)
    rw [List.length_append, List.length_singleton]
    omega
  · rw [← h.bytesTotal, bytesOf_perm hout]
    rfl

/-- The result of a write settles its block. -/
theorem Inv.collect (h : Inv hash v io want readTotal total L) {b : Block κ}
    (hb : L.written.find? (fun c => c.idx = b.idx) = some b) (hlen : io.data.length = v.size)
    {due : Bool} :
    Inv hash v io want readTotal total (L.handleWritten v b due) := by
  have hmem := List.mem_of_find?_eq_some hb
  obtain ⟨hj, o, ho, hd⟩ := h.written b hmem
  have hp := perm_cons_filter_of_find? _ (nodup_parts h.nodup).2.2 hb
  have hcount := hp.length_eq
  rw [List.length_cons] at hcount
  have hout : L.outstanding.Perm (b.idx :: (L.handleWritten v b due).outstanding) := by
    unfold outstanding
    refine ((hp.map Block.idx).append_left _).trans ?_
    exact List.perm_middle
  have htot := bytesOf_perm (v := v) hout
  rw [bytesOf_cons] at htot
  have hmout : b.idx ∈ L.outstanding := by
    rw [mem_outstanding]
    exact .inr (.inr ⟨b, hmem, rfl⟩)
  have hset : Settled v L.world.objects b.idx (want b.idx)
      ⟨v.id, b.idx, b.uid, b.checksum, b.size, true⟩ := by
    refine ⟨hj.size, rfl, ?_⟩
    rw [h.want _ hmout]
    exact blockData_of_object hj.uid ho hd
  have hint : Intact hash L.world.objects v.storage.id
      ⟨v.id, b.idx, b.uid, b.checksum, b.size, true⟩ := by
    rw [Intact, hj.uid]
    refine ⟨o, v.sourceBlock io b.idx, ho, hd, ?_, hj.checksum⟩
    rw [Version.length_sourceBlock hlen]
    exact hj.size.symm
  refine ⟨?_, (List.nodup_cons.mp (hout.nodup_iff.mp h.nodup)).2, ?_, h.reads, h.queued, ?_,
    h.readJobs, ?_, h.bytesRead, ?_⟩
  · refine h.tables.settle hmout (by simp [handleWritten, setBlock, World.setBlocks])
      (by simp [handleWritten, setBlock, World.setBlocks])
      (by simp [handleWritten, setBlock, World.setBlocks])
      (fun i => mem_tail_of_perm_cons h.nodup hout) hset hint ?_
    intro i hi hne
    rw [hj.uid]
    simpa using Ne.symm hne
  · intro i hi
    exact h.want i (hout.mem_iff.mpr (List.mem_cons_of_mem _ hi))
  · intro c hc
    obtain ⟨hjc, o', ho', hdo⟩ := h.written c (List.mem_of_mem_filter hc)
    refine ⟨hjc, o', ?_, hdo⟩
    simpa [handleWritten, setBlock, World.setBlocks] using ho'
  · have := h.writeJobs
    change L.writeJobs = L.doneWriteJobs + 1 + (L.queued.length +
      (L.written.filter fun c => c.idx ≠ b.idx).length)
    omega
  · have := h.bytesTotal
    have hsz := hj.size
    change L.stats.bytesWritten + b.size + L.stats.bytesDeduplicated + L.stats.bytesSparse +
      bytesOf v (L.handleWritten v b due).outstanding = _
    omega

/-- Every event that does not raise keeps the invariant, in whatever order they come. -/
theorem step_inv [DecidableEq κ] (hinj : Function.Injective S.dataHexdigest)
    (hlen : io.data.length = v.size) {e : Event}
    (h : Inv S.dataHexdigest v io want readTotal total L)
    (hs : (step S v io e).Returns L () L') :
    Inv S.dataHexdigest v io want readTotal total L' := by
  unfold Proc.Returns at hs
  cases e with
  | read idx pick due =>
    simp only [step] at hs
    cases hb : L.reads.find? fun b => b.idx = idx with
    | none => simp [hb] at hs
    | some b =>
      obtain ⟨hmem, rfl, -⟩ := perm_reads h.nodup hb
      have hbs := (h.reads b hmem).2
      have hsrc : slice io.data (b.idx * v.blockSize) b.size = v.sourceBlock io b.idx := by
        rw [hbs, Version.sourceBlock]
      have hdl : (v.sourceBlock io b.idx).length = b.size := by
        rw [Version.length_sourceBlock hlen, hbs]
      have hmout : b.idx ∈ L.outstanding := by
        rw [mem_outstanding]
        exact .inl ⟨b, hmem, rfl⟩
      simp only [hb, Source.read, hsrc] at hs
      split_ifs at hs with he
      · simp at hs
      · have hL : L.handleRead S v b (v.sourceBlock io b.idx) pick due = L' := by simpa using hs
        subst hL
        have hspec := classify_spec (d := v.sourceBlock io b.idx) pick hinj h.tables hbs
        unfold handleRead
        cases hc : classify S L.world.db v b (v.sourceBlock io b.idx) pick with
        | sparse =>
          rw [hc] at hspec
          rw [← h.want _ hmout] at hspec
          refine h.settleRead hb hdl hspec rfl (by simp) rfl ?_
          simp only [takeRead]
          omega
        | existing e =>
          rw [hc] at hspec
          obtain ⟨-, hset, hint, hf⟩ := hspec
          rw [← h.want _ hmout] at hset
          refine h.settleRead hb hdl hset hint hf rfl ?_
          simp only [takeRead, hdl]
          omega
        | new c =>
          rw [hc] at hspec
          obtain rfl := hspec
          exact h.queueWrite hb rfl hdl
  | write idx =>
    simp only [step] at hs
    cases hq : L.queued.find? fun q => q.1.idx = idx with
    | none => simp [hq] at hs
    | some q =>
      rw [hq] at hs
      obtain rfl := (Prod.mk.inj (Option.some.inj hs)).2
      exact h.write hq
  | collect idx due =>
    simp only [step] at hs
    cases hb : L.written.find? fun b => b.idx = idx with
    | none => simp [hb] at hs
    | some b =>
      have hbi : b.idx = idx := by simpa using List.find?_some hb
      subst hbi
      simp only [hb] at hs
      split_ifs at hs
      · obtain rfl := (Prod.mk.inj (Option.some.inj hs)).2
        exact h.collect hb hlen
      · simp at hs
  | raise e => exact absurd hs Proc.returns_raise

end Step
end Loop
end Benji
