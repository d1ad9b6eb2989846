import Benji.Lib.Safe
import Benji.Restore.Content
import Benji.Restore.Locks

/-! Restores of versions some of whose objects are missing or damaged. -/
namespace Benji
open Lib

variable {κ : Type}

/-- What `isinstance(entry, (KeyError, ValueError))` lets through. -/
def Error.isInconsistency : Error → Bool
  | .keyError _ => true
  | .valueError _ => true
  | _ => false

/-- The read of the block's object fails, or a check on what it gives. -/
def Fails [DecidableEq κ] (S : Settings κ) (objects : Objects κ) (storage : ℕ) (b : Block κ) :
    Prop :=
  b.uid.isSome ∧ ∀ d m, readObject objects storage b = .ok (d, m) →
    checkBlockMetadata b (some d.length) m ≠ none ∨ some (S.dataHexdigest d) ≠ b.checksum

theorem not_fails_of_sound [DecidableEq κ] {S : Settings κ} {objects : Objects κ} {storage : ℕ}
    {b : Block κ}
    (h : Sound S.dataHexdigest objects storage b) : ¬ Fails S objects storage b := by
  rintro ⟨hu, hfails⟩
  obtain ⟨d, m, hread, -, hsize, hchecksum, hlen, hhash⟩ := h.readObject hu
  have hcheck : checkBlockMetadata b (some d.length) m = none := by
    unfold checkBlockMetadata
    rw [if_neg (not_not.mpr hsize), if_neg, if_neg (not_not.mpr hchecksum.symm)]
    rintro ⟨n, hn, -, hne⟩
    exact hne ((Option.mem_some.mp hn).symm.trans hlen)
  cases hfails d m hread with
  | inl hne => exact hne hcheck
  | inr hne => exact hne hhash.symm

namespace Restore

section
variable (S : Settings κ) (w : World κ) (v : Version)

/-- Written at the place of the block, the data leaves the bytes of intact blocks as they are in
the version. -/
def Fits (b : Block κ) (d : Bytes) : Prop :=
  ∀ j < d.length, b.idx * v.blockSize + j < v.size →
    Sound S.dataHexdigest w.objects v.storage.id
      (w.db.blocks.getBlockByIdx v ((b.idx * v.blockSize + j) / v.blockSize)) →
    d[j]? = some (versionByte w v (b.idx * v.blockSize + j))

/-- What the loop over the reads survives, for the reads in the order they complete in: a failed
read is a `KeyError` or a `ValueError` and the variable `block` names its uid just then, a failed
check is one too, and the data fits. -/
def Survives [DecidableEq κ] : Option (Block κ) → List Event → Prop
  | _, [] => True
  | current, .read idx :: events =>
    match readObject w.objects v.storage.id (w.db.blocks.getBlockByIdx v idx) with
    | .error e => e.isInconsistency = true ∧
        current.bind Block.uid = (w.db.blocks.getBlockByIdx v idx).uid ∧ Survives current events
    | .ok (d, m) =>
      (∀ e ∈ checkBlockMetadata (w.db.blocks.getBlockByIdx v idx) (some d.length) m,
        e.isInconsistency = true) ∧ Fits S w v (w.db.blocks.getBlockByIdx v idx) d ∧
        Survives (some (w.db.blocks.getBlockByIdx v idx)) events
  | _, .raise _ :: _ => False
  | current, .next :: events => Survives current events
  | current, .write _ :: events => Survives current events
  | current, .collect _ :: events => Survives current events

/-- A restore that has come across damaged objects. -/
structure Damaged [DecidableEq κ] (sparse : Bool) (R : Restore κ) : Prop where
  sameObjects : R.world.objects = w.objects
  target : ∃ file, R.target = some file ∧ v.size ≤ file.length ∧ ∀ i < v.size,
    Sound S.dataHexdigest w.objects v.storage.id
      (w.db.blocks.getBlockByIdx v (i / v.blockSize)) →
    (i / v.blockSize ∈ R.pending →
      sparse = true ∧ (w.db.blocks.getBlockByIdx v (i / v.blockSize)).uid = none) →
    file[i]? = some (versionByte w v i)
  nodup : (R.pending ++ R.written.map Block.idx).Nodup
  blocks : ∀ b ∈ R.blocks, b = w.db.blocks.getBlockByIdx v b.idx ∧ b.idx < v.blocksCount
  reads : ∀ b ∈ R.reads, b = w.db.blocks.getBlockByIdx v b.idx ∧ b.idx < v.blocksCount ∧
    b.uid.isSome
  queued : ∀ q ∈ R.queued, q.1.idx < v.blocksCount ∧ Fits S w v q.1 q.2 ∧
    (Sound S.dataHexdigest w.objects v.storage.id (w.db.blocks.getBlockByIdx v q.1.idx) →
      v.blockSizeAt q.1.idx ≤ q.2.length)
  readJobs : R.readJobs = R.doneReadJobs + R.reads.length
  writeJobs : R.writeJobs = R.doneWriteJobs + (R.queued.length + R.written.length)
  marked : ∀ u, u ∈ R.marked ↔ ∃ idx < v.blocksCount,
    (w.db.blocks.getBlockByIdx v idx).uid = u ∧
      Fails S w.objects v.storage.id (w.db.blocks.getBlockByIdx v idx) ∧
      idx ∉ R.blocks.map Block.idx ∧ idx ∉ R.reads.map Block.idx

end

variable {S : Settings κ} {w : World κ} {v : Version} {sparse : Bool} {R R' : Restore κ}

theorem versionByte_of_sparse {i : ℕ} (hb : 0 < v.blockSize) (hi : i < v.size)
    (hsize : ∀ idx < v.blocksCount, (w.db.blocks.getBlockByIdx v idx).size = v.blockSizeAt idx)
    (hu : (w.db.blocks.getBlockByIdx v (i / v.blockSize)).uid = none) :
    versionByte w v i = 0 := by
  have hmod := Nat.div_add_mod' i v.blockSize
  have hjb := Nat.mod_lt i hb
  have hidx : i / v.blockSize < v.blocksCount := (Version.lt_blocksCount hb).mpr (by omega)
  have hj : i % v.blockSize < v.blockSizeAt (i / v.blockSize) := by
    rw [Version.blockSizeAt]
    omega
  have hd : blockData w.objects v.storage.id (w.db.blocks.getBlockByIdx v (i / v.blockSize)) =
      some (zeros (v.blockSizeAt (i / v.blockSize))) := by
    rw [blockData, hu, ← hsize _ hidx]
  have hbyte := versionByte_of_block hj hd
  rw [hmod, getElem?_zeros, if_pos hj, Option.getD_some] at hbyte
  exact hbyte

/-- Sparse data fits everywhere: only the last block can be written beyond its size. -/
theorem fits_sparse {b : Block κ} (hb : 0 < v.blockSize)
    (hsize : ∀ idx < v.blocksCount, (w.db.blocks.getBlockByIdx v idx).size = v.blockSizeAt idx)
    (hblock : b = w.db.blocks.getBlockByIdx v b.idx) (hu : b.uid = none) :
    Fits S w v b (zeros v.blockSize) := by
  intro j hj hi _
  rw [length_zeros] at hj
  have hdiv : (b.idx * v.blockSize + j) / v.blockSize = b.idx := by
    rw [Nat.mul_comm, Nat.mul_add_div hb, Nat.div_eq_of_lt hj, Nat.add_zero]
  have hzero : versionByte w v (b.idx * v.blockSize + j) = 0 := by
    refine versionByte_of_sparse hb hi hsize ?_
    rw [hdiv, ← hblock]
    exact hu
  rw [hzero, getElem?_zeros, if_pos hj]

/-- One write: the bytes of its own block are there if it is intact, and those of other intact
blocks stay what they are in the version. -/
theorem target_write {file : Bytes} {b : Block κ} {d : Bytes} {pending pending' : ℕ → Prop}
    (hb : 0 < v.blockSize) (hlen : v.size ≤ file.length)
    (hfile : ∀ i < v.size, Sound S.dataHexdigest w.objects v.storage.id
        (w.db.blocks.getBlockByIdx v (i / v.blockSize)) →
      (pending (i / v.blockSize) →
        sparse = true ∧ (w.db.blocks.getBlockByIdx v (i / v.blockSize)).uid = none) →
      file[i]? = some (versionByte w v i))
    (hfits : Fits S w v b d)
    (hfull : Sound S.dataHexdigest w.objects v.storage.id (w.db.blocks.getBlockByIdx v b.idx) →
      v.blockSizeAt b.idx ≤ d.length)
    (hp : ∀ idx, pending idx → pending' idx ∨ idx = b.idx) :
    v.size ≤ (overwrite file (b.idx * v.blockSize) d).length ∧
    ∀ i < v.size, Sound S.dataHexdigest w.objects v.storage.id
        (w.db.blocks.getBlockByIdx v (i / v.blockSize)) →
      (pending' (i / v.blockSize) →
        sparse = true ∧ (w.db.blocks.getBlockByIdx v (i / v.blockSize)).uid = none) →
      (overwrite file (b.idx * v.blockSize) d)[i]? = some (versionByte w v i) := by
  constructor
  · by_cases hnil : d = []
    · rw [hnil, overwrite_nil]
      exact hlen
    · rw [length_overwrite hnil]
      omega
  · intro i hi hsound hpending
    by_cases hin : b.idx * v.blockSize ≤ i ∧ i < b.idx * v.blockSize + d.length
    · rw [getElem?_overwrite_inside hin.1 hin.2]
      have hpos : b.idx * v.blockSize + (i - b.idx * v.blockSize) = i := by omega
      have hbyte := hfits (i - b.idx * v.blockSize) (by omega) (by rw [hpos]; exact hi)
        (by rw [hpos]; exact hsound)
      rw [hpos] at hbyte
      exact hbyte
    · have hkeep : (overwrite file (b.idx * v.blockSize) d)[i]? = file[i]? := by
        by_cases hlt : i < b.idx * v.blockSize
        · exact getElem?_overwrite_of_lt hlt (by omega)
        · exact getElem?_overwrite_of_le (by omega)
      rw [hkeep]
      refine hfile i hi hsound fun hpend => ?_
      cases hp _ hpend with
      | inl hp' => exact hpending hp'
      | inr heq =>
        -- The byte would be inside the data of its own block.
        have hmod := Nat.div_add_mod' i v.blockSize
        have hjb := Nat.mod_lt i hb
        rw [heq] at hsound hmod
        have hcover := hfull hsound
        have hsize : i % v.blockSize < v.blockSizeAt b.idx := by
          rw [Version.blockSizeAt]
          omega
        omega

section Steps
variable [DecidableEq κ]

/-- The loops' own variables, which the writes in other threads do not see. -/
def SameLoop (R R' : Restore κ) : Prop :=
  R'.current = R.current ∧ R'.blocks = R.blocks ∧ R'.doneReadJobs = R.doneReadJobs

theorem Damaged.write {idx : ℕ} {r : Except Error Unit} (hb : 0 < v.blockSize)
    (h : Damaged S w v sparse R) (hs : ioStep v (.write idx) R = some (r, R')) :
    r = .ok () ∧ Damaged S w v sparse R' ∧ SameLoop R R' := by
  obtain ⟨file, hfile, hlen, hbytes⟩ := h.target
  unfold ioStep at hs
  dsimp only at hs
  cases hq : R.queued.find? fun q => q.1.idx = idx with
  | none => rw [hq] at hs; cases hs
  | some q =>
    rw [hq, hfile] at hs
    cases hs
    have hmem := List.mem_of_find?_eq_some hq
    have hidx : q.1.idx = idx := by simpa using List.find?_some hq
    obtain ⟨hlt, hfits, hfull⟩ := h.queued q hmem
    have hnodup := h.nodup
    unfold pending at hnodup
    rw [List.append_assoc, List.append_assoc] at hnodup
    have hqnodup : (R.queued.map fun q => q.1.idx).Nodup :=
      (List.nodup_append.mp (List.nodup_append.mp (List.nodup_append.mp hnodup).2.1).2.1).1
    have hperm := perm_cons_filter_of_find? (fun q : Block κ × Bytes => q.1.idx) hqnodup hq
    have hlength := hperm.length_eq
    rw [List.length_cons] at hlength
    have hsub : ∀ c ∈ R.queued.filter fun q => q.1.idx ≠ idx, c ∈ R.queued :=
      fun c hc => List.mem_of_mem_filter hc
    refine ⟨rfl, ?_, rfl, rfl, rfl⟩
    refine { h with
      target := ⟨_, rfl, ?_⟩, nodup := ?_, queued := fun c hc => h.queued c (hsub c hc)
      writeJobs := ?_ }
    · refine target_write hb hlen hbytes hfits hfull fun i hi => ?_
      rw [mem_pending] at hi
      by_cases heq : i = q.1.idx
      · exact .inr heq
      · refine .inl (mem_pending.mpr ?_)
        cases hi with
        | inl hi => exact .inl hi
        | inr hi =>
          cases hi with
          | inl hi => exact .inr (.inl hi)
          | inr hi =>
            obtain ⟨c, hc, hci⟩ := hi
            refine .inr (.inr ⟨c, List.mem_filter.mpr ⟨hc, ?_⟩, hci⟩)
            simpa [hci, ← hidx] using heq
    · show (R.blocks.map Block.idx ++ R.reads.map Block.idx ++
        (R.queued.filter fun q => q.1.idx ≠ idx).map (fun q => q.1.idx) ++
          (R.written ++ [q.1]).map Block.idx).Nodup
      rw [List.append_assoc, List.append_assoc]
      refine (List.Perm.nodup_iff ?_).mpr hnodup
      refine List.Perm.append_left _ (List.Perm.append_left _ ?_)
      rw [List.map_append, List.map_singleton]
      have hmap := hperm.map fun q => q.1.idx
      rw [List.map_cons] at hmap
      refine List.Perm.trans ?_ (hmap.symm.append_right _)
      rw [← List.append_assoc]
      exact List.perm_append_singleton _ _
    · show R.writeJobs = R.doneWriteJobs +
        ((R.queued.filter fun q => q.1.idx ≠ idx).length + (R.written ++ [q.1]).length)
      have hjobs := h.writeJobs
      rw [List.length_append, List.length_singleton]
      omega

theorem Damaged.collect {idx : ℕ} {r : Except Error Unit} (h : Damaged S w v sparse R)
    (hs : ioStep v (.collect idx) R = some (r, R')) :
    r = .ok () ∧ Damaged S w v sparse R' ∧ SameLoop R R' := by
  unfold ioStep at hs
  dsimp only at hs
  cases hf : R.written.find? fun b => b.idx = idx with
  | none => rw [hf] at hs; cases hs
  | some b =>
    rw [hf] at hs
    cases hs
    obtain ⟨hpend, hwritten, hdisjoint⟩ := List.nodup_append.mp h.nodup
    have hperm := perm_cons_filter_of_find? Block.idx hwritten hf
    have hlength := hperm.length_eq
    rw [List.length_cons] at hlength
    refine ⟨rfl, ?_, rfl, rfl, rfl⟩
    refine { h with nodup := ?_, writeJobs := ?_ }
    · refine List.nodup_append.mpr ⟨hpend, hwritten.sublist ?_, fun i hi j hj => ?_⟩
      · exact List.filter_sublist.map _
      · exact hdisjoint i hi j (List.filter_sublist.map _ |>.subset hj)
    · have hjobs := h.writeJobs
      show R.writeJobs = R.doneWriteJobs + 1 +
        (R.queued.length + (R.written.filter fun b => b.idx ≠ idx).length)
      omega

theorem Damaged.ioStep {e : Event} {r : Except Error Unit} (hb : 0 < v.blockSize)
    (he : ∀ x, e ≠ .raise x) (h : Damaged S w v sparse R)
    (hs : Restore.ioStep v e R = some (r, R')) :
    r = .ok () ∧ Damaged S w v sparse R' ∧ SameLoop R R' := by
  cases e with
  | next => cases hs
  | read idx => cases hs
  | raise x => exact absurd rfl (he x)
  | write idx => exact h.write hb hs
  | collect idx => exact h.collect hs

/-- The first loop has come to the blocks in `done`. -/
def Came (S : Settings κ) (w : World κ) (v : Version) (sparse : Bool) (R : Restore κ) : Prop :=
  Damaged S w v sparse R ∧ R.doneReadJobs = 0 ∧
    ∃ done, w.db.blocks.blocks S.blocksPerCall v = done ++ R.blocks ∧ R.current = done.getLast?

theorem Damaged.next {r : Except Error Unit} (hb : 0 < v.blockSize)
    (hsize : ∀ idx < v.blocksCount, (w.db.blocks.getBlockByIdx v idx).size = v.blockSizeAt idx)
    (h : Came S w v sparse R) (hs : sparseStep v sparse .next R = some (r, R')) :
    r = .ok () ∧ Came S w v sparse R' := by
  obtain ⟨h, hzero, done, hall, -⟩ := h
  unfold sparseStep at hs
  dsimp only at hs
  cases hbs : R.blocks with
  | nil => rw [hbs] at hs; cases hs
  | cons b rest =>
    rw [hbs] at hs hall
    dsimp only at hs
    obtain ⟨hblock, hlt⟩ := h.blocks b (hbs ▸ List.mem_cons_self)
    have hrest : ∀ c ∈ rest, c = w.db.blocks.getBlockByIdx v c.idx ∧ c.idx < v.blocksCount :=
      fun c hc => h.blocks c (hbs ▸ List.mem_cons_of_mem _ hc)
    have hdone : ∃ done', w.db.blocks.blocks S.blocksPerCall v = done' ++ rest ∧
        some b = done'.getLast? :=
      ⟨done ++ [b], by rw [hall, List.append_assoc, List.singleton_append], by simp⟩
    have hpend : R.pending = b.idx :: (rest.map Block.idx ++ R.reads.map Block.idx ++
        R.queued.map fun q => q.1.idx) := by
      rw [pending, hbs]
      rfl
    have hnodup := h.nodup
    obtain ⟨file, hfile, hlen, hbytes⟩ := h.target
    have hmarked := h.marked
    rw [hbs] at hmarked
    by_cases hu : b.uid.isSome = true
    · rw [if_pos hu] at hs
      cases hs
      have hperm : R.pending.Perm (rest.map Block.idx ++ (R.reads ++ [b]).map Block.idx ++
          R.queued.map fun q => q.1.idx) := by
        rw [hpend, List.map_append, List.map_singleton, ← List.append_assoc]
        exact ((@List.perm_append_comm _ [b.idx] _).append_right _)
      refine ⟨rfl, ?_, hzero, hdone⟩
      refine { h with
        target := ⟨file, hfile, hlen, fun i hi hsound hp =>
          hbytes i hi hsound fun hmem => hp (hperm.mem_iff.mp hmem)⟩
        nodup := (hperm.append_right _).nodup_iff.mp hnodup
        blocks := hrest, reads := ?_, readJobs := ?_, marked := ?_ }
      · intro c hc
        rw [List.mem_append, List.mem_singleton] at hc
        cases hc with
        | inl hc => exact h.reads c hc
        | inr hc =>
          rw [hc]
          exact ⟨hblock, hlt, hu⟩
      · show R.readJobs + 1 = R.doneReadJobs + (R.reads ++ [b]).length
        have hjobs := h.readJobs
        rw [List.length_append, List.length_singleton]
        omega
      · intro u
        rw [hmarked u]
        simp only [List.map_cons, List.map_append, List.map_nil, List.mem_cons, List.mem_append,
          List.not_mem_nil, or_false, not_or]
        grind
    · have hnone : b.uid = none := by simpa using hu
      have hsparse : ¬ Fails S w.objects v.storage.id (w.db.blocks.getBlockByIdx v b.idx) := by
        rintro ⟨hsome, -⟩
        rw [← hblock, hnone] at hsome
        cases hsome
      have hmarked' : ∀ u, u ∈ R.marked ↔ ∃ idx < v.blocksCount,
          (w.db.blocks.getBlockByIdx v idx).uid = u ∧
            Fails S w.objects v.storage.id (w.db.blocks.getBlockByIdx v idx) ∧
            idx ∉ rest.map Block.idx ∧ idx ∉ R.reads.map Block.idx := by
        intro u
        rw [hmarked u]
        simp only [List.map_cons, List.mem_cons, not_or]
        grind
      rw [if_neg hu] at hs
      by_cases hsp : sparse = false
      · rw [if_pos hsp] at hs
        cases hs
        have hperm : R.pending.Perm (rest.map Block.idx ++ R.reads.map Block.idx ++
            (R.queued ++ [(b, zeros v.blockSize)]).map fun q => q.1.idx) := by
          rw [hpend, List.map_append, List.map_singleton, ← List.append_assoc]
          exact @List.perm_append_comm _ [b.idx] _
        refine ⟨rfl, ?_, hzero, hdone⟩
        refine { h with
          target := ⟨file, hfile, hlen, fun i hi hsound hp =>
            hbytes i hi hsound fun hmem => hp (hperm.mem_iff.mp hmem)⟩
          nodup := (hperm.append_right _).nodup_iff.mp hnodup
          blocks := hrest, queued := ?_, writeJobs := ?_, marked := hmarked' }
        · intro q hq
          rw [List.mem_append, List.mem_singleton] at hq
          cases hq with
          | inl hq => exact h.queued q hq
          | inr hq =>
            rw [hq]
            refine ⟨hlt, fits_sparse hb hsize hblock hnone, fun _ => ?_⟩
            rw [length_zeros]
            exact v.blockSizeAt_le b.idx
        · show R.writeJobs + 1 = R.doneWriteJobs +
            ((R.queued ++ [(b, zeros v.blockSize)]).length + R.written.length)
          have hjobs := h.writeJobs
          rw [List.length_append, List.length_singleton]
          omega
      · rw [if_neg hsp] at hs
        cases hs
        rw [hpend] at hnodup
        refine ⟨rfl, ?_, hzero, hdone⟩
        refine { h with
          target := ⟨file, hfile, hlen, fun i hi hsound hp => hbytes i hi hsound fun hmem => ?_⟩
          nodup := (List.nodup_cons.mp hnodup).2, blocks := hrest, marked := hmarked' }
        rw [hpend, List.mem_cons] at hmem
        cases hmem with
        | inl heq =>
          rw [heq, ← hblock]
          exact ⟨by simpa using hsp, hnone⟩
        | inr hmem => exact hp hmem

/-- What a completed read adds to the uids that are to be marked. -/
theorem Damaged.marked_take {b : Block κ} {rest : List (Block κ)} {marked : List (Option BlockUid)}
    (h : Damaged S w v sparse R) (hb : b ∈ R.reads) (hperm : R.reads.Perm (b :: rest))
    (hmarked : ∀ u, u ∈ marked ↔ u ∈ R.marked ∨ u = b.uid ∧ Fails S w.objects v.storage.id b)
    (u : Option BlockUid) :
    u ∈ marked ↔ ∃ idx < v.blocksCount, (w.db.blocks.getBlockByIdx v idx).uid = u ∧
      Fails S w.objects v.storage.id (w.db.blocks.getBlockByIdx v idx) ∧
      idx ∉ R.blocks.map Block.idx ∧ idx ∉ rest.map Block.idx := by
  obtain ⟨hblock, hlt, -⟩ := h.reads b hb
  have hnodup := h.nodup
  unfold pending at hnodup
  rw [List.append_assoc, List.append_assoc] at hnodup
  obtain ⟨-, hothers, hdisjoint⟩ := List.nodup_append.mp hnodup
  have hreads := (List.nodup_append.mp hothers).1
  have hmem : b.idx ∈ R.reads.map Block.idx := List.mem_map.mpr ⟨b, hb, rfl⟩
  have hnot : b.idx ∉ R.blocks.map Block.idx := fun hin =>
    hdisjoint b.idx hin b.idx (List.mem_append_left _ hmem) rfl
  have htail (idx : ℕ) : idx ∈ rest.map Block.idx ↔
      idx ∈ R.reads.map Block.idx ∧ idx ≠ b.idx :=
    mem_tail_of_perm_cons hreads (hperm.map Block.idx)
  rw [hmarked u, h.marked u]
  constructor
  · intro hu
    cases hu with
    | inl hu =>
      obtain ⟨idx, hi, huid, hfails, hblocks, hreads⟩ := hu
      exact ⟨idx, hi, huid, hfails, hblocks, fun hin => hreads ((htail idx).mp hin).1⟩
    | inr hu =>
      rw [hblock] at hu
      exact ⟨b.idx, hlt, hu.1.symm, hu.2, hnot, fun hin => ((htail _).mp hin).2 rfl⟩
  · rintro ⟨idx, hi, huid, hfails, hblocks, hrest⟩
    by_cases heq : idx = b.idx
    · rw [heq, ← hblock] at huid hfails
      exact .inr ⟨huid.symm, hfails⟩
    · exact .inl ⟨idx, hi, huid, hfails, hblocks, fun hin => hrest ((htail idx).mpr ⟨hin, heq⟩)⟩

theorem Damaged.take_failed {b : Block κ} {rest : List (Block κ)}
    {marked : List (Option BlockUid)} {world : World κ} (h : Damaged S w v sparse R)
    (hb : b ∈ R.reads) (hperm : R.reads.Perm (b :: rest)) (hworld : world.objects = w.objects)
    (hnot : ¬ Sound S.dataHexdigest w.objects v.storage.id b)
    (hmarked : ∀ u, u ∈ marked ↔ u ∈ R.marked ∨ u = b.uid ∧ Fails S w.objects v.storage.id b) :
    Damaged S w v sparse
      { R with reads := rest, doneReadJobs := R.doneReadJobs + 1, world, marked } := by
  obtain ⟨hblock, hlt, -⟩ := h.reads b hb
  obtain ⟨file, hfile, hlen, hbytes⟩ := h.target
  have hpend : R.pending.Perm (b.idx :: (R.blocks.map Block.idx ++ rest.map Block.idx ++
      R.queued.map fun q => q.1.idx)) := by
    unfold pending
    refine (((hperm.map Block.idx).append_left _).append_right _).trans ?_
    rw [List.map_cons]
    exact List.perm_middle.append_right _
  have hlength := hperm.length_eq
  rw [List.length_cons] at hlength
  refine {
    sameObjects := hworld, target := ⟨file, hfile, hlen, fun i hi hsound hp => ?_⟩, nodup := ?_
    blocks := h.blocks
    reads := fun c hc => h.reads c (hperm.mem_iff.mpr (List.mem_cons_of_mem _ hc))
    queued := h.queued, readJobs := ?_, writeJobs := h.writeJobs
    marked := h.marked_take hb hperm hmarked }
  · refine hbytes i hi hsound fun hmem => ?_
    have hin := hpend.mem_iff.mp hmem
    rw [List.mem_cons] at hin
    cases hin with
    | inl heq =>
      rw [heq, ← hblock] at hsound
      exact absurd hsound hnot
    | inr hin => exact hp hin
  · have hnodup := (hpend.append_right _).nodup_iff.mp h.nodup
    rw [List.cons_append] at hnodup
    exact (List.nodup_cons.mp hnodup).2
  · show R.readJobs = R.doneReadJobs + 1 + rest.length
    have hjobs := h.readJobs
    omega

theorem Damaged.take_data {b : Block κ} {rest : List (Block κ)} {d : Bytes}
    {marked : List (Option BlockUid)} {world : World κ} (h : Damaged S w v sparse R)
    (hb : b ∈ R.reads) (hperm : R.reads.Perm (b :: rest)) (hworld : world.objects = w.objects)
    (hfits : Fits S w v b d)
    (hfull : Sound S.dataHexdigest w.objects v.storage.id b → v.blockSizeAt b.idx ≤ d.length)
    (hmarked : ∀ u, u ∈ marked ↔ u ∈ R.marked ∨ u = b.uid ∧ Fails S w.objects v.storage.id b) :
    Damaged S w v sparse
      { R with
        reads := rest, doneReadJobs := R.doneReadJobs + 1, current := some b
        queued := R.queued ++ [(b, d)], writeJobs := R.writeJobs + 1, world, marked } := by
  obtain ⟨hblock, hlt, -⟩ := h.reads b hb
  obtain ⟨file, hfile, hlen, hbytes⟩ := h.target
  have hpend : R.pending.Perm (R.blocks.map Block.idx ++ rest.map Block.idx ++
      (R.queued ++ [(b, d)]).map fun q => q.1.idx) := by
    unfold pending
    rw [List.map_append, List.map_singleton, List.append_assoc, List.append_assoc]
    refine List.Perm.append_left _ (((hperm.map Block.idx).append_right _).trans ?_)
    rw [← List.append_assoc]
    exact @List.perm_append_comm _ [b.idx] _
  have hlength := hperm.length_eq
  rw [List.length_cons] at hlength
  refine {
    sameObjects := hworld
    target := ⟨file, hfile, hlen, fun i hi hsound hp =>
      hbytes i hi hsound fun hmem => hp (hpend.mem_iff.mp hmem)⟩
    nodup := (hpend.append_right _).nodup_iff.mp h.nodup, blocks := h.blocks
    reads := fun c hc => h.reads c (hperm.mem_iff.mpr (List.mem_cons_of_mem _ hc))
    queued := fun q hq => ?_, readJobs := ?_, writeJobs := ?_
    marked := h.marked_take hb hperm hmarked }
  · rw [List.mem_append, List.mem_singleton] at hq
    cases hq with
    | inl hq => exact h.queued q hq
    | inr hq =>
      rw [hq]
      exact ⟨hlt, hfits, fun hsound => hfull (hblock ▸ hsound)⟩
  · show R.readJobs = R.doneReadJobs + 1 + rest.length
    have hjobs := h.readJobs
    omega
  · show R.writeJobs + 1 = R.doneWriteJobs +
      ((R.queued ++ [(b, d)]).length + R.written.length)
    have hjobs := h.writeJobs
    rw [List.length_append, List.length_singleton]
    omega

/-- The second loop, with what it still has to survive. -/
def Facing (S : Settings κ) (w : World κ) (v : Version) (sparse : Bool) (events : List Event)
    (R : Restore κ) : Prop :=
  Damaged S w v sparse R ∧ R.blocks = [] ∧ Survives S w v R.current events

/-- The checks either pass and the block is not one that fails, or they fail and mark it. -/
theorem checkData_succeeds {b : Block κ} {d : Bytes} {m : Metadata κ} {r : Except Error Unit}
    (hu : b.uid.isSome) (hobjects : R.world.objects = w.objects)
    (hread : readObject w.objects v.storage.id b = .ok (d, m))
    (hcheck : ∀ e ∈ checkBlockMetadata b (some d.length) m, e.isInconsistency = true)
    (hs : checkData S b d m R = some (r, R')) :
    r = .ok () ∧ ∃ world marked, R' = { R with world, marked } ∧ world.objects = w.objects ∧
      ∀ u, u ∈ marked ↔ u ∈ R.marked ∨ u = b.uid ∧ Fails S w.objects v.storage.id b := by
  have hfails (h : checkBlockMetadata b (some d.length) m ≠ none ∨
      some (S.dataHexdigest d) ≠ b.checksum) : Fails S w.objects v.storage.id b := by
    refine ⟨hu, fun d' m' hread' => ?_⟩
    cases Except.ok.inj (hread.symm.trans hread')
    exact h
  have hmarks (h : Fails S w.objects v.storage.id b) :
      ∃ world marked, R.setBlockValid b.uid false = { R with world, marked } ∧
        world.objects = w.objects ∧
        ∀ u, u ∈ marked ↔ u ∈ R.marked ∨ u = b.uid ∧ Fails S w.objects v.storage.id b := by
    refine ⟨_, _, rfl, hobjects, fun u => ?_⟩
    rw [List.mem_append, List.mem_singleton]
    exact or_congr_right (and_iff_left h).symm
  unfold checkData at hs
  cases hc : checkBlockMetadata b (some d.length) m with
  | some e =>
    have hinconsistent := hcheck e hc
    rw [hc] at hs
    cases e with
    | valueError message =>
      cases hs
      exact ⟨rfl, hmarks (hfails (.inl (by rw [hc]; simp)))⟩
    | keyError message =>
      -- `checkBlockMetadata` raises no `KeyError`.
      unfold checkBlockMetadata at hc
      dsimp only at hc
      split_ifs at hc <;> cases hc
    | _ => cases hinconsistent
  | none =>
    rw [hc] at hs
    dsimp only at hs
    by_cases hhash : some (S.dataHexdigest d) = b.checksum
    · rw [if_pos hhash] at hs
      cases hs
      refine ⟨rfl, R.world, R.marked, rfl, hobjects, fun u => ?_⟩
      have hnot : ¬ Fails S w.objects v.storage.id b := by
        rintro ⟨-, h⟩
        cases h d m hread with
        | inl hne => exact hne hc
        | inr hne => exact hne hhash
      exact ⟨.inl, fun h => h.elim id fun h => absurd h.2 hnot⟩
    · rw [if_neg hhash] at hs
      cases hs
      exact ⟨rfl, hmarks (hfails (.inr hhash))⟩

theorem Facing.read {idx : ℕ} {events : List Event} {r : Except Error Unit}
    (hsize : ∀ idx < v.blocksCount, (w.db.blocks.getBlockByIdx v idx).size = v.blockSizeAt idx)
    (h : Facing S w v sparse (.read idx :: events) R)
    (hs : dataStep S v (.read idx) R = some (r, R')) :
    r = .ok () ∧ Facing S w v sparse events R' := by
  obtain ⟨h, hblocks, hsurvives⟩ := h
  unfold dataStep at hs
  dsimp only at hs
  cases hf : R.reads.find? fun b => b.idx = idx with
  | none => rw [hf] at hs; cases hs
  | some b =>
    have hmem := List.mem_of_find?_eq_some hf
    have hidx : b.idx = idx := by simpa using List.find?_some hf
    obtain ⟨hblock, hlt, hu⟩ := h.reads b hmem
    rw [hidx] at hblock
    have hreads : (R.reads.map Block.idx).Nodup := by
      have hnodup := h.nodup
      unfold pending at hnodup
      rw [List.append_assoc, List.append_assoc] at hnodup
      exact (List.nodup_append.mp (List.nodup_append.mp hnodup).2.1).1
    have hperm := perm_cons_filter_of_find? Block.idx hreads hf
    unfold Survives at hsurvives
    rw [hf, h.sameObjects] at hs
    rw [← hblock] at hsurvives
    dsimp only at hs
    cases hread : readObject w.objects v.storage.id b with
    | error e =>
      rw [hread] at hs hsurvives
      obtain ⟨hinconsistent, hcurrent, hrest⟩ := hsurvives
      have hfails : Fails S w.objects v.storage.id b := by
        refine ⟨hu, fun d m hok => ?_⟩
        rw [hread] at hok
        cases hok
      have hnot : ¬ Sound S.dataHexdigest w.objects v.storage.id b :=
        fun hsound => not_fails_of_sound hsound hfails
      have hmarked (u : Option BlockUid) : u ∈ R.marked ++ [R.current.bind Block.uid] ↔
          u ∈ R.marked ∨ u = b.uid ∧ Fails S w.objects v.storage.id b := by
        rw [List.mem_append, List.mem_singleton, hcurrent]
        exact or_congr_right (and_iff_left hfails).symm
      have htaken (world : World κ) (hworld : world.objects = w.objects) :=
        h.take_failed hmem hperm hworld hnot hmarked
      cases e with
      | keyError message =>
        cases hs
        exact ⟨rfl, htaken _ h.sameObjects, hblocks, hrest⟩
      | valueError message =>
        cases hs
        exact ⟨rfl, htaken _ h.sameObjects, hblocks, hrest⟩
      | _ => cases hinconsistent
    | ok p =>
      obtain ⟨d, m⟩ := p
      rw [hread] at hs hsurvives
      obtain ⟨hcheck, hfits, hrest⟩ := hsurvives
      obtain ⟨hok, world, marked, heq, hworld, hmarked⟩ :=
        checkData_succeeds (R := { R with
          reads := R.reads.filter fun b => b.idx ≠ idx
          doneReadJobs := R.doneReadJobs + 1
          current := some b
          queued := R.queued ++ [(b, d)]
          writeJobs := R.writeJobs + 1 }) hu h.sameObjects hread hcheck hs
      have hfull : Sound S.dataHexdigest w.objects v.storage.id b →
          v.blockSizeAt b.idx ≤ d.length := by
        intro hsound
        obtain ⟨d', m', hread', -, -, -, hlen, -⟩ := hsound.readObject hu
        cases Except.ok.inj (hread.symm.trans hread')
        rw [hlen, hblock, hsize idx (hidx ▸ hlt), BlockTable.getBlockByIdx_idx]
      rw [heq]
      exact ⟨hok, h.take_data hmem hperm hworld hfits hfull hmarked, hblocks, hrest⟩

theorem dataStep_succeeds (hb : 0 < v.blockSize)
    (hsize : ∀ idx < v.blocksCount, (w.db.blocks.getBlockByIdx v idx).size = v.blockSizeAt idx)
    (e : Event) (events : List Event) :
    (dataStep S v e).Succeeds (Facing S w v sparse (e :: events)) (Facing S w v sparse events) := by
  intro R r R' hs hR
  obtain ⟨h, hblocks, hsurvives⟩ := hR
  have hio (hsame : dataStep S v e R = ioStep v e R) (he : ∀ x, e ≠ .raise x)
      (hrest : Survives S w v R.current events) :
      Facing S w v sparse events R' ∧ ∀ e, r = .error e → ¬ True := by
    obtain ⟨hok, hdamaged, hcurrent, hbs, -⟩ := h.ioStep hb he (hsame.symm.trans hs)
    refine ⟨⟨hdamaged, hbs.trans hblocks, hcurrent ▸ hrest⟩, fun e herr => ?_⟩
    rw [hok] at herr
    cases herr
  cases e with
  | next => exact hio rfl (fun _ => by simp) hsurvives
  | write idx => exact hio rfl (fun _ => by simp) hsurvives
  | collect idx => exact hio rfl (fun _ => by simp) hsurvives
  | raise e => exact absurd hsurvives id
  | read idx =>
    obtain ⟨hok, hfacing⟩ := Facing.read hsize ⟨h, hblocks, hsurvives⟩ hs
    refine ⟨hfacing, fun e herr => ?_⟩
    rw [hok] at herr
    cases herr

theorem sparseStep_succeeds (hb : 0 < v.blockSize)
    (hsize : ∀ idx < v.blocksCount, (w.db.blocks.getBlockByIdx v idx).size = v.blockSizeAt idx)
    (e : Event) (events : List Event) :
    (sparseStep v sparse e).Succeeds
      (fun R => Came S w v sparse R ∧ ∀ x, .raise x ∉ e :: events)
      (fun R => Came S w v sparse R ∧ ∀ x, .raise x ∉ events) := by
  intro R r R' hs hR
  obtain ⟨hcame, hnot⟩ := hR
  have hrest : ∀ x, Event.raise x ∉ events := fun x hx => hnot x (List.mem_cons_of_mem _ hx)
  have hio (hsame : sparseStep v sparse e R = ioStep v e R) :
      (Came S w v sparse R' ∧ ∀ x, Event.raise x ∉ events) ∧ ∀ e, r = .error e → ¬ True := by
    obtain ⟨h, hzero, done, hall, hcurrent⟩ := hcame
    obtain ⟨hok, hdamaged, hc, hbs, hd⟩ := h.ioStep hb
      (fun x he => hnot x (he ▸ List.mem_cons_self)) (hsame.symm.trans hs)
    refine ⟨⟨⟨hdamaged, hd.trans hzero, done, hbs ▸ hall, hc.trans hcurrent⟩, hrest⟩,
      fun e herr => ?_⟩
    rw [hok] at herr
    cases herr
  cases e with
  | read idx => exact hio rfl
  | write idx => exact hio rfl
  | collect idx => exact hio rfl
  | raise x => exact hio rfl
  | next =>
    obtain ⟨hok, hnext⟩ := Damaged.next hb hsize hcame hs
    refine ⟨⟨hnext, hrest⟩, fun e herr => ?_⟩
    rw [hok] at herr
    cases herr

omit [DecidableEq κ] in
theorem waitForAll_succeeds {reads : Bool} {P : Restore κ → Prop} :
    (waitForAll reads : RestoreAction κ Unit).Succeeds P fun R => P R ∧ R.blocks = [] ∧
      R.queued = [] ∧ R.written = [] ∧ (reads = true → R.reads = []) := by
  intro R r R' hs hR
  unfold waitForAll at hs
  obtain ⟨hdone, heq⟩ := Option.ite_none_right_eq_some.mp hs
  cases heq
  refine ⟨⟨hR, hdone⟩, ?_⟩
  rintro _ ⟨⟩

/-- The loops are through: nothing is pending any more. -/
def Through (S : Settings κ) (w : World κ) (v : Version) (sparse : Bool) (R : Restore κ) : Prop :=
  Damaged S w v sparse R ∧ R.blocks = [] ∧ R.queued = [] ∧ R.written = [] ∧ R.reads = []

/-- The target is opened and the first loop begins. -/
def start (u : World κ) (opened : Bytes) (blocks : List (Block κ)) : Restore κ :=
  { world := u, target := some opened, blocks }

theorem came_start {opened : Bytes} {u : World κ} (hp : 0 < S.blocksPerCall)
    (hsize : ∀ idx < v.blocksCount, (w.db.blocks.getBlockByIdx v idx).size = v.blockSizeAt idx)
    (hb : 0 < v.blockSize) (hobjects : u.objects = w.objects) (hlen : v.size ≤ opened.length)
    (hzeros : sparse = true → opened = zeros v.size) :
    Came S w v sparse (start u opened (w.db.blocks.blocks S.blocksPerCall v)) := by
  have hblocks : (w.db.blocks.blocks S.blocksPerCall v).map Block.idx =
      List.range v.blocksCount := by
    rw [BlockTable.blocks_eq hp, List.map_map]
    conv_rhs => rw [← List.map_id (List.range v.blocksCount)]
    apply List.map_congr_left
    intro i _
    exact BlockTable.getBlockByIdx_idx _ _ _
  have hpend : (start u opened (w.db.blocks.blocks S.blocksPerCall v)).pending =
      List.range v.blocksCount := by
    show (w.db.blocks.blocks S.blocksPerCall v).map Block.idx ++ [] ++ [] = _
    rw [List.append_nil, List.append_nil, hblocks]
  refine ⟨?_, rfl, [], rfl, rfl⟩
  refine {
    sameObjects := hobjects, target := ⟨opened, rfl, hlen, fun i hi hsound hskip => ?_⟩
    nodup := ?_, blocks := fun b hmem => ?_, reads := fun b hmem => absurd hmem List.not_mem_nil
    queued := fun q hmem => absurd hmem List.not_mem_nil, readJobs := rfl, writeJobs := rfl
    marked := fun u => ⟨fun hmem => absurd hmem List.not_mem_nil, ?_⟩ }
  · have hidx : i / v.blockSize < v.blocksCount :=
      (Version.lt_blocksCount hb).mpr (lt_of_le_of_lt (Nat.div_mul_le_self i v.blockSize) hi)
    obtain ⟨hsp, hu⟩ := hskip (by rw [hpend]; exact List.mem_range.mpr hidx)
    rw [versionByte_of_sparse hb hi hsize hu, hzeros hsp, getElem?_zeros, if_pos hi]
  · rw [hpend]
    show (List.range v.blocksCount ++ []).Nodup
    rw [List.append_nil]
    exact List.nodup_range
  · change b ∈ w.db.blocks.blocks S.blocksPerCall v at hmem
    rw [BlockTable.blocks_eq hp] at hmem
    obtain ⟨i, hi, rfl⟩ := List.mem_map.mp hmem
    rw [BlockTable.getBlockByIdx_idx]
    exact ⟨rfl, List.mem_range.mp hi⟩
  · rintro ⟨idx, hidx, -, -, hnot, -⟩
    change idx ∉ (w.db.blocks.blocks S.blocksPerCall v).map Block.idx at hnot
    rw [hblocks] at hnot
    exact absurd (List.mem_range.mpr hidx) hnot

theorem restoreBlocks_succeeds {opened : Bytes} {u : World κ} {sched : Schedule}
    (hp : 0 < S.blocksPerCall) (hb : 0 < v.blockSize)
    (hsize : ∀ idx < v.blocksCount, (w.db.blocks.getBlockByIdx v idx).size = v.blockSizeAt idx)
    (hobjects : u.objects = w.objects) (hblocks : u.db.blocks = w.db.blocks)
    (hlen : v.size ≤ opened.length) (hzeros : sparse = true → opened = zeros v.size)
    (hraise : ∀ x, .raise x ∉ sched.sparseEvents)
    (hsurvives : Survives S w v (w.db.blocks.blocks S.blocksPerCall v).getLast?
      sched.dataEvents) :
    (restoreBlocks S v sparse sched).Succeeds
      (fun R => R = { world := u, target := some opened }) (Through S w v sparse) := by
  refine Proc.Succeeds.bind (Q := Came S w v sparse) (Proc.Leads.modify ?_) fun _ => ?_
  · rintro _ rfl
    rw [hblocks]
    exact came_start hp hsize hb hobjects hlen hzeros
  refine Proc.Succeeds.bind (Q := Came S w v sparse) ?_ fun _ => ?_
  · intro R r R' hs hR
    have hloop := Proc.Succeeds.forEach
      (J := fun events R => Came S w v sparse R ∧ ∀ x, Event.raise x ∉ events)
      (sparseStep_succeeds hb hsize) sched.sparseEvents
    obtain ⟨⟨hcame, -⟩, hr⟩ := hloop hs ⟨hR, hraise⟩
    exact ⟨hcame, hr⟩
  refine Proc.Succeeds.bind waitForAll_succeeds fun _ => ?_
  refine Proc.Leads.get_bind fun R hR => ?_
  obtain ⟨⟨h, hzero, done, hall, hcurrent⟩, hbs, hqueued, hwritten, -⟩ := hR
  refine Proc.Succeeds.bind (Q := fun t => R = t)
    (Proc.Leads.raiseIf_of_not (fun _ _ => ?_) fun _ ht => ht) fun _ => ?_
  · have hjobs := h.writeJobs
    rw [hqueued, hwritten] at hjobs
    exact not_not.mpr hjobs
  refine Proc.Succeeds.bind (Q := Facing S w v sparse sched.dataEvents)
    (Proc.Leads.modify ?_) fun _ => ?_
  · rintro _ rfl
    rw [hall, hbs, List.append_nil, ← hcurrent] at hsurvives
    refine ⟨{ h with readJobs := ?_, writeJobs := ?_ }, hbs, hsurvives⟩
    · have hjobs := h.readJobs
      rw [hzero] at hjobs
      exact hjobs
    · show 0 = 0 + (R.queued.length + R.written.length)
      rw [hqueued, hwritten]
      rfl
  refine Proc.Succeeds.bind (Proc.Succeeds.forEach (dataStep_succeeds hb hsize) _) fun _ => ?_
  intro R r R' hs hR
  obtain ⟨⟨hfacing, hbs, hq, hwr, hreads⟩, hr⟩ := waitForAll_succeeds hs hR
  exact ⟨⟨hfacing.1, hbs, hq, hwr, hreads rfl⟩, hr⟩

omit [DecidableEq κ] in
theorem openW_returns {url : String} {force : Bool} {target : Option Bytes} {size : ℕ}
    {u : World κ} (h : match target with
      | some file => force = true ∧ size ≤ file.length
      | none => 0 < size) :
    (openW url size force).Returns { world := u, target }
      () { world := u, target := some (openedFile size target) } ∧
      size ≤ (openedFile size target).length := by
  cases target with
  | some file =>
    refine ⟨?_, h.2⟩
    show openW url size force _ = _
    unfold openW
    dsimp only
    rw [if_neg (by rw [h.1]; simp), if_neg (Nat.not_lt.mpr h.2)]
    rfl
  | none =>
    have hz : overwrite [] (size - 1) [0] = zeros size := by
      have hsize : size = size - 1 + 1 := by omega
      conv_rhs => rw [hsize, zeros_add]
      simp [overwrite, zeros]
    refine ⟨?_, by simp [openedFile]⟩
    show openW url size force _ = _
    unfold openW
    dsimp only
    rw [if_neg (by omega), hz]
    rfl

end Steps

end Restore

/-- What a restore leaves behind when it ends normally: the bytes of intact blocks are in the
target and the uids of the blocks that fail are marked, and no others. -/
structure Restored [DecidableEq κ] (S : Settings κ) (w : World κ) (v : Version)
    (R : Restore κ) : Prop where
  bytes : ∃ file, R.target = some file ∧ ∀ i < v.size,
    Sound S.dataHexdigest w.objects v.storage.id
      (w.db.blocks.getBlockByIdx v (i / v.blockSize)) →
    file[i]? = some (versionByte w v i)
  marked : ∀ u, u ∈ R.marked ↔ ∃ idx < v.blocksCount,
    (w.db.blocks.getBlockByIdx v idx).uid = u ∧
      Fails S w.objects v.storage.id (w.db.blocks.getBlockByIdx v idx)

/-- The version is not locked and the target can be opened. -/
def CanRestore (w : World κ) (target : Option Bytes) (versionUid : String) (v : Version)
    (sparse force : Bool) : Prop :=
  Locking.isVersionLocked versionUid w = false ∧
  (match target with
    | some file => force = true ∧ v.size ≤ file.length
    | none => 0 < v.size) ∧
  (sparse = true → target = none)

theorem Restore.Through.restored [DecidableEq κ] {S : Settings κ} {w : World κ} {v : Version}
    {sparse : Bool} {R : Restore κ} (h : Through S w v sparse R) :
    Restored S w v R ∧ R.readJobs = R.doneReadJobs ∧ R.writeJobs = R.doneWriteJobs := by
  obtain ⟨h, hblocks, hqueued, hwritten, hreads⟩ := h
  obtain ⟨file, hfile, -, hbytes⟩ := h.target
  have hpend : R.pending = [] := by
    rw [pending, hblocks, hqueued, hreads]
    rfl
  have hmarked := h.marked
  have hread := h.readJobs
  have hwrite := h.writeJobs
  rw [hblocks, hreads] at hmarked
  rw [hreads] at hread
  rw [hqueued, hwritten] at hwrite
  refine ⟨⟨⟨file, hfile, fun i hi hsound => hbytes i hi hsound fun hmem => ?_⟩, fun u => ?_⟩,
    hread, hwrite⟩
  · rw [hpend] at hmem
    exact absurd hmem List.not_mem_nil
  · rw [hmarked u]
    simp

/-- The rest of a restore once the version is locked and the target open. -/
theorem restore_succeeds [DecidableEq κ] {S : Settings κ} {versionUid : String} {sparse : Bool}
    {sched : Restore.Schedule} {v : Version} {w u : World κ} {opened : Bytes}
    {locks : Table Lock.lockName} (hp : 0 < S.blocksPerCall) (hb : 0 < v.blockSize)
    (hsize : ∀ idx < v.blocksCount, (w.db.blocks.getBlockByIdx v idx).size = v.blockSizeAt idx)
    (hobjects : u.objects = w.objects) (hblocks : u.db.blocks = w.db.blocks)
    (hlen : v.size ≤ opened.length) (hzeros : sparse = true → opened = zeros v.size)
    (hraise : ∀ x, .raise x ∉ sched.sparseEvents)
    (hsurvives : Restore.Survives S w v (w.db.blocks.blocks S.blocksPerCall v).getLast?
      sched.dataEvents)
    (hheld : Locking.heldBy S.me (Locking.versionLockName versionUid) u = true)
    (hlocks : u.HasLocks locks) :
    (Proc.tryFinally (Restore.restoreBlocks S v sparse sched)
      (Restore.onWorld (Locking.unlockVersion S.me versionUid)) >>= fun _ => Proc.get >>= fun R =>
        Proc.raiseIf (R.readJobs ≠ R.doneReadJobs) (jobsMessage "read" R.readJobs R.doneReadJobs)
          >>= fun _ => Proc.raiseIf (R.writeJobs ≠ R.doneWriteJobs)
            (jobsMessage "write" R.writeJobs R.doneWriteJobs)).Succeeds
      (fun R => R = { world := u, target := some opened }) (Restored S w v) := by
  have hrun : (Restore.restoreBlocks S v sparse sched).Succeeds
      (fun R => R = { world := u, target := some opened })
      (fun R => Restore.Through S w v sparse R ∧ R.world.HasLocks locks) := by
    intro R r R' hs hR
    obtain ⟨hthrough, hr⟩ := Restore.restoreBlocks_succeeds hp hb hsize hobjects hblocks hlen
      hzeros hraise hsurvives hs hR
    refine ⟨⟨hthrough, Restore.keeps_locks_restoreBlocks hs ?_⟩, hr⟩
    rw [hR]
    exact hlocks
  have hunlock : (Restore.onWorld (Locking.unlockVersion S.me versionUid)).Succeeds
      (fun R : Restore κ => Restore.Through S w v sparse R ∧ R.world.HasLocks locks)
      (fun R => Restored S w v R ∧ R.readJobs = R.doneReadJobs ∧
        R.writeJobs = R.doneWriteJobs) := by
    intro R r R' hs hR
    obtain ⟨hthrough, hhas⟩ := hR
    have hheld' : Locking.heldBy S.me (Locking.versionLockName versionUid) R.world = true := by
      rw [Locking.heldBy, hhas.1, ← hlocks.1]
      exact hheld
    have hreturns : (Restore.onWorld (Locking.unlockVersion S.me versionUid)).Returns R ()
        { R with
          world := Locking.eraseLock (Locking.versionLockName versionUid) R.world } :=
      Proc.returns_onPart.mpr ⟨_, Locking.returns_unlock.mpr ⟨hheld', rfl⟩, rfl⟩
    cases Option.some.inj (hs.symm.trans hreturns)
    obtain ⟨hrestored, hjobs⟩ := hthrough.restored
    refine ⟨⟨⟨hrestored.bytes, hrestored.marked⟩, hjobs⟩, ?_⟩
    rintro _ ⟨⟩
  refine Proc.Succeeds.bind (Proc.Succeeds.tryFinally hrun hunlock) fun _ => ?_
  refine Proc.Leads.get_bind fun R hR => ?_
  refine Proc.Succeeds.bind (Q := fun t => R = t)
    (Proc.Leads.raiseIf_of_not (fun _ _ => not_not.mpr hR.2.1) fun _ ht => ht) fun _ => ?_
  refine Proc.Leads.raiseIf_of_not (fun _ _ => not_not.mpr hR.2.2) fun _ ht => ?_
  rw [← ht]
  exact hR.1

theorem restore_survives [DecidableEq κ] {S : Settings κ} {versionUid url : String}
    {sparse force : Bool} {sched : Restore.Schedule} {v : Version} {w : World κ}
    {target : Option Bytes} {r : Except Error Unit} {R' : Restore κ}
    (hp : 0 < S.blocksPerCall) (hb : 0 < v.blockSize)
    (hv : w.db.getByUid versionUid = some v)
    (hsize : ∀ idx < v.blocksCount, (w.db.blocks.getBlockByIdx v idx).size = v.blockSizeAt idx)
    (hcan : CanRestore w target versionUid v sparse force)
    (hraise : ∀ x, .raise x ∉ sched.sparseEvents)
    (hsurvives : Restore.Survives S w v (w.db.blocks.blocks S.blocksPerCall v).getLast?
      sched.dataEvents)
    (h : restore S versionUid url sparse force sched { world := w, target } = some (r, R')) :
    r = .ok () ∧ Restored S w v R' := by
  obtain ⟨hfree, hopen, hfresh⟩ := hcan
  have hnone : w.db.locks.find? (Locking.versionLockName versionUid) = none :=
    Option.isSome_eq_false_iff.mp hfree |> Option.isNone_iff_eq_none.mp
  have hheld : Locking.heldBy S.me (Locking.versionLockName versionUid) w = false := by
    rw [Locking.heldBy, hnone]
  set w1 := Locking.putLock ⟨Locking.versionLockName versionUid, S.me, "Restoring version"⟩ w
    with hw1
  have hlock : (Restore.onWorld (Locking.lockVersion S.me versionUid "Restoring version")).Returns
      { world := w, target } () { world := w1, target } :=
    Proc.returns_onPart.mpr ⟨w1, Locking.returns_lock.mpr ⟨hheld, .inr hfree, rfl⟩, rfl⟩
  obtain ⟨hopened, hlen⟩ := @Restore.openW_returns _ url force target v.size w1 hopen
  have hprepare : (Restore.prepare versionUid url force).Returns { world := w1, target } v
      { world := w1, target := some (Restore.openedFile v.size target) } := by
    simp only [Restore.prepare, Proc.returns_bind, Proc.returns_get, Proc.returns_ofOption,
      Proc.returns_pure]
    exact ⟨_, _, ⟨rfl, rfl⟩, v, _, ⟨hv, rfl⟩, (), _, hopened, rfl, rfl⟩
  have hobjects : w1.objects = w.objects := rfl
  have hblocks : w1.db.blocks = w.db.blocks := rfl
  have hrest := restore_succeeds hp hb hsize hobjects hblocks hlen
    (fun hs => by rw [hfresh hs]; rfl) hraise hsurvives Locking.heldBy_putLock
    (Locking.hasLocks_putLock w)
  have hbegin : restore S versionUid url sparse force sched { world := w, target } = _ :=
    hlock.bind_eq
  have htry := (Proc.returns_tryExcept (h := fun e => do
    Restore.onWorld (Locking.unlockVersion S.me versionUid)
    Proc.raise e)).mpr (.inl hprepare)
  rw [hbegin, htry.bind_eq] at h
  exact hrest.eq_ok rfl h

section Example

/-- Block 0 of the version has this object, and block 1 none. -/
def damagedWorld (o : Option (StoredObject Bytes)) : World Bytes :=
  { sparseTailWorld with
    objects := fun storage uid => if storage = 1 ∧ uid = ⟨4, 1⟩ then o else none }

/-- An object whose second byte has changed. -/
def changedObject : StoredObject Bytes := ⟨2, .ok [1, 9], .decoded ⟨2, 2, some [1, 2]⟩⟩

theorem survives_changedObject :
    Restore.Survives sparseTailSettings (damagedWorld (some changedObject)) sparseTailVersion
      (((damagedWorld (some changedObject)).db.blocks.blocks sparseTailSettings.blocksPerCall
        sparseTailVersion).getLast?) sparseTailSchedule.dataEvents := by
  refine ⟨fun e he => ?_, fun j hj _ hsound => ?_, trivial⟩
  · have hcheck : checkBlockMetadata
        ((damagedWorld (some changedObject)).db.blocks.getBlockByIdx sparseTailVersion 0) (some 2)
          (⟨2, 2, some [1, 2]⟩ : Metadata Bytes) = none := by
      decide
    exact absurd (hcheck.symm.trans he) (by simp)
  · have hj : j < 2 := hj
    have hzero : (0 * 2 + j) / 2 = 0 := by omega
    change Sound _ _ _ ((damagedWorld (some changedObject)).db.blocks.getBlockByIdx
      sparseTailVersion ((0 * 2 + j) / 2)) at hsound
    rw [hzero] at hsound
    obtain ⟨o, d, m, ho, -, -, hd, -, -, -, hhash⟩ := hsound ⟨4, 1⟩ rfl
    cases Option.some.inj ho
    cases hd
    cases hhash

theorem restore_survives_example : ∃ R',
    restore sparseTailSettings "v4" "file:/target" false true sparseTailSchedule
      { world := damagedWorld (some changedObject), target := some usedTarget } =
        some (.ok (), R') ∧
    Restored sparseTailSettings (damagedWorld (some changedObject)) sparseTailVersion R' := by
  obtain ⟨_, R', h, -⟩ := Proc.returns_of_outcome (f := fun _ _ => true)
    (p := restore sparseTailSettings "v4" "file:/target" false true sparseTailSchedule)
    (s := { world := damagedWorld (some changedObject), target := some usedTarget })
    (by decide +kernel)
  have hcan : CanRestore (damagedWorld (some changedObject)) (some usedTarget) "v4"
      sparseTailVersion false true := ⟨by decide, by decide, by decide⟩
  have hraise (e : Error) : .raise e ∉ sparseTailSchedule.sparseEvents := by
    simp [sparseTailSchedule]
  have hsizes : ∀ idx < sparseTailVersion.blocksCount,
      ((damagedWorld (some changedObject)).db.blocks.getBlockByIdx sparseTailVersion idx).size =
        sparseTailVersion.blockSizeAt idx := sparseTail_sizes
  have hv : (damagedWorld (some changedObject)).db.getByUid "v4" = some sparseTailVersion := rfl
  have hsurvives := restore_survives (by decide) (by decide) hv hsizes hcan hraise
    survives_changedObject h
  exact ⟨R', h, hsurvives.2⟩

/-- The exception of a missing object is an `IOError`, which ends the restore. -/
theorem restore_aborts_on_missing_object : ∃ e R',
    (restore sparseTailSettings "v4" "file:/target" false true
      { sparseTailSchedule with dataEvents := [.read 0] }).Raises
        { world := damagedWorld none, target := some usedTarget } e R' ∧
    CanRestore (damagedWorld none) (some usedTarget) "v4" sparseTailVersion false true := by
  have hrun : ((restore sparseTailSettings "v4" "file:/target" false true
      { sparseTailSchedule with dataEvents := [.read 0] })
      { world := damagedWorld none, target := some usedTarget }).any
        (fun p => !p.1.isOk) = true := by
    decide +kernel
  obtain ⟨⟨r, R'⟩, hr, hfailed⟩ := (Option.any_eq_true _ _).mp hrun
  cases r with
  | ok a => cases hfailed
  | error e => exact ⟨e, R', hr, by decide, by decide, by decide⟩

end Example

end Benji
