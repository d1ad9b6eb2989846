import Benji.Nbd.Persist

/-! When a fixated version reads as what was written to the export. -/
namespace Benji.Nbd
open Lib

variable {κ : Type}

/-- What `create_cow_version` leaves: rows of their own that refer to intact objects of other
versions, all of it committed. -/
structure Prepared (S : Settings κ) (v c : Version) (w : World κ) : Prop where
  committed : w.committed = w.db
  ne : v.id ≠ c.id
  fresh : ∀ b ∈ w.db.blocks, ∀ uid, b.uid = some uid → uid.left ≠ c.id
  sound : ∀ b ∈ w.db.blocks, b.versionId = c.id →
    Sound S.dataHexdigest w.objects v.storage.id b
  incomplete : ∀ r ∈ w.db.versions, r.id = c.id → r.status ≠ .valid

/-- From `w` to `u` the version `c` has got the content `d`, and `v` is as it was. -/
structure Persisted (S : Settings κ) (v c : Version) (w u : World κ) (d : Bytes) : Prop where
  blocks : ∀ idx < v.blocksCount,
    blockData u.objects v.storage.id (u.db.blocks.getBlockByIdx c idx) =
      some (slice d (idx * v.blockSize) (v.blockSizeAt idx))
  rows : ∀ b ∈ u.db.blocks, b.versionId = c.id → Sound S.dataHexdigest u.objects v.storage.id b
  baseRows : ∀ b, b.versionId = v.id → (b ∈ u.db.blocks ↔ b ∈ w.db.blocks)
  baseObjects : ∀ b ∈ w.db.blocks, b.versionId = v.id → ∀ uid, b.uid = some uid →
    u.objects v.storage.id uid = w.objects v.storage.id uid

/-- Of the written blocks of the version, those whose rows survive are not the short sparse block,
and the others are written with the bytes they had. -/
def Recorded (sched : FixateSchedule) (v c : Version) (s : Store κ) (d : Bytes) : Prop :=
  ∀ idx ∈ (s.table (some c)).map Prod.fst, idx < v.blocksCount →
    if idx ∈ Store.survivors sched [] ((s.table (some c)).map Prod.fst) then
      (s.world.db.blocks.getBlockByIdx v idx).uid.isSome ∨ v.blockSizeAt idx = v.blockSize
    else blockData s.world.objects v.storage.id (s.world.db.blocks.getBlockByIdx v idx) =
      some (slice d (idx * v.blockSize) (v.blockSizeAt idx))

namespace Store

theorem mem_survivors {sched : FixateSchedule} {pending idxs : List ℕ} {idx : ℕ}
    (h : idx ∈ survivors sched pending idxs) :
    idx ∈ pending ∨ idx ∈ idxs ∧ sched.setBlockError idx = none := by
  induction idxs generalizing pending with
  | nil => exact .inl h
  | cons i idxs ih =>
    rw [survivors] at h
    split_ifs at h with herr hdue
    · rcases ih h with hp | ⟨hm, hn⟩
      · exact absurd hp List.not_mem_nil
      · exact .inr ⟨List.mem_cons_of_mem _ hm, hn⟩
    · have hn : sched.setBlockError i = none := by simpa using herr
      rcases List.mem_append.mp h with hp | hm
      · exact .inl hp
      · rcases List.mem_cons.mp hm with rfl | hm
        · exact .inr ⟨List.mem_cons_self, hn⟩
        · rcases ih hm with hp | ⟨hm, hn⟩
          · exact absurd hp List.not_mem_nil
          · exact .inr ⟨List.mem_cons_of_mem _ hm, hn⟩
    · have hn : sched.setBlockError i = none := by simpa using herr
      rcases ih h with hp | ⟨hm, hn'⟩
      · rcases List.mem_append.mp hp with hp | hi
        · exact .inl hp
        · rw [List.mem_singleton.mp hi]
          exact .inr ⟨List.mem_cons_self, hn⟩
      · exact .inr ⟨List.mem_cons_of_mem _ hm, hn'⟩

section
variable [DecidableEq κ] {S : Settings κ} {c : Version} {file : ℕ → Bytes} {t : BlockTable κ}
  {idxs : List ℕ} {idx : ℕ} {data : Bytes}

/-- A block as it is recorded. -/
def fixedBlock (S : Settings κ) (c : Version) (data : Bytes) (idx : ℕ) : Block κ :=
  if S.dataHexdigest data = S.dataHexdigest (zeros c.blockSize) then
    ⟨c.id, idx, none, none, data.length, true⟩
  else ⟨c.id, idx, some ⟨c.id, idx + 1⟩, some (S.dataHexdigest data), data.length, true⟩

theorem getBlockByIdx_record (i : ℕ) : (record S c data t idx).getBlockByIdx c i =
    if i = idx then fixedBlock S c data idx else t.getBlockByIdx c i := by
  unfold record fixedBlock
  split_ifs with hs hi hi
  · rw [hi]
    exact BlockTable.setBlock_fields fun _ => ⟨rfl, rfl⟩
  · exact BlockTable.getBlockByIdx_setBlock_of_ne hi
  · rw [hi]
    exact BlockTable.setBlock_fields fun h => by cases h
  · exact BlockTable.getBlockByIdx_setBlock_of_ne hi

theorem mem_record {b : Block κ} (h : b.key ≠ (c.id, idx)) :
    b ∈ record S c data t idx ↔ b ∈ t := by
  unfold record
  split
  all_goals
    rw [BlockTable.mem_setBlock]
    constructor
    · rintro (⟨-, rfl⟩ | hb)
      · exact absurd rfl h
      · exact hb.1
    · exact fun hb => .inr ⟨hb, h⟩

theorem getBlockByIdx_recordAll : (recordAll S c file t idxs).getBlockByIdx c idx =
    if idx ∈ idxs then fixedBlock S c (file idx) idx else t.getBlockByIdx c idx := by
  induction idxs generalizing t with
  | nil => rfl
  | cons i idxs ih =>
    have hcons : recordAll S c file t (i :: idxs) =
        recordAll S c file (record S c (file i) t i) idxs := rfl
    rw [hcons, ih, getBlockByIdx_record]
    by_cases hi : idx = i
    · subst hi
      simp
    · simp [hi]

theorem mem_recordAll {b : Block κ} (h : ∀ i ∈ idxs, b.key ≠ (c.id, i)) :
    b ∈ recordAll S c file t idxs ↔ b ∈ t := by
  induction idxs generalizing t with
  | nil => rfl
  | cons i idxs ih =>
    have hcons : recordAll S c file t (i :: idxs) =
        recordAll S c file (record S c (file i) t i) idxs := rfl
    rw [hcons, ih fun j hj => h j (List.mem_cons_of_mem _ hj), mem_record (h i List.mem_cons_self)]

end

/-- The file of a written block. -/
def fileOf (v c : Version) (s : Store κ) (d : Bytes) (idx : ℕ) : Bytes :=
  slice d (idx * v.blockSize) (v.blockSizeAt idx) ++
    zeros (fileLength v (s.world.db.blocks.getBlockByIdx c idx) - v.blockSizeAt idx)

/-- Rows and objects of a version that is valid after `fixate`. -/
structure Fixated [DecidableEq κ] (S : Settings κ) (sched : FixateSchedule) (v c : Version)
    (s t : Store κ) (d : Bytes) : Prop where
  rows : t.world.db.blocks = recordAll S c (fileOf v c s d) s.world.db.blocks
    (survivors sched [] ((s.table (some c)).map Prod.fst))
  others : ∀ storage uid, uid.left ≠ c.id →
    t.world.objects storage uid = s.world.objects storage uid
  objects : ∀ idx ∈ (s.table (some c)).map Prod.fst, sched.setBlockError idx = none →
    S.dataHexdigest (fileOf v c s d idx) ≠ S.dataHexdigest (zeros v.blockSize) →
    t.world.objects v.storage.id ⟨c.id, idx + 1⟩ = some ⟨(fileOf v c s d idx).length,
      .ok (fileOf v c s d idx), .decoded ⟨(fileOf v c s d idx).length, v.blockSizeAt idx,
        some (S.dataHexdigest (fileOf v c s d idx))⟩⟩

section
variable [DecidableEq κ] {S : Settings κ} {sched : FixateSchedule} {v c : Version}
  {s t : Store κ} {d : Bytes} {idx n : ℕ}

omit [DecidableEq κ] in
/-- Nothing but zeros is kept for a block behind the last one. -/
theorem fileOf_behind (h : s.ShowsTo v (some c) n d) (hidx : v.blocksCount ≤ idx) :
    fileOf v c s d idx = zeros v.blockSize := by
  obtain ⟨-, hzero, hu⟩ := h.behind rfl hidx
  rw [fileOf, hzero, slice_zero, List.nil_append, fileLength, if_pos hu, Nat.sub_zero]

theorem fixate_fixated {r : Except Error Unit} (h : s.ShowsTo v (some c) n d)
    (hp : Prepared S v c s.world) (hf : fixate S sched c s = some (r, t))
    (hvalid : ∃ x ∈ t.world.db.versions, x.id = c.id ∧ x.status = .valid) :
    Fixated S sched v c s t d := by
  obtain ⟨table, htable⟩ := Option.isSome_iff_exists.mp (h.opened c rfl)
  have hcopy := h.copies c rfl
  have hclone := h.clone c rfl
  have heq : s.table (some c) = table := by
    rw [Store.table, Option.bind_some, htable]
    rfl
  rw [heq] at hcopy
  obtain ⟨u, hloop, hblocks, hobjects⟩ := fixate_valid htable (by rw [hp.committed]) hp.incomplete
    hf hvalid
  have hentries : ∀ e ∈ table, e.2.uid = some ⟨c.id, e.1 + 1⟩ ∧ e.2.idx = e.1 ∧
      s.cowStore.files ⟨c.id, e.1 + 1⟩ = some (fileOf v c s d e.1) := by
    intro e he
    have hb := hcopy.block e.1 e.2 he
    obtain ⟨file, hfile, hfeq⟩ := hcopy.file e.1 e.2 he
    refine ⟨by rw [hb], by rw [hb]; exact BlockTable.getBlockByIdx_idx .., ?_⟩
    rw [hfile, hfeq]
    rfl
  obtain ⟨hrows, hothers, hobj⟩ := fixateBlocks_spec s.world.db.blocks [] hcopy.nodup hentries
    hp.committed rfl hloop
  refine ⟨?_, ?_, ?_⟩
  · rw [hblocks, hrows, heq]
  · intro storage uid hne
    rw [hobjects]
    apply hothers
    intro e _ he
    exact hne (by rw [(Prod.mk.inj he).2])
  · intro idx hidx herr hsparse
    rw [heq] at hidx
    obtain ⟨e, he, rfl⟩ := List.mem_map.mp hidx
    have hlt : e.1 < v.blocksCount := by
      by_contra hlast
      exact hsparse (by rw [fileOf_behind h (not_lt.mp hlast)])
    have hsize : e.2.size = v.blockSizeAt e.1 := by
      rw [hcopy.block e.1 e.2 he]
      have hs := (hclone.blocks e.1).2.trans (h.sized e.1)
      rwa [gridSize_of_lt hlt] at hs
    rw [hobjects, ← hclone.storage, hobj e he herr (by rw [hclone.blockSize]; exact hsparse),
      objectOf, hsize]

omit [DecidableEq κ] in
/-- The file is no longer than the block, unless the block was short and sparse. -/
theorem fileOf_eq_iff (h : s.ShowsTo v (some c) n d) (hidx : idx < v.blocksCount) :
    fileOf v c s d idx = slice d (idx * v.blockSize) (v.blockSizeAt idx) ↔
      (s.world.db.blocks.getBlockByIdx v idx).uid.isSome ∨ v.blockSizeAt idx = v.blockSize := by
  have hclone := (h.clone c rfl).blocks idx
  have hsized := h.sized idx
  have hle := v.blockSizeAt_le idx
  rw [gridSize_of_lt hidx] at hsized
  have hiff : fileOf v c s d idx = slice d (idx * v.blockSize) (v.blockSizeAt idx) ↔
      fileLength v (s.world.db.blocks.getBlockByIdx c idx) ≤ v.blockSizeAt idx := by
    rw [fileOf, List.append_right_eq_self, zeros, List.replicate_eq_nil_iff,
      Nat.sub_eq_zero_iff_le]
  rw [hiff, fileLength, hclone.1, hclone.2, hsized]
  cases hu : (s.world.db.blocks.getBlockByIdx v idx).uid with
  | none =>
    simp only [if_true, Option.isSome_none, Bool.false_eq_true, false_or]
    omega
  | some uid => simp

omit [DecidableEq κ] in
theorem not_fresh (hp : Prepared S v c s.world) {w : Version} {uid : BlockUid}
    (hu : (s.world.db.blocks.getBlockByIdx w idx).uid = some uid) : uid.left ≠ c.id := by
  cases hr : s.world.db.blocks.row? w idx with
  | none =>
    rw [BlockTable.getBlockByIdx_of_none hr] at hu
    cases hu
  | some b =>
    rw [BlockTable.getBlockByIdx_of_row? hr] at hu
    exact hp.fresh b (BlockTable.row?_eq_some.mp hr).1 uid hu

namespace Fixated

omit [DecidableEq κ] in
theorem survived_mem (hs : idx ∈ survivors sched [] ((s.table (some c)).map Prod.fst)) :
    idx ∈ (s.table (some c)).map Prod.fst ∧ sched.setBlockError idx = none := by
  rcases mem_survivors hs with hn | h
  · exact absurd hn List.not_mem_nil
  · exact h

/-- A block whose row survives reads as its file. -/
theorem blockData_survived (hf : Fixated S sched v c s t d) (h : s.ShowsTo v (some c) n d)
    (hinj : Function.Injective S.dataHexdigest)
    (hs : idx ∈ survivors sched [] ((s.table (some c)).map Prod.fst)) :
    blockData t.world.objects v.storage.id (t.world.db.blocks.getBlockByIdx c idx) =
      some (fileOf v c s d idx) := by
  obtain ⟨hmem, herr⟩ := survived_mem hs
  have hbs := (h.clone c rfl).blockSize
  rw [hf.rows, getBlockByIdx_recordAll, if_pos hs, fixedBlock, hbs]
  split_ifs with hsparse
  · have hz := hinj hsparse
    simp only [blockData, hz, length_zeros]
  · exact blockData_of_object rfl (hf.objects idx hmem herr hsparse) rfl

/-- Any other block reads as it did in the version it comes from. -/
theorem blockData_kept (hf : Fixated S sched v c s t d) (h : s.ShowsTo v (some c) n d)
    (hp : Prepared S v c s.world)
    (hs : idx ∉ survivors sched [] ((s.table (some c)).map Prod.fst)) :
    blockData t.world.objects v.storage.id (t.world.db.blocks.getBlockByIdx c idx) =
      blockData s.world.objects v.storage.id (s.world.db.blocks.getBlockByIdx v idx) := by
  obtain ⟨hu, hsize⟩ := (h.clone c rfl).blocks idx
  rw [hf.rows, getBlockByIdx_recordAll, if_neg hs, ← blockData_of_uid_eq hu hsize]
  cases huid : (s.world.db.blocks.getBlockByIdx c idx).uid with
  | none => simp only [blockData, huid]
  | some uid =>
    have hleft := not_fresh hp huid
    simp only [blockData, huid, hf.others _ uid hleft]

/-- A row of `c` is the row that `set_block` left, or one that was there before. -/
theorem sound_rows (hf : Fixated S sched v c s t d) (h : s.ShowsTo v (some c) n d)
    (hp : Prepared S v c s.world)
    (hfile : ∀ idx ∈ survivors sched [] ((s.table (some c)).map Prod.fst), idx < v.blocksCount →
      fileOf v c s d idx = slice d (idx * v.blockSize) (v.blockSizeAt idx))
    {b : Block κ} (hb : b ∈ t.world.db.blocks) (hv : b.versionId = c.id) :
    Sound S.dataHexdigest t.world.objects v.storage.id b := by
  have hbs := (h.clone c rfl).blockSize
  by_cases hs : b.idx ∈ survivors sched [] ((s.table (some c)).map Prod.fst)
  · obtain ⟨hmem, herr⟩ := survived_mem hs
    have hrow : t.world.db.blocks.getBlockByIdx c b.idx = b :=
      BlockTable.getBlockByIdx_of_row? (BlockTable.row?_eq_some.mpr ⟨hb, hv, rfl⟩)
    rw [hf.rows, getBlockByIdx_recordAll, if_pos hs, fixedBlock, hbs] at hrow
    split_ifs at hrow with hsparse
    · intro uid hu
      rw [← hrow] at hu
      cases hu
    · intro uid hu
      have hidx : b.idx < v.blocksCount := by
        by_contra hlast
        exact hsparse (by rw [fileOf_behind h (not_lt.mp hlast)])
      have hlen : (fileOf v c s d b.idx).length = v.blockSizeAt b.idx := by
        have hlt := (Version.lt_blocksCount h.blockSize_pos).mp hidx
        rw [hfile _ hs hidx, length_slice, h.length, Version.blockSizeAt]
        omega
      rw [← hrow] at hu
      obtain rfl := Option.some.inj hu
      refine ⟨_, _, _, hf.objects b.idx hmem herr hsparse, rfl, rfl, rfl, ?_, ?_, ?_, ?_⟩
      · rw [← hrow, hlen]
      · rw [← hrow]
      · rw [← hrow]
      · rw [← hrow]
  · have hmem : b ∈ s.world.db.blocks := by
      rw [hf.rows] at hb
      refine (mem_recordAll ?_).mp hb
      intro i hi he
      exact hs ((Prod.mk.inj he).2 ▸ hi)
    intro uid hu
    obtain ⟨o, data, m, ho, hrest⟩ := hp.sound b hmem hv uid hu
    exact ⟨o, data, m, (hf.others _ uid (hp.fresh b hmem uid hu)).trans ho, hrest⟩

end Fixated

/-- Once it is valid, the version has the bytes of the export and rows that match their objects
if and only if every written block got its row, the short sparse block aside. -/
theorem persisted_iff {r : Except Error Unit} (hinj : Function.Injective S.dataHexdigest)
    (h : s.ShowsTo v (some c) n d) (hp : Prepared S v c s.world)
    (hfix : fixate S sched c s = some (r, t))
    (hvalid : ∃ x ∈ t.world.db.versions, x.id = c.id ∧ x.status = .valid) :
    Persisted S v c s.world t.world d ↔ Recorded sched v c s d := by
  have hf := fixate_fixated h hp hfix hvalid
  constructor
  · intro hpers idx hidx hlt
    have hblock := hpers.blocks idx hlt
    split_ifs with hs
    · rw [hf.blockData_survived h hinj hs, Option.some.injEq] at hblock
      exact (fileOf_eq_iff h hlt).mp hblock
    · rw [hf.blockData_kept h hp hs] at hblock
      exact hblock
  · intro hrec
    have hfile : ∀ idx ∈ survivors sched [] ((s.table (some c)).map Prod.fst),
        idx < v.blocksCount →
        fileOf v c s d idx = slice d (idx * v.blockSize) (v.blockSizeAt idx) := by
      intro idx hs hlt
      have hcond := hrec idx (Fixated.survived_mem hs).1 hlt
      rw [if_pos hs] at hcond
      exact (fileOf_eq_iff h hlt).mpr hcond
    refine ⟨?_, fun b hb hv => hf.sound_rows h hp hfile hb hv, ?_, ?_⟩
    · intro idx hidx
      by_cases hs : idx ∈ survivors sched [] ((s.table (some c)).map Prod.fst)
      · rw [hf.blockData_survived h hinj hs, hfile idx hs hidx]
      · rw [hf.blockData_kept h hp hs]
        by_cases hk : idx ∈ (s.table (some c)).map Prod.fst
        · have hcond := hrec idx hk hidx
          rwa [if_neg hs] at hcond
        · exact h.untouched idx hidx hk
    · intro b hv
      rw [hf.rows]
      refine mem_recordAll ?_
      intro i _ he
      exact hp.ne (hv.symm.trans (Prod.mk.inj he).1)
    · intro b hb _ uid hu
      exact hf.others _ uid (hp.fresh b hb uid hu)

/-- The writes of a connection, then `fixate`. -/
theorem fixate_persists_iff {culled : ℕ → BlockUid → Bool} {s' : Store κ} {rs : List Request}
    {replies : List (Except Error Bytes)} {r : Except Error Unit}
    (hinj : Function.Injective S.dataHexdigest) (h : s.Opened v (some c) d)
    (hp : Prepared S v c s.world) (hrs : ∀ r ∈ rs, Inside v r)
    (hserve : serveAll culled v (some c) rs s = some (replies, s'))
    (hfix : fixate S sched c s' = some (r, t))
    (hvalid : ∃ x ∈ t.world.db.versions, x.id = c.id ∧ x.status = .valid) :
    Persisted S v c s.world t.world (flatAll v d rs).2 ↔
      Recorded sched v c s' (flatAll v d rs).2 := by
  have hallowed : ∀ r ∈ rs, r.Allowed (some c) ∧ Inside v r := by
    intro r hr
    refine ⟨?_, hrs r hr⟩
    cases r with
    | read _ _ => trivial
    | write _ _ => rfl
  obtain ⟨_, u, hu, hus, hworld⟩ := serveAll_inside culled (h.1.mono (Nat.le_succ _))
    (Nat.lt_succ_self _) hallowed
  obtain ⟨-, rfl⟩ := Prod.mk.inj (Option.some.inj (hu.symm.trans hserve))
  rw [← hworld] at hp ⊢
  exact persisted_iff hinj hus hp hfix hvalid

end

end Store

def exampleSettings : Settings Bytes := ⟨⟨"host", "1"⟩, 4, id, 10000, 10000⟩

def exampleSchedule : FixateSchedule where
  writeError _ := none
  setBlockError _ := none
  removeError _ := none
  due _ := false
  metadataError := none

theorem exampleStore_prepared :
    Prepared exampleSettings exampleVersion exampleCow exampleStore.world where
  committed := rfl
  ne := by decide
  fresh := by
    intro b hb uid hu
    have hmem : b ∈ exampleBlocks.rows := hb
    simp only [exampleBlocks, List.mem_cons, List.not_mem_nil, or_false] at hmem
    rcases hmem with rfl | rfl | rfl | rfl
    · cases hu
      decide
    · cases hu
    · cases hu
      decide
    · cases hu
  sound := by
    intro b hb hv uid hu
    have hmem : b ∈ exampleBlocks.rows := hb
    simp only [exampleBlocks, List.mem_cons, List.not_mem_nil, or_false] at hmem
    rcases hmem with rfl | rfl | rfl | rfl
    · exact absurd hv (by decide)
    · exact absurd hv (by decide)
    · cases hu
      exact ⟨_, _, _, rfl, rfl, rfl, rfl, rfl, rfl, rfl, rfl⟩
    · cases hu
  incomplete := by
    intro r hr hid
    have hmem : r ∈ [exampleVersion, exampleCow] := hr
    simp only [List.mem_cons, List.not_mem_nil, or_false] at hmem
    rcases hmem with rfl | rfl
    · exact absurd hid (by decide)
    · decide

/-- Requests, then `fixate`, and what is left if the version is valid then. -/
def exampleRun (sched : FixateSchedule) (rs : List Request) (f : Store Bytes → Bool) :
    Option ((List (Except Error Bytes) × Store Bytes) × Except Error Unit × Store Bytes) :=
  ((serveAll (fun _ _ => false) exampleVersion (some exampleCow) rs exampleStore).bind fun x =>
    (Store.fixate exampleSettings sched exampleCow x.2).map fun y => (x, y)).filter fun p =>
      (p.2.2.world.db.versions.rows.any fun x => x.id = 2 && x.status = .valid) && f p.2.2

theorem exampleRun_spec {sched : FixateSchedule} {rs : List Request} {f : Store Bytes → Bool}
    (h : (exampleRun sched rs f).isSome) : ∃ replies s' r t,
      serveAll (fun _ _ => false) exampleVersion (some exampleCow) rs exampleStore =
        some (replies, s') ∧
      Store.fixate exampleSettings sched exampleCow s' = some (r, t) ∧
      (∃ x ∈ t.world.db.versions, x.id = exampleCow.id ∧ x.status = .valid) ∧ f t = true := by
  obtain ⟨⟨⟨replies, s'⟩, r, t⟩, hp⟩ := Option.isSome_iff_exists.mp h
  obtain ⟨hrun, hcond⟩ := Option.filter_eq_some_iff.mp hp
  obtain ⟨x, hx, hy⟩ := Option.bind_eq_some_iff.mp hrun
  obtain ⟨y, hfix, he⟩ := Option.map_eq_some_iff.mp hy
  obtain ⟨rfl, rfl⟩ := Prod.mk.inj he
  simp only [Bool.and_eq_true, List.any_eq_true, decide_eq_true_eq] at hcond
  exact ⟨_, _, _, _, hx, hfix, hcond.1, hcond.2⟩

theorem fixate_persists_iff_example : ∃ replies, ∃ s' t : Store Bytes, ∃ r,
    serveAll (fun _ _ => false) exampleVersion (some exampleCow) [.write 0 [9]] exampleStore =
      some (replies, s') ∧
    Store.fixate exampleSettings exampleSchedule exampleCow s' = some (r, t) ∧
    (Persisted exampleSettings exampleVersion exampleCow exampleStore.world t.world
        [9, 2, 3, 4, 0, 0] ↔
      Recorded exampleSchedule exampleVersion exampleCow s' [9, 2, 3, 4, 0, 0]) := by
  have hrun : (exampleRun exampleSchedule [.write 0 [9]] fun _ => true).isSome := by
    decide +kernel
  obtain ⟨replies, s', r, t, hserve, hfix, hvalid, -⟩ := exampleRun_spec hrun
  have hrs : ∀ r ∈ [Request.write 0 [9]], Inside exampleVersion r := by decide +kernel
  have hflat : (flatAll exampleVersion [1, 2, 3, 4, 0, 0] [.write 0 [9]]).2 =
      [9, 2, 3, 4, 0, 0] := by
    decide +kernel
  have h := Store.fixate_persists_iff (S := exampleSettings) (fun _ _ h => h) exampleStore_opened
    exampleStore_prepared hrs hserve hfix hvalid
  rw [hflat] at h
  exact ⟨replies, s', t, r, hserve, hfix, h⟩

/-- The block's `set_block` fails, the version gets valid with the old bytes. -/
theorem swallowed_set_block_loses_write :
    ¬ ∀ (S : Settings Bytes) (sched : FixateSchedule) (v c : Version) (s s' t : Store Bytes)
      (d : Bytes) (rs : List Request) (replies : List (Except Error Bytes))
      (r : Except Error Unit), Function.Injective S.dataHexdigest → s.Opened v (some c) d →
      Prepared S v c s.world → (∀ r ∈ rs, Inside v r) →
      serveAll (fun _ _ => false) v (some c) rs s = some (replies, s') →
      Store.fixate S sched c s' = some (r, t) →
      (∃ x ∈ t.world.db.versions, x.id = c.id ∧ x.status = .valid) →
      Persisted S v c s.world t.world (flatAll v d rs).2 := by
  intro hall
  let sched : FixateSchedule := { exampleSchedule with
    setBlockError := fun _ => some (.other "OperationalError") }
  have hrun : (exampleRun sched [.write 0 [9]] fun t =>
      blockData t.world.objects 1 (t.world.db.blocks.getBlockByIdx exampleCow 0) =
        some [1, 2, 3, 4]).isSome := by
    decide +kernel
  obtain ⟨replies, s', r, t, hserve, hfix, hvalid, hold⟩ := exampleRun_spec hrun
  have hrs : ∀ r ∈ [Request.write 0 [9]], Inside exampleVersion r := by decide +kernel
  have hflat : (flatAll exampleVersion [1, 2, 3, 4, 0, 0] [.write 0 [9]]).2 =
      [9, 2, 3, 4, 0, 0] := by
    decide +kernel
  have hp := hall exampleSettings sched exampleVersion exampleCow exampleStore s' t _ _ replies r
    (fun _ _ h => h) exampleStore_opened exampleStore_prepared hrs hserve hfix hvalid
  have hblock := hp.blocks 0 (by decide)
  rw [hflat] at hblock
  have hold' := of_decide_eq_true hold
  rw [show exampleVersion.storage.id = 1 from rfl, hold'] at hblock
  exact absurd hblock (by decide)

end Benji.Nbd
