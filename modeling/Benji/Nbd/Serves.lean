import Benji.Lib.Meets
import Benji.Nbd.Chunks
import Benji.Nbd.Device

/-! Reads and writes anywhere on an export: they come to an end, and a read that is answered has
the length that was asked for. -/
namespace Benji.Nbd
open Lib

variable {κ : Type}

/-- Chunks of `len` bytes together, each of them inside its block. -/
inductive Fits (t : BlockTable κ) (v : Version) : ℕ → List (Chunk κ) → Prop
  | last {idx off len : ℕ} : off + len ≤ (t.getBlockByIdx v idx).size →
      Fits t v len [(some (t.getBlockByIdx v idx), off, len)]
  | more {idx off m len : ℕ} {chunks : List (Chunk κ)} :
      off + m ≤ (t.getBlockByIdx v idx).size → Fits t v len chunks →
      Fits t v (m + len) ((some (t.getBlockByIdx v idx), off, m) :: chunks)

section
variable {t : BlockTable κ} {v : Version}

/-- A request that starts inside its block or at its end is cut into chunks that fit. -/
theorem blockList_fits (hpos : ∀ idx, 0 < (t.getBlockByIdx v idx).size) (fuel : ℕ)
    {idx off len : ℕ} (ho : off ≤ (t.getBlockByIdx v idx).size)
    (hf : len + 1 < fuel ∨ off < (t.getBlockByIdx v idx).size ∧ len < fuel) :
    ∃ chunks, blockList t v fuel idx off len = some (.ok chunks) ∧ Fits t v len chunks := by
  induction fuel generalizing idx off len with
  | zero => omega
  | succ fuel ih =>
    by_cases hle : off + len ≤ (t.getBlockByIdx v idx).size
    · refine ⟨_, ?_, .last hle⟩
      have hmin : min (((t.getBlockByIdx v idx).size : ℤ) - off) len = len := by omega
      simp only [blockList, getBlock, hmin, sub_self, lt_irrefl, if_false, if_true]
    · obtain ⟨m, hm⟩ := Nat.exists_eq_add_of_le ho
      obtain ⟨rest, rfl⟩ := Nat.exists_eq_add_of_le (m := m) (n := len) (by omega)
      have hnext := hpos (idx + 1)
      obtain ⟨chunks, hc, hchunks⟩ := @ih (idx + 1) 0 rest (Nat.zero_le _) (by omega)
      refine ⟨_, ?_, .more (le_of_eq hm.symm) hchunks⟩
      have hmin : min (((t.getBlockByIdx v idx).size : ℤ) - off) ((m + rest : ℕ) : ℤ) = m := by
        omega
      have hsub : ((m + rest : ℕ) : ℤ) - m = (rest : ℕ) := by omega
      have hneg : ¬ ((rest : ℕ) : ℤ) < 0 := by omega
      have hne : ¬ ((rest : ℕ) : ℤ) = 0 := by omega
      simp only [blockList, getBlock, hmin, hsub, hneg, hne, if_false, hc, Option.map_some,
        Except.map]

/-- Any request is cut into chunks; what it misses behind the end of its block is added to it. -/
theorem exists_blockList (hpos : ∀ idx, 0 < (t.getBlockByIdx v idx).size) {fuel idx off : ℕ}
    (len : ℕ) (hf : len + (off - (t.getBlockByIdx v idx).size) + 1 < fuel) :
    ∃ r, blockList t v fuel idx off len = some r := by
  by_cases ho : off ≤ (t.getBlockByIdx v idx).size
  · obtain ⟨chunks, hc, -⟩ := @blockList_fits _ t v hpos fuel idx off len ho (.inl (by omega))
    exact ⟨_, hc⟩
  · cases fuel with
    | zero => omega
    | succ fuel =>
      obtain ⟨extra, hextra⟩ := Nat.exists_eq_add_of_le (le_of_lt (not_le.mp ho))
      have hnext := hpos (idx + 1)
      obtain ⟨chunks, hc, -⟩ := @blockList_fits _ t v hpos fuel (idx + 1) 0 (len + extra)
        (Nat.zero_le _) (.inr ⟨hnext, by omega⟩)
      have hmin : min (((t.getBlockByIdx v idx).size : ℤ) - off) len = -(extra : ℤ) := by omega
      have hsub : (len : ℤ) - -(extra : ℤ) = ((len + extra : ℕ) : ℤ) := by omega
      have hneg : ¬ ((len + extra : ℕ) : ℤ) < 0 := by omega
      have hne : ¬ ((len + extra : ℕ) : ℤ) = 0 := by omega
      simp only [blockList, getBlock, hmin, hsub, hneg, hne, if_false, hc, Option.map_some]
      exact ⟨_, rfl⟩

end

/-- What can be read does not depend on the position of the block. -/
theorem readObject_of_uid_eq {objects : Objects κ} {storage : ℕ} {b c : Block κ}
    {x : Bytes × Metadata κ} (hu : c.uid = b.uid)
    (h : Benji.readObject objects storage b = .ok x) :
    Benji.readObject objects storage c = .ok x := by
  unfold Benji.readObject at h ⊢
  rw [hu]
  cases ho : objects storage (b.uid.getD ⟨0, 0⟩) with
  | none => simp [ho] at h
  | some o =>
    cases hm : o.metadata with
    | missing => simp [ho, hm] at h
    | invalid => simp [ho, hm] at h
    | decoded m =>
      simp only [ho, hm] at h ⊢
      split_ifs at h ⊢
      exact h

namespace Store

/-- The block of `v` at an index, whether there is a row for it or not. -/
abbrev blockAt (s : Store κ) (v : Version) (idx : ℕ) : Block κ :=
  s.world.db.blocks.getBlockByIdx v idx

/-- Whatever can be read of a block is as long as its row says, and so are the copies of the
blocks that have been written. -/
structure Serves (v : Version) (cowVersion : Option Version) (s : Store κ) : Prop where
  blockSize_pos : 0 < v.blockSize
  size_pos : ∀ idx, 0 < (s.blockAt v idx).size
  size_le : ∀ idx, (s.blockAt v idx).size ≤ v.blockSize
  object : ∀ idx data m, (s.blockAt v idx).uid.isSome →
    Benji.readObject s.world.objects v.storage.id (s.blockAt v idx) = .ok (data, m) →
    (s.blockAt v idx).size ≤ data.length
  cached : ∀ idx uid data, (s.blockAt v idx).uid = some uid → s.blockCache uid = some data →
    (s.blockAt v idx).size ≤ data.length
  clone : ∀ c, cowVersion = some c → CloneOf s.world.db.blocks v c
  copies : ∀ c, cowVersion = some c → ∀ e ∈ s.table (some c),
    e.2.uid = some ⟨c.id, e.1 + 1⟩ ∧ ∀ file, s.cowStore.files ⟨c.id, e.1 + 1⟩ = some file →
      (s.blockAt v e.1).size ≤ file.length

theorem le_length_overwrite (file data : Bytes) (off : ℕ) :
    file.length ≤ (overwrite file off data).length := by
  by_cases hd : data = []
  · rw [hd, overwrite_nil]
  · rw [length_overwrite hd]
    exact le_max_left ..

theorem length_fileRead {data : Bytes} {off n : ℕ} (h : off + n ≤ data.length) :
    (fileRead data off n).length = n := by
  rw [fileRead_nat, length_slice]
  omega

theorem length_pySlice {data : Bytes} {off n : ℕ} (h : off + n ≤ data.length) :
    (pySlice data off (off + n)).length = n := by
  rw [pySlice_nat, length_slice]
  omega

namespace Serves
variable {v c : Version} {cowVersion : Option Version} {s t : Store κ} {idx off n : ℕ}

theorem cacheBlock (h : s.Serves v cowVersion) (culled : ℕ → BlockUid → Bool) {uid : BlockUid}
    {data : Bytes} {m : Metadata κ} (hu : (s.blockAt v idx).uid = some uid)
    (hread : Benji.readObject s.world.objects v.storage.id (s.blockAt v idx) = .ok (data, m)) :
    (s.cacheBlock culled uid data).Serves v cowVersion where
  blockSize_pos := h.blockSize_pos
  size_pos := h.size_pos
  size_le := h.size_le
  object := h.object
  cached := by
    intro i u cached hi hc
    simp only [Store.cacheBlock] at hi hc
    split_ifs at hc with hcull hsame
    · obtain rfl := Option.some.inj hc
      have hui : (s.blockAt v i).uid = some u := hi
      have heq : (s.blockAt v i).uid = (s.blockAt v idx).uid := by rw [hui, hu, hsame]
      exact h.object i _ _ (by rw [hui]; rfl) (readObject_of_uid_eq heq hread)
    · exact h.cached i u cached hi hc
  clone := h.clone
  copies := h.copies

/-- What a read leaves, and what it returns if it returns. -/
def Reads (v : Version) (cowVersion : Option Version) (s : Store κ) (n : ℕ)
    (r : Except Error Bytes) (t : Store κ) : Prop :=
  t.Serves v cowVersion ∧ t.world = s.world ∧ t.table cowVersion = s.table cowVersion ∧
    ∀ data, r = .ok data → data.length = n

theorem readChunk (h : s.Serves v cowVersion) (culled : ℕ → BlockUid → Bool)
    (hn : off + n ≤ (s.blockAt v idx).size) :
    (Store.readChunk culled v (s.table cowVersion)
      (some (s.blockAt v idx), off, n)).Meets s (Reads v cowVersion s n) := by
  have hsame (r : Except Error Bytes) (hr : ∀ data, r = .ok data → data.length = n) :
      Reads v cowVersion s n r s := ⟨h, rfl, rfl, hr⟩
  cases hl : (s.table cowVersion).lookup idx with
  | some b =>
    have hmem := mem_of_lookup hl
    obtain ⟨c, hc⟩ := exists_of_mem_table hmem
    subst hc
    obtain ⟨huid, hfile⟩ := h.copies c rfl _ hmem
    have hu : b.uid = some ⟨c.id, idx + 1⟩ := huid
    by_cases hpresent : s.cowStore.present b.uid = true
    · refine ⟨s.cowStore.read b.uid off (some n), s, ?_, hsame _ ?_⟩
      · simp [Store.readChunk, hl, hpresent, ofExcept]
      · intro data hdata
        rw [hu, BlockStore.read] at hdata
        cases hf : s.cowStore.files ⟨c.id, idx + 1⟩ with
        | none => simp [hf] at hdata
        | some file =>
          simp only [hf, Except.ok.injEq, Option.getD_some] at hdata
          rw [← hdata]
          exact length_fileRead (hn.trans (hfile file hf))
    · refine ⟨.error .assertionError, s, ?_, hsame _ fun data hdata => by cases hdata⟩
      simp [Store.readChunk, hl, hpresent, Proc.raise]
  | none =>
    cases hu : (s.blockAt v idx).uid with
    | none =>
      refine ⟨.ok (zeros n), s, ?_, hsame _ ?_⟩
      · simp [Store.readChunk, hl, hu]
      · intro data hdata
        rw [← Except.ok.inj hdata, length_zeros]
    | some uid =>
      cases hcache : s.blockCache uid with
      | some data =>
        refine ⟨.ok (fileRead data off n), s, ?_, hsame _ ?_⟩
        · simp [Store.readChunk, hl, hu, hcache]
        · intro read hread
          rw [← Except.ok.inj hread]
          exact length_fileRead (hn.trans (h.cached idx uid data hu hcache))
      | none =>
        cases hread : Benji.readObject s.world.objects v.storage.id (s.blockAt v idx) with
        | error e =>
          refine ⟨.error e, s, ?_, hsame _ fun data hdata => by cases hdata⟩
          simp [Store.readChunk, hl, hu, hcache, hread]
        | ok x =>
          obtain ⟨data, m⟩ := x
          refine ⟨.ok (pySlice data off (off + n)), s.cacheBlock culled uid data, ?_,
            h.cacheBlock culled hu hread, rfl, rfl, ?_⟩
          · simp [Store.readChunk, hl, hu, hcache, hread]
          · intro read hdata
            rw [← Except.ok.inj hdata]
            exact length_pySlice (hn.trans (h.object idx data m (by rw [hu]; rfl) hread))

/-- The induction is on the chunks; each leaves the export as it was. -/
theorem readChunks {blocks : BlockTable κ} {len : ℕ} {chunks : List (Chunk κ)}
    (hc : Fits blocks v len chunks) (culled : ℕ → BlockUid → Bool) (h : s.Serves v cowVersion)
    (hblocks : s.world.db.blocks = blocks) :
    (Store.readChunks culled v (s.table cowVersion) chunks).Meets s (Reads v cowVersion s len) := by
  induction hc generalizing s with
  | @last idx off len hle =>
    subst hblocks
    apply Proc.Meets.bind (h.readChunk culled hle)
    · intro data t ht
      apply Proc.Meets.bind_of_returns (Proc.returns_pure.mpr ⟨rfl, rfl⟩)
      apply Proc.Meets.pure
      rwa [List.append_nil]
    · intro e t ht
      exact ⟨ht.1, ht.2.1, ht.2.2.1, fun data hdata => by cases hdata⟩
  | @more idx off m len chunks hm _ ih =>
    subst hblocks
    apply Proc.Meets.bind (h.readChunk culled hm)
    · intro data t ht
      obtain ⟨hserves, hworld, htable, hlength⟩ := ht
      have hrest := ih hserves (by rw [hworld])
      rw [htable] at hrest
      apply Proc.Meets.bind hrest
      · intro rest u hu
        apply Proc.Meets.pure
        refine ⟨hu.1, hu.2.1.trans hworld, hu.2.2.1.trans htable, ?_⟩
        intro all hall
        rw [← Except.ok.inj hall, List.length_append, hlength data rfl, hu.2.2.2 rest rfl]
      · intro e u hu
        exact ⟨hu.1, hu.2.1.trans hworld, hu.2.2.1.trans htable, fun all hall => by cases hall⟩
    · intro e t ht
      exact ⟨ht.1, ht.2.1, ht.2.2.1, fun data hdata => by cases hdata⟩

/-- A read that does not start behind the end of its block. -/
theorem read (h : s.Serves v cowVersion) (culled : ℕ → BlockUid → Bool) (len : ℕ)
    (ho : off % v.blockSize ≤ (s.blockAt v (off / v.blockSize)).size) :
    (Store.read culled v cowVersion off len).Meets s (Reads v cowVersion s len) := by
  obtain ⟨chunks, hl, hchunks⟩ := @blockList_fits _ _ v h.size_pos
    (len + v.blockSize + 2) _ _ len ho (.inl (by omega))
  have hlist : (chunksOf v off len).Returns s chunks s := by
    simp [Proc.Returns, chunksOf, hl]
  have hall := readChunks hchunks culled h rfl
  unfold Store.read
  cases cowVersion with
  | none =>
    apply Proc.Meets.bind_of_returns (Proc.returns_pure.mpr ⟨rfl, rfl⟩)
    exact Proc.Meets.bind_of_returns hlist hall
  | some c =>
    cases hcow : s.cow c.uid with
    | none =>
      apply Proc.Meets.of_raises (Proc.raises_bind.mpr (.inl (raises_cowOf.mpr ⟨hcow, rfl, rfl⟩)))
      exact ⟨h, rfl, rfl, fun data hdata => by cases hdata⟩
    | some table =>
      have htable : s.table (some c) = table := by
        rw [Store.table, Option.bind_some, hcow]
        rfl
      rw [htable] at hall
      apply Proc.Meets.bind_of_returns (returns_cowOf.mpr ⟨hcow, rfl⟩)
      exact Proc.Meets.bind_of_returns hlist hall

/-- A file that is written to gets no shorter. -/
theorem writeFile (h : s.Serves v (some c)) (idx : ℕ) {file : Bytes} (hworld : t.world = s.world)
    (hcache : t.blockCache = s.blockCache) (hfile : (s.blockAt v idx).size ≤ file.length)
    (hfiles : ∀ u, t.cowStore.files u =
      if u = ⟨c.id, idx + 1⟩ then some file else s.cowStore.files u)
    (htable : ∀ e ∈ t.table (some c), e ∈ s.table (some c) ∨
      e.1 = idx ∧ e.2.uid = some ⟨c.id, idx + 1⟩) : t.Serves v (some c) where
  blockSize_pos := h.blockSize_pos
  size_pos := by
    simp only [blockAt, hworld]
    exact h.size_pos
  size_le := by
    simp only [blockAt, hworld]
    exact h.size_le
  object := by
    simp only [blockAt, hworld]
    exact h.object
  cached := by
    simp only [blockAt, hworld, hcache]
    exact h.cached
  clone := by
    rw [hworld]
    exact h.clone
  copies := by
    rintro _ ⟨⟩ e he
    have huid : e.2.uid = some ⟨c.id, e.1 + 1⟩ := by
      cases htable e he with
      | inl hold => exact (h.copies c rfl e hold).1
      | inr hnew => rw [hnew.1, hnew.2]
    refine ⟨huid, ?_⟩
    intro f hf
    rw [hfiles] at hf
    rw [blockAt, hworld]
    by_cases hi : e.1 = idx
    · rw [hi, if_pos rfl] at hf
      rw [hi, ← Option.some.inj hf]
      exact hfile
    · have hne : (⟨c.id, e.1 + 1⟩ : BlockUid) ≠ ⟨c.id, idx + 1⟩ := by
        intro heq
        have := (BlockUid.mk.inj heq).2
        omega
      rw [if_neg hne] at hf
      cases htable e he with
      | inl hold => exact (h.copies c rfl e hold).2 f hf
      | inr hnew => exact absurd hnew.1 hi

/-- The first write to a block starts from all of its bytes. -/
theorem originalData (h : s.Serves v (some c)) (idx : ℕ) :
    (Store.originalData c (s.blockAt c idx)).Meets s fun r t =>
      t = s ∧ ∀ data, r = .ok data → (s.blockAt v idx).size ≤ data.length := by
  obtain ⟨-, hblockSize, hstorage, hblocks⟩ := h.clone c rfl
  obtain ⟨huid, -⟩ := hblocks idx
  cases hu : (s.blockAt c idx).uid with
  | none =>
    refine ⟨.ok (zeros c.blockSize), s, by simp [Store.originalData, hu], rfl, ?_⟩
    intro data hdata
    rw [← Except.ok.inj hdata, length_zeros, hblockSize]
    exact h.size_le idx
  | some uid =>
    have hrun : Store.originalData c (s.blockAt c idx) s = some
        ((Benji.readObject s.world.objects c.storage.id (s.blockAt c idx)).map Prod.fst, s) := by
      simp only [Store.originalData, hu]
    refine ⟨_, s, hrun, rfl, ?_⟩
    intro data hdata
    cases hread : Benji.readObject s.world.objects c.storage.id (s.blockAt c idx) with
    | error e =>
      rw [hread] at hdata
      cases hdata
    | ok x =>
      obtain ⟨d, m⟩ := x
      rw [hread] at hdata
      obtain rfl : d = data := Except.ok.inj hdata
      have hsome : (s.blockAt v idx).uid.isSome := by
        rw [← huid, hu]
        rfl
      rw [hstorage] at hread
      exact h.object idx d m hsome (readObject_of_uid_eq huid.symm hread)

theorem writeChunk (h : s.Serves v (some c)) (idx off : ℕ) (data : Bytes) :
    (Store.writeChunk c (s.blockAt c idx) off data).Meets s fun _ t =>
      t.Serves v (some c) ∧ t.world = s.world := by
  have hidx : (s.blockAt c idx).idx = idx := BlockTable.getBlockByIdx_idx ..
  cases hcow : s.cow c.uid with
  | none =>
    exact Proc.Meets.of_raises (Proc.raises_bind.mpr (.inl (raises_cowOf.mpr ⟨hcow, rfl, rfl⟩)))
      ⟨h, rfl⟩
  | some cow =>
    have htable : s.table (some c) = cow := by
      rw [Store.table, Option.bind_some, hcow]
      rfl
    apply Proc.Meets.bind_of_returns (returns_cowOf.mpr ⟨hcow, rfl⟩)
    rw [hidx]
    cases hl : cow.lookup idx with
    | some b =>
      obtain ⟨hu, hfile⟩ := h.copies c rfl _ (htable ▸ mem_of_lookup hl)
      simp only at hu
      apply Proc.Meets.bind_of_returns (Proc.returns_get.mpr ⟨rfl, rfl⟩)
      cases hf : s.cowStore.files ⟨c.id, idx + 1⟩ with
      | none =>
        have hup : s.cowStore.update b.uid off data = .error .fileNotFoundError := by
          rw [hu, BlockStore.update, hf]
        exact Proc.Meets.of_raises
          (Proc.raises_bind.mpr (.inl (raises_ofExcept.mpr ⟨hup, rfl⟩))) ⟨h, rfl⟩
      | some file =>
        apply Proc.Meets.bind_of_returns (returns_ofExcept.mpr ⟨by rw [hu, BlockStore.update, hf],
          rfl⟩)
        apply Proc.Meets.of_returns (a := ()) (Proc.returns_modify.mpr rfl)
        refine ⟨h.writeFile idx rfl rfl ((hfile file hf).trans ?_) (fun u => rfl)
          fun e he => .inl he, rfl⟩
        exact le_length_overwrite file data off
    | none =>
      apply Proc.Meets.bind (h.originalData idx)
      · rintro original t ⟨rfl, hlength⟩
        apply Proc.Meets.of_returns (a := ()) (Proc.returns_modify.mpr rfl)
        refine ⟨h.writeFile idx rfl rfl ((hlength original rfl).trans
          (le_length_overwrite original data off)) (fun u => rfl) ?_, rfl⟩
        intro e he
        simp only [Store.table, setCow, Option.bind_some, if_true, Option.getD_some,
          List.mem_append, List.mem_singleton] at he
        cases he with
        | inl hold =>
          left
          rw [htable]
          exact hold
        | inr hnew =>
          right
          rw [hnew]
          exact ⟨rfl, rfl⟩
      · rintro e t ⟨rfl, -⟩
        exact ⟨h, rfl⟩

/-- The induction is on the chunks, which are blocks of the version that is written to. -/
theorem writeChunks (h : s.Serves v (some c)) {blocks : BlockTable κ} {data : Bytes}
    {position : ℤ} {chunks : List (Chunk κ)} (hblocks : s.world.db.blocks = blocks)
    (hc : ∀ chunk ∈ chunks, ∃ i o n, chunk = (some (blocks.getBlockByIdx c i), o, n)) :
    (Store.writeChunks c data position chunks).Meets s fun _ t =>
      t.Serves v (some c) ∧ t.world = s.world := by
  induction chunks generalizing s position with
  | nil => exact Proc.Meets.pure ⟨h, rfl⟩
  | cons chunk chunks ih =>
    obtain ⟨i, o, n, rfl⟩ := hc chunk List.mem_cons_self
    subst hblocks
    apply Proc.Meets.bind (h.writeChunk i o (pySlice data position (position + n)))
    · rintro _ t ⟨hserves, hworld⟩
      have hrest := @ih t hserves (position + n) (by rw [hworld])
        fun chunk hmem => hc chunk (List.mem_cons_of_mem _ hmem)
      apply hrest.mono
      rintro r u ⟨hu, hworld'⟩
      exact ⟨hu, hworld'.trans hworld⟩
    · rintro e t ⟨hserves, hworld⟩
      exact ⟨hserves, hworld⟩

/-- Any write comes to an end, be it with an exception. -/
theorem write (h : s.Serves v (some c)) (off : ℕ) (data : Bytes) :
    (Store.write c off data).Meets s fun _ t => t.Serves v (some c) ∧ t.world = s.world := by
  obtain ⟨-, hblockSize, -, hblocks⟩ := h.clone c rfl
  have hpos : ∀ idx, 0 < (s.blockAt c idx).size := by
    intro idx
    rw [(hblocks idx).2]
    exact h.size_pos idx
  have hmod := Nat.mod_lt off (hblockSize ▸ h.blockSize_pos)
  have hfuel : data.length + (off % c.blockSize - (s.blockAt c (off / c.blockSize)).size) + 1 <
      data.length + c.blockSize + 2 := by omega
  obtain ⟨r, hr⟩ := exists_blockList hpos data.length hfuel
  cases hcow : s.cow c.uid with
  | none =>
    exact Proc.Meets.of_raises (Proc.raises_bind.mpr (.inl (raises_cowOf.mpr ⟨hcow, rfl, rfl⟩)))
      ⟨h, rfl⟩
  | some cow =>
    apply Proc.Meets.bind_of_returns (returns_cowOf.mpr ⟨hcow, rfl⟩)
    cases r with
    | error e =>
      have hlist : (chunksOf c off data.length).Raises s e s := by
        simp [Proc.Raises, chunksOf, hr]
      exact Proc.Meets.of_raises (Proc.raises_bind.mpr (.inl hlist)) ⟨h, rfl⟩
    | ok chunks =>
      have hlist : (chunksOf c off data.length).Returns s chunks s := by
        simp [Proc.Returns, chunksOf, hr]
      exact Proc.Meets.bind_of_returns hlist (h.writeChunks rfl (mem_blockList hr))

end Serves

/-- An export that holds the bytes `d` serves them. -/
theorem Shows.serves {v : Version} {cowVersion : Option Version} {s : Store κ} {d : Bytes}
    (h : s.Shows v cowVersion d) : s.Serves v cowVersion where
  blockSize_pos := h.blockSize_pos
  size_pos := by
    intro idx
    rw [h.sized idx]
    exact gridSize_pos h.blockSize_pos idx
  size_le := by
    intro idx
    rw [h.sized idx]
    exact gridSize_le v idx
  object := by
    intro idx data m hsome hread
    obtain ⟨data', m', hread', hlength⟩ := h.readable idx hsome
    obtain ⟨rfl, -⟩ := Prod.mk.inj (Except.ok.inj (hread.symm.trans hread'))
    rw [h.sized idx, hlength]
  cached := by
    intro idx uid data hu hcache
    obtain ⟨data', m', hread, hlength⟩ := h.readable idx (by rw [hu]; rfl)
    have hdata := h.cache idx uid data hu hcache
    rw [blockData_of_readObject hu hread, Option.some.injEq] at hdata
    rw [h.sized idx, ← hdata, hlength]
  clone := h.clone
  copies := by
    intro c hc e he
    have hcopy := h.copies c hc
    subst hc
    refine ⟨by rw [hcopy.block e.1 e.2 he], ?_⟩
    intro file hfile
    obtain ⟨file', hfile', heq⟩ := hcopy.file e.1 e.2 he
    rw [hfile, Option.some.injEq] at hfile'
    have hlt := hcopy.lt e.1 e.2 he
    have hend := @end_le_size v e.1 0 (v.blockSizeAt e.1) hlt
      (by rw [gridSize_of_lt hlt, Nat.zero_add]) h.blockSize_pos
    rw [h.sized e.1, gridSize_of_lt hlt, hfile', heq, List.length_append, length_slice, h.length]
    omega

end Store
end Benji.Nbd
