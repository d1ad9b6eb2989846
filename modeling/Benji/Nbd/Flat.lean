import Benji.Nbd.Device

/-! Requests on an export against the same requests on one flat array of bytes. -/
namespace Benji.Nbd
open Lib

variable {κ : Type}

inductive Request where
  | read (offset length : ℕ)
  | write (offset : ℕ) (data : Bytes)

/-- Only an export that has a version to write to is written to. -/
def Request.Allowed (cowVersion : Option Version) : Request → Prop
  | read _ _ => True
  | write _ _ => cowVersion.isSome

def serve (culled : ℕ → BlockUid → Bool) (v : Version) (cowVersion : Option Version) :
    Request → Store.Action κ Bytes
  | .read offset length => Store.read culled v cowVersion offset length
  | .write offset data => match cowVersion with
    -- `None` has no uid.
    | none => Proc.raise (.other "AttributeError")
    | some c => do
      Store.write c offset data
      pure []

/-- One request after the other, whether it raised or not. -/
def serveAll (culled : ℕ → BlockUid → Bool) (v : Version) (cowVersion : Option Version) :
    List Request → Store κ → Option (List (Except Error Bytes) × Store κ)
  | [], s => some ([], s)
  | r :: rs, s => (serve culled v cowVersion r s).bind fun reply =>
    (serveAll culled v cowVersion rs reply.2).map fun replies => (reply.1 :: replies.1, replies.2)

/-- A request on the bytes `d` of a device whose size is rounded up: the space behind the end
reads as zeros and takes no data. -/
def flat (v : Version) (d : Bytes) : Request → Except Error Bytes × Bytes
  | .read offset length =>
    if offset + length ≤ deviceSize v then (.ok (window d offset length), d) else (.error eio, d)
  | .write offset data =>
    if offset + data.length ≤ deviceSize v then (.ok [], (overwrite d offset data).take v.size)
    else (.error eio, d)

def flatAll (v : Version) (d : Bytes) : List Request → List (Except Error Bytes) × Bytes
  | [] => ([], d)
  | r :: rs => ((flat v d r).1 :: (flatAll v (flat v d r).2 rs).1, (flatAll v (flat v d r).2 rs).2)

/-- The requests that the block list is made for: reads that do not start in the space behind a
short last block, and writes that stay inside the version and start in one of its blocks. -/
def Within (v : Version) : Request → Prop
  | .read offset length => offset + length ≤ deviceSize v ∧
    (offset ≤ v.size ∨ v.blocksCount * v.blockSize ≤ offset)
  | .write offset data => offset + data.length ≤ v.size ∧ offset < v.blocksCount * v.blockSize

instance (cowVersion : Option Version) (r : Request) : Decidable (r.Allowed cowVersion) :=
  match r with
  | .read _ _ => inferInstanceAs (Decidable True)
  | .write _ _ => inferInstanceAs (Decidable (cowVersion.isSome = true))

instance (v : Version) (r : Request) : Decidable (Within v r) :=
  match r with
  | .read _ _ => inferInstanceAs (Decidable (_ ∧ (_ ∨ _)))
  | .write _ _ => inferInstanceAs (Decidable (_ ∧ _))

/-- Any reads, and the writes that stay inside the version. -/
def Inside (v : Version) : Request → Prop
  | .read _ _ => True
  | .write offset data => offset + data.length ≤ v.size

instance (v : Version) (r : Request) : Decidable (Inside v r) :=
  match r with
  | .read _ _ => inferInstanceAs (Decidable True)
  | .write _ _ => inferInstanceAs (Decidable (_ ≤ _))

/-- The answer is that of the flat device, and the export holds its bytes afterwards, in blocks
of the version only. -/
def Behaves (culled : ℕ → BlockUid → Bool) (v : Version) (cowVersion : Option Version)
    (s : Store κ) (d : Bytes) (r : Request) : Prop :=
  ∃ t, serve culled v cowVersion r s = some ((flat v d r).1, t) ∧
    t.Shows v cowVersion (flat v d r).2

/-- No block has been written to yet. -/
def Store.Opened (v : Version) (cowVersion : Option Version) (s : Store κ) (d : Bytes) : Prop :=
  s.Shows v cowVersion d ∧ s.table cowVersion = []

variable {culled : ℕ → BlockUid → Bool} {v : Version} {cowVersion : Option Version}
  {s : Store κ} {d : Bytes} {r : Request} {n : ℕ}

theorem size_le_deviceSize (v : Version) : v.size ≤ deviceSize v := by
  have h : v.size ≤ 4096 * (v.size ⌈/⌉ 4096) := (ceilDiv_le_iff_le_mul (by omega)).mp le_rfl
  rw [deviceSize]
  omega

theorem serve_write (culled : ℕ → BlockUid → Bool) {c : Version} {offset : ℕ} {data : Bytes}
    (h : s.ShowsTo v (some c) n d) (hend : offset + data.length ≤ v.size)
    (hstart : offset < v.blocksCount * v.blockSize ∨ v.blocksCount < n) : ∃ t,
      serve culled v (some c) (.write offset data) s =
        some ((flat v d (.write offset data)).1, t) ∧
      t.ShowsTo v (some c) n (flat v d (.write offset data)).2 ∧ t.world = s.world := by
  obtain ⟨t, ht, hts, hworld⟩ := h.write hstart hend
  have hdev : offset + data.length ≤ deviceSize v := le_trans hend (size_le_deviceSize v)
  have hlen : (overwrite d offset data).length = v.size := by
    rw [length_overwrite_of_le (by rw [h.length]; exact hend), h.length]
  have hret : (serve culled v (some c) (.write offset data)).Returns s [] t := by
    simp only [serve, Proc.returns_bind, Proc.returns_pure]
    exact ⟨(), t, ht, trivial, rfl⟩
  rw [flat, if_pos hdev, List.take_of_length_le (le_of_eq hlen)]
  exact ⟨t, hret, hts, hworld⟩

/-- One request within the device: the answer and the bytes are those of the flat array. -/
theorem serve_within (culled : ℕ → BlockUid → Bool) (h : s.Shows v cowVersion d)
    (hr : r.Allowed cowVersion) (hw : Within v r) : ∃ t,
      serve culled v cowVersion r s = some ((flat v d r).1, t) ∧
      t.Shows v cowVersion (flat v d r).2 ∧ t.world = s.world := by
  cases r with
  | read offset length =>
    obtain ⟨hend, hstart⟩ := hw
    have hle : offset % v.blockSize ≤ gridSize v (offset / v.blockSize) := by
      by_contra hlt
      have := (gridSize_lt_iff h.blockSize_pos offset).mp (not_le.mp hlt)
      omega
    obtain ⟨t, ht, hts, hworld⟩ := h.read culled length hle
    rw [flat, if_pos hend]
    exact ⟨t, ht, hts, hworld⟩
  | write offset data =>
    obtain ⟨hend, hstart⟩ := hw
    obtain ⟨c, rfl⟩ := Option.isSome_iff_exists.mp hr
    exact serve_write culled h hend (.inl hstart)

/-- Whatever is read, and wherever in the version is written: the bytes are those of the flat
array, and one block behind the version may come to the written ones. -/
theorem serve_inside (culled : ℕ → BlockUid → Bool) (h : s.ShowsTo v cowVersion n d)
    (hn : v.blocksCount < n) (hr : r.Allowed cowVersion) (hin : Inside v r) : ∃ reply t,
      serve culled v cowVersion r s = some (reply, t) ∧
      t.ShowsTo v cowVersion n (flat v d r).2 ∧ t.world = s.world := by
  cases r with
  | read offset length =>
    have hflat : (flat v d (.read offset length)).2 = d := by
      rw [flat]
      split <;> rfl
    rw [hflat]
    by_cases hlt : gridSize v (offset / v.blockSize) < offset % v.blockSize
    · obtain ⟨data, t, ht, hts, hworld, -⟩ := h.read_behind culled length hlt
      exact ⟨_, t, ht, hts, hworld⟩
    · obtain ⟨t, ht, hts, hworld⟩ := h.read culled length (not_lt.mp hlt)
      exact ⟨_, t, ht, hts, hworld⟩
  | write offset data =>
    obtain ⟨c, rfl⟩ := Option.isSome_iff_exists.mp hr
    obtain ⟨t, ht⟩ := serve_write culled h hin (.inr hn)
    exact ⟨_, t, ht⟩

theorem serveAll_inside (culled : ℕ → BlockUid → Bool) {rs : List Request}
    (h : s.ShowsTo v cowVersion n d) (hn : v.blocksCount < n)
    (hrs : ∀ r ∈ rs, r.Allowed cowVersion ∧ Inside v r) : ∃ replies t,
      serveAll culled v cowVersion rs s = some (replies, t) ∧
      t.ShowsTo v cowVersion n (flatAll v d rs).2 ∧ t.world = s.world := by
  induction rs generalizing s d with
  | nil => exact ⟨[], s, rfl, h, rfl⟩
  | cons r rs ih =>
    obtain ⟨hr, hin⟩ := hrs r List.mem_cons_self
    obtain ⟨reply, t, ht, hts, hworld⟩ := serve_inside culled h hn hr hin
    obtain ⟨replies, u, hu, hus, huw⟩ := ih hts fun r' hr' => hrs r' (List.mem_cons_of_mem _ hr')
    refine ⟨reply :: replies, u, ?_, hus, huw.trans hworld⟩
    simp only [serveAll, ht, Option.bind_some, hu, Option.map_some]

theorem behaves_read_iff (h : s.Shows v cowVersion d) (offset length : ℕ) :
    Behaves culled v cowVersion s d (.read offset length) ↔ Within v (.read offset length) := by
  have hiff := gridSize_lt_iff h.blockSize_pos offset
  constructor
  · rintro ⟨t, ht, -⟩
    by_cases hlt : gridSize v (offset / v.blockSize) < offset % v.blockSize
    · obtain ⟨data, u, hu, -, -, hlen⟩ := h.read_behind culled length hlt
      have he := (Prod.mk.inj (Option.some.inj (hu.symm.trans ht))).1
      simp only [flat] at he
      split_ifs at he with hend
      have hl := congrArg List.length (Except.ok.inj he)
      rw [length_window] at hl
      omega
    · obtain ⟨u, hu, -, -⟩ := h.read culled length (not_lt.mp hlt)
      have he := (Prod.mk.inj (Option.some.inj (hu.symm.trans ht))).1
      simp only [flat] at he
      split_ifs at he with hend
      exact ⟨hend, by omega⟩
  · intro hw
    have hr : (Request.read offset length).Allowed cowVersion := trivial
    obtain ⟨t, ht, hts, -⟩ := serve_within culled h hr hw
    exact ⟨t, ht, hts⟩

/-- A write that returns although it is not inside the version leaves a block behind it. -/
theorem exists_block_behind {c : Version} {t : Store κ} {offset : ℕ} {data : Bytes}
    (h : s.Shows v (some c) d) (ht : (Store.write c offset data).Returns s () t)
    (hout : v.size < offset + data.length ∨ v.blocksCount * v.blockSize ≤ offset) :
    ∃ i, v.blocksCount ≤ i ∧ i ∈ (t.table (some c)).map Prod.fst := by
  obtain ⟨hsize, hbs, -, -⟩ := h.clone c rfl
  have hb := h.blockSize_pos
  have hcount : c.blocksCount = v.blocksCount := by
    rw [Version.blocksCount, hsize, hbs, Version.blocksCount]
  have hoff : offset / v.blockSize * v.blockSize + offset % v.blockSize = offset := by
    rw [Nat.mul_comm]
    exact Nat.div_add_mod offset v.blockSize
  have hmod := Nat.mod_lt offset hb
  rw [Proc.Returns, Store.write, (h.cowOf rfl).bind_eq] at ht
  -- Where the block list ends decides what is written to.
  have hbehind : ∃ chunks, blockList s.world.db.blocks c (data.length + c.blockSize + 2)
      (offset / c.blockSize) (offset % c.blockSize) data.length = some (.ok chunks) ∧
      ∃ i, v.blocksCount ≤ i ∧
        ∃ o n, (some (s.world.db.blocks.getBlockByIdx c i), o, n) ∈ chunks := by
    by_cases hlt : gridSize c (offset / c.blockSize) < offset % c.blockSize
    · obtain ⟨chunks, hl, hchunks⟩ := blockList_behind (hbs ▸ hb) h.sized_clone
        (data.length + c.blockSize + 2) data.length hlt
        (by rw [hbs] at hlt ⊢; omega)
      have hend := (gridSize_lt_iff (hbs ▸ hb) offset).mp hlt
      obtain ⟨i, hi, o, n, hmem⟩ := hchunks.exists_behind (hbs ▸ hb)
        (.inr (by rw [hbs] at hlt ⊢; rw [Nat.add_one_mul]; omega))
      exact ⟨_, hl, i, hcount ▸ hi, o, n, List.mem_cons_of_mem _ hmem⟩
    · obtain ⟨chunks, hl, hchunks⟩ := blockList_chunks (hbs ▸ hb) h.sized_clone
        (data.length + c.blockSize + 2) data.length (not_lt.mp hlt)
        (.inl (by omega))
      obtain ⟨i, hi, o, n, hmem⟩ := hchunks.exists_behind (hbs ▸ hb) (by
        rw [hbs, hcount, hsize]
        cases hout with
        | inl hend => right; omega
        | inr hstart => left; exact (Nat.le_div_iff_mul_le hb).mpr hstart)
      exact ⟨chunks, hl, i, hcount ▸ hi, o, n, hmem⟩
  obtain ⟨chunks, hl, i, hi, o, n, hmem⟩ := hbehind
  rw [Proc.Returns.bind_eq (Store.ShowsTo.chunksOf_returns hl)] at ht
  exact ⟨i, hi, (Store.writeChunks_keys (mem_blockList hl) ht).1 i o n hmem⟩

/-- No write is refused for being out of range. -/
theorem write_ne_eio {c : Version} {t : Store κ} {offset : ℕ} {data : Bytes} {e : Error}
    (h : s.Shows v (some c) d) (ht : (Store.write c offset data).Raises s e t) : e ≠ eio := by
  obtain ⟨-, -, hst, hblocks⟩ := h.clone c rfl
  rw [Proc.Raises, Store.write, (h.cowOf rfl).bind_eq] at ht
  have hraise := Proc.raises_bind.mp ht
  rcases hraise with hraise | ⟨chunks, u, hchunks, hraise⟩
  · unfold Proc.Raises Store.chunksOf at hraise
    obtain ⟨r, hr, he⟩ := Option.map_eq_some_iff.mp hraise
    rw [(Prod.mk.inj he).1] at hr
    rw [blockList_error hr]
    simp [eio]
  · unfold Proc.Returns Store.chunksOf at hchunks
    obtain ⟨r, hr, he⟩ := Option.map_eq_some_iff.mp hchunks
    obtain ⟨hr', rfl⟩ := Prod.mk.inj he
    rw [hr'] at hr
    apply Store.writeChunks_raises (mem_blockList hr) hraise
    intro i hu
    rw [(hblocks i).1] at hu
    obtain ⟨bytes, m, hread, -⟩ := h.readable i hu
    exact ⟨_, by rw [hst, readObject_congr (hblocks i).1 (by simp), hread]⟩

theorem behaves_write_iff {c : Version} (h : s.Shows v (some c) d) (offset : ℕ) (data : Bytes) :
    Behaves culled v (some c) s d (.write offset data) ↔ Within v (.write offset data) := by
  constructor
  · rintro ⟨t, ht, hts⟩
    by_contra hout
    have hout' : v.size < offset + data.length ∨ v.blocksCount * v.blockSize ≤ offset := by
      simp only [Within, not_and_or, not_le, not_lt] at hout
      exact hout
    simp only [flat] at ht hts
    split_ifs at ht hts with hend
    · have hret : (serve culled v (some c) (.write offset data)).Returns s [] t := ht
      simp only [serve, Proc.returns_bind, Proc.returns_pure] at hret
      obtain ⟨_, u, hu, -, rfl⟩ := hret
      obtain ⟨i, hi, hmem⟩ := exists_block_behind h hu hout'
      obtain ⟨⟨j, b⟩, hj, rfl⟩ := List.mem_map.mp hmem
      have := (hts.copies c rfl).lt j b hj
      omega
    · have hraise : (serve culled v (some c) (.write offset data)).Raises s eio t := ht
      simp only [serve, Proc.raises_bind, Proc.raises_pure, and_false, exists_false,
        or_false] at hraise
      exact write_ne_eio h hraise rfl
  · intro hw
    have hr : (Request.write offset data).Allowed (some c) := rfl
    obtain ⟨t, ht, hts, -⟩ := serve_within culled h hr hw
    exact ⟨t, ht, hts⟩

theorem behaves_iff (culled : ℕ → BlockUid → Bool) (h : s.Shows v cowVersion d)
    (hr : r.Allowed cowVersion) :
    Behaves culled v cowVersion s d r ↔ Within v r := by
  cases r with
  | read offset length => exact behaves_read_iff h offset length
  | write offset data =>
    obtain ⟨c, rfl⟩ := Option.isSome_iff_exists.mp hr
    exact behaves_write_iff h offset data

/-- The run lemma: requests within the device are answered as the flat device answers them. -/
theorem serveAll_eq (culled : ℕ → BlockUid → Bool) {rs : List Request}
    (h : s.Shows v cowVersion d)
    (hrs : ∀ r ∈ rs, r.Allowed cowVersion ∧ Within v r) : ∃ t,
      serveAll culled v cowVersion rs s = some ((flatAll v d rs).1, t) ∧
      t.Shows v cowVersion (flatAll v d rs).2 ∧ t.world = s.world := by
  induction rs generalizing s d with
  | nil => exact ⟨s, rfl, h, rfl⟩
  | cons r rs ih =>
    obtain ⟨hr, hw⟩ := hrs r (List.mem_cons_self ..)
    obtain ⟨t, ht, hts, hworld⟩ := serve_within culled h hr hw
    obtain ⟨u, hu, hus, huw⟩ := ih hts fun r' hr' => hrs r' (List.mem_cons_of_mem _ hr')
    refine ⟨u, ?_, hus, huw.trans hworld⟩
    simp only [serveAll, ht, Option.bind_some, hu, Option.map_some, flatAll]

/-- From an export that no block of has been written to, requests within the device behave as on
the flat array; and after any of them exactly the requests within the device do. -/
theorem flat_device_iff (h : s.Opened v cowVersion d) {rs : List Request}
    (hrs : ∀ r ∈ rs, r.Allowed cowVersion ∧ Within v r) : ∃ t,
      serveAll culled v cowVersion rs s = some ((flatAll v d rs).1, t) ∧
      t.Shows v cowVersion (flatAll v d rs).2 ∧
      ∀ r, r.Allowed cowVersion →
        (Behaves culled v cowVersion t (flatAll v d rs).2 r ↔ Within v r) := by
  obtain ⟨t, ht, hts, -⟩ := serveAll_eq culled h.1 hrs
  exact ⟨t, ht, hts, fun _ hr => behaves_iff culled hts hr⟩

def exampleVersion : Version := ⟨1, "v1", ⟨1, "file"⟩, 6, 4, .valid, none⟩

def exampleCow : Version := ⟨2, "nbd-cow-v1", ⟨1, "file"⟩, 6, 4, .incomplete, none⟩

def exampleBlocks : BlockTable Bytes where
  rows := [⟨1, 0, some ⟨1, 1⟩, some [1, 2, 3, 4], 4, true⟩, ⟨1, 1, none, none, 2, true⟩,
    ⟨2, 0, some ⟨1, 1⟩, some [1, 2, 3, 4], 4, true⟩, ⟨2, 1, none, none, 2, true⟩]
  nodup := by decide

def exampleDatabase : Database Bytes where
  versions := ⟨[exampleVersion, exampleCow], by decide⟩
  blocks := exampleBlocks
  deletedBlocks := Table.empty
  locks := ⟨[⟨Locking.versionLockName "nbd-cow-v1", ⟨"host", "1"⟩, "NBD COW"⟩], by simp⟩

def exampleObjects : Objects Bytes := fun storage uid =>
  if storage = 1 ∧ uid = ⟨1, 1⟩ then
    some ⟨4, .ok [1, 2, 3, 4], .decoded ⟨4, 4, some [1, 2, 3, 4]⟩⟩
  else none

/-- Six bytes in two blocks, the second of them sparse. -/
def exampleStore : Store Bytes where
  world := ⟨exampleDatabase, exampleDatabase, exampleObjects, fun _ _ => none⟩
  cow uid := if uid = "nbd-cow-v1" then some [] else none
  cowStore := ⟨fun _ => none, fun _ => false⟩
  blockCache _ := none
  cacheSets := 0

theorem exampleBlocks_behind (idx : ℕ) :
    exampleBlocks.row? exampleVersion (idx + 2) = none ∧
      exampleBlocks.row? exampleCow (idx + 2) = none := by
  simp [BlockTable.row?, Table.find?, exampleBlocks, Block.key, exampleVersion, exampleCow]

theorem exampleStore_opened :
    exampleStore.Opened exampleVersion (some exampleCow) [1, 2, 3, 4, 0, 0] := by
  have hcount : exampleVersion.blocksCount = 2 := by decide
  have hget (idx : ℕ) := BlockTable.getBlockByIdx_of_none (exampleBlocks_behind idx).1
  have hget' (idx : ℕ) := BlockTable.getBlockByIdx_of_none (exampleBlocks_behind idx).2
  refine ⟨⟨by decide, le_rfl, rfl, ?_, ?_, ?_, ?_, ?_, ?_, ?_, ?_⟩, by decide⟩
  · intro idx
    obtain _ | _ | idx := idx
    · decide
    · decide
    · rw [gridSize_of_le (by omega)]
      exact congrArg Block.size (hget idx)
  · intro idx hidx
    obtain ⟨i, rfl⟩ := Nat.exists_eq_add_of_le' (hcount ▸ hidx)
    exact (exampleBlocks_behind i).1
  · intro idx hu
    obtain _ | _ | idx := idx
    · exact ⟨[1, 2, 3, 4], ⟨4, 4, some [1, 2, 3, 4]⟩, rfl, by decide⟩
    · exact absurd hu (by decide)
    · have hnone := congrArg Block.uid (hget idx)
      exact absurd hu (by simp [exampleStore, exampleDatabase, hnone])
  · intro idx uid data _ hc
    exact absurd hc (by simp [exampleStore])
  · intro idx hidx _
    obtain _ | _ | idx := idx
    · rfl
    · rfl
    · omega
  · rintro _ ⟨⟩
    decide
  · rintro _ ⟨⟩
    refine ⟨rfl, rfl, rfl, ?_⟩
    intro idx
    obtain _ | _ | idx := idx
    · exact ⟨rfl, rfl⟩
    · exact ⟨rfl, rfl⟩
    · have h := hget idx
      have h' := hget' idx
      simp only [exampleStore, exampleDatabase, h, h']
      exact ⟨rfl, rfl⟩
  · rintro _ ⟨⟩
    have htable : exampleStore.table (some exampleCow) = [] := by decide
    rw [htable]
    exact ⟨List.nodup_nil, fun _ _ h => absurd h List.not_mem_nil,
      fun _ _ h => absurd h List.not_mem_nil, fun _ _ h => absurd h List.not_mem_nil,
      fun _ _ h => absurd h List.not_mem_nil⟩

theorem flat_device_iff_example : ∃ t : Store Bytes,
    serveAll (fun _ _ => false) exampleVersion (some exampleCow)
        [.write 3 [9, 9], .read 0 8, .write 5 [7], .read 2 6] exampleStore =
      some ([.ok [], .ok [1, 2, 3, 9, 9, 0, 0, 0], .ok [], .ok [3, 9, 9, 7, 0, 0]], t) ∧
    t.Shows exampleVersion (some exampleCow) [1, 2, 3, 9, 9, 7] ∧
    ∀ r : Request, r.Allowed (some exampleCow) →
      (Behaves (fun _ _ => false) exampleVersion (some exampleCow) t [1, 2, 3, 9, 9, 7] r ↔
        Within exampleVersion r) := by
  let rs : List Request := [.write 3 [9, 9], .read 0 8, .write 5 [7], .read 2 6]
  have hrs : ∀ r ∈ rs, r.Allowed (some exampleCow) ∧ Within exampleVersion r := by
    decide +kernel
  have hflat : flatAll exampleVersion [1, 2, 3, 4, 0, 0] rs =
      ([.ok [], .ok [1, 2, 3, 9, 9, 0, 0, 0], .ok [], .ok [3, 9, 9, 7, 0, 0]],
        [1, 2, 3, 9, 9, 7]) := by
    decide +kernel
  have h := @flat_device_iff _ (fun _ _ => false) _ _ _ _ exampleStore_opened rs hrs
  rw [hflat] at h
  exact h

/-- A write between the end of the version and the end of the device. -/
theorem write_behind_end_kept :
    ¬ ∀ (v : Version) (cowVersion : Option Version) (s : Store Bytes) (d : Bytes)
      (rs : List Request), s.Opened v cowVersion d → (∀ r ∈ rs, r.Allowed cowVersion) →
      ∃ t, serveAll (fun _ _ => false) v cowVersion rs s = some ((flatAll v d rs).1, t) ∧
        t.Shows v cowVersion (flatAll v d rs).2 := by
  intro h
  obtain ⟨t, ht, -⟩ := h exampleVersion (some exampleCow) exampleStore [1, 2, 3, 4, 0, 0]
    [.write 8 [5], .read 8 1] exampleStore_opened (by simp [Request.Allowed])
  have hkept : (serveAll (fun _ _ => false) exampleVersion (some exampleCow)
      [.write 8 [5], .read 8 1] exampleStore).map Prod.fst = some [.ok [], .ok [5]] := by
    decide +kernel
  have hflat : (flatAll exampleVersion [1, 2, 3, 4, 0, 0] [.write 8 [5], .read 8 1]).1 =
      [.ok [], .ok [0]] := by
    decide +kernel
  rw [ht, hflat] at hkept
  simp at hkept

end Benji.Nbd
