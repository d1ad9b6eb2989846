import Benji.Storage

/-! `BenjiStore`: what the NBD server reads and writes. Written blocks are copied into files of
their own first; blocks read from a storage are kept in a cache. -/
namespace Benji.Nbd
open Lib

variable {κ : Type}

/-- `OSError(errno.EIO)`. -/
def eio : Error := .osError "5"

/-- `f.read(length)` after `f.seek(offset)`; a negative length reads up to the end. -/
def fileRead (data : Bytes) (offset : ℕ) (length : ℤ) : Bytes :=
  if length < 0 then data.drop offset else slice data offset length.toNat

/-- A bound of `data[i:j]`: one below zero counts from the end. -/
def sliceBound (data : Bytes) (i : ℤ) : ℕ :=
  min (if i < 0 then i + data.length else i).toNat data.length

/-- `data[i:j]`. -/
def pySlice (data : Bytes) (i j : ℤ) : Bytes :=
  slice data (sliceBound data i) (sliceBound data j - sliceBound data i)

@[simp] theorem fileRead_nat (data : Bytes) (offset n : ℕ) :
    fileRead data offset (n : ℤ) = slice data offset n := by
  have hn : ¬ (n : ℤ) < 0 := by omega
  rw [fileRead, if_neg hn, Int.toNat_natCast]

theorem sliceBound_nat (data : Bytes) (n : ℕ) : sliceBound data (n : ℤ) = min n data.length := by
  have hn : ¬ (n : ℤ) < 0 := by omega
  rw [sliceBound, if_neg hn, Int.toNat_natCast]

theorem pySlice_nat (data : Bytes) (i n : ℕ) :
    pySlice data (i : ℤ) ((i : ℤ) + (n : ℤ)) = slice data i n := by
  have hj : (i : ℤ) + (n : ℤ) = ((i + n : ℕ) : ℤ) := by omega
  rw [pySlice, hj, sliceBound_nat, sliceBound_nat]
  apply List.ext_getElem?
  intro k
  rw [getElem?_slice, getElem?_slice]
  by_cases hk : i + k < data.length
  · have hi : min i data.length = i := by omega
    have he : k < min (i + n) data.length - i ↔ k < n := by omega
    simp only [hi, he]
  · have h1 : data[i + k]? = none := List.getElem?_eq_none (by omega)
    have h2 : ¬ k < min (i + n) data.length - min i data.length ∨
        data[min i data.length + k]? = none := by
      by_cases hi : i ≤ data.length
      · left
        omega
      · right
        exact List.getElem?_eq_none (by omega)
    rw [h1, ite_self]
    cases h2 with
    | inl h => rw [if_neg h]
    | inr h => rw [h, ite_self]

/-- `_BlockStore`. -/
structure BlockStore where
  files : BlockUid → Option Bytes
  blockPresent : BlockUid → Bool

namespace BlockStore

/-- `None` for the length reads the whole rest. -/
def read (b : BlockStore) (blockUid : Option BlockUid) (offset : ℕ) (length : Option ℤ) :
    Except Error Bytes :=
  match blockUid with
  | none => .error .assertionError
  | some uid => match b.files uid with
    | none => .error .fileNotFoundError
    | some data => .ok (fileRead data offset (length.getD (-1)))

def write (b : BlockStore) (uid : BlockUid) (data : Bytes) : BlockStore where
  files u := if u = uid then some data else b.files u
  blockPresent u := u = uid || b.blockPresent u

def update (b : BlockStore) (blockUid : Option BlockUid) (offset : ℕ) (data : Bytes) :
    Except Error BlockStore :=
  match blockUid with
  | none => .error .assertionError
  | some uid => match b.files uid with
    | none => .error .fileNotFoundError
    | some file => .ok { b with
        files := fun u => if u = uid then some (overwrite file offset data) else b.files u }

def rm (b : BlockStore) (blockUid : Option BlockUid) : Except Error BlockStore :=
  match blockUid with
  | none => .error .assertionError
  | some uid => .ok ⟨fun u => if u = uid then none else b.files u,
      fun u => u ≠ uid && b.blockPresent u⟩

def present (b : BlockStore) (blockUid : Option BlockUid) : Bool :=
  blockUid.any b.blockPresent

end BlockStore

/-- The blocks of a version that have been written, by index, oldest first. -/
abbrev CowTable (κ : Type) := List (ℕ × Block κ)

structure Store (κ : Type) where
  world : World κ
  /-- `_cow`: the table of each version that is written to. -/
  cow : String → Option (CowTable κ)
  cowStore : BlockStore
  blockCache : BlockUid → Option Bytes
  /-- How many blocks went into the cache so far. -/
  cacheSets : ℕ

/-- A block, the offset in it and the length in it. -/
abbrev Chunk (κ : Type) := Option (Block κ) × ℕ × ℤ

/-- `get_block_by_idx`, which synthesizes the blocks that have no row. -/
def getBlock (t : BlockTable κ) (v : Version) (idx : ℕ) : Option (Block κ) :=
  some (t.getBlockByIdx v idx)

/-- `_block_list`; `fuel` bounds the number of chunks. -/
def blockList (t : BlockTable κ) (v : Version) :
    ℕ → ℕ → ℕ → ℤ → Option (Except Error (List (Chunk κ)))
  | 0, _, _, _ => none
  | fuel + 1, blockIdx, blockOffset, length =>
    match getBlock t v blockIdx with
    -- The size of `None` is asked for.
    | none => some (.error (if length > 4095 then eio else .other "AttributeError"))
    | some block =>
      let lengthInBlock := min ((block.size : ℤ) - blockOffset) length
      if length - lengthInBlock < 0 then some (.error .assertionError)
      else if length - lengthInBlock = 0 then
        some (.ok [(some block, blockOffset, lengthInBlock)])
      else (blockList t v fuel (blockIdx + 1) 0 (length - lengthInBlock)).map fun chunks =>
        chunks.map fun chunks => (some block, blockOffset, lengthInBlock) :: chunks

namespace Store

abbrev Action (κ α : Type) := Proc Error (Store κ) α

def ofExcept {α : Type} (r : Except Error α) : Action κ α := fun s => some (r, s)

/-- Enough fuel for every block that is not empty. -/
def chunksOf (v : Version) (offset length : ℕ) : Action κ (List (Chunk κ)) := fun s =>
  (blockList s.world.db.blocks v (length + v.blockSize + 2) (offset / v.blockSize)
    (offset % v.blockSize) length).map fun r => (r, s)

/-- `self._cow[version.uid]`. -/
def cowOf (v : Version) : Action κ (CowTable κ) := fun s =>
  match s.cow v.uid with
  | none => some (.error (.keyError v.uid), s)
  | some table => some (.ok table, s)

theorem returns_cowOf {v : Version} {s t : Store κ} {table : CowTable κ} :
    (cowOf v).Returns s table t ↔ s.cow v.uid = some table ∧ s = t := by
  unfold Proc.Returns cowOf
  cases s.cow v.uid <;> simp

theorem raises_cowOf {v : Version} {s t : Store κ} {e : Error} :
    (cowOf v).Raises s e t ↔ s.cow v.uid = none ∧ .keyError v.uid = e ∧ s = t := by
  unfold Proc.Raises cowOf
  cases s.cow v.uid <;> simp

theorem returns_ofExcept {α : Type} {r : Except Error α} {a : α} {s t : Store κ} :
    (ofExcept r).Returns s a t ↔ r = .ok a ∧ s = t := by
  simp [Proc.Returns, ofExcept]

theorem raises_ofExcept {α : Type} {r : Except Error α} {e : Error} {s t : Store κ} :
    (ofExcept r : Action κ α).Raises s e t ↔ r = .error e ∧ s = t := by
  simp [Proc.Raises, ofExcept]

/-- Keeping a block may push others out of the cache, or the block itself. -/
def cacheBlock (culled : ℕ → BlockUid → Bool) (uid : BlockUid) (data : Bytes) (s : Store κ) :
    Store κ :=
  { s with
    blockCache := fun u =>
      if culled s.cacheSets u then none else if u = uid then some data else s.blockCache u
    cacheSets := s.cacheSets + 1 }

def readChunk (culled : ℕ → BlockUid → Bool) (v : Version) (cow : CowTable κ) :
    Chunk κ → Action κ Bytes
  | (none, _, length) => pure (zeros length.toNat)
  | (some block, offset, length) => fun s =>
    match cow.lookup block.idx with
    | some b =>
      if s.cowStore.present b.uid then ofExcept (s.cowStore.read b.uid offset (some length)) s
      else Proc.raise .assertionError s
    | none => match block.uid with
      | none => some (.ok (zeros length.toNat), s)
      | some uid => match s.blockCache uid with
        | some data => some (.ok (fileRead data offset length), s)
        | none => match readObject s.world.objects v.storage.id block with
          | .error e => some (.error e, s)
          | .ok (data, _) =>
            some (.ok (pySlice data offset (offset + length)), cacheBlock culled uid data s)

def readChunks (culled : ℕ → BlockUid → Bool) (v : Version) (cow : CowTable κ) :
    List (Chunk κ) → Action κ Bytes
  | [] => pure []
  | chunk :: chunks => do
    let data ← readChunk culled v cow chunk
    let rest ← readChunks culled v cow chunks
    pure (data ++ rest)

def read (culled : ℕ → BlockUid → Bool) (v : Version) (cowVersion : Option Version)
    (offset length : ℕ) : Action κ Bytes := do
  let cow ← match cowVersion with
    | some c => cowOf c
    | none => pure []
  let readList ← chunksOf v offset length
  readChunks culled v cow readList

/-- The bytes a block has before it is written to the first time. -/
def originalData (c : Version) (block : Block κ) : Action κ Bytes := fun s =>
  match block.uid with
  | none => some (.ok (zeros c.blockSize), s)
  | some _ => some ((readObject s.world.objects c.storage.id block).map Prod.fst, s)

def setCow (c : Version) (table : CowTable κ) (s : Store κ) : Store κ :=
  { s with cow := fun uid => if uid = c.uid then some table else s.cow uid }

def writeChunk (c : Version) (block : Block κ) (offset : ℕ) (data : Bytes) : Action κ Unit := do
  let cow ← cowOf c
  match cow.lookup block.idx with
  | some b => do
    let s ← Proc.get
    let cowStore ← ofExcept (s.cowStore.update b.uid offset data)
    Proc.modify fun s => { s with cowStore := cowStore }
  | none => do
    let original ← originalData c block
    let uid : BlockUid := ⟨c.id, block.idx + 1⟩
    Proc.modify fun s => setCow c
      (cow ++ [(block.idx, { block with uid := some uid, checksum := none })])
      { s with cowStore := s.cowStore.write uid (overwrite original offset data) }

/-- The rest of the data is lost behind the first chunk without a block. -/
def writeChunks (c : Version) (data : Bytes) : ℤ → List (Chunk κ) → Action κ Unit
  | _, [] => pure ()
  | _, (none, _, _) :: _ => pure ()
  | position, (some block, offset, length) :: chunks => do
    writeChunk c block offset (pySlice data position (position + length))
    writeChunks c data (position + length) chunks

def write (c : Version) (offset : ℕ) (data : Bytes) : Action κ Unit := do
  let _ ← cowOf c
  let writeList ← chunksOf c offset data.length
  writeChunks c data 0 writeList

end Store
end Benji.Nbd
