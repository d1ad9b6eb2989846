import Benji.Database.Tables
import Benji.Lib.Tally
import Mathlib.Algebra.Order.BigOperators.Group.Finset

/-! `Version.storage_usage`: what the selected versions take up in each storage, from counts of
references to their blocks among the selected versions and among all. -/
namespace Benji
open Lib

namespace StorageUsage
variable {κ : Type}

structure Entry where
  virtual : ℕ := 0
  sparse : ℤ := 0
  shared : ℕ := 0
  exclusive : ℕ := 0
  deduplicatedExclusive : ℕ := 0
  deriving DecidableEq, Repr

/-- The `defaultdict` that goes by the names of the storages. -/
abbrev Usage := String → Option Entry

def Usage.get (u : Usage) (name : String) : Entry := (u name).getD {}

def Usage.update (u : Usage) (name : String) (f : Entry → Entry) : Usage := fun n =>
  if n = name then some (f (u.get name)) else u n

/-- `None` for the version ids selects all versions. -/
def selected (versionIds : Option (List ℕ)) (versionId : ℕ) : Bool :=
  match versionIds with
  | none => true
  | some ids => ids.contains versionId

/-- `blocks JOIN versions JOIN storages`. -/
def joined (db : Database κ) : List (Block κ × Version) :=
  db.blocks.rows.filterMap fun b => (db.versions.find? b.versionId).map (Prod.mk b)

structure VirtualRow where
  storageId : ℕ
  storageName : String
  size : ℕ

/-- The query `virtual`. -/
def virtualRows (db : Database κ) (versionIds : Option (List ℕ)) : List VirtualRow :=
  let versions := db.versions.rows.filter fun v => selected versionIds v.id
  (versions.map Version.storage).dedup.map fun s =>
    ⟨s.id, s.name, ((versions.filter fun v => v.storage = s).map Version.size).sum⟩

structure ShareRow where
  storageId : ℕ
  storageName : String
  uid : BlockUid
  size : ℕ
  shareCountSubset : ℕ
  shareCountOverall : ℕ

/-- What `share_count_query` groups by. -/
abbrev Group := Storage × BlockUid × ℕ

def group (r : Block κ × Version) : Option Group := r.1.uid.map fun u => (r.2.storage, u, r.1.size)

/-- The groups of the selected rows, once for each row. -/
def groups (db : Database κ) (versionIds : Option (List ℕ)) : List Group :=
  ((joined db).filter fun r => selected versionIds r.1.versionId).filterMap group

/-- `share_count_overall_sq`. -/
def shareCountOverall (db : Database κ) (g : Group) : ℕ :=
  (joined db).countP fun r => r.2.storage.id = g.1.id && r.1.uid = some g.2.1

/-- The query `share_count_query`. -/
def shareRows (db : Database κ) (versionIds : Option (List ℕ)) : List ShareRow :=
  (groups db versionIds).dedup.map fun g =>
    ⟨g.1.id, g.1.name, g.2.1, g.2.2, (groups db versionIds).count g, shareCountOverall db g⟩

def Entry.record (e : Entry) (row : ShareRow) : Entry :=
  if row.shareCountOverall = row.shareCountSubset then
    { e with
      exclusive := e.exclusive + row.size * row.shareCountSubset,
      deduplicatedExclusive := e.deduplicatedExclusive + row.size }
  else { e with shared := e.shared + row.size * row.shareCountSubset }

def Entry.withSparse (e : Entry) : Entry :=
  { e with sparse := e.virtual - e.exclusive - e.shared }

def Usage.setVirtual (u : Usage) (row : VirtualRow) : Usage :=
  u.update row.storageName fun e => { e with virtual := row.size }

def Usage.record (u : Usage) (row : ShareRow) : Usage :=
  u.update row.storageName fun e => e.record row

/-- The loops of `storage_usage` over the rows of the two queries. -/
def storageUsage (virtual : List VirtualRow) (share : List ShareRow) : Usage :=
  let usage := share.foldl Usage.record (virtual.foldl Usage.setVirtual fun _ => none)
  fun name => (usage name).map Entry.withSparse

/-! What the numbers stand for -/

/-- The uids that rows of the storage refer to. -/
def uids (db : Database κ) (s : Storage) : Finset BlockUid :=
  (((joined db).filter fun r => r.2.storage = s).filterMap fun r => r.1.uid).toFinset

/-- The size of the first row of the storage with the uid. -/
def sizeOf (db : Database κ) (s : Storage) (u : BlockUid) : ℕ :=
  match (joined db).find? fun r => r.2.storage = s && r.1.uid = some u with
  | some r => r.1.size
  | none => 0

/-- The database after the selected versions were removed with their rows. -/
def remove (db : Database κ) (versionIds : Option (List ℕ)) : Database κ :=
  { db with
    versions := db.versions.filter fun v => !selected versionIds v.id,
    blocks := db.blocks.filter fun b => !selected versionIds b.versionId }

/-- The keys of the tables, and the sizes of the rows. -/
structure Consistent (db : Database κ) (storages : Table Storage.id) : Prop where
  storage : ∀ v ∈ db.versions, v.storage ∈ storages
  name : ∀ s ∈ storages, ∀ t ∈ storages, s.name = t.name → s = t
  version : ∀ b ∈ db.blocks, ∃ v ∈ db.versions, v.id = b.versionId
  sharedSize : ∀ b ∈ db.blocks, ∀ c ∈ db.blocks, b.uid ≠ none → b.uid = c.uid → b.size = c.size
  blockSize : ∀ b ∈ db.blocks, ∀ v ∈ db.versions, v.id = b.versionId →
    (b.size : ℤ) = min (v.blockSize : ℤ) (v.size - b.idx * v.blockSize)

section
variable {u : Usage} {e : Entry} {name : String} {virtual : List VirtualRow} {share : List ShareRow}

theorem get_update (u : Usage) (name n : String) (f : Entry → Entry) :
    (u.update n f).get name = if name = n then f (u.get n) else u.get name := by
  simp only [Usage.get, Usage.update]
  split_ifs <;> rfl

theorem get_foldl_virtual_of_notMem (h : ∀ row ∈ virtual, row.storageName ≠ name) :
    (virtual.foldl Usage.setVirtual u).get name = u.get name := by
  induction virtual generalizing u with
  | nil => rfl
  | cons row virtual ih =>
    obtain ⟨hrow, hrest⟩ := List.forall_mem_cons.mp h
    rw [List.foldl_cons, ih hrest, Usage.setVirtual, get_update, if_neg hrow.symm]

theorem get_foldl_virtual (hn : (virtual.map VirtualRow.storageName).Nodup)
    (hu : u.get name = {}) :
    (virtual.foldl Usage.setVirtual u).get name =
      { virtual := ((virtual.filter fun row => row.storageName = name).map
        VirtualRow.size).sum } := by
  induction virtual generalizing u with
  | nil => exact hu
  | cons row virtual ih =>
    obtain ⟨hrow, hrest⟩ := List.nodup_cons.mp hn
    rw [List.foldl_cons]
    by_cases hname : row.storageName = name
    · have hnone : ∀ r ∈ virtual, r.storageName ≠ name := by
        intro r hr heq
        exact hrow (List.mem_map.mpr ⟨r, hr, heq.trans hname.symm⟩)
      have hempty : virtual.filter (fun r => r.storageName = name) = [] := by
        rw [List.filter_eq_nil_iff]
        intro r hr
        simpa using hnone r hr
      rw [get_foldl_virtual_of_notMem hnone, Usage.setVirtual, get_update, if_pos hname.symm, hname,
        hu, List.filter_cons_of_pos (by simpa using hname), hempty]
      rfl
    · rw [ih hrest (by rw [Usage.setVirtual, get_update, if_neg (Ne.symm hname), hu]),
        List.filter_cons_of_neg (by simpa using hname)]

theorem get_foldl_share (u : Usage) (share : List ShareRow) :
    (share.foldl Usage.record u).get name =
      (share.filter fun row => row.storageName = name).foldl Entry.record (u.get name) := by
  induction share generalizing u with
  | nil => rfl
  | cons row share ih =>
    rw [List.foldl_cons, ih, Usage.record, get_update]
    by_cases hname : row.storageName = name
    · rw [if_pos hname.symm, List.filter_cons_of_pos (by simpa using hname), List.foldl_cons, hname]
    · rw [if_neg (Ne.symm hname), List.filter_cons_of_neg (by simpa using hname)]

theorem foldl_record (e : Entry) (share : List ShareRow) :
    (share.foldl Entry.record e).virtual = e.virtual ∧
    (share.foldl Entry.record e).exclusive + (share.foldl Entry.record e).shared =
      e.exclusive + e.shared + (share.map fun row => row.size * row.shareCountSubset).sum ∧
    (share.foldl Entry.record e).deduplicatedExclusive = e.deduplicatedExclusive +
      ((share.filter fun row => row.shareCountOverall = row.shareCountSubset).map
        ShareRow.size).sum := by
  induction share generalizing e with
  | nil => simp
  | cons row share ih =>
    obtain ⟨hv, hs, hd⟩ := ih (e.record row)
    rw [List.foldl_cons, hv, hs, hd, List.map_cons, List.sum_cons]
    by_cases heq : row.shareCountOverall = row.shareCountSubset
    · rw [List.filter_cons_of_pos (by simpa using heq), List.map_cons, List.sum_cons,
        Entry.record, if_pos heq]
      refine ⟨rfl, ?_, ?_⟩ <;> (simp only; omega)
    · rw [List.filter_cons_of_neg (by simpa using heq), Entry.record, if_neg heq]
      refine ⟨rfl, ?_, rfl⟩
      simp only
      omega

/-- The entry of a storage, in sums over the rows with its name. -/
theorem get_storageUsage (share : List ShareRow)
    (hn : (virtual.map VirtualRow.storageName).Nodup) (name : String) :
    let entry := (storageUsage virtual share).get name
    entry.virtual = ((virtual.filter fun row => row.storageName = name).map VirtualRow.size).sum ∧
    entry.exclusive + entry.shared = ((share.filter fun row => row.storageName = name).map
      fun row => row.size * row.shareCountSubset).sum ∧
    entry.deduplicatedExclusive = (((share.filter fun row => row.storageName = name).filter
      fun row => row.shareCountOverall = row.shareCountSubset).map ShareRow.size).sum ∧
    entry.sparse = entry.virtual - entry.exclusive - entry.shared := by
  intro entry
  have hget : entry = ((share.foldl Usage.record
      (virtual.foldl Usage.setVirtual fun _ => none)).get name).withSparse := by
    show (storageUsage virtual share).get name = _
    simp only [storageUsage, Usage.get]
    generalize share.foldl Usage.record (virtual.foldl Usage.setVirtual fun _ => none) = u
    cases u name <;> rfl
  rw [get_foldl_share, get_foldl_virtual hn rfl] at hget
  obtain ⟨hv, hs, hd⟩ := foldl_record { virtual := ((virtual.filter
    fun row => row.storageName = name).map VirtualRow.size).sum }
    (share.filter fun row => row.storageName = name)
  rw [hget]
  exact ⟨hv, by simpa [Entry.withSparse] using hs, by simpa [Entry.withSparse] using hd, rfl⟩

end

section
variable {db : Database κ} {storages : Table Storage.id} {versionIds : Option (List ℕ)}
  {s : Storage} {r : Block κ × Version}

theorem mem_joined : r ∈ joined db ↔
    r.1 ∈ db.blocks ∧ r.2 ∈ db.versions ∧ r.2.id = r.1.versionId := by
  obtain ⟨b, v⟩ := r
  simp only [joined, List.mem_filterMap, Option.map_eq_some_iff, Prod.mk.injEq]
  constructor
  · rintro ⟨b', hb, v', hv, rfl, rfl⟩
    exact ⟨hb, Table.find?_eq_some.mp hv⟩
  · rintro ⟨hb, hv⟩
    exact ⟨b, hb, v, Table.find?_eq_some.mpr hv, rfl, rfl⟩

theorem map_fst_joined (db : Database κ) :
    ((joined db).map Prod.fst).Sublist db.blocks.rows := by
  rw [joined, List.map_filterMap]
  generalize db.blocks.rows = rows
  induction rows with
  | nil => exact List.Sublist.slnil
  | cons b rows ih =>
    rw [List.filterMap_cons]
    cases hf : db.versions.find? b.versionId with
    | none =>
      simp only [Option.map_none]
      exact ih.cons b
    | some v =>
      simp only [Option.map_some]
      exact ih.cons_cons b

theorem nodup_joined (db : Database κ) : ((joined db).map fun r => r.1.key).Nodup := by
  have hsub := (map_fst_joined db).map Block.key
  rw [List.map_map] at hsub
  exact db.blocks.nodup.sublist hsub

namespace Consistent

theorem size_eq (h : Consistent db storages) (hr : r ∈ joined db) :
    r.1.size = r.2.blockSizeAt r.1.idx := by
  obtain ⟨hb, hv, hid⟩ := mem_joined.mp hr
  have hsize := h.blockSize r.1 hb r.2 hv hid
  have hmul : ((r.1.idx * r.2.blockSize : ℕ) : ℤ) = r.1.idx * r.2.blockSize := by push_cast; rfl
  rw [← hmul] at hsize
  rw [Version.blockSizeAt]
  omega

theorem storage_eq (h : Consistent db storages) (hr : r ∈ joined db) (hs : s ∈ storages)
    (hid : r.2.storage.id = s.id) : r.2.storage = s :=
  Table.eq_of_key_eq (h.storage _ (mem_joined.mp hr).2.1) hs hid

end Consistent

/-- The rows of a version do not take up more than it has. -/
theorem sum_blockSizeAt_le (v : Version) {idxs : List ℕ} (hn : idxs.Nodup) :
    (idxs.map v.blockSizeAt).sum ≤ v.size := by
  obtain ⟨n, hlt⟩ : ∃ n, ∀ i ∈ idxs, i < n := by
    refine ⟨idxs.sum + 1, ?_⟩
    intro i hi
    have := List.single_le_sum (fun _ _ => Nat.zero_le _) i hi
    omega
  calc (idxs.map v.blockSizeAt).sum
      = idxs.toFinset.sum v.blockSizeAt := (List.sum_toFinset _ hn).symm
    _ ≤ (List.range n).toFinset.sum v.blockSizeAt := by
        apply Finset.sum_le_sum_of_subset
        intro i hi
        rw [List.mem_toFinset, List.mem_range]
        exact hlt i (List.mem_toFinset.mp hi)
    _ = ((List.range n).map v.blockSizeAt).sum := List.sum_toFinset _ List.nodup_range
    _ ≤ v.size := by
        rw [Version.sum_blockSizeAt]
        exact min_le_right _ _

/-- The selected versions of a storage. -/
def versionsIn (db : Database κ) (versionIds : Option (List ℕ)) (s : Storage) : List Version :=
  (db.versions.rows.filter fun v => selected versionIds v.id).filter fun v => v.storage = s

/-- The rows of the selected versions of a storage. -/
def rowsIn (db : Database κ) (versionIds : Option (List ℕ)) (s : Storage) :
    List (Block κ × Version) :=
  ((joined db).filter fun r => selected versionIds r.1.versionId).filter fun r => r.2.storage = s

theorem sum_rows_of_version_le (h : Consistent db storages) (v : Version) :
    (((rowsIn db versionIds s).filter fun r => r.2 = v).map fun r => r.1.size).sum ≤ v.size := by
  have hmem : ∀ r ∈ (rowsIn db versionIds s).filter fun r => r.2 = v,
      r ∈ joined db ∧ r.2 = v := by
    intro r hr
    obtain ⟨hr, hv⟩ := List.mem_filter.mp hr
    exact ⟨List.mem_of_mem_filter (List.mem_of_mem_filter hr), by simpa using hv⟩
  have hsizes : ((rowsIn db versionIds s).filter fun r => r.2 = v).map (fun r => r.1.size) =
      (((rowsIn db versionIds s).filter fun r => r.2 = v).map fun r => r.1.idx).map
        v.blockSizeAt := by
    rw [List.map_map]
    apply List.map_congr_left
    intro r hr
    obtain ⟨hj, rfl⟩ := hmem r hr
    exact h.size_eq hj
  have hnodup :
      (((rowsIn db versionIds s).filter fun r => r.2 = v).map fun r => r.1.idx).Nodup := by
    have hsub : ((rowsIn db versionIds s).filter fun r => r.2 = v).Sublist (joined db) :=
      List.filter_sublist.trans (List.filter_sublist.trans List.filter_sublist)
    have hkeys := (nodup_joined db).sublist (hsub.map fun r => r.1.key)
    have hpair : ((rowsIn db versionIds s).filter fun r => r.2 = v).map (fun r => r.1.key) =
        (((rowsIn db versionIds s).filter fun r => r.2 = v).map fun r => r.1.idx).map
          (Prod.mk v.id) := by
      rw [List.map_map]
      apply List.map_congr_left
      intro r hr
      obtain ⟨hj, rfl⟩ := hmem r hr
      rw [Block.key, ← (mem_joined.mp hj).2.2]
      rfl
    rw [hpair] at hkeys
    exact List.Nodup.of_map _ hkeys
  rw [hsizes]
  exact sum_blockSizeAt_le v hnodup

theorem sum_rows_le (h : Consistent db storages) :
    ((rowsIn db versionIds s).map fun r => r.1.size).sum ≤
      ((versionsIn db versionIds s).map Version.size).sum := by
  have hnodup : (versionsIn db versionIds s).Nodup := by
    have hrows : db.versions.rows.Nodup := List.Nodup.of_map _ db.versions.nodup
    exact (hrows.filter _).filter _
  have hmem : ∀ r ∈ rowsIn db versionIds s, r.2 ∈ versionsIn db versionIds s := by
    intro r hr
    simp only [rowsIn, List.mem_filter] at hr
    obtain ⟨⟨hj, hsel⟩, hs⟩ := hr
    obtain ⟨-, hv, hid⟩ := mem_joined.mp hj
    simp only [versionsIn, List.mem_filter]
    exact ⟨⟨hv, hid ▸ hsel⟩, hs⟩
  rw [← sum_by_key Prod.snd _ hnodup hmem]
  apply List.sum_le_sum
  intro v _
  exact sum_rows_of_version_le h v

theorem sum_groups_le (l : List (Block κ × Version)) (s : Storage) :
    (((l.filterMap group).filter fun g => g.1 = s).map fun g => g.2.2).sum ≤
      ((l.filter fun r => r.2.storage = s).map fun r => r.1.size).sum := by
  induction l with
  | nil => exact le_refl 0
  | cons r l ih =>
    rw [List.filterMap_cons, List.filter_cons]
    cases hu : r.1.uid with
    | none =>
      simp only [group, hu, Option.map_none]
      split_ifs
      · rw [List.map_cons, List.sum_cons]
        exact ih.trans (Nat.le_add_left _ _)
      · exact ih
    | some u =>
      simp only [group, hu, Option.map_some, List.filter_cons]
      split_ifs
      · rw [List.map_cons, List.sum_cons, List.map_cons, List.sum_cons]
        exact Nat.add_le_add_left ih _
      · exact ih

/-- What is referred to in a storage is no more than the virtual size. -/
theorem sum_groupsIn_le (h : Consistent db storages) (versionIds : Option (List ℕ)) (s : Storage) :
    (((groups db versionIds).filter fun g => g.1 = s).map fun g => g.2.2).sum ≤
      ((versionsIn db versionIds s).map Version.size).sum :=
  (sum_groups_le _ s).trans (sum_rows_le h)

theorem nodup_virtualRows (h : Consistent db storages) (versionIds : Option (List ℕ)) :
    ((virtualRows db versionIds).map VirtualRow.storageName).Nodup := by
  rw [virtualRows, List.map_map]
  apply List.Nodup.map_on _ (List.nodup_dedup _)
  intro s hs t ht hname
  have hmem : ∀ s ∈ ((db.versions.rows.filter fun v => selected versionIds v.id).map
      Version.storage).dedup, s ∈ storages := by
    intro s hs
    obtain ⟨v, hv, rfl⟩ := List.mem_map.mp (List.mem_dedup.mp hs)
    exact h.storage v (List.mem_of_mem_filter hv)
  exact h.name s (hmem s hs) t (hmem t ht) hname

theorem sum_virtualRows (h : Consistent db storages) (versionIds : Option (List ℕ))
    (hs : s ∈ storages) :
    (((virtualRows db versionIds).filter fun row => row.storageName = s.name).map
      VirtualRow.size).sum = ((versionsIn db versionIds s).map Version.size).sum := by
  unfold virtualRows versionsIn
  dsimp only
  generalize hvs : db.versions.rows.filter (fun v => selected versionIds v.id) = versions
  have hname : ∀ t ∈ (versions.map Version.storage).dedup,
      decide (t.name = s.name) = decide (t = s) := by
    intro t ht
    obtain ⟨v, hv, rfl⟩ := List.mem_map.mp (List.mem_dedup.mp ht)
    have hmem : v.storage ∈ storages := h.storage v (List.mem_of_mem_filter (hvs ▸ hv))
    rw [decide_eq_decide]
    constructor
    · exact h.name _ hmem s hs
    · exact congrArg Storage.name
  rw [List.filter_map, List.map_map]
  have hfilter : (versions.map Version.storage).dedup.filter
      ((fun row : VirtualRow => decide (row.storageName = s.name)) ∘ fun t =>
        ⟨t.id, t.name, ((versions.filter fun v => v.storage = t).map Version.size).sum⟩) =
      (versions.map Version.storage).dedup.filter (· = s) := List.filter_congr hname
  rw [hfilter, List.filter_eq, List.count_dedup]
  split_ifs with hmem
  · simp
  · have hnone : versions.filter (fun v => v.storage = s) = [] := by
      rw [List.filter_eq_nil_iff]
      intro v hv heq
      exact hmem (List.mem_map.mpr ⟨v, hv, by simpa using heq⟩)
    simp [hnone]

theorem storage_of_mem_groups (h : Consistent db storages) {g : Group}
    (hg : g ∈ groups db versionIds) : g.1 ∈ storages := by
  obtain ⟨r, hr, hgr⟩ := List.mem_filterMap.mp hg
  obtain ⟨u, -, rfl⟩ := Option.map_eq_some_iff.mp hgr
  exact h.storage _ (mem_joined.mp (List.mem_of_mem_filter hr)).2.1

/-- The rows with the name of a storage are those of its groups. -/
theorem filter_shareRows (h : Consistent db storages) (versionIds : Option (List ℕ))
    (hs : s ∈ storages) :
    (shareRows db versionIds).filter (fun row => row.storageName = s.name) =
      ((groups db versionIds).dedup.filter fun g => g.1 = s).map fun g =>
        ⟨g.1.id, g.1.name, g.2.1, g.2.2, (groups db versionIds).count g,
          shareCountOverall db g⟩ := by
  rw [shareRows, List.filter_map]
  congr 1
  apply List.filter_congr
  intro g hg
  have hmem := storage_of_mem_groups h (List.mem_dedup.mp hg)
  show decide (g.1.name = s.name) = decide (g.1 = s)
  rw [decide_eq_decide]
  constructor
  · exact h.name _ hmem s hs
  · exact congrArg Storage.name

theorem sum_shareRows (h : Consistent db storages) (versionIds : Option (List ℕ))
    (hs : s ∈ storages) :
    (((shareRows db versionIds).filter fun row => row.storageName = s.name).map
      fun row => row.size * row.shareCountSubset).sum =
      (((groups db versionIds).filter fun g => g.1 = s).map fun g => g.2.2).sum := by
  rw [filter_shareRows h versionIds hs, List.map_map]
  exact sum_filter_dedup_mul_count (groups db versionIds) (fun g => g.1 = s) fun g => g.2.2

/-! Groups all of whose rows are selected -/

theorem mem_groups {g : Group} : g ∈ groups db versionIds ↔
    ∃ r ∈ joined db, selected versionIds r.1.versionId = true ∧ r.2.storage = g.1 ∧
      r.1.uid = some g.2.1 ∧ r.1.size = g.2.2 := by
  obtain ⟨s, u, size⟩ := g
  simp only [groups, List.mem_filterMap, List.mem_filter, group, Option.map_eq_some_iff,
    Prod.mk.injEq]
  constructor
  · rintro ⟨r, ⟨hr, hsel⟩, u', hu, rfl, rfl, rfl⟩
    exact ⟨r, hr, hsel, rfl, hu, rfl⟩
  · rintro ⟨r, hr, hsel, rfl, hu, rfl⟩
    exact ⟨r, ⟨hr, hsel⟩, u, hu, rfl, rfl, rfl⟩

theorem Consistent.size_of_uid (h : Consistent db storages) {q r : Block κ × Version}
    (hq : q ∈ joined db) (hr : r ∈ joined db) {u : BlockUid} (hqu : q.1.uid = some u)
    (hru : r.1.uid = some u) : q.1.size = r.1.size := by
  apply h.sharedSize _ (mem_joined.mp hq).1 _ (mem_joined.mp hr).1
  · rw [hqu]
    exact Option.some_ne_none u
  · rw [hqu, hru]

/-- The count of a group among the selected rows, as a count among all rows. -/
theorem count_groups (h : Consistent db storages) {g : Group} (hg : g ∈ groups db versionIds) :
    (groups db versionIds).count g = (joined db).countP fun r =>
      (r.2.storage.id = g.1.id && r.1.uid = some g.2.1) && selected versionIds r.1.versionId := by
  obtain ⟨q, hq, -, hqs, hqu, hqz⟩ := mem_groups.mp hg
  have hmem := storage_of_mem_groups h hg
  rw [groups, List.count_filterMap, List.countP_filter]
  apply List.countP_congr
  intro r hr
  simp only [Bool.and_eq_true, beq_iff_eq, decide_eq_true_eq]
  apply and_congr_left
  intro _
  constructor
  · intro hgroup
    obtain ⟨u, hu, rfl⟩ := Option.map_eq_some_iff.mp hgroup
    exact ⟨rfl, hu⟩
  · rintro ⟨hid, hu⟩
    rw [group, hu, Option.map_some, h.storage_eq hr hmem hid, h.size_of_uid hr hq hu hqu, hqz]

theorem mem_uids {u : BlockUid} :
    u ∈ uids db s ↔ ∃ r ∈ joined db, r.2.storage = s ∧ r.1.uid = some u := by
  simp only [uids, List.mem_toFinset, List.mem_filterMap, List.mem_filter, decide_eq_true_eq,
    and_assoc]

theorem mem_joined_remove : r ∈ joined (remove db versionIds) ↔
    r ∈ joined db ∧ selected versionIds r.1.versionId = false := by
  simp only [mem_joined, remove, Table.mem_filter, Bool.not_eq_true']
  constructor
  · rintro ⟨⟨hb, hsel⟩, ⟨hv, -⟩, hid⟩
    exact ⟨⟨hb, hv, hid⟩, hsel⟩
  · rintro ⟨⟨hb, hv, hid⟩, hsel⟩
    exact ⟨⟨hb, hsel⟩, ⟨hv, by rwa [hid]⟩, hid⟩

/-- The two counts agree for the uids that nothing refers to after the removal. -/
theorem counts_eq_iff (h : Consistent db storages) {g : Group} (hg : g ∈ groups db versionIds) :
    shareCountOverall db g = (groups db versionIds).count g ↔
      g.2.1 ∉ uids (remove db versionIds) g.1 := by
  have hmem := storage_of_mem_groups h hg
  rw [count_groups h hg, shareCountOverall, countP_and_eq_iff]
  constructor
  · intro hall hu
    obtain ⟨r, hr, hs, hru⟩ := mem_uids.mp hu
    obtain ⟨hj, hsel⟩ := mem_joined_remove.mp hr
    have := hall r hj (by simp [hs, hru])
    rw [hsel] at this
    cases this
  · intro hnot r hr hp
    simp only [Bool.and_eq_true, decide_eq_true_eq] at hp
    by_contra hsel
    have hj : r ∈ joined (remove db versionIds) :=
      mem_joined_remove.mpr ⟨hr, Bool.eq_false_iff.mpr hsel⟩
    exact hnot (mem_uids.mpr ⟨r, hj, h.storage_eq hr hmem hp.1, hp.2⟩)

theorem sizeOf_eq (h : Consistent db storages) (hr : r ∈ joined db) (hs : r.2.storage = s)
    {u : BlockUid} (hu : r.1.uid = some u) : sizeOf db s u = r.1.size := by
  unfold sizeOf
  cases hf : (joined db).find? fun r => r.2.storage = s && r.1.uid = some u with
  | none =>
    have hno := List.find?_eq_none.mp hf r hr
    simp [hs, hu] at hno
  | some q =>
    have hq := List.find?_some hf
    simp only [Bool.and_eq_true, decide_eq_true_eq] at hq
    exact h.size_of_uid (List.mem_of_find?_eq_some hf) hr hq.2 hu

theorem sum_deduplicated (h : Consistent db storages) (versionIds : Option (List ℕ))
    (hs : s ∈ storages) :
    ((((shareRows db versionIds).filter fun row => row.storageName = s.name).filter
      fun row => row.shareCountOverall = row.shareCountSubset).map ShareRow.size).sum =
      (uids db s \ uids (remove db versionIds) s).sum (sizeOf db s) := by
  rw [filter_shareRows h versionIds hs, List.filter_map, List.map_map]
  generalize hl : ((groups db versionIds).dedup.filter fun g => g.1 = s).filter
    ((fun row : ShareRow => decide (row.shareCountOverall = row.shareCountSubset)) ∘ fun g =>
      ⟨g.1.id, g.1.name, g.2.1, g.2.2, (groups db versionIds).count g,
        shareCountOverall db g⟩) = l
  have hmem : ∀ g, g ∈ l ↔ g ∈ groups db versionIds ∧ g.1 = s ∧
      g.2.1 ∉ uids (remove db versionIds) s := by
    intro g
    rw [← hl]
    simp only [List.mem_filter, List.mem_dedup, Function.comp_apply, decide_eq_true_eq, and_assoc]
    apply and_congr_right
    intro hg
    apply and_congr_right
    rintro rfl
    exact counts_eq_iff h hg
  have hsize : ∀ g ∈ l, sizeOf db s g.2.1 = g.2.2 := by
    intro g hg
    obtain ⟨hgroup, rfl, -⟩ := (hmem g).mp hg
    obtain ⟨r, hr, -, hrs, hru, hrz⟩ := mem_groups.mp hgroup
    rw [sizeOf_eq h hr hrs hru, hrz]
  have hnodup : (l.map fun g => g.2.1).Nodup := by
    apply List.Nodup.map_on
    · intro g hg g' hg' huid
      have hstorage : g.1 = g'.1 := ((hmem g).mp hg).2.1.trans ((hmem g').mp hg').2.1.symm
      have hz : g.2.2 = g'.2.2 := by rw [← hsize g hg, ← hsize g' hg', huid]
      exact Prod.ext hstorage (Prod.ext huid hz)
    · rw [← hl]
      exact ((List.nodup_dedup _).filter _).filter _
  have hset : (l.map fun g => g.2.1).toFinset = uids db s \ uids (remove db versionIds) s := by
    ext u
    rw [List.mem_toFinset, List.mem_map, Finset.mem_sdiff, mem_uids]
    constructor
    · rintro ⟨g, hg, rfl⟩
      obtain ⟨hgroup, rfl, hnot⟩ := (hmem g).mp hg
      obtain ⟨r, hr, -, hrs, hru, -⟩ := mem_groups.mp hgroup
      exact ⟨⟨r, hr, hrs, hru⟩, hnot⟩
    · rintro ⟨⟨r, hr, rfl, hru⟩, hnot⟩
      have hsel : selected versionIds r.1.versionId = true := by
        by_contra hsel
        have hj := mem_joined_remove.mpr ⟨hr, Bool.eq_false_iff.mpr hsel⟩
        exact hnot (mem_uids.mpr ⟨r, hj, rfl, hru⟩)
      have hgroup : (r.2.storage, u, r.1.size) ∈ groups db versionIds :=
        mem_groups.mpr ⟨r, hr, hsel, rfl, hru, rfl⟩
      exact ⟨_, (hmem _).mpr ⟨hgroup, rfl, hnot⟩, rfl⟩
  calc (l.map fun g => g.2.2).sum
      = ((l.map fun g => g.2.1).map (sizeOf db s)).sum := by
        rw [List.map_map]
        congr 1
        apply List.map_congr_left
        intro g hg
        exact (hsize g hg).symm
    _ = (l.map fun g => g.2.1).toFinset.sum (sizeOf db s) := (List.sum_toFinset _ hnodup).symm
    _ = (uids db s \ uids (remove db versionIds) s).sum (sizeOf db s) := by rw [hset]

/-- In whatever order the queries return their rows, the virtual size of a storage is divided up,
and the deduplicated exclusive size is what the removal of the selected versions leaves without
a reference. -/
theorem storageUsage_accounts (db : Database κ) (storages : Table Storage.id)
    (h : Consistent db storages) (versionIds : Option (List ℕ)) (virtual : List VirtualRow)
    (share : List ShareRow) (hv : virtual.Perm (virtualRows db versionIds))
    (hsh : share.Perm (shareRows db versionIds)) (s : Storage) (hs : s ∈ storages) :
    let entry := (storageUsage virtual share).get s.name
    (entry.virtual : ℤ) = entry.sparse + entry.shared + entry.exclusive ∧
      (0 ≤ entry.sparse ∧ 0 ≤ entry.shared ∧ 0 ≤ entry.exclusive) ∧
      entry.deduplicatedExclusive =
        (uids db s \ uids (remove db versionIds) s).sum (sizeOf db s) := by
  intro entry
  have hnodup : (virtual.map VirtualRow.storageName).Nodup :=
    (hv.map _).nodup_iff.mpr (nodup_virtualRows h versionIds)
  obtain ⟨hvirtual, hshares, hded, hsparse⟩ := get_storageUsage share hnodup s.name
  rw [((hv.filter _).map _).sum_eq, sum_virtualRows h versionIds hs] at hvirtual
  rw [((hsh.filter _).map _).sum_eq, sum_shareRows h versionIds hs] at hshares
  rw [(((hsh.filter _).filter _).map _).sum_eq, sum_deduplicated h versionIds hs] at hded
  have hle := sum_groupsIn_le h versionIds s
  rw [← hshares, ← hvirtual] at hle
  have hle : entry.exclusive + entry.shared ≤ entry.virtual := hle
  have hsparse : entry.sparse = entry.virtual - entry.exclusive - entry.shared := hsparse
  refine ⟨by omega, ⟨by omega, Nat.zero_le _, Nat.zero_le _⟩, hded⟩

def exampleStorages : Table Storage.id := ⟨[⟨1, "s-1"⟩], by decide⟩

/-- Two versions that share a block, and one of them has it twice. -/
def exampleDatabase : Database String where
  versions := ⟨[⟨1, "v1", ⟨1, "s-1"⟩, 14, 4, .valid, none⟩,
    ⟨2, "v2", ⟨1, "s-1"⟩, 8, 4, .valid, none⟩], by decide⟩
  blocks := ⟨[⟨1, 0, some ⟨1, 1⟩, none, 4, true⟩, ⟨1, 1, some ⟨1, 1⟩, none, 4, true⟩,
    ⟨1, 3, some ⟨1, 2⟩, none, 2, true⟩, ⟨2, 0, some ⟨1, 1⟩, none, 4, true⟩], by decide⟩
  deletedBlocks := Table.empty
  locks := Table.empty

theorem exampleDatabase_consistent : Consistent exampleDatabase exampleStorages where
  storage := by
    show ∀ v ∈ exampleDatabase.versions, v.storage ∈ exampleStorages.rows
    decide
  name := by decide
  version := by decide
  sharedSize := by decide
  blockSize := by decide

theorem storageUsage_accounts_example :
    let entry := (storageUsage (virtualRows exampleDatabase (some [1]))
      (shareRows exampleDatabase (some [1]))).get "s-1"
    (entry.virtual : ℤ) = entry.sparse + entry.shared + entry.exclusive ∧
      (0 ≤ entry.sparse ∧ 0 ≤ entry.shared ∧ 0 ≤ entry.exclusive) ∧
      entry.deduplicatedExclusive = (uids exampleDatabase ⟨1, "s-1"⟩ \
        uids (remove exampleDatabase (some [1])) ⟨1, "s-1"⟩).sum
          (sizeOf exampleDatabase ⟨1, "s-1"⟩) :=
  storageUsage_accounts exampleDatabase exampleStorages exampleDatabase_consistent (some [1]) _ _
    (List.Perm.refl _) (List.Perm.refl _) ⟨1, "s-1"⟩ List.mem_cons_self

example : (storageUsage (virtualRows exampleDatabase (some [1]))
    (shareRows exampleDatabase (some [1]))).get "s-1" = ⟨14, 4, 8, 2, 2⟩ := by decide

end
end StorageUsage
end Benji
