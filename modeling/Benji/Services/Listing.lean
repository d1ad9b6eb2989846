import Benji.Lib.GroupBy
import Benji.Lib.Json
import Benji.Services.Database
import Benji.Services.Paginate

/-! The listing of versions by storage, VM and volume. -/
namespace Benji.Services
open Lib

structure VolumeVersions where
  id : String
  name : Option String
  size : Option ℕ
  versions : List Version
deriving DecidableEq, Inhabited

structure VmVersions where
  vmId : ℕ
  vmName : String
  volumes : List VolumeVersions
deriving DecidableEq, Inhabited

structure StorageVersions where
  userName : String
  storageName : String
  vms : List VmVersions
deriving DecidableEq, Inhabited

/-- All storages for an admin, the VMs of the own storage for a user. -/
inductive Listing
  | storages (storages : List StorageVersions)
  | vms (vms : List VmVersions)
deriving DecidableEq

structure ListingPage where
  data : Listing
  hasMore : Bool
  nextPage : Option ℤ
  prevPage : Option ℤ
deriving DecidableEq

namespace VersionController

/-- `none` is an exception here, as in the functions below. -/
def volumeEntry (versions : List Version) : Option VolumeVersions := do
  let first ← versions.head?
  return ⟨first.volume, first.volumeName, none, versions⟩

/-- The versions of a VM are not sorted before they are grouped. -/
def vmEntry (d : Db) (vmVersions : List Version) : Option VmVersions := do
  let volumeVersionGroup := groupby Version.volume vmVersions
  let volumes ← volumeVersionGroup.mapM volumeEntry
  let first ← (← volumeVersionGroup.head?).head?
  let vm ← d.getVm first.vmId
  return ⟨vm.id, vm.name, volumes⟩

/-- `version.storage.name` and `version.storage.user.user_name`. -/
def ownerOf (d : Db) (version : Version) : Option (String × String) := do
  let storage ← d.getStorage version.storageId
  let user ← d.users.find? fun u => u.id = storage.userId
  return (storage.name, user.userName)

/-- The names are taken from each version in turn; those of the last one remain. -/
def storageEntry (d : Db) (storageVersions : List Version) : Option StorageVersions := do
  let storageVersions := storageVersions.insertionSort fun a b => a.vmId ≤ b.vmId
  let vms ← (groupby Version.vmId storageVersions).mapM (vmEntry d)
  let owners ← storageVersions.mapM (ownerOf d)
  let (storageName, userName) ← owners.getLast?
  return ⟨userName, storageName, vms⟩

/-- The storages with the names of users. -/
def selected (d : Db) (users : List User) : List Storage :=
  d.storages.filter fun s => s.name ∈ users.map User.userName

def storagesDict (d : Db) (users : List User) : Option (List (String × StorageVersions)) := do
  let start := users.foldl (fun dict user =>
    Json.setItem user.userName ⟨user.userName, user.userName, []⟩ dict) []
  let storageIds := (selected d users).map Storage.id
  let rawData := d.versions.filter fun v => v.storageId ∈ storageIds
  let rawData := rawData.insertionSort fun a b => a.storageId ≤ b.storageId
  let entries ← (groupby Version.storageId rawData).mapM (storageEntry d)
  return entries.foldl (fun dict e => Json.setItem e.storageName e dict) start

/-- The users whose storages are listed: the caller, or whom an admin asks for. The name goes into
the text of the condition between quotes, and is taken to have none itself. -/
def usersQuery (ctx : Context) (userName : Option String) (d : Db) : Query User :=
  let userName := if ctx.isAdmin then userName else some ctx.user.userName
  Query.build_s none (fun u => userName.all fun name => u.userName = name) d.users

/-- `list_versions` without a volume. Nothing is answered where the page has no users. -/
def listAllVersions (ctx : Context) (userName : Option String) (answers : ℕ → List User)
    (page pageSize : Option ℤ) (d : Db) : Option (Option ListingPage) := do
  let (users, objects, prevPage) :=
    (usersQuery ctx userName d).dumpRawObject answers page pageSize
  if users = [] then return none
  let dict ← storagesDict d users
  let data ←
    if ctx.isAdmin then some (Listing.storages (dict.map Prod.snd))
    else (dict.lookup ctx.user.userName).map fun e => .vms e.vms
  return some ⟨data, objects.hasNext, objects.nextNum, prevPage⟩

variable {d : Db} {l : List Version}

/-! ### What the listing should be -/

/-- Each volume once, with its versions. -/
def GroupsVolumes (l : List Version) (volumes : List VolumeVersions) : Prop :=
  Listed Version.volume VolumeVersions.id (fun vs e => e.versions.Perm vs) l volumes

/-- Each VM once, with its volumes. -/
def GroupsVms (l : List Version) (vms : List VmVersions) : Prop :=
  Listed Version.vmId VmVersions.vmId (fun vs e => GroupsVolumes vs e.volumes) l vms

def versionsOf (d : Db) (storage : Storage) : List Version :=
  d.versions.filter fun v => v.storageId = storage.id

/-- Each selected storage with its VMs, and nothing for a user without a storage. -/
def Grouped (d : Db) (users : List User) : Option ListingPage → Prop
  | none => selected d users = []
  | some ⟨.storages entries, _, _, _⟩ =>
    (entries.map StorageVersions.storageName).Nodup ∧
    (∀ storage ∈ selected d users, ∃ e ∈ entries, e.storageName = storage.name ∧
      GroupsVms (versionsOf d storage) e.vms) ∧
    ∀ e ∈ entries, (∀ storage ∈ selected d users, e.storageName ≠ storage.name) → e.vms = []
  | some ⟨.vms vms, _, _, _⟩ =>
    (∀ storage ∈ selected d users, GroupsVms (versionsOf d storage) vms) ∧
    (selected d users = [] → vms = [])

/-- Between two versions of a volume stands one of another volume of the same VM. -/
def Interleaved (d : Db) (users : List User) : Prop :=
  ∃ a b c, [a, b, c].Sublist d.versions ∧ (∃ storage ∈ selected d users, a.storageId = storage.id) ∧
    b.storageId = a.storageId ∧ c.storageId = a.storageId ∧ b.vmId = a.vmId ∧ c.vmId = a.vmId ∧
    a.volume = c.volume ∧ b.volume ≠ a.volume

/-- The keys of the tables, and the rows that others refer to. -/
structure Related (d : Db) : Prop where
  storageIds : (d.storages.map Storage.id).Nodup
  storageNames : (d.storages.map Storage.name).Nodup
  vms : (d.vms.map VM.id).Nodup
  storage : ∀ v ∈ d.versions, ∃ s ∈ d.storages, s.id = v.storageId
  vm : ∀ v ∈ d.versions, ∃ vm ∈ d.vms, vm.id = v.vmId
  user : ∀ s ∈ d.storages, ∃ u ∈ d.users, u.id = s.userId

/-! ### The entries of volumes, VMs and storages -/

theorem mapM_eq_some_map {α β : Type} {f : α → Option β} {g : α → β} {l : List α}
    (h : ∀ a ∈ l, f a = some (g a)) : l.mapM f = some (l.map g) := by
  induction l with
  | nil => rfl
  | cons a l ih =>
    rw [List.forall_mem_cons] at h
    rw [List.mapM_cons, h.1, ih h.2]
    rfl

/-- Where each element has its entry, the list has its entries. -/
theorem exists_mapM_eq {α β : Type} [Inhabited β] {f : α → Option β} {P : α → β → Prop}
    {l : List α} (h : ∀ a ∈ l, ∃ b, f a = some b ∧ P a b) :
    ∃ entry : α → β, l.mapM f = some (l.map entry) ∧ ∀ a ∈ l, P a (entry a) := by
  choose! entry hentry using h
  exact ⟨entry, mapM_eq_some_map fun a ha => (hentry a ha).1, fun a ha => (hentry a ha).2⟩

theorem find?_of_mem {α : Type} {p : α → Bool} {l : List α} (h : ∃ a ∈ l, p a = true) :
    ∃ a ∈ l, l.find? p = some a ∧ p a = true := by
  obtain ⟨a, ha⟩ := Option.isSome_iff_exists.mp (List.find?_isSome.mpr h)
  exact ⟨a, List.mem_of_find?_eq_some ha, ha, List.find?_some ha⟩

theorem apart_iff {key : Version → String} :
    Apart key (groupby key l) ↔ Contiguous key l := by
  have hruns := runs_groupby key l
  constructor
  · exact hruns.contiguous
  · exact hruns.apart

theorem volumeEntry_eq_some {g : List Version} (hne : g ≠ [])
    (hvolume : ∀ a ∈ g, ∀ b ∈ g, a.volume = b.volume) :
    ∃ e, volumeEntry g = some e ∧ (∀ a ∈ g, a.volume = e.id) ∧ e.versions = g := by
  cases g with
  | nil => exact absurd rfl hne
  | cons v g => exact ⟨_, rfl, fun a ha => hvolume a ha v List.mem_cons_self, rfl⟩

/-- The volumes of a VM are listed well exactly if no volume is interrupted by another. -/
theorem vmEntry_eq_some (h : Related d) {vmId : ℕ} (hne : l ≠ []) (hl : ∀ v ∈ l, v ∈ d.versions)
    (hvm : ∀ v ∈ l, v.vmId = vmId) : ∃ e, vmEntry d l = some e ∧ e.vmId = vmId ∧
      (GroupsVolumes l e.volumes ↔ Contiguous Version.volume l) := by
  have hruns := runs_groupby Version.volume l
  obtain ⟨entry, hvolumes, hentry⟩ := exists_mapM_eq fun g hg =>
    volumeEntry_eq_some (hruns.nonempty g hg) (hruns.constant g hg)
  have hlisted : GroupsVolumes l ((groupby Version.volume l).map entry) ↔
      Contiguous Version.volume l := by
    unfold GroupsVolumes
    rw [listed_iff hruns fun g hg => (hentry g hg).1, apart_iff]
    exact and_iff_left fun g hg => .of_eq (hentry g hg).2
  obtain ⟨g, v, hfirst, hhead, hvl⟩ := hruns.exists_head hne
  obtain ⟨vm, -, hfind, hvmid⟩ : ∃ vm ∈ d.vms, d.getVm v.vmId = some vm ∧ _ := by
    apply find?_of_mem
    obtain ⟨vm, hmem, hvm⟩ := h.vm v (hl v hvl)
    exact ⟨vm, hmem, decide_eq_true hvm⟩
  refine ⟨⟨vm.id, vm.name, (groupby Version.volume l).map entry⟩, ?_, ?_, hlisted⟩
  · unfold vmEntry
    simp only [hvolumes, hfirst, hhead, hfind, Option.bind_eq_bind, Option.bind_some]
    rfl
  · exact (of_decide_eq_true hvmid).trans (hvm v hvl)

/-- The entry of the versions of one VM. -/
theorem vmEntry_of_group (h : Related d) (hl : ∀ v ∈ l, v ∈ d.versions) {g : List Version}
    (hg : ∃ v ∈ l, g = l.filter fun u => u.vmId = v.vmId) :
    ∃ e, vmEntry d g = some e ∧ (∀ v ∈ g, v.vmId = e.vmId) ∧
      (GroupsVolumes g e.volumes ↔ Contiguous Version.volume g) := by
  obtain ⟨v, hv, rfl⟩ := hg
  have hvm (u : Version) (hu : u ∈ l.filter fun u => u.vmId = v.vmId) : u.vmId = v.vmId :=
    of_decide_eq_true (List.mem_filter.mp hu).2
  obtain ⟨e, he, hid, hvolumes⟩ := vmEntry_eq_some h
    (List.ne_nil_of_mem (List.mem_filter.mpr ⟨hv, decide_eq_true rfl⟩))
    (fun u hu => hl u (List.mem_of_mem_filter hu)) hvm
  exact ⟨e, he, fun u hu => (hvm u hu).trans hid.symm, hvolumes⟩

theorem eq_of_id {α κ : Type} {f : α → κ} {l : List α} (h : (l.map f).Nodup) {a b : α}
    (ha : a ∈ l) (hb : b ∈ l) (hab : f a = f b) : a = b :=
  List.inj_on_of_nodup_map h ha hb hab

theorem ownerOf_eq_some (h : Related d) {storage : Storage} (hs : storage ∈ d.storages) :
    ∃ userName, ∀ v : Version, v.storageId = storage.id →
      ownerOf d v = some (storage.name, userName) := by
  obtain ⟨user, -, huser, -⟩ : ∃ u ∈ d.users,
      (d.users.find? fun u => u.id = storage.userId) = some u ∧ _ := by
    apply find?_of_mem
    obtain ⟨u, hmem, hu⟩ := h.user storage hs
    exact ⟨u, hmem, decide_eq_true hu⟩
  refine ⟨user.userName, fun v hv => ?_⟩
  obtain ⟨s, hmem, hfind, hid⟩ : ∃ s ∈ d.storages, d.getStorage v.storageId = some s ∧ _ := by
    apply find?_of_mem
    exact ⟨storage, hs, decide_eq_true hv.symm⟩
  obtain rfl : s = storage := eq_of_id h.storageIds hmem hs ((of_decide_eq_true hid).trans hv)
  unfold ownerOf
  simp only [hfind, huser, Option.bind_eq_bind, Option.bind_some]
  rfl

/-- All versions of a storage give its name. -/
theorem getLast?_owners (h : Related d) {storage : Storage} (hs : storage ∈ d.storages)
    (hne : l ≠ []) (hstorage : ∀ v ∈ l, v.storageId = storage.id) :
    ∃ owners userName, l.mapM (ownerOf d) = some owners ∧
      owners.getLast? = some (storage.name, userName) := by
  obtain ⟨userName, howner⟩ := ownerOf_eq_some h hs
  refine ⟨_, userName, mapM_eq_some_map fun v hv => howner v (hstorage v hv), ?_⟩
  rw [List.getLast?_map, List.getLast?_eq_some_getLast hne]
  rfl

/-- The VMs of a storage are listed well exactly if the volumes of each are. -/
theorem storageEntry_eq_some (h : Related d) {storage : Storage} (hs : storage ∈ d.storages)
    (hne : l ≠ []) (hl : ∀ v ∈ l, v ∈ d.versions) (hstorage : ∀ v ∈ l, v.storageId = storage.id) :
    ∃ e, storageEntry d l = some e ∧ e.storageName = storage.name ∧
      (GroupsVms l e.vms ↔
        ∀ vmId, Contiguous Version.volume (l.filter fun v => v.vmId = vmId)) := by
  have hperm := List.perm_insertionSort (fun a b : Version => a.vmId ≤ b.vmId) l
  have hruns := runs_groupby Version.vmId (l.insertionSort fun a b => a.vmId ≤ b.vmId)
  obtain ⟨entry, hentries, hentry⟩ := exists_mapM_eq fun g hg =>
    vmEntry_of_group h hl (mem_groupby_sorted.mp hg)
  obtain ⟨owners, userName, howners, hlast⟩ := getLast?_owners h hs
    (fun hnil => hne ((hnil ▸ hperm).nil_eq).symm)
    fun v hv => hstorage v (hperm.mem_iff.mp hv)
  refine ⟨⟨userName, storage.name, (groupby Version.vmId
    (l.insertionSort fun a b => a.vmId ≤ b.vmId)).map entry⟩, ?_, rfl, ?_⟩
  · unfold storageEntry
    simp only [hentries, howners, hlast, Option.bind_eq_bind, Option.bind_some]
    rfl
  · show Listed _ _ _ _ _ ↔ _
    rw [← listed_sorted, listed_iff hruns fun g hg => (hentry g hg).1,
      and_iff_right (apart_sorted Version.vmId l)]
    constructor
    · intro hgood vmId a b c habc hac
      have ha := List.mem_filter.mp (habc.subset (List.mem_cons_self (a := a)))
      obtain rfl : a.vmId = vmId := of_decide_eq_true ha.2
      have hg : (l.filter fun u => u.vmId = a.vmId) ∈
          groupby Version.vmId (l.insertionSort fun a b => a.vmId ≤ b.vmId) :=
        mem_groupby_sorted.mpr ⟨a, ha.1, rfl⟩
      exact (hentry _ hg).2.mp (hgood _ hg) a b c habc hac
    · intro hall g hg
      obtain ⟨v, -, rfl⟩ := mem_groupby_sorted.mp hg
      exact (hentry _ hg).2.mpr (hall v.vmId)

/-! ### The dictionary of the storages -/

theorem foldl_start {users : List User} {dict result : List (String × StorageVersions)}
    (hresult : users.foldl (fun dict user =>
      Json.setItem user.userName ⟨user.userName, user.userName, []⟩ dict) dict = result)
    (hn : (dict.map Prod.fst).Nodup) (hstart : ∀ x ∈ dict, x.2 = ⟨x.1, x.1, []⟩) :
    (result.map Prod.fst).Nodup ∧ (∀ x ∈ result, x.2 = ⟨x.1, x.1, []⟩) ∧
      ∀ k, k ∈ result.map Prod.fst ↔ k ∈ dict.map Prod.fst ∨ k ∈ users.map User.userName := by
  induction users generalizing dict with
  | nil =>
    obtain rfl : dict = result := hresult
    exact ⟨hn, hstart, fun k => by simp⟩
  | cons user users ih =>
    have hset : ∀ x ∈ Json.setItem user.userName ⟨user.userName, user.userName, []⟩ dict,
        x.2 = ⟨x.1, x.1, []⟩ := by
      intro x hx
      cases (Json.mem_setItem hn).mp hx with
      | inl heq => rw [heq]
      | inr hold => exact hstart x hold.2
    obtain ⟨hnodup, hvalues, hkeys⟩ := ih hresult (Json.nodup_setItem hn) hset
    refine ⟨hnodup, hvalues, fun k => ?_⟩
    rw [hkeys, Json.mem_keys_setItem, List.map_cons, List.mem_cons]
    tauto

theorem foldl_entries {entries : List StorageVersions}
    {dict result : List (String × StorageVersions)}
    (hresult : entries.foldl (fun dict e => Json.setItem e.storageName e dict) dict = result)
    (hn : (dict.map Prod.fst).Nodup)
    (he : (entries.map StorageVersions.storageName).Nodup) :
    (result.map Prod.fst).Nodup ∧ ∀ x, x ∈ result ↔ (x.2 ∈ entries ∧ x.1 = x.2.storageName) ∨
      (x ∈ dict ∧ x.1 ∉ entries.map StorageVersions.storageName) := by
  induction entries generalizing dict with
  | nil =>
    obtain rfl : dict = result := hresult
    exact ⟨hn, fun x => by simp⟩
  | cons e entries ih =>
    rw [List.map_cons, List.nodup_cons] at he
    have hset : ((Json.setItem e.storageName e dict).map Prod.fst).Nodup := Json.nodup_setItem hn
    obtain ⟨hnodup, hmem⟩ := ih hresult hset he.2
    refine ⟨hnodup, fun x => ?_⟩
    rw [hmem, Json.mem_setItem hn, List.map_cons, List.mem_cons, List.mem_cons]
    obtain ⟨k, s⟩ := x
    constructor
    · rintro (⟨hs, hk⟩ | ⟨heq | ⟨hne, hold⟩, hk⟩)
      · exact .inl ⟨.inr hs, hk⟩
      · cases heq
        exact .inl ⟨.inl rfl, rfl⟩
      · exact .inr ⟨hold, not_or.mpr ⟨hne, hk⟩⟩
    · rintro (⟨hs | hs, hk⟩ | ⟨hold, hk⟩)
      · obtain rfl : s = e := hs
        obtain rfl : k = s.storageName := hk
        exact .inr ⟨.inl rfl, he.1⟩
      · exact .inl ⟨hs, hk⟩
      · exact .inr ⟨.inr ⟨fun heq => hk (.inl heq), hold⟩, fun hmem => hk (.inr hmem)⟩

/-- The versions of the selected storages, those of one storage together. -/
def storageGroups (d : Db) (users : List User) : List (List Version) :=
  groupby Version.storageId ((d.versions.filter fun v =>
    v.storageId ∈ (selected d users).map Storage.id).insertionSort
      fun a b => a.storageId ≤ b.storageId)

theorem mem_versionsOf {storage : Storage} {v : Version} :
    v ∈ versionsOf d storage ↔ v ∈ d.versions ∧ v.storageId = storage.id := by
  rw [versionsOf, List.mem_filter, decide_eq_true_eq]

theorem filter_selected {users : List User} {storage : Storage} (hs : storage ∈ selected d users) :
    (d.versions.filter fun v => v.storageId ∈ (selected d users).map Storage.id).filter
      (fun v => v.storageId = storage.id) = versionsOf d storage := by
  rw [List.filter_filter]
  apply List.filter_congr
  intro v _
  by_cases hv : v.storageId = storage.id
  · simp only [hv, decide_true, Bool.true_and, decide_eq_true_eq]
    exact List.mem_map_of_mem hs
  · simp [hv]

theorem mem_storageGroups {users : List User} {g : List Version} : g ∈ storageGroups d users ↔
    ∃ storage ∈ selected d users, g = versionsOf d storage ∧ g ≠ [] := by
  rw [storageGroups, mem_groupby_sorted]
  constructor
  · rintro ⟨v, hv, rfl⟩
    have hsame : v ∈ (d.versions.filter fun u =>
        u.storageId ∈ (selected d users).map Storage.id).filter
          fun u => u.storageId = v.storageId :=
      List.mem_filter.mpr ⟨hv, decide_eq_true rfl⟩
    obtain ⟨storage, hs, hid⟩ :=
      List.mem_map.mp (of_decide_eq_true (List.mem_filter.mp hv).2)
    refine ⟨storage, hs, ?_, List.ne_nil_of_mem hsame⟩
    rw [← hid, filter_selected hs]
  · rintro ⟨storage, hs, rfl, hne⟩
    obtain ⟨v, hv⟩ := List.exists_mem_of_ne_nil _ hne
    rw [← filter_selected hs] at hv ⊢
    obtain ⟨hmem, hid⟩ := List.mem_filter.mp hv
    refine ⟨v, hmem, ?_⟩
    rw [of_decide_eq_true hid]

theorem versionsOf_inj (h : Related d) {s t : Storage} (hs : s ∈ d.storages) (ht : t ∈ d.storages)
    (heq : versionsOf d s = versionsOf d t) (hne : versionsOf d s ≠ []) : s = t := by
  obtain ⟨v, hv⟩ := List.exists_mem_of_ne_nil _ hne
  have hid := (mem_versionsOf.mp hv).2
  rw [heq] at hv
  exact eq_of_id h.storageIds hs ht (hid.symm.trans (mem_versionsOf.mp hv).2)

/-- The entry of a selected storage. -/
structure EntryOf (d : Db) (storage : Storage) (e : StorageVersions) : Prop where
  name : e.storageName = storage.name
  groups : GroupsVms (versionsOf d storage) e.vms ↔ ∀ vmId, Contiguous Version.volume
    ((versionsOf d storage).filter fun v => v.vmId = vmId)

/-- Each selected storage with versions has its entry. -/
theorem storageEntries_eq_some (h : Related d) (users : List User) :
    ∃ entries, (storageGroups d users).mapM (storageEntry d) = some entries ∧
      (entries.map StorageVersions.storageName).Nodup ∧
      (∀ e ∈ entries, ∃ storage ∈ selected d users,
        versionsOf d storage ≠ [] ∧ EntryOf d storage e) ∧
      ∀ storage ∈ selected d users, versionsOf d storage ≠ [] →
        ∃ e ∈ entries, EntryOf d storage e := by
  have hentries : ∀ g ∈ storageGroups d users, ∃ e, storageEntry d g = some e ∧
      ∃ storage ∈ selected d users, g = versionsOf d storage ∧ g ≠ [] ∧ EntryOf d storage e := by
    intro g hg
    obtain ⟨storage, hs, rfl, hne⟩ := mem_storageGroups.mp hg
    obtain ⟨e, he, hname, hgroups⟩ := storageEntry_eq_some h (List.mem_of_mem_filter hs) hne
      (fun v hv => (mem_versionsOf.mp hv).1) fun v hv => (mem_versionsOf.mp hv).2
    exact ⟨e, he, storage, hs, rfl, hne, hname, hgroups⟩
  obtain ⟨entry, hmap, hentry⟩ := exists_mapM_eq hentries
  refine ⟨_, hmap, ?_, ?_, ?_⟩
  · rw [List.map_map, List.Nodup, List.pairwise_map]
    refine (apart_sorted Version.storageId _).imp_of_mem fun {g f} hg hf hapart heq => ?_
    obtain ⟨s, hs, rfl, hne, hes⟩ := hentry g hg
    obtain ⟨t, ht, rfl, -, het⟩ := hentry f hf
    obtain rfl : s = t := eq_of_id h.storageNames (List.mem_of_mem_filter hs)
      (List.mem_of_mem_filter ht) ((hes.name.symm.trans heq).trans het.name)
    obtain ⟨v, hv⟩ := List.exists_mem_of_ne_nil _ hne
    exact hapart v hv v hv rfl
  · intro e he
    obtain ⟨g, hg, rfl⟩ := List.mem_map.mp he
    obtain ⟨storage, hs, rfl, hne, hentry⟩ := hentry g hg
    exact ⟨storage, hs, hne, hentry⟩
  · intro storage hs hne
    have hg := mem_storageGroups.mpr ⟨storage, hs, rfl, hne⟩
    obtain ⟨t, ht, heq, -, hentry⟩ := hentry _ hg
    obtain rfl : storage = t := versionsOf_inj h (List.mem_of_mem_filter hs)
      (List.mem_of_mem_filter ht) heq hne
    exact ⟨_, List.mem_map_of_mem hg, hentry⟩

theorem entryOf_nil {storage : Storage} (hempty : versionsOf d storage = []) :
    EntryOf d storage ⟨storage.name, storage.name, []⟩ := by
  refine ⟨rfl, ?_⟩
  rw [hempty]
  refine iff_of_true ⟨.nil, fun k => by simp, fun e he => by cases he⟩ fun vmId => ?_
  rintro a b c (_ | _)

/-- A storage with versions has its entry, and every other name the empty one. -/
theorem storagesDict_eq_some (h : Related d) (users : List User) :
    ∃ dict, storagesDict d users = some dict ∧ (dict.map Prod.fst).Nodup ∧
      (∀ x ∈ dict, x.1 = x.2.storageName) ∧
      (∀ user ∈ users, user.userName ∈ dict.map Prod.fst) ∧
      (∀ storage ∈ selected d users, ∃ e, (storage.name, e) ∈ dict ∧ EntryOf d storage e) ∧
      ∀ x ∈ dict, (∀ storage ∈ selected d users, x.1 ≠ storage.name) → x.2.vms = [] := by
  obtain ⟨entries, hentries, hnames, hentry, hall⟩ := storageEntries_eq_some h users
  obtain ⟨start, hresult⟩ : ∃ start, users.foldl (fun dict user => Json.setItem user.userName
      (⟨user.userName, user.userName, []⟩ : StorageVersions) dict) [] = start := ⟨_, rfl⟩
  obtain ⟨hstartNodup, hstart, hkeys⟩ := foldl_start hresult .nil (by simp)
  obtain ⟨dict, hresult'⟩ : ∃ dict, entries.foldl (fun dict e =>
      Json.setItem e.storageName e dict) start = dict := ⟨_, rfl⟩
  obtain ⟨hnodup, hdict⟩ := foldl_entries hresult' hstartNodup hnames
  -- A name without an entry keeps the empty one.
  have hempty {name : String} (hname : name ∈ users.map User.userName)
      (hno : name ∉ entries.map StorageVersions.storageName) :
      (name, ⟨name, name, []⟩) ∈ dict := by
    obtain ⟨x, hx, rfl⟩ := List.mem_map.mp ((hkeys name).mpr (.inr hname))
    rw [← hstart x hx]
    exact (hdict x).mpr (.inr ⟨hx, hno⟩)
  refine ⟨dict, ?_, hnodup, ?_, ?_, ?_, ?_⟩
  · unfold storageGroups at hentries
    unfold storagesDict
    simp only [hentries, hresult, hresult', Option.bind_eq_bind, Option.bind_some]
    rfl
  · intro x hx
    cases (hdict x).mp hx with
    | inl hnew => exact hnew.2
    | inr hold => rw [hstart x hold.1]
  · intro user hu
    by_cases hin : user.userName ∈ entries.map StorageVersions.storageName
    · obtain ⟨e, he, hname⟩ := List.mem_map.mp hin
      exact List.mem_map.mpr ⟨(e.storageName, e), (hdict _).mpr (.inl ⟨he, rfl⟩), hname⟩
    · exact List.mem_map_of_mem (hempty (List.mem_map_of_mem hu) hin)
  · intro storage hs
    by_cases hne : versionsOf d storage = []
    · refine ⟨_, hempty (of_decide_eq_true (List.mem_filter.mp hs).2) ?_, entryOf_nil hne⟩
      intro hin
      obtain ⟨e, he, hname⟩ := List.mem_map.mp hin
      obtain ⟨t, ht, htne, hte⟩ := hentry e he
      obtain rfl : storage = t := eq_of_id h.storageNames (List.mem_of_mem_filter hs)
        (List.mem_of_mem_filter ht) (hname.symm.trans hte.name)
      exact htne hne
    · obtain ⟨e, he, hentry⟩ := hall storage hs hne
      exact ⟨e, (hdict _).mpr (.inl ⟨he, hentry.name.symm⟩), hentry⟩
  · intro x hx hnot
    cases (hdict x).mp hx with
    | inl hnew =>
      obtain ⟨storage, hs, -, hname⟩ := hentry x.2 hnew.1
      exact absurd (hnew.2.trans hname.name) (hnot storage hs)
    | inr hold => rw [hstart x hold.1]

theorem not_interleaved_iff {users : List User} : ¬ Interleaved d users ↔
    ∀ storage ∈ selected d users, ∀ vmId, Contiguous Version.volume
      ((versionsOf d storage).filter fun v => v.vmId = vmId) := by
  constructor
  · intro hnot storage hs vmId a b c habc hac
    have hall : ∀ v ∈ [a, b, c], v.vmId = vmId ∧ v.storageId = storage.id := by
      intro v hv
      have hmem := List.mem_filter.mp (habc.subset hv)
      exact ⟨of_decide_eq_true hmem.2, of_decide_eq_true (List.mem_filter.mp hmem.1).2⟩
    obtain ⟨ha, hb, hc⟩ : (a.vmId = vmId ∧ a.storageId = storage.id) ∧
        (b.vmId = vmId ∧ b.storageId = storage.id) ∧ c.vmId = vmId ∧ c.storageId = storage.id := by
      simpa using hall
    by_contra hne
    refine hnot ⟨a, b, c, habc.trans ((List.filter_sublist).trans List.filter_sublist),
      ⟨storage, hs, ha.2⟩, ?_, ?_, ?_, ?_, hac, hne⟩
    · rw [hb.2, ha.2]
    · rw [hc.2, ha.2]
    · rw [hb.1, ha.1]
    · rw [hc.1, ha.1]
  · rintro hall ⟨a, b, c, habc, ⟨storage, hs, ha⟩, hb, hc, hbv, hcv, hac, hne⟩
    refine hne (hall storage hs a.vmId a b c ?_ hac)
    have hsub := (habc.filter fun v => v.storageId = storage.id).filter fun v => v.vmId = a.vmId
    simpa [versionsOf, List.filter_filter, hb, hc, ha, hbv, hcv] using hsub

theorem listAllVersions_eq_some (h : Related d) {ctx : Context} {userName : Option String}
    {answers : ℕ → List User} {page pageSize : Option ℤ}
    (hanswer : (usersQuery ctx userName d).Answer (answers 0)) :
    ∃ response, listAllVersions ctx userName answers page pageSize d = some response ∧
      (Grouped d ((usersQuery ctx userName d).dumpRawObject answers page pageSize).1 response ↔
        ∀ storage ∈ selected d ((usersQuery ctx userName d).dumpRawObject answers page pageSize).1,
          ∀ vmId, Contiguous Version.volume
            ((versionsOf d storage).filter fun v => v.vmId = vmId)) := by
  unfold listAllVersions
  have hown {user : User} (hadmin : ctx.isAdmin = false)
      (hu : user ∈ ((usersQuery ctx userName d).dumpRawObject answers page pageSize).1) :
      user.userName = ctx.user.userName := by
    have hrow := Query.rows_of_dumpRawObject hanswer.perm hu
    have hboth : user ∈ d.users ∧ user.userName = ctx.user.userName := by
      simpa [usersQuery, Query.build_s, hadmin] using hrow
    exact hboth.2
  generalize (usersQuery ctx userName d).dumpRawObject answers page pageSize = dumped at hown
  obtain ⟨users, objects, prevPage⟩ := dumped
  dsimp only at hown ⊢
  by_cases hempty : users = []
  · rw [if_pos hempty]
    have hselected : selected d users = [] := by simp [selected, hempty]
    refine ⟨none, rfl, iff_of_true hselected ?_⟩
    intro storage hs
    rw [hselected] at hs
    cases hs
  · rw [if_neg hempty]
    obtain ⟨dict, hdict, hnodup, hnames, hkeys, hstorages, hothers⟩ := storagesDict_eq_some h users
    rw [hdict]
    cases hadmin : ctx.isAdmin with
    | true =>
      refine ⟨_, rfl, ?_⟩
      constructor
      · rintro ⟨-, hgood, -⟩ storage hs
        obtain ⟨e, he, hename, hvms⟩ := hgood storage hs
        obtain ⟨e', hmem, hentry⟩ := hstorages storage hs
        obtain ⟨x, hx, hxe⟩ := List.mem_map.mp he
        have hkey : x.1 = storage.name := by rw [hnames x hx, hxe, hename]
        obtain rfl : e = e' := by
          rw [← hxe]
          exact congrArg Prod.snd (eq_of_id hnodup hx hmem hkey)
        exact hentry.groups.mp hvms
      · intro hall
        refine ⟨?_, fun storage hs => ?_, fun e he hnot => ?_⟩
        · rw [List.map_map]
          have hmap : dict.map (StorageVersions.storageName ∘ Prod.snd) = dict.map Prod.fst :=
            List.map_congr_left fun x hx => (hnames x hx).symm
          rw [hmap]
          exact hnodup
        · obtain ⟨e, hmem, hentry⟩ := hstorages storage hs
          exact ⟨e, List.mem_map.mpr ⟨_, hmem, rfl⟩, (hnames _ hmem).symm,
            hentry.groups.mpr (hall storage hs)⟩
        · obtain ⟨x, hx, rfl⟩ := List.mem_map.mp he
          apply hothers x hx
          rw [hnames x hx]
          exact hnot
    | false =>
      obtain ⟨user, hu⟩ := List.exists_mem_of_ne_nil users hempty
      have hkey := hkeys user hu
      rw [hown hadmin hu] at hkey
      obtain ⟨x, hx, hxkey⟩ := List.mem_map.mp hkey
      have hlookup : dict.lookup ctx.user.userName = some x.2 := by
        rw [Json.lookup_eq_some hnodup, ← hxkey]
        exact hx
      have hselected {storage : Storage} (hs : storage ∈ selected d users) :
          storage.name = ctx.user.userName := by
        have hname := of_decide_eq_true (List.mem_filter.mp hs).2
        obtain ⟨u, hmem, hu⟩ := List.mem_map.mp hname
        rw [← hu, hown hadmin hmem]
      have hentry {storage : Storage} (hs : storage ∈ selected d users) :
          GroupsVms (versionsOf d storage) x.2.vms ↔ ∀ vmId, Contiguous Version.volume
            ((versionsOf d storage).filter fun v => v.vmId = vmId) := by
        obtain ⟨e, hmem, hentry⟩ := hstorages storage hs
        have hxe := eq_of_id hnodup hx hmem (hxkey.trans (hselected hs).symm)
        rw [hxe]
        exact hentry.groups
      refine ⟨some ⟨.vms x.2.vms, objects.hasNext, objects.nextNum, prevPage⟩, ?_, ?_⟩
      · show ((dict.lookup ctx.user.userName).map fun e => Listing.vms e.vms) >>= (fun data =>
          some (some (⟨data, objects.hasNext, objects.nextNum, prevPage⟩ : ListingPage))) = _
        rw [hlookup]
        rfl
      constructor
      · rintro ⟨hgood, -⟩ storage hs
        exact (hentry hs).mp (hgood storage hs)
      · intro hall
        refine ⟨fun storage hs => (hentry hs).mpr (hall storage hs), fun hnone => ?_⟩
        apply hothers x hx
        rw [hnone]
        simp

/-- The listing is right exactly where no version of a volume stands between two of another one
of its VM. -/
theorem grouped_iff (d : Db) (h : Related d) (ctx : Context) (userName : Option String)
    (answers : ℕ → List User) (page pageSize : Option ℤ)
    (hanswers : ∀ i, (usersQuery ctx userName d).Answer (answers i)) :
    ∃ response, listAllVersions ctx userName answers page pageSize d = some response ∧
      (Grouped d ((usersQuery ctx userName d).dumpRawObject answers page pageSize).1 response ↔
        ¬ Interleaved d ((usersQuery ctx userName d).dumpRawObject answers page pageSize).1) := by
  obtain ⟨response, hresponse, hgrouped⟩ := listAllVersions_eq_some h (hanswers 0)
  refine ⟨response, hresponse, ?_⟩
  rw [hgrouped, not_interleaved_iff]

/-- A VM with two volumes, backed up in turn. -/
def alternating : Db where
  users := [⟨1, "alice"⟩]
  vms := [⟨1, "vm", none, 1⟩]
  nodes := []
  storages := [⟨1, "alice", 1, 1⟩]
  volumeGroups := []
  volumeBackupGroups := []
  scheduleJobs := []
  volumeScheduleJobs := []
  versions := [⟨1, "v1", "vol-1", none, 1, 1, 4096, .valid, false, []⟩,
    ⟨2, "v2", "vol-2", none, 1, 1, 4096, .valid, false, []⟩,
    ⟨3, "v3", "vol-1", none, 1, 1, 4096, .valid, false, []⟩]

theorem related_alternating : Related alternating :=
  ⟨by decide, by decide, by decide, by decide, by decide, by decide⟩

def caller : Context := ⟨⟨1, "alice"⟩, false⟩

theorem answer_alternating (i : ℕ) :
    (usersQuery caller none alternating).Answer ((fun _ => alternating.users) i) :=
  ⟨.refl _, by simp [usersQuery, Query.build_s, alternating]⟩

theorem grouped_iff_alternating :
    ∃ response, listAllVersions caller none (fun _ => alternating.users) none none alternating =
        some response ∧
      (Grouped alternating ((usersQuery caller none alternating).dumpRawObject
          (fun _ => alternating.users) none none).1 response ↔
        ¬ Interleaved alternating ((usersQuery caller none alternating).dumpRawObject
          (fun _ => alternating.users) none none).1) :=
  grouped_iff alternating related_alternating caller none _ none none answer_alternating

/-- The first volume is listed twice, each time with one of its versions. -/
theorem volume_listed_twice : ¬ ∀ (d : Db) (ctx : Context) (userName : Option String)
    (answers : ℕ → List User) (page pageSize : Option ℤ), Related d →
    (∀ i, (usersQuery ctx userName d).Answer (answers i)) →
    ∃ response, listAllVersions ctx userName answers page pageSize d = some response ∧
      Grouped d ((usersQuery ctx userName d).dumpRawObject answers page pageSize).1 response := by
  intro h
  have hanswers := answer_alternating
  obtain ⟨response, hresponse, hgrouped⟩ := h alternating caller none
    (fun _ => alternating.users) none none related_alternating hanswers
  obtain ⟨response', hresponse', hiff⟩ := @listAllVersions_eq_some _ related_alternating
    caller none (fun _ => alternating.users) none none (hanswers 0)
  obtain rfl : response = response' := Option.some.inj (hresponse.symm.trans hresponse')
  have husers : ((usersQuery caller none alternating).dumpRawObject
      (fun _ => alternating.users) none none).1 = alternating.users := by
    rw [Query.dumpRawObject_eq (hanswers 0).perm]
    decide
  rw [husers] at hiff hgrouped
  have hcontiguous := hiff.mp hgrouped ⟨1, "alice", 1, 1⟩ (by decide) 1
  have heq := hcontiguous ⟨1, "v1", "vol-1", none, 1, 1, 4096, .valid, false, []⟩
    ⟨2, "v2", "vol-2", none, 1, 1, 4096, .valid, false, []⟩
    ⟨3, "v3", "vol-1", none, 1, 1, 4096, .valid, false, []⟩ (by decide) rfl
  exact absurd heq (by decide)

end VersionController

end Benji.Services
