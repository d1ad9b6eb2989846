import Benji.Lib.Steps
import Benji.Storage.Codec

/-! `ReadCacheStorageBase._read`: reads of several threads through one cache, whose entries may
be lost at any moment. -/
namespace Benji
open Lib

namespace ReadCache
open Codec

abbrev Metadata := List (String × Json)

/-- What is kept in the cache; data and metadata share one space of keys. -/
inductive Value where
  | data (bytes : Bytes)
  | metadata (items : Metadata)

/-- The truth value in Python. -/
def Value.truthy : Value → Bool
  | data bytes => !bytes.isEmpty
  | metadata items => !items.isEmpty

/-- The data and the metadata returned. -/
abbrev Result := Option Value × Value

abbrev Entries := Text → Option Value

def Entries.set (entries : Entries) (key : Text) (value : Value) : Entries := fun k =>
  if k = key then some value else entries k

def Entries.evict (entries : Entries) (key : Text) : Entries := fun k =>
  if k = key then none else entries k

/-- A call of `_read`, for a block that is not sparse. -/
structure Call where
  block : Block String
  uid : BlockUid
  uid_eq : block.uid = some uid
  metadataOnly : Bool

def Call.key (c : Call) : Text := (Keys.StorageObject.block c.uid).storageObjectToPath

def Call.metadataKey (c : Call) : Text := c.key ++ Keys.metaSuffix

/-- `StorageBase._read`. -/
def uncached (cfg : Config) (files : Files) (c : Call) : Except CodecError Result :=
  (read cfg c.block c.metadataOnly files).map fun r => (r.1.map .data, .metadata r.2)

/-- Where in `_read` a call is. -/
inductive Phase where
  | start
  | getMetadata
  | getData (metadata : Value)
  | fetch
  | setMetadata (result : Result)
  | setData (result : Result)
  | done (result : Except CodecError Result)

/-- `enabled` is whether the cache was there and switched on when the call looked, `fetched`
whether the call has read the storage. -/
structure Thread where
  call : Call
  phase : Phase := .start
  enabled : Bool := false
  fetched : Bool := false

/-- The cache is `none` where it is not configured. -/
structure State where
  readCache : Option Entries
  useReadCache : Bool := true
  threads : List Thread := []

inductive Event where
  | read (c : Call)
  | step (i : ℕ)
  | useReadCache (enable : Bool)
  | evict (key : Text)

def get (readCache : Option Entries) (key : Text) : Option Value :=
  readCache.bind fun entries => entries key

/-- What a call does next, with what it puts into the cache. -/
def Thread.step (cfg : Config) (files : Files) (s : State) (t : Thread) :
    Option (Thread × Option (Text × Value)) :=
  match t.phase with
  | .start =>
    let enabled := s.readCache.isSome && s.useReadCache
    some ({ t with phase := if enabled then .getMetadata else .fetch, enabled := enabled }, none)
  | .getMetadata =>
    match (get s.readCache t.call.metadataKey).filter Value.truthy with
    | some metadata =>
      let phase := if t.call.metadataOnly then Phase.done (.ok (none, metadata))
        else .getData metadata
      some ({ t with phase := phase }, none)
    | none => some ({ t with phase := .fetch }, none)
  | .getData metadata =>
    match (get s.readCache t.call.key).filter Value.truthy with
    | some data => some ({ t with phase := .done (.ok (some data, metadata)) }, none)
    | none => some ({ t with phase := .fetch }, none)
  | .fetch =>
    match uncached cfg files t.call with
    | .error e => some ({ t with phase := .done (.error e), fetched := true }, none)
    | .ok r =>
      -- What was read is put into the cache also when the cache is switched off.
      let phase := if s.readCache.isSome then Phase.setMetadata r else .done (.ok r)
      some ({ t with phase := phase, fetched := true }, none)
  | .setMetadata r =>
    let phase := if t.call.metadataOnly then Phase.done (.ok r) else .setData r
    some ({ t with phase := phase }, some (t.call.metadataKey, r.2))
  | .setData r =>
    some ({ t with phase := .done (.ok r) }, r.1.map fun data => (t.call.key, data))
  | .done _ => none

def State.put (s : State) : Option (Text × Value) → State
  | none => s
  | some (key, value) => { s with readCache := s.readCache.map (·.set key value) }

def next (cfg : Config) (files : Files) (s : State) : Event → Option State
  | .read c => some { s with threads := s.threads ++ [{ call := c }] }
  | .step i => do
    let t ← s.threads[i]?
    let (t, entry) ← t.step cfg files s
    return { s with threads := s.threads.set i t }.put entry
  | .useReadCache enable => some { s with useReadCache := enable }
  | .evict key => some { s with readCache := s.readCache.map (·.evict key) }

/-- The storage right after it was set up, with or without a cache. -/
def init (configured : Bool) : State where
  readCache := if configured then some fun _ => none else none

section
variable {cfg : Config} {files : Files} {key : Text} {items : Metadata} {bytes : Bytes}
  {c : Call} {s : State} {t : Thread}

/-- The metadata that a read of the key finds. -/
def MetadataAt (cfg : Config) (files : Files) (key : Text) (items : Metadata) : Prop :=
  ∃ data metadataJson, files key = some data ∧ files (key ++ Keys.metaSuffix) = some metadataJson ∧
    decodeMetadata cfg metadataJson key data.length = .ok items ∧
    (items.lookup "checksum").isNone = false

/-- The data that a full read of the key finds. -/
def DataAt (cfg : Config) (files : Files) (key : Text) (bytes : Bytes) : Prop :=
  ∃ data items, files key = some data ∧ MetadataAt cfg files key items ∧
    decapsulateRecorded cfg data items = .ok bytes

theorem MetadataAt.unique {other : Metadata} (h : MetadataAt cfg files key items)
    (h' : MetadataAt cfg files key other) : items = other := by
  obtain ⟨data, js, hd, hj, hdec, -⟩ := h
  obtain ⟨data', js', hd', hj', hdec', -⟩ := h'
  cases hd.symm.trans hd'
  cases hj.symm.trans hj'
  cases hdec.symm.trans hdec'
  rfl

theorem blockKey_call (c : Call) : blockKey c.block = .ok c.key := by
  rw [blockKey, c.uid_eq]
  rfl

theorem uncached_eq_ok {r : Result} : uncached cfg files c = .ok r ↔
    ∃ items, r.2 = .metadata items ∧ MetadataAt cfg files c.key items ∧
      if c.metadataOnly then r.1 = none
      else ∃ bytes, r.1 = some (.data bytes) ∧ DataAt cfg files c.key bytes := by
  obtain ⟨d, m⟩ := r
  have hread : uncached cfg files c = .ok (d, m) ↔ ∃ d' items,
      read cfg c.block c.metadataOnly files = .ok (d', items) ∧ d = d'.map .data ∧
        m = .metadata items := by
    rw [uncached]
    cases read cfg c.block c.metadataOnly files with
    | error e => simp [Except.map]
    | ok p =>
      simp only [Except.map, Except.ok.injEq, Prod.mk.injEq]
      constructor
      · rintro ⟨rfl, rfl⟩
        exact ⟨p.1, p.2, rfl, rfl, rfl⟩
      · rintro ⟨d', items, rfl, rfl, rfl⟩
        exact ⟨rfl, rfl⟩
  rw [hread]
  constructor
  · rintro ⟨d', items, h, rfl, rfl⟩
    simp only [Codec.read, blockKey_call, bind, Except.bind] at h
    cases hd : files c.key with
    | none => simp [hd] at h
    | some data =>
      cases hj : files (c.key ++ Keys.metaSuffix) with
      | none => simp [hd, hj] at h
      | some js =>
        simp only [hd, hj] at h
        cases hdec : decodeMetadata cfg js c.key data.length with
        | error e => simp [hdec, Except.mapError] at h
        | ok found =>
          simp only [hdec, Except.mapError] at h
          split_ifs at h with hc hm
          · have hmeta : MetadataAt cfg files c.key found :=
              ⟨data, js, hd, hj, hdec, by simpa using hc⟩
            cases h
            refine ⟨_, rfl, hmeta, ?_⟩
            rw [if_pos hm]
            rfl
          · cases hb : decapsulateRecorded cfg data found with
            | error e => simp [hb] at h
            | ok bytes =>
              have hmeta : MetadataAt cfg files c.key found :=
                ⟨data, js, hd, hj, hdec, by simpa using hc⟩
              have hdata : DataAt cfg files c.key bytes := ⟨data, found, hd, hmeta, hb⟩
              simp only [hb] at h
              cases h
              refine ⟨_, rfl, hmeta, ?_⟩
              rw [if_neg hm]
              exact ⟨bytes, rfl, hdata⟩
  · rintro ⟨items, rfl, hmeta, hdata⟩
    have hm := hmeta
    obtain ⟨data, js, hd, hj, hdec, hc⟩ := hm
    split_ifs at hdata with hm
    · refine ⟨none, items, ?_, hdata, rfl⟩
      simp only [Codec.read, blockKey_call, bind, Except.bind, hd, hj, hdec, Except.mapError, hc,
        hm]
      rfl
    · obtain ⟨bytes, hbytes, data', items', hd', hmeta', hb⟩ := hdata
      cases hd.symm.trans hd'
      cases hmeta.unique hmeta'
      refine ⟨some bytes, items, ?_, hbytes, rfl⟩
      simp only [Codec.read, blockKey_call, bind, Except.bind, hd, hj, hdec, Except.mapError, hc,
        hm, hb]
      rfl

theorem dot_not_mem_key (c : Call) : '.' ∉ c.key := by
  intro hdot
  rw [Call.key, Keys.StorageObject.storageObjectToPath, Keys.toPath] at hdot
  obtain ⟨⟨-, h1, -⟩, -, h2, -⟩ :=
    Keys.dirs_plain (Keys.StorageObject.block c.uid).storageObjectToKey
  have htop : '.' ∉ (Keys.StorageObject.block c.uid).storagePrefix := by
    show '.' ∉ "blocks/".toList
    decide
  have hkey : '.' ∉ (Keys.StorageObject.block c.uid).storageObjectToKey := by
    show '.' ∉ Keys.hex16 c.uid.left ++ '-' :: Keys.hex16 c.uid.right
    simp only [List.mem_append, List.mem_cons, not_or]
    exact ⟨fun h => (Keys.mem_hex16 h).2.1 rfl, by decide, fun h => (Keys.mem_hex16 h).2.1 rfl⟩
  simp only [List.mem_append, List.mem_cons] at hdot
  rcases hdot with ((hdot | hdot) | hdot | hdot) | hdot | hdot
  · exact htop hdot
  · exact h1 hdot
  · cases hdot
  · exact h2 hdot
  · cases hdot
  · exact hkey hdot

theorem key_ne_metadataKey (c d : Call) : c.key ≠ d.metadataKey := by
  intro h
  have hdot : '.' ∈ d.metadataKey := List.mem_append_right _ (by decide)
  exact dot_not_mem_key c (h ▸ hdot)

theorem key_of_metadataKey {d : Call} (h : d.metadataKey = c.metadataKey) : d.key = c.key := by
  unfold Call.metadataKey at h
  exact List.append_cancel_right h

/-- Every entry is what a read of the storage would have returned. -/
def Faithful (cfg : Config) (files : Files) (entries : Entries) : Prop :=
  ∀ c : Call,
    (∀ v, entries c.metadataKey = some v →
      ∃ items, v = .metadata items ∧ MetadataAt cfg files c.key items) ∧
    ∀ v, entries c.key = some v → ∃ bytes, v = .data bytes ∧ DataAt cfg files c.key bytes

theorem faithful_evict {entries : Entries} (h : Faithful cfg files entries) (key : Text) :
    Faithful cfg files (entries.evict key) := by
  have hkeeps : ∀ k v, entries.evict key k = some v → entries k = some v := by
    intro k v hv
    rw [Entries.evict, Option.ite_none_left_eq_some] at hv
    exact hv.2
  intro c
  constructor
  · intro v hv
    exact (h c).1 v (hkeeps _ _ hv)
  · intro v hv
    exact (h c).2 v (hkeeps _ _ hv)

theorem faithful_setMetadata {entries : Entries} (h : Faithful cfg files entries)
    (hm : MetadataAt cfg files c.key items) :
    Faithful cfg files (entries.set c.metadataKey (.metadata items)) := by
  intro d
  constructor
  · intro v hv
    rw [Entries.set] at hv
    split_ifs at hv with hk
    · refine ⟨items, (Option.some.inj hv).symm, ?_⟩
      rw [key_of_metadataKey hk]
      exact hm
    · exact (h d).1 v hv
  · intro v hv
    rw [Entries.set, if_neg (key_ne_metadataKey d c)] at hv
    exact (h d).2 v hv

theorem faithful_setData {entries : Entries} (h : Faithful cfg files entries)
    (hd : DataAt cfg files c.key bytes) :
    Faithful cfg files (entries.set c.key (.data bytes)) := by
  intro d
  constructor
  · intro v hv
    rw [Entries.set, if_neg (key_ne_metadataKey c d).symm] at hv
    exact (h d).1 v hv
  · intro v hv
    rw [Entries.set] at hv
    split_ifs at hv with hk
    · refine ⟨bytes, (Option.some.inj hv).symm, ?_⟩
      rw [hk]
      exact hd
    · exact (h d).2 v hv

/-- What is known of a call in each phase. -/
def Thread.Sound (cfg : Config) (files : Files) (t : Thread) : Prop :=
  match t.phase with
  | .start => True
  | .getMetadata => t.enabled = true
  | .getData m => t.enabled = true ∧ t.call.metadataOnly = false ∧
      ∃ items, m = .metadata items ∧ MetadataAt cfg files t.call.key items
  | .fetch => True
  | .setMetadata r => t.fetched = true ∧ uncached cfg files t.call = .ok r
  | .setData r => t.fetched = true ∧ t.call.metadataOnly = false ∧
      uncached cfg files t.call = .ok r
  | .done r => r = uncached cfg files t.call ∧ (t.enabled = false → t.fetched = true)

structure Invariant (cfg : Config) (files : Files) (s : State) : Prop where
  faithful : ∀ entries, s.readCache = some entries → Faithful cfg files entries
  sound : ∀ t ∈ s.threads, t.Sound cfg files

theorem invariant_init (cfg : Config) (files : Files) (configured : Bool) :
    Invariant cfg files (init configured) where
  faithful := by
    intro entries h
    cases configured with
    | false => cases h
    | true =>
      cases h
      intro c
      constructor <;> simp
  sound := by simp [init]

theorem get_metadata {m : Value} (h : Invariant cfg files s)
    (hg : (get s.readCache c.metadataKey).filter Value.truthy = some m) :
    ∃ items, m = .metadata items ∧ MetadataAt cfg files c.key items := by
  obtain ⟨hv, -⟩ := Option.filter_eq_some_iff.mp hg
  obtain ⟨entries, hr, he⟩ := Option.bind_eq_some_iff.mp hv
  exact (h.faithful entries hr c).1 m he

theorem get_data {d : Value} (h : Invariant cfg files s)
    (hg : (get s.readCache c.key).filter Value.truthy = some d) :
    ∃ bytes, d = .data bytes ∧ DataAt cfg files c.key bytes := by
  obtain ⟨hv, -⟩ := Option.filter_eq_some_iff.mp hg
  obtain ⟨entries, hr, he⟩ := Option.bind_eq_some_iff.mp hv
  exact (h.faithful entries hr c).2 d he

theorem invariant_put {key : Text} {value : Value} (h : Invariant cfg files s)
    (hset : ∀ entries, Faithful cfg files entries → Faithful cfg files (entries.set key value)) :
    Invariant cfg files (s.put (some (key, value))) where
  faithful := by
    intro entries he
    obtain ⟨old, hold, rfl⟩ := Option.map_eq_some_iff.mp he
    exact hset old (h.faithful old hold)
  sound := h.sound

/-- Every move of a call keeps what is known of it, and it puts only what it read into the
cache. -/
theorem thread_step {t u : Thread} {entry : Option (Text × Value)} (h : Invariant cfg files s)
    (ht : t.Sound cfg files) (hstep : t.step cfg files s = some (u, entry)) :
    u.Sound cfg files ∧ Invariant cfg files (s.put entry) := by
  obtain ⟨c, phase, enabled, fetched⟩ := t
  cases phase with
  | start =>
    simp only [Thread.step, Option.some.injEq, Prod.mk.injEq] at hstep
    obtain ⟨rfl, rfl⟩ := hstep
    refine ⟨?_, h⟩
    unfold Thread.Sound
    by_cases hon : (s.readCache.isSome && s.useReadCache) = true
    · simp [hon]
    · simp [hon]
  | getMetadata =>
    have hon : enabled = true := ht
    simp only [Thread.step] at hstep
    split at hstep
    · rename_i m hg
      obtain ⟨items, rfl, hm⟩ := get_metadata h hg
      simp only [Option.some.injEq, Prod.mk.injEq] at hstep
      obtain ⟨rfl, rfl⟩ := hstep
      refine ⟨?_, h⟩
      cases honly : c.metadataOnly with
      | true =>
        refine ⟨Eq.symm ?_, ?_⟩
        · exact uncached_eq_ok.mpr ⟨items, rfl, hm, by rw [if_pos honly]⟩
        · rw [hon]
          simp
      | false => exact ⟨hon, honly, items, rfl, hm⟩
    · cases hstep
      exact ⟨trivial, h⟩
  | getData m =>
    obtain ⟨hon, honly, items, rfl, hm⟩ := ht
    simp only [Thread.step] at hstep
    split at hstep
    · rename_i d hg
      obtain ⟨bytes, rfl, hd⟩ := get_data h hg
      cases hstep
      refine ⟨⟨Eq.symm ?_, ?_⟩, h⟩
      · refine uncached_eq_ok.mpr ⟨items, rfl, hm, ?_⟩
        rw [if_neg (Bool.eq_false_iff.mp honly)]
        exact ⟨bytes, rfl, hd⟩
      · simp only at hon
        rw [hon]
        simp
    · cases hstep
      exact ⟨trivial, h⟩
  | fetch =>
    simp only [Thread.step] at hstep
    split at hstep
    · rename_i e he
      cases hstep
      exact ⟨⟨he.symm, fun _ => rfl⟩, h⟩
    · rename_i r hr
      simp only [Option.some.injEq, Prod.mk.injEq] at hstep
      obtain ⟨rfl, rfl⟩ := hstep
      refine ⟨?_, h⟩
      cases s.readCache.isSome with
      | true => exact ⟨rfl, hr⟩
      | false => exact ⟨hr.symm, fun _ => rfl⟩
  | setMetadata r =>
    obtain ⟨hf, hr⟩ := ht
    obtain ⟨items, hitems, hm, -⟩ := uncached_eq_ok.mp hr
    simp only [Thread.step, Option.some.injEq, Prod.mk.injEq] at hstep
    obtain ⟨rfl, rfl⟩ := hstep
    constructor
    · cases honly : c.metadataOnly with
      | true => exact ⟨hr.symm, fun _ => hf⟩
      | false => exact ⟨hf, honly, hr⟩
    · rw [hitems]
      exact invariant_put h fun _ he => faithful_setMetadata he hm
  | setData r =>
    obtain ⟨hf, honly, hr⟩ := ht
    obtain ⟨items, -, -, hd⟩ := uncached_eq_ok.mp hr
    rw [if_neg (Bool.eq_false_iff.mp honly)] at hd
    obtain ⟨bytes, hbytes, hd⟩ := hd
    simp only [Thread.step, Option.some.injEq, Prod.mk.injEq] at hstep
    obtain ⟨rfl, rfl⟩ := hstep
    constructor
    · exact ⟨hr.symm, fun _ => hf⟩
    · rw [hbytes]
      exact invariant_put h fun _ he => faithful_setData he hd
  | done r => cases hstep

theorem readCache_put (s : State) (threads : List Thread) (entry : Option (Text × Value)) :
    ({ s with threads := threads }.put entry).readCache = (s.put entry).readCache := by
  cases entry <;> rfl

theorem threads_put (s : State) (entry : Option (Text × Value)) :
    (s.put entry).threads = s.threads := by
  cases entry <;> rfl

theorem invariant_next {e : Event} {s' : State} (h : Invariant cfg files s)
    (hstep : next cfg files s e = some s') : Invariant cfg files s' := by
  cases e with
  | read c =>
    cases hstep
    refine ⟨h.faithful, ?_⟩
    intro t ht
    cases List.mem_append.mp ht with
    | inl ht => exact h.sound t ht
    | inr ht =>
      rw [List.mem_singleton.mp ht]
      trivial
  | step i =>
    simp only [next, bind, Option.bind_eq_some_iff, pure, Option.some.injEq] at hstep
    obtain ⟨t, ht, ⟨u, entry⟩, hu, rfl⟩ := hstep
    have hmem := List.mem_of_getElem? ht
    obtain ⟨hsound, hput⟩ := thread_step h (h.sound t hmem) hu
    constructor
    · rw [readCache_put]
      exact hput.faithful
    · rw [threads_put]
      intro v hv
      cases List.mem_or_eq_of_mem_set hv with
      | inl hv => exact h.sound v hv
      | inr hv => exact hv ▸ hsound
  | useReadCache enable =>
    cases hstep
    exact ⟨h.faithful, h.sound⟩
  | evict key =>
    cases hstep
    refine ⟨?_, h.sound⟩
    intro entries he
    obtain ⟨old, hold, rfl⟩ := Option.map_eq_some_iff.mp he
    exact faithful_evict (h.faithful old hold) key

/-- A bound on the steps that a call has left. -/
def Phase.rank : Phase → ℕ
  | start => 6
  | getMetadata => 5
  | getData _ => 4
  | fetch => 3
  | setMetadata _ => 2
  | setData _ => 1
  | done _ => 0

theorem thread_progress (cfg : Config) (files : Files) (s : State) (t : Thread) :
    (∃ r, t.phase = .done r) ∨
    ∃ u entry, t.step cfg files s = some (u, entry) ∧ u.call = t.call ∧
      u.phase.rank < t.phase.rank := by
  obtain ⟨c, phase, enabled, fetched⟩ := t
  cases phase with
  | start =>
    refine .inr ⟨_, _, rfl, rfl, ?_⟩
    simp only
    split_ifs <;> simp [Phase.rank]
  | getMetadata =>
    right
    simp only [Thread.step]
    split
    · refine ⟨_, _, rfl, rfl, ?_⟩
      simp only
      split_ifs <;> simp [Phase.rank]
    · exact ⟨_, _, rfl, rfl, by simp [Phase.rank]⟩
  | getData m =>
    right
    simp only [Thread.step]
    split
    · exact ⟨_, _, rfl, rfl, by simp [Phase.rank]⟩
    · exact ⟨_, _, rfl, rfl, by simp [Phase.rank]⟩
  | fetch =>
    right
    simp only [Thread.step]
    split
    · exact ⟨_, _, rfl, rfl, by simp [Phase.rank]⟩
    · refine ⟨_, _, rfl, rfl, ?_⟩
      simp only
      split_ifs <;> simp [Phase.rank]
  | setMetadata r =>
    refine .inr ⟨_, _, rfl, rfl, ?_⟩
    simp only
    split_ifs <;> simp [Phase.rank]
  | setData r => exact .inr ⟨_, _, rfl, rfl, by simp [Phase.rank]⟩
  | done r => exact .inl ⟨r, rfl⟩

/-- Left to itself a call ends within as many steps as its rank. -/
theorem exists_done (cfg : Config) (files : Files) {i : ℕ} (ht : s.threads[i]? = some t) :
    ∃ n ≤ t.phase.rank, ∃ s' u r, run (next cfg files) s (List.replicate n (.step i)) = some s' ∧
      s'.threads[i]? = some u ∧ u.call = t.call ∧ u.phase = .done r := by
  induction hn : t.phase.rank using Nat.strong_induction_on generalizing s t with
  | _ k ih =>
    rcases thread_progress cfg files s t with ⟨r, hr⟩ | ⟨u, entry, hu, hcall, hlt⟩
    · exact ⟨0, Nat.zero_le k, s, t, r, rfl, ht, rfl, hr⟩
    · have hi : i < s.threads.length := (List.getElem?_eq_some_iff.mp ht).1
      have hnext : next cfg files s (.step i) =
          some ({ s with threads := s.threads.set i u }.put entry) := by
        simp only [next, ht, hu, bind, Option.bind_some, pure]
      have hset : (({ s with threads := s.threads.set i u } : State).put entry).threads[i]? =
          some u := by
        rw [threads_put, List.getElem?_set_self hi]
      obtain ⟨n, hle, s', v, r, hrun, hv, hvc, hvr⟩ := ih _ (hn ▸ hlt) hset rfl
      refine ⟨n + 1, by omega, s', v, r, ?_, hv, hvc.trans hcall, hvr⟩
      rw [List.replicate_succ, run_cons]
      exact ⟨_, hnext, hrun⟩

/-- Every call that is over has returned or raised what the read without the cache does, and has
read the storage if the cache was off; every other call can be over in six steps. -/
structure Transparent (cfg : Config) (files : Files) (s : State) : Prop where
  same : ∀ t ∈ s.threads, ∀ r, t.phase = .done r → r = uncached cfg files t.call
  fetched : ∀ t ∈ s.threads, ∀ r, t.phase = .done r → t.enabled = false → t.fetched = true
  ends : ∀ i t, s.threads[i]? = some t → ∃ n ≤ 6, ∃ s' u r,
    run (next cfg files) s (List.replicate n (.step i)) = some s' ∧ s'.threads[i]? = some u ∧
      u.call = t.call ∧ u.phase = .done r

theorem readCache_transparent (cfg : Config) (files : Files) (configured : Bool)
    (events : List Event) (s : State)
    (h : run (next cfg files) (init configured) events = some s) : Transparent cfg files s := by
  have hinv : Invariant cfg files s :=
    run_invariant h (invariant_init cfg files configured) invariant_next
  constructor
  · intro t ht r hr
    have hsound := hinv.sound t ht
    rw [Thread.Sound, hr] at hsound
    exact hsound.1
  · intro t ht r hr
    have hsound := hinv.sound t ht
    rw [Thread.Sound, hr] at hsound
    exact hsound.2
  · intro i t ht
    obtain ⟨n, hle, hrest⟩ := exists_done cfg files ht
    refine ⟨n, hle.trans ?_, hrest⟩
    cases t.phase <;> simp [Phase.rank]

def exampleCall : Call := ⟨⟨1, 0, some ⟨1, 2⟩, some "ab12", 3, true⟩, ⟨1, 2⟩, rfl, false⟩

/-- The last of the calls takes a step. -/
theorem run_last {ts : List Thread} {t' : Thread} {entry : Option (Text × Value)}
    {readCache : Option Entries} {enable : Bool} {events : List Event} {u : State}
    (h : t.step cfg files ⟨readCache, enable, ts ++ [t]⟩ = some (t', entry))
    (hrest : run (next cfg files) (State.put ⟨readCache, enable, ts ++ [t']⟩ entry) events =
      some u) :
    run (next cfg files) ⟨readCache, enable, ts ++ [t]⟩ (.step ts.length :: events) = some u := by
  refine run_cons.mpr ⟨_, ?_, hrest⟩
  simp [next, h]

/-- A read that finds no metadata in the cache reads the storage and leaves both parts there. -/
theorem run_miss {entries : Entries} {ts : List Thread} (hc : c.metadataOnly = false)
    (hmiss : entries c.metadataKey = none)
    (h : uncached cfg files c = .ok (some (.data bytes), .metadata items)) :
    run (next cfg files) ⟨some entries, true, ts⟩ (.read c :: List.replicate 5 (.step ts.length)) =
      some ⟨some ((entries.set c.metadataKey (.metadata items)).set c.key (.data bytes)), true,
        ts ++ [⟨c, .done (.ok (some (.data bytes), .metadata items)), true, true⟩]⟩ := by
  have hstart (ts : List Thread) : Thread.step cfg files ⟨some entries, true, ts⟩ { call := c } =
      some (⟨c, .getMetadata, true, false⟩, none) := rfl
  have hget (ts : List Thread) :
      Thread.step cfg files ⟨some entries, true, ts⟩ ⟨c, .getMetadata, true, false⟩ =
        some (⟨c, .fetch, true, false⟩, none) := by
    simp [Thread.step, get, hmiss]
  have hfetch (ts : List Thread) :
      Thread.step cfg files ⟨some entries, true, ts⟩ ⟨c, .fetch, true, false⟩ =
        some (⟨c, .setMetadata (some (.data bytes), .metadata items), true, true⟩, none) := by
    simp [Thread.step, h]
  have hmetadata (s : State) : Thread.step cfg files s
      ⟨c, .setMetadata (some (.data bytes), .metadata items), true, true⟩ =
        some (⟨c, .setData (some (.data bytes), .metadata items), true, true⟩,
          some (c.metadataKey, .metadata items)) := by
    simp [Thread.step, hc]
  have hdata (s : State) : Thread.step cfg files s
      ⟨c, .setData (some (.data bytes), .metadata items), true, true⟩ =
        some (⟨c, .done (.ok (some (.data bytes), .metadata items)), true, true⟩,
          some (c.key, .data bytes)) := rfl
  exact run_cons.mpr ⟨_, rfl, run_last (hstart _) (run_last (hget _) (run_last (hfetch _)
    (run_last (hmetadata _) (run_last (hdata _) (run_nil.mpr rfl)))))⟩

/-- A read that finds both parts in the cache does not read the storage. -/
theorem run_hit {entries : Entries} {ts : List Thread} (hc : c.metadataOnly = false)
    (hb : bytes ≠ []) (hi : items ≠ []) (hmetadata : entries c.metadataKey = some (.metadata items))
    (hdata : entries c.key = some (.data bytes)) :
    run (next cfg files) ⟨some entries, true, ts⟩ (.read c :: List.replicate 3 (.step ts.length)) =
      some ⟨some entries, true,
        ts ++ [⟨c, .done (.ok (some (.data bytes), .metadata items)), true, false⟩]⟩ := by
  have hstart (ts : List Thread) : Thread.step cfg files ⟨some entries, true, ts⟩ { call := c } =
      some (⟨c, .getMetadata, true, false⟩, none) := rfl
  have hfirst (ts : List Thread) :
      Thread.step cfg files ⟨some entries, true, ts⟩ ⟨c, .getMetadata, true, false⟩ =
        some (⟨c, .getData (.metadata items), true, false⟩, none) := by
    simp [Thread.step, get, hmetadata, Option.filter_some, Value.truthy, hi, hc]
  have hsecond (ts : List Thread) : Thread.step cfg files ⟨some entries, true, ts⟩
      ⟨c, .getData (.metadata items), true, false⟩ =
        some (⟨c, .done (.ok (some (.data bytes), .metadata items)), true, false⟩, none) := by
    simp [Thread.step, get, hdata, Option.filter_some, Value.truthy, hb]
  exact run_cons.mpr ⟨_, rfl, run_last (hstart _) (run_last (hfirst _) (run_last (hsecond _)
    (run_nil.mpr rfl)))⟩
/-- A read that fills the cache, one that is answered from it, and one after an eviction. -/
def exampleEvents : List Event :=
  (.read exampleCall :: List.replicate 5 (.step 0)) ++
    ((.read exampleCall :: List.replicate 3 (.step 1)) ++
      .evict exampleCall.metadataKey :: .read exampleCall :: List.replicate 5 (.step 2))

theorem readCache_transparent_example : ∃ files s r,
    uncached exampleConfig files exampleCall = .ok r ∧ r.1 = some (.data [7, 8, 9]) ∧
      run (next exampleConfig files) (init true) exampleEvents = some s ∧
      s.threads.map Thread.phase = List.replicate 3 (.done (.ok r)) ∧
      s.threads.map Thread.fetched = [true, false, true] ∧ Transparent exampleConfig files s := by
  have hlen : ([7, 8, 9] : Bytes).length = exampleCall.block.size := rfl
  obtain ⟨files, -, items, hread, -⟩ := read_write exampleConfig_sound
    "2021-01-01T00:00:00.000000Z" (fun _ => none) exampleCall.uid_eq rfl (by decide) hlen
  have h : uncached exampleConfig files exampleCall =
      .ok (some (.data [7, 8, 9]), .metadata items) := by
    show (Codec.read exampleConfig exampleCall.block false files).map _ = _
    rw [hread]
    rfl
  have hi : items ≠ [] := by
    rintro rfl
    obtain ⟨_, ⟨⟩, ⟨_, _, _, _, _, hchecksum⟩, -⟩ := uncached_eq_ok.mp h
    cases hchecksum
  have hb : ([7, 8, 9] : Bytes) ≠ [] := by decide
  have hother : exampleCall.key ≠ exampleCall.metadataKey := key_ne_metadataKey _ _
  obtain ⟨s, hrun, hphases, hfetched⟩ : ∃ s,
      run (next exampleConfig files) (init true) exampleEvents = some s ∧
        s.threads.map Thread.phase = List.replicate 3
          (.done (.ok (some (.data [7, 8, 9]), .metadata items))) ∧
        s.threads.map Thread.fetched = [true, false, true] := by
    refine ⟨_, run_append.mpr ⟨_, run_miss rfl rfl h, run_append.mpr
      ⟨_, run_hit rfl hb hi ?_ ?_, run_cons.mpr ⟨_, rfl, run_miss rfl (if_pos rfl) h⟩⟩⟩, rfl, rfl⟩
    · rw [Entries.set, if_neg hother.symm, Entries.set, if_pos rfl]
    · rw [Entries.set, if_pos rfl]
  exact ⟨files, s, _, h, rfl, hrun, hphases, hfetched, readCache_transparent _ _ true _ s hrun⟩

end
end ReadCache
end Benji
