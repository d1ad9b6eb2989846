import Benji.Lib.Steps
import Benji.Nbd.Framing
import Benji.Nbd.Leases

/-! Any number of connections on one store, with one owner of locks: a version stays locked while
it is served, unless a client asks for one whose lock the server already holds. -/
namespace Benji.Nbd
open Lib

variable {κ : Type}

structure Server (κ : Type) where
  store : Store κ
  conns : List Conn

inductive ServerEvent (κ : Type) where
  | connect
  | receive (conn : ℕ) (data : Bytes)
  /-- The handler has got what it waits for, and runs to its next wait. -/
  | advance (conn : ℕ)
  /-- The connection is lost, at whichever wait the handler is. -/
  | disconnect (conn : ℕ)
  /-- Other processes change what they like, but not the locks of the server. -/
  | others (world : World κ)

def ownLocks (me : Process) (w : World κ) : List Lock :=
  w.db.locks.rows.filter fun l => l.owner = me

/-- `IncompleteReadError`. -/
def disconnect [DecidableEq κ] (cfg : Config κ) (x : Store κ × Conn) : Option (Store κ × Conn) :=
  if x.2.phase = .ended then none
  else (Session.finish cfg (sessionOf x.1 x.2)).map fun r =>
    (r.2.store, ⟨r.1, r.2.version, r.2.cowVersion, x.2.input, r.2.output⟩)

namespace Server

def put (s : Server κ) (i : ℕ) (x : Store κ × Conn) : Server κ := ⟨x.1, s.conns.set i x.2⟩

def setWorld (s : Server κ) (world : World κ) : Server κ :=
  { s with store := { s.store with world := world } }

def step [DecidableEq κ] (cfg : Config κ) (s : Server κ) : ServerEvent κ → Option (Server κ)
  | .connect => some { s with conns := s.conns ++ [Conn.start] }
  | .receive i data => s.conns[i]?.map fun c =>
    s.put i (s.store, { c with input := c.input ++ data })
  | .advance i => s.conns[i]?.bind fun c => (Nbd.advance cfg (s.store, c)).map (s.put i)
  | .disconnect i => s.conns[i]?.bind fun c => (Nbd.disconnect cfg (s.store, c)).map (s.put i)
  | .others world =>
    if world.committed.locks.rows = world.db.locks.rows ∧
        (ownLocks cfg.settings.me world).Perm (ownLocks cfg.settings.me s.store.world) then
      some (s.setWorld world)
    else none

end Server

/-- No client yet, and no lock of the server: its process id is a new one. -/
structure Server.Starts (cfg : Config κ) (s : Server κ) : Prop where
  conns : s.conns = []
  committed : s.store.world.committed.locks = s.store.world.db.locks
  free : ∀ n, Locking.heldBy cfg.settings.me n s.store.world = false

/-- The connection is in the transmission phase on `v`. -/
def Conn.Transmits (c : Conn) (v : Version) : Prop :=
  c.version = some v ∧
    (c.phase = .request ∨ ∃ handle offset length, c.phase = .payload handle offset length)

def Conn.Uses (c : Conn) (uid : String) : Prop :=
  c.phase ≠ .ended ∧ ∃ v, (c.version = some v ∨ c.cowVersion = some v) ∧ v.uid = uid

/-- Every version that is served is locked by the server, and no other one is. -/
def Server.KeepsLocked (cfg : Config κ) (s : Server κ) : Prop :=
  (∀ c ∈ s.conns, ∀ v, c.Transmits v →
    Locking.heldBy cfg.settings.me (Locking.versionLockName v.uid) s.store.world = true) ∧
  ∀ uid, (∀ c ∈ s.conns, ¬ c.Uses uid) →
    Locking.heldBy cfg.settings.me (Locking.versionLockName uid) s.store.world = false

/-- The copy that the connection has written to, if any, can be fixated. -/
def FixateReturns [DecidableEq κ] (cfg : Config κ) (store : Store κ) (c : Conn) : Prop :=
  ∀ v, c.cowVersion = some v →
    ∃ t, (Store.fixate cfg.settings (cfg.fixates v) v).Returns store () t

/-- No client asks for a version whose lock the server already holds, and where a connection with
a copy ends the copy can be fixated. -/
def Server.Undisturbed [DecidableEq κ] (cfg : Config κ) (s : Server κ) : ServerEvent κ → Prop
  | .advance i => ∀ c, s.conns[i]? = some c →
    (∀ v ∈ s.store.world.db.versions,
      c.phase.asksFor (c.input.take c.phase.size) = some v.uid →
        Locking.heldBy cfg.settings.me (Locking.versionLockName v.uid) s.store.world = false) ∧
      (c.phase.Closes (c.input.take c.phase.size) → FixateReturns cfg s.store c)
  | .disconnect i => ∀ c, s.conns[i]? = some c → FixateReturns cfg s.store c
  | _ => True

/-- The locks of a connection. -/
def Conn.locks (c : Conn) : Set String :=
  {n | c.phase ≠ .ended ∧ n ∈ lockNames c.version c.cowVersion}

namespace Server

/-- The locks of the other connections. -/
def rest (s : Server κ) (i : ℕ) : Set String :=
  {n | ∃ (j : ℕ) (d : Conn), j ≠ i ∧ s.conns[j]? = some d ∧ n ∈ d.locks}

/-- The server holds what its connections own, and each lock is owned by one of them. -/
structure Inv (cfg : Config κ) (s : Server κ) : Prop where
  holds : ∃ others, s.store.world.Holds cfg.settings.me
    {n | ∃ (i : ℕ) (c : Conn), s.conns[i]? = some c ∧ n ∈ c.locks} others
  apart : ∀ (i j : ℕ) (c d : Conn) (n : String), s.conns[i]? = some c → s.conns[j]? = some d →
    n ∈ c.locks → n ∈ d.locks → i = j
  suits : ∀ (i : ℕ) (c : Conn), s.conns[i]? = some c → c.phase.Suits c.version c.cowVersion

variable {cfg : Config κ} {s t : Server κ} {i : ℕ} {c : Conn}

theorem inv_of_starts (h : s.Starts cfg) : s.Inv cfg := by
  have hnone (i : ℕ) (c : Conn) : s.conns[i]? ≠ some c := by simp [h.conns]
  refine ⟨⟨{l | l ∈ s.store.world.db.locks}, _, ⟨rfl, h.committed⟩, ?_, fun _ _ => Iff.rfl⟩, ?_,
    fun i c hc => absurd hc (hnone i c)⟩
  · intro n
    have hfree := h.free n
    rw [LockTable.heldBy_eq rfl] at hfree
    rw [hfree]
    constructor
    · intro hno
      cases hno
    · rintro ⟨i, c, hc, -⟩
      exact absurd hc (hnone i c)
  · intro i j c d n hc
    exact absurd hc (hnone i c)

theorem mem_locks_iff (h : s.conns[i]? = some c) {n : String} :
    (∃ (j : ℕ) (d : Conn), s.conns[j]? = some d ∧ n ∈ d.locks) ↔ n ∈ s.rest i ∪ c.locks := by
  constructor
  · rintro ⟨j, d, hd, hn⟩
    by_cases hj : j = i
    · subst hj
      obtain rfl := Option.some.inj (h.symm.trans hd)
      exact .inr hn
    · exact .inl ⟨j, d, hj, hd, hn⟩
  · rintro (⟨j, d, -, hd, hn⟩ | hn)
    · exact ⟨j, d, hd, hn⟩
    · exact ⟨i, c, h, hn⟩

/-- A handler owns its locks, beside those of all others. -/
theorem Inv.owns (hs : s.Inv cfg) (h : s.conns[i]? = some c) (hlive : c.phase ≠ .ended) :
    ∃ others, (sessionOf s.store c).Owns cfg.settings.me (s.rest i) others := by
  obtain ⟨others, hholds⟩ := hs.holds
  refine ⟨others, _, hholds, ?_, ?_⟩
  · ext n
    constructor
    · rintro ⟨hn, hno⟩
      cases (mem_locks_iff h).mp hn with
      | inl hrest => exact hrest
      | inr hown => exact absurd hown.2 hno
    · rintro ⟨j, d, hj, hd, hn⟩
      refine ⟨⟨j, d, hd, hn⟩, ?_⟩
      intro hown
      exact hj (hs.apart j i d c n hd h hn ⟨hlive, hown⟩)
  · intro n hn
    exact ⟨i, c, h, hlive, hn⟩

/-- One connection may go on as long as it leaves the others their locks. -/
theorem Inv.put {store : Store κ} {c' : Conn} (hs : s.Inv cfg) (others : Set Lock)
    (h : s.conns[i]? = some c)
    (hholds : store.world.Holds cfg.settings.me (s.rest i ∪ c'.locks) others)
    (hapart : ∀ n ∈ s.rest i, n ∉ c'.locks) (hsuits : c'.phase.Suits c'.version c'.cowVersion) :
    (s.put i (store, c')).Inv cfg := by
  have hlt : i < s.conns.length := by
    obtain ⟨hlt, -⟩ := List.getElem?_eq_some_iff.mp h
    exact hlt
  have hget (j : ℕ) (d : Conn) (hd : (s.put i (store, c')).conns[j]? = some d) :
      j = i ∧ d = c' ∨ j ≠ i ∧ s.conns[j]? = some d := by
    change (s.conns.set i c')[j]? = some d at hd
    by_cases hj : j = i
    · subst hj
      rw [List.getElem?_set_self hlt] at hd
      exact .inl ⟨rfl, (Option.some.inj hd).symm⟩
    · rw [List.getElem?_set_ne (Ne.symm hj)] at hd
      exact .inr ⟨hj, hd⟩
  have hself : (s.put i (store, c')).conns[i]? = some c' := List.getElem?_set_self hlt
  refine ⟨⟨others, ?_⟩, ?_, ?_⟩
  · have hset : {n | ∃ (j : ℕ) (d : Conn), (s.put i (store, c')).conns[j]? = some d ∧ n ∈ d.locks} =
        s.rest i ∪ c'.locks := by
      ext n
      constructor
      · rintro ⟨j, d, hd, hn⟩
        obtain ⟨rfl, rfl⟩ | ⟨hj, hd⟩ := hget j d hd
        · exact .inr hn
        · exact .inl ⟨j, d, hj, hd, hn⟩
      · rintro (⟨j, d, hj, hd, hn⟩ | hn)
        · exact ⟨j, d, (List.getElem?_set_ne (Ne.symm hj)).trans hd, hn⟩
        · exact ⟨i, c', hself, hn⟩
    rw [hset]
    exact hholds
  · intro j k d e n hd he hnd hne
    obtain ⟨rfl, rfl⟩ | ⟨hj, hd'⟩ := hget j d hd
    · obtain ⟨rfl, -⟩ | ⟨hk, he'⟩ := hget k e he
      · rfl
      · exact absurd hnd (hapart n ⟨k, e, hk, he', hne⟩)
    · obtain ⟨rfl, rfl⟩ | ⟨hk, he'⟩ := hget k e he
      · exact absurd hne (hapart n ⟨j, d, hj, hd', hnd⟩)
      · exact hs.apart j k d e n hd' he' hnd hne
  · intro j d hd
    obtain ⟨rfl, rfl⟩ | ⟨-, hd⟩ := hget j d hd
    · exact hsuits
    · exact hs.suits j d hd

theorem Inv.connect (hs : s.Inv cfg) : ({ s with conns := s.conns ++ [Conn.start] }).Inv cfg := by
  have hlocks : Conn.start.locks = ∅ := by
    ext n
    simp [Conn.locks, Conn.start]
  have hget (j : ℕ) (d : Conn) (hd : (s.conns ++ [Conn.start])[j]? = some d) :
      s.conns[j]? = some d ∨ d = Conn.start := by
    rw [List.getElem?_append] at hd
    split at hd
    · exact .inl hd
    · have hmem := List.mem_of_getElem? hd
      exact .inr (List.mem_singleton.mp hmem)
  have hold (j : ℕ) (d : Conn) (hd : s.conns[j]? = some d) :
      (s.conns ++ [Conn.start])[j]? = some d := by
    obtain ⟨hlt, -⟩ := List.getElem?_eq_some_iff.mp hd
    rw [List.getElem?_append_left hlt]
    exact hd
  have howned (j : ℕ) (d : Conn) (n : String) (hd : (s.conns ++ [Conn.start])[j]? = some d)
      (hn : n ∈ d.locks) : s.conns[j]? = some d := by
    cases hget j d hd with
    | inl h => exact h
    | inr h =>
      rw [h, hlocks] at hn
      exact absurd hn (Set.notMem_empty n)
  obtain ⟨others, hholds⟩ := hs.holds
  refine ⟨⟨others, ?_⟩, ?_, ?_⟩
  · have hset : {n | ∃ (j : ℕ) (d : Conn), (s.conns ++ [Conn.start])[j]? = some d ∧
        n ∈ d.locks} = {n | ∃ (j : ℕ) (d : Conn), s.conns[j]? = some d ∧ n ∈ d.locks} := by
      ext n
      constructor
      · rintro ⟨j, d, hd, hn⟩
        exact ⟨j, d, howned j d n hd hn, hn⟩
      · rintro ⟨j, d, hd, hn⟩
        exact ⟨j, d, hold j d hd, hn⟩
    dsimp only
    rw [hset]
    exact hholds
  · intro i j c d n hc hd hnc hnd
    exact hs.apart i j c d n (howned i c n hc hnc) (howned j d n hd hnd) hnc hnd
  · intro j d hd
    cases hget j d hd with
    | inl h => exact hs.suits j d h
    | inr h =>
      rw [h]
      exact ⟨rfl, rfl⟩

/-- Where only the input of a connection changes, its locks do not. -/
theorem Inv.receive {data : Bytes} (hs : s.Inv cfg) (h : s.conns[i]? = some c) :
    (s.put i (s.store, { c with input := c.input ++ data })).Inv cfg := by
  obtain ⟨others, hholds⟩ := hs.holds
  refine hs.put others h ?_ ?_ (hs.suits i c h)
  · have hset : {n | ∃ (i : ℕ) (c : Conn), s.conns[i]? = some c ∧ n ∈ c.locks} =
        s.rest i ∪ c.locks := Set.ext fun n => mem_locks_iff h
    rw [hset] at hholds
    exact hholds
  · rintro n ⟨j, d, hj, hd, hn⟩ hown
    exact hj (hs.apart j i d c n hd h hn hown)

/-- A handler that goes on with its locks, or is over without any. -/
theorem Inv.put_session {session : Session κ} {phase : Phase} {input : Bytes}
    (hs : s.Inv cfg) (others : Set Lock) (h : s.conns[i]? = some c)
    (hdone : (phase = .ended ∧ session.store.world.Holds cfg.settings.me (s.rest i) others) ∨
      phase ≠ .ended ∧ session.Owns cfg.settings.me (s.rest i) others ∧
        phase.Suits session.version session.cowVersion) :
    (s.put i (session.store,
      ⟨phase, session.version, session.cowVersion, input, session.output⟩)).Inv cfg := by
  obtain ⟨rfl, hholds⟩ | ⟨hlive, howns, hsuits⟩ := hdone
  · have hlocks : (⟨.ended, session.version, session.cowVersion, input, session.output⟩ :
        Conn).locks = ∅ := by
      ext n
      simp [Conn.locks]
    refine hs.put others h ?_ ?_ trivial
    · rw [hlocks, Set.union_empty]
      exact hholds
    · intro n _
      rw [hlocks]
      exact Set.notMem_empty n
  · have hlocks : (⟨phase, session.version, session.cowVersion, input, session.output⟩ :
        Conn).locks = lockNames session.version session.cowVersion := by
      ext n
      simp [Conn.locks, hlive]
    refine hs.put others h ?_ ?_ hsuits
    · rw [hlocks]
      exact howns.holds
    · intro n hn
      rw [hlocks]
      obtain ⟨names, -, hrest, -⟩ := howns
      rw [← hrest] at hn
      exact hn.2

theorem Inv.others {world : World κ} (hs : s.Inv cfg)
    (hcommitted : world.committed.locks.rows = world.db.locks.rows)
    (hown : (ownLocks cfg.settings.me world).Perm (ownLocks cfg.settings.me s.store.world)) :
    (s.setWorld world).Inv cfg := by
  refine ⟨?_, hs.apart, hs.suits⟩
  obtain ⟨others, locks, ⟨rfl, -⟩, hheld⟩ := hs.holds
  refine ⟨{l | l ∈ world.db.locks}, world.db.locks, ⟨rfl, ?_⟩, ?_, fun _ _ => Iff.rfl⟩
  · exact Table.ext_rows hcommitted
  · intro n
    refine Iff.trans ?_ (hheld.own n)
    rw [LockTable.holds_iff, LockTable.holds_iff]
    have hmem (l : Lock) (howner : l.owner = cfg.settings.me) :
        l ∈ world.db.locks ↔ l ∈ s.store.world.db.locks := by
      have hiff := hown.mem_iff (a := l)
      simpa [ownLocks, howner, Table.mem_def] using hiff
    constructor
    · rintro ⟨l, hl, hname, howner⟩
      exact ⟨l, (hmem l howner).mp hl, hname, howner⟩
    · rintro ⟨l, hl, hname, howner⟩
      exact ⟨l, (hmem l howner).mpr hl, hname, howner⟩

theorem Inv.advance [DecidableEq κ] (hcow : LocksCow cfg) (hs : s.Inv cfg)
    (hok : s.Undisturbed cfg (.advance i)) (h : s.conns[i]? = some c) {x : Store κ × Conn}
    (hx : Nbd.advance cfg (s.store, c) = some x) : (s.put i x).Inv cfg := by
  obtain ⟨hfree, hfixate⟩ := hok c h
  unfold Nbd.advance at hx
  split at hx
  · cases hx
  · rename_i hready
    obtain ⟨⟨phase, session⟩, hturn, rfl⟩ := Option.map_eq_some_iff.mp hx
    have hlive : c.phase ≠ .ended := fun hended => hready (.inl hended)
    obtain ⟨others, howns⟩ := hs.owns h hlive
    refine hs.put_session others h ?_
    refine Session.locks_turn hcow howns (hs.suits i c h) hlive ?_ hfixate hturn
    intro v hv hasks hmem
    obtain ⟨others, hholds⟩ := hs.holds
    obtain ⟨j, d, -, hd, hn⟩ := hmem
    have hheld := hholds.heldBy_iff.mpr ⟨j, d, hd, hn⟩
    rw [hfree v hv hasks] at hheld
    cases hheld

theorem Inv.disconnect [DecidableEq κ] (hs : s.Inv cfg) (hok : s.Undisturbed cfg (.disconnect i))
    (h : s.conns[i]? = some c) {x : Store κ × Conn}
    (hx : Nbd.disconnect cfg (s.store, c) = some x) : (s.put i x).Inv cfg := by
  unfold Nbd.disconnect at hx
  split at hx
  · cases hx
  · rename_i hlive
    obtain ⟨⟨phase, session⟩, hfinish, rfl⟩ := Option.map_eq_some_iff.mp hx
    obtain ⟨others, howns⟩ := hs.owns h hlive
    exact hs.put_session others h
      (.inl (Session.holds_finish howns.owes (hok c h) hfinish))

theorem Inv.step [DecidableEq κ] {e : ServerEvent κ} (hcow : LocksCow cfg) (hs : s.Inv cfg)
    (hok : s.Undisturbed cfg e) (h : s.step cfg e = some t) : t.Inv cfg := by
  cases e with
  | connect =>
    obtain rfl := Option.some.inj h
    exact hs.connect
  | receive i data =>
    obtain ⟨c, hc, rfl⟩ := Option.map_eq_some_iff.mp h
    exact hs.receive hc
  | advance i =>
    obtain ⟨c, hc, h⟩ := Option.bind_eq_some_iff.mp h
    obtain ⟨x, hx, rfl⟩ := Option.map_eq_some_iff.mp h
    exact hs.advance hcow hok hc hx
  | disconnect i =>
    obtain ⟨c, hc, h⟩ := Option.bind_eq_some_iff.mp h
    obtain ⟨x, hx, rfl⟩ := Option.map_eq_some_iff.mp h
    exact hs.disconnect hok hc hx
  | others world =>
    obtain ⟨hworld, h⟩ := Option.ite_none_right_eq_some.mp h
    obtain rfl := Option.some.inj h
    exact hs.others hworld.1 hworld.2

theorem Inv.keepsLocked (hs : s.Inv cfg) : s.KeepsLocked cfg := by
  obtain ⟨others, hholds⟩ := hs.holds
  constructor
  · rintro c hc v ⟨hversion, hphase⟩
    obtain ⟨i, hi⟩ := List.getElem?_of_mem hc
    refine hholds.heldBy_iff.mpr ⟨i, c, hi, ?_, v, .inl hversion, rfl⟩
    obtain h | ⟨handle, offset, length, h⟩ := hphase
    · simp [h]
    · simp [h]
  · intro uid hunused
    rw [Bool.eq_false_iff]
    intro hheld
    obtain ⟨i, c, hc, hlive, v, hv, hname⟩ := hholds.heldBy_iff.mp hheld
    exact hunused c (List.mem_of_getElem? hc)
      ⟨hlive, v, hv, (Locking.versionLockName_injective hname).symm⟩

end Server

/-- Whatever the clients do, in any order: a version is locked from the moment it is served until
no connection uses it any more, as long as no client asks for a version that the server has
locked and every copy can be fixated. -/
theorem exports_stay_locked [DecidableEq κ] {cfg : Config κ} {s t : Server κ}
    (hcow : LocksCow cfg) (hs : s.Starts cfg)
    (h : Steps (Server.step cfg) (Server.Undisturbed cfg) s t) : t.KeepsLocked cfg := by
  have hinv : t.Inv cfg :=
    h.invariant (I := Server.Inv cfg) (Server.inv_of_starts hs) fun hs hok hstep =>
      hs.step hcow hok hstep
  exact hinv.keepsLocked

def unlockedDatabase : Database Bytes := { exportedDatabase with locks := Table.empty }

def exampleServer : Server Bytes where
  store := { exportedStore with
    world := ⟨unlockedDatabase, unlockedDatabase, exampleObjects, fun _ _ => none⟩ }
  conns := []

/-- A handshake and the request for an export. -/
def exportBytes : Bytes := toBE 4 handshakeFlags ++ exampleExport.encode

/-- The version of the copy and its rows appear next to those of the version. -/
def addCopy (s : Store Bytes) : Store Bytes :=
  let add (db : Database Bytes) : Database Bytes :=
    { db with versions := exampleDatabase.versions, blocks := exampleDatabase.blocks }
  { s with
    world := { s.world with db := add s.world.db, committed := add s.world.committed }
    cow := fun uid => if uid = exampleCow.uid then some [] else s.cow uid }

def copyExample : Store.Action Bytes Version := do
  Store.onWorld (Locking.lockVersion exampleConfig.settings.me exampleCow.uid "NBD COW")
  Proc.modify addCopy
  pure exampleCow

def copyingConfig : Config Bytes :=
  { exampleConfig with readOnly := false, createCowVersion := fun _ => copyExample }

theorem copyingConfig_locksCow : LocksCow copyingConfig := by
  intro v names others
  refine Proc.Triple.bind (M := fun _ s => Locking.versionLockName exampleCow.uid ∉ names ∧
    s.world.Holds copyingConfig.settings.me (names ∪ {Locking.versionLockName exampleCow.uid})
      others) ⟨?_, ?_⟩ fun _ => ?_
  · intro s _ t hs ht
    obtain ⟨w, hw, rfl⟩ := Proc.returns_onPart.mp ht
    exact Locking.holds_lock.returns hs hw
  · intro s e t hs ht
    obtain ⟨w, hw, rfl⟩ := Proc.raises_onPart.mp ht
    exact Locking.holds_lock.raises hs hw
  · refine Proc.Triple.bind (Proc.Triple.modify fun s hs => ⟨hs.1, ?_⟩) fun _ =>
      Proc.Triple.pure fun _ hs => hs
    exact hs.2.of_hasLocks fun _ h => ⟨h.1, h.2⟩

theorem exampleServer_starts : exampleServer.Starts copyingConfig where
  conns := rfl
  committed := rfl
  free _ := rfl

/-- The copy of a connection, if any, is fixated without an exception. -/
def fixatable [DecidableEq κ] (cfg : Config κ) (store : Store κ) (c : Conn) : Bool :=
  c.cowVersion.all fun v =>
    (Store.fixate cfg.settings (cfg.fixates v) v store).any fun r => r.1.isOk

theorem fixateReturns_of_fixatable [DecidableEq κ] {cfg : Config κ} {store : Store κ} {c : Conn}
    (h : fixatable cfg store c = true) : FixateReturns cfg store c := by
  intro v hv
  rw [fixatable, hv, Option.all_some] at h
  obtain ⟨⟨r, t⟩, hr, hok⟩ := (Option.any_eq_true _ _).mp h
  cases r with
  | ok _ => exact ⟨t, hr⟩
  | error e => cases hok

/-- A decidable condition that is enough. -/
def Server.Quiet [DecidableEq κ] (cfg : Config κ) (s : Server κ) : ServerEvent κ → Bool
  | .advance i => s.conns[i]?.all fun c => fixatable cfg s.store c &&
    s.store.world.db.versions.rows.all fun v =>
      c.phase.asksFor (c.input.take c.phase.size) ≠ some v.uid ||
        !Locking.heldBy cfg.settings.me (Locking.versionLockName v.uid) s.store.world
  | .disconnect i => s.conns[i]?.all (fixatable cfg s.store)
  | _ => true

theorem Server.Quiet.undisturbed [DecidableEq κ] {cfg : Config κ} {s : Server κ}
    {e : ServerEvent κ} (h : s.Quiet cfg e = true) : s.Undisturbed cfg e := by
  cases e with
  | advance i =>
    intro c hc
    have hall := h
    simp only [Server.Quiet, hc, Option.all_some, Bool.and_eq_true, List.all_eq_true] at hall
    refine ⟨?_, fun _ => fixateReturns_of_fixatable hall.1⟩
    intro v hv hasks
    have hfree := hall.2 v hv
    simpa [hasks] using hfree
  | disconnect i =>
    intro c hc
    have hall := h
    simp only [Server.Quiet, hc, Option.all_some] at hall
    exact fixateReturns_of_fixatable hall
  | connect => trivial
  | receive i data => trivial
  | others world => trivial

/-- The first of two clients writes a byte, the second one goes away before it asks for anything. -/
def writeToCopy : List (ServerEvent Bytes) :=
  [.connect, .receive 0 exportBytes, .connect, .advance 0, .advance 0,
    .receive 1 (toBE 4 handshakeFlags), .advance 0, .advance 1, .disconnect 1,
    .receive 0 writeRequest.encode, .advance 0, .advance 0]

/-- Then the first one goes away as well, and its copy is fixated. -/
def fixateCopy : List (ServerEvent Bytes) := writeToCopy ++ [.disconnect 0]

theorem exports_stay_locked_example : ∃ t u : Server Bytes,
    (t.conns.any fun c => c.phase = .request ∧ c.version = some exampleVersion ∧
      c.cowVersion = some exampleCow) = true ∧ t.KeepsLocked copyingConfig ∧
    u.store.world.db.versions.rows = [exampleVersion, { exampleCow with status := .valid }] ∧
      (u.store.world.db.blocks.getBlockByIdx exampleCow 1).uid = some ⟨2, 2⟩ ∧
      u.KeepsLocked copyingConfig := by
  have hwrite : (runIf (Server.step copyingConfig)
      (fun s e => Server.Quiet copyingConfig s e = true) exampleServer writeToCopy).any
      (fun t => t.conns.any fun c => c.phase = .request ∧ c.version = some exampleVersion ∧
        c.cowVersion = some exampleCow) = true := by
    decide +kernel
  have hfixate : (runIf (Server.step copyingConfig)
      (fun s e => Server.Quiet copyingConfig s e = true) exampleServer fixateCopy).any
      (fun u => u.store.world.db.versions.rows =
          [exampleVersion, { exampleCow with status := .valid }] ∧
        (u.store.world.db.blocks.getBlockByIdx exampleCow 1).uid = some ⟨2, 2⟩) = true := by
    decide +kernel
  obtain ⟨t, ht, hserved⟩ := exists_steps_of_runIf hwrite
  obtain ⟨u, hu, hvalid⟩ := exists_steps_of_runIf hfixate
  obtain ⟨hversions, hblock⟩ := of_decide_eq_true hvalid
  have hquiet {s : Server Bytes} (hs : Steps (Server.step copyingConfig)
      (fun s e => Server.Quiet copyingConfig s e = true) exampleServer s) :
      Steps (Server.step copyingConfig) (Server.Undisturbed copyingConfig) exampleServer s :=
    hs.mono fun _ _ hok => Server.Quiet.undisturbed hok
  exact ⟨t, u, hserved, exports_stay_locked copyingConfig_locksCow exampleServer_starts (hquiet ht),
    hversions, hblock,
    exports_stay_locked copyingConfig_locksCow exampleServer_starts (hquiet hu)⟩

/-- A second client asks for a version that is served: the attempt to lock it twice fails, and
the `finally` block releases the lock of the first client. -/
theorem second_client_unlocks :
    ¬ ∀ (cfg : Config Bytes) (s t : Server Bytes), LocksCow cfg → s.Starts cfg →
      Reaches (Server.step cfg) s t → t.KeepsLocked cfg := by
  intro h
  have hrun : (run (Server.step copyingConfig) exampleServer
      [.connect, .receive 0 exportBytes, .advance 0, .advance 0, .advance 0,
        .connect, .receive 1 exportBytes, .advance 1, .advance 1, .advance 1]).any
      (fun t => t.conns.any (fun c => c.phase = .request ∧ c.version = some exampleVersion) &&
        !Locking.heldBy copyingConfig.settings.me (Locking.versionLockName exampleVersion.uid)
          t.store.world) = true := by
    decide +kernel
  obtain ⟨t, ht, hlost⟩ := exists_reaches_of_run hrun
  rw [Bool.and_eq_true, List.any_eq_true, Bool.not_eq_true'] at hlost
  obtain ⟨⟨c, hc, hserved⟩, hfree⟩ := hlost
  obtain ⟨hphase, hversion⟩ := of_decide_eq_true hserved
  have hkept := (h copyingConfig exampleServer t copyingConfig_locksCow exampleServer_starts ht).1
    c hc exampleVersion ⟨hversion, .inl hphase⟩
  rw [hfree] at hkept
  cases hkept

end Benji.Nbd
