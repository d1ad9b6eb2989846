import Benji.Servicer.Completion

/-! Block uids: what rows say about the object of a uid, and what is written under it. -/
namespace Benji.Servicer
open Lib

variable {κ : Type} {s t : State κ} {x y : Session κ} {e : Event κ} {sparseChecksum : ℕ → κ}
  {uid : BlockUid} {c c' : Option κ} {n n' : ℕ}

/-- The block is, or may become, a row for an object. -/
def Says (b : Block κ) (uid : BlockUid) (c : Option κ) (n : ℕ) : Prop :=
  b.uid = some uid ∧ b.checksum = c ∧ b.size = n

def Job.Says (j : Job κ) (uid : BlockUid) (c : Option κ) (n : ℕ) : Prop :=
  j.uid = uid ∧ some j.checksum = c ∧ j.size = n

/-- The rows, committed or not, and the writes that may become rows. -/
inductive Names (s : State κ) (uid : BlockUid) (c : Option κ) (n : ℕ) : Prop
  | row (b : Block κ) (hb : b ∈ s.db.blocks) (h : Says b uid c n)
  | package (x : Session κ) (hx : x ∈ s.sessions) (b : Block κ) (hb : b ∈ x.package)
      (h : Says b uid c n)
  | op (x : Session κ) (hx : x ∈ s.sessions) (b : Block κ) (hb : b ∈ x.ops) (h : Says b uid c n)
  | write (x : Session κ) (hx : x ∈ s.sessions) (j : Job κ) (hj : j ∈ x.writes)
      (h : j.Says uid c n)
  | job (j : Job κ) (hj : j ∈ s.jobs) (h : j.Says uid c n)

/-- Whatever the session itself names. -/
inductive Session.Names (x : Session κ) (uid : BlockUid) (c : Option κ) (n : ℕ) : Prop
  | package (b : Block κ) (hb : b ∈ x.package) (h : Says b uid c n)
  | op (b : Block κ) (hb : b ∈ x.ops) (h : Says b uid c n)
  | write (j : Job κ) (hj : j ∈ x.writes) (h : j.Says uid c n)

theorem Names.of_session (hx : x ∈ s.sessions) (h : x.Names uid c n) : Names s uid c n := by
  cases h with
  | package b hb h => exact .package x hx b hb h
  | op b hb h => exact .op x hx b hb h
  | write j hj h => exact .write x hx j hj h

/-- A row that the session sees is committed or its own. -/
theorem Names.of_view {b : Block κ} (hx : x ∈ s.sessions) (hb : b ∈ (x.view s.db).blocks)
    (h : Says b uid c n) : Names s uid c n := by
  rcases mem_applyOps hb with ⟨op, hop, rfl⟩ | ⟨hb, -⟩
  · exact .op x hx op hop h
  · exact .row b hb h

theorem Names.of_getBlockByIdx {v : Version} {idx : ℕ} (hx : x ∈ s.sessions)
    (h : Says ((x.view s.db).blocks.getBlockByIdx v idx) uid c n) : Names s uid c n := by
  cases hr : (x.view s.db).blocks.row? v idx with
  | none =>
    rw [BlockTable.getBlockByIdx_of_none hr] at h
    exact absurd h.1 (by simp)
  | some b =>
    rw [BlockTable.getBlockByIdx_of_row? hr] at h
    exact .of_view hx (BlockTable.row?_eq_some.mp hr).1 h

/-- A cloned row has the uid, checksum and size of the base's row, or no uid. -/
theorem says_of_clonedBlock {v : Version} {idx : ℕ} {old : Option (Block κ)}
    (h : Says (clonedBlock v idx old) uid c n) : ∃ b ∈ old, Says b uid c n := by
  cases old with
  | none =>
    by_cases hsize : v.blockSize = v.blockSizeAt idx
    · rw [clonedBlock_none_of_eq hsize] at h
      exact absurd h.1 (by simp)
    · rw [clonedBlock_none_of_ne hsize] at h
      exact absurd h.1 (by simp)
  | some b =>
    by_cases hsize : b.size = v.blockSizeAt idx
    · rw [clonedBlock_of_size_eq hsize] at h
      exact ⟨b, rfl, h⟩
    · rw [clonedBlock_of_size_ne hsize] at h
      exact absurd h.1 (by simp)

/-- The uid of block `idx` is not in use yet. -/
def Session.Unused (x : Session κ) (idx : ℕ) : Prop :=
  match x.stage with
  | .clone => True
  | .queue => True
  | .loop => idx ∈ x.reads.map Block.idx
  | .cow => True
  | .fixate => idx ∈ x.cow

/-- Each block is loaded once and read once, and copied once by an export. -/
structure Session.Once (x : Session κ) : Prop where
  nodup : ((x.reads ++ x.loaded).map Block.idx).Nodup
  loaded : ∀ b ∈ x.reads ++ x.loaded, b.idx < x.next
  cow : x.cow.Nodup

namespace Session.Once

theorem begin (v : Version) (base : Option Version) (nbd : Bool)
    (readBlocks sparseBlocks : List ℕ) :
    (Session.begin (κ := κ) v base nbd readBlocks sparseBlocks).Once :=
  ⟨List.nodup_nil, fun _ hb => absurd hb List.not_mem_nil, List.nodup_nil⟩

theorem reads_perm {α : Type} {l : List α} {k : ℕ} {a : α} (h : l[k]? = some a) :
    l.Perm (a :: l.eraseIdx k) := by
  obtain ⟨hk, rfl⟩ := List.getElem?_eq_some_iff.mp h
  exact (List.getElem_cons_eraseIdx_perm hk).symm

/-- The block whose read has completed is not among those still to come. -/
theorem taken (h : x.Once) {k : ℕ} {block : Block κ} (hblock : x.reads[k]? = some block) :
    (State.taken x k).Once ∧ block.idx ∉ (x.reads.eraseIdx k).map Block.idx ∧
      block ∈ x.reads ∧ ∀ b ∈ x.reads.eraseIdx k, b ∈ x.reads := by
  have hp := reads_perm hblock
  have hsub : ∀ b ∈ x.reads.eraseIdx k, b ∈ x.reads := fun b hb =>
    hp.mem_iff.mpr (List.mem_cons_of_mem _ hb)
  have hnodup := ((hp.append_right x.loaded).map Block.idx).nodup_iff.mp h.nodup
  rw [List.cons_append, List.map_cons, List.nodup_cons] at hnodup
  have hnot : block.idx ∉ (x.reads.eraseIdx k).map Block.idx := by
    intro hmem
    apply hnodup.1
    rw [List.map_append]
    exact List.mem_append_left _ hmem
  refine ⟨⟨hnodup.2, ?_, h.cow⟩, hnot, hp.mem_iff.mpr List.mem_cons_self, hsub⟩
  intro b hb
  rcases List.mem_append.mp hb with hb | hb
  · exact h.loaded b (List.mem_append_left _ (hsub b hb))
  · exact h.loaded b (List.mem_append_right _ hb)

theorem of_loaded {block : Block κ} {rest : List (Block κ)} (h : x.Once)
    (hloaded : x.loaded = block :: rest) : ((x.reads ++ rest).map Block.idx).Nodup ∧
      ∀ b ∈ x.reads ++ rest, b.idx < x.next := by
  have hsub : (x.reads ++ rest).Sublist (x.reads ++ x.loaded) := by
    rw [hloaded]
    exact (List.sublist_cons_self block rest).append_left x.reads
  exact ⟨h.nodup.sublist (hsub.map Block.idx), fun b hb => h.loaded b (hsub.subset hb)⟩

theorem of_cow {idx : ℕ} {rest : List ℕ} (h : x.Once) (hcow : x.cow = idx :: rest) :
    rest.Nodup ∧ idx ∉ rest ∧ idx ∈ x.cow ∧ ∀ i ∈ rest, i ∈ x.cow := by
  have hnodup := h.cow
  rw [hcow, List.nodup_cons] at hnodup
  rw [hcow]
  exact ⟨hnodup.2, hnodup.1, List.mem_cons_self, fun i hi => List.mem_cons_of_mem _ hi⟩

theorem of_local (h : x.Once) (hy : Local s x e y) : y.Once := by
  cases hy with
  | clone _ hstage hnext =>
    exact ⟨h.nodup, fun b hb => Nat.lt_succ_of_lt (h.loaded b hb), h.cow⟩
  | createBlocks n hstage => exact ⟨h.nodup, h.loaded, h.cow⟩
  | load _ hstage hnext =>
    have hidx : ((x.view s.db).blocks.getBlockByIdx x.version x.next).idx = x.next :=
      BlockTable.getBlockByIdx_idx _ _ _
    refine ⟨?_, ?_, h.cow⟩
    · rw [← List.append_assoc, List.map_append, List.map_singleton, hidx]
      apply List.nodup_append'.mpr
      refine ⟨h.nodup, List.nodup_singleton _, ?_⟩
      rw [List.disjoint_singleton]
      intro hmem
      obtain ⟨b, hb, he⟩ := List.mem_map.mp hmem
      have hlt := h.loaded b hb
      omega
    · intro b hb
      rw [← List.append_assoc] at hb
      rcases List.mem_append.mp hb with hb | hb
      · exact Nat.lt_succ_of_lt (h.loaded b hb)
      · rw [List.mem_singleton.mp hb, hidx]
        exact Nat.lt_succ_self _
  | queueRead _ block rest hstage hloaded =>
    have hassoc : x.reads ++ [block] ++ rest = x.reads ++ x.loaded := by
      rw [hloaded, List.append_assoc, List.singleton_append]
    refine ⟨?_, ?_, h.cow⟩
    · rw [hassoc]
      exact h.nodup
    · rw [hassoc]
      exact h.loaded
  | queueSparse _ block rest hstage hloaded =>
    obtain ⟨hn, hl⟩ := h.of_loaded hloaded
    exact ⟨hn, hl, h.cow⟩
  | queueKeep _ block rest hstage hloaded hvalid =>
    obtain ⟨hn, hl⟩ := h.of_loaded hloaded
    exact ⟨hn, hl, h.cow⟩
  | startLoop _ hstage hnext hloaded => exact ⟨h.nodup, h.loaded, h.cow⟩
  | readSparse _ k block hstage hblock =>
    obtain ⟨ht, -⟩ := h.taken hblock
    exact ⟨ht.nodup, ht.loaded, ht.cow⟩
  | readKnown _ k block b hstage hblock hb hvalid =>
    obtain ⟨ht, -⟩ := h.taken hblock
    exact ⟨ht.nodup, ht.loaded, ht.cow⟩
  | collect _ k j hstage hj => exact ⟨h.nodup, h.loaded, h.cow⟩
  | cowWrite _ idx hstage hidx =>
    refine ⟨h.nodup, h.loaded, ?_⟩
    apply List.nodup_append'.mpr
    refine ⟨h.cow, List.nodup_singleton _, ?_⟩
    rw [List.disjoint_singleton]
    exact hidx
  | startFixate _ hstage => exact ⟨h.nodup, h.loaded, h.cow⟩
  | fixateSparse _ idx size rest hstage hcow => exact ⟨h.nodup, h.loaded, (h.of_cow hcow).1⟩
  | rollback _ idx rest hstage hcow => exact ⟨h.nodup, h.loaded, (h.of_cow hcow).1⟩

end Session.Once

theorem Session.unused_of_local (h : x.Once) (hy : Local s x e y) {i : ℕ}
    (hi : y.Unused i) : x.Unused i := by
  unfold Session.Unused at hi ⊢
  cases hy with
  | clone _ hstage hnext => rw [hstage]; trivial
  | createBlocks n hstage => rw [hstage]; trivial
  | load _ hstage hnext => rw [hstage]; trivial
  | queueRead _ block rest hstage hloaded => rw [hstage]; trivial
  | queueSparse _ block rest hstage hloaded => rw [hstage]; trivial
  | queueKeep _ block rest hstage hloaded hvalid => rw [hstage]; trivial
  | startLoop _ hstage hnext hloaded => rw [hstage]; trivial
  | readSparse _ k block hstage hblock =>
    have hl : (((State.taken x k).setBlock block.idx none none block.size)).stage = .loop := hstage
    rw [hl] at hi
    rw [hstage]
    obtain ⟨b, hb, rfl⟩ := List.mem_map.mp hi
    exact List.mem_map_of_mem ((h.taken hblock).2.2.2 b hb)
  | readKnown _ k block b hstage hblock hb hvalid =>
    have hl : (((State.taken x k).setBlock block.idx b.uid b.checksum b.size)).stage = .loop :=
      hstage
    rw [hl] at hi
    rw [hstage]
    obtain ⟨b', hb', rfl⟩ := List.mem_map.mp hi
    exact List.mem_map_of_mem ((h.taken hblock).2.2.2 b' hb')
  | collect _ k j hstage hj => exact hi
  | cowWrite _ idx hstage hidx => rw [hstage]; trivial
  | startFixate _ hstage => rw [hstage]; trivial
  | fixateSparse _ idx size rest hstage hcow =>
    have hl : (({ x with cow := rest } : Session κ).setBlock idx none none size).stage = .fixate :=
      hstage
    rw [hl] at hi
    rw [hstage]
    exact (h.of_cow hcow).2.2.2 i hi
  | rollback _ idx rest hstage hcow =>
    simp only [hstage] at hi ⊢
    exact (h.of_cow hcow).2.2.2 i hi

theorem Session.Names.congr (h : y.Names uid c n) (hp : y.package = x.package)
    (ho : y.ops = x.ops) (hw : y.writes = x.writes) : x.Names uid c n := by
  cases h with
  | package b hb hs => exact .package b (hp ▸ hb) hs
  | op b hb hs => exact .op b (ho ▸ hb) hs
  | write j hj hs => exact .write j (hw ▸ hj) hs

/-- Another row written names what the session has named, or what that row says. -/
theorem Session.Names.of_op {b : Block κ} (h : y.Names uid c n) (hp : y.package = x.package)
    (ho : y.ops = x.ops ++ [b]) (hw : y.writes = x.writes) :
    x.Names uid c n ∨ Says b uid c n := by
  cases h with
  | package b' hb hs => exact .inl (.package b' (hp ▸ hb) hs)
  | op b' hb hs =>
    rw [ho] at hb
    rcases List.mem_append.mp hb with hb | hb
    · exact .inl (.op b' hb hs)
    · exact .inr (List.mem_singleton.mp hb ▸ hs)
  | write j hj hs => exact .inl (.write j (hw ▸ hj) hs)

theorem not_says_none {i k m : ℕ} {d : Option κ} {valid : Bool} :
    ¬ Says (⟨i, k, none, d, m, valid⟩ : Block κ) uid c n :=
  fun hs => absurd hs.1 (by simp)

/-- In a step of its own a session comes to name nothing that is not named already. -/
theorem names_of_local (hx : x ∈ s.sessions) (hy : Local s x e y) (h : y.Names uid c n) :
    Names s uid c n := by
  cases hy with
  | clone _ hstage hnext =>
    cases h with
    | package b hb hs =>
      rcases List.mem_append.mp hb with hb | hb
      · exact .package x hx b hb hs
      · rw [List.mem_singleton.mp hb] at hs
        obtain ⟨old, hold, hs⟩ := says_of_clonedBlock hs
        obtain ⟨w, -, hold⟩ := Option.bind_eq_some_iff.mp hold
        rw [Option.ite_none_right_eq_some] at hold
        rw [← Option.some.inj hold.2] at hs
        exact .of_getBlockByIdx hx hs
    | op b hb hs => exact .op x hx b hb hs
    | write j hj hs => exact .write x hx j hj hs
  | createBlocks m hstage =>
    cases h with
    | package b hb hs => exact .package x hx b (List.mem_of_mem_drop hb) hs
    | op b hb hs =>
      rcases List.mem_append.mp hb with hb | hb
      · exact .op x hx b hb hs
      · exact .package x hx b (List.mem_of_mem_take (List.mem_filter.mp hb).1) hs
    | write j hj hs => exact .write x hx j hj hs
  | load _ hstage hnext => exact .of_session hx (h.congr rfl rfl rfl)
  | queueRead _ block rest hstage hloaded => exact .of_session hx (h.congr rfl rfl rfl)
  | queueSparse _ block rest hstage hloaded =>
    rcases h.of_op (x := x) rfl rfl rfl with h | hs
    · exact .of_session hx h
    · exact absurd hs not_says_none
  | queueKeep _ block rest hstage hloaded hvalid => exact .of_session hx (h.congr rfl rfl rfl)
  | startLoop _ hstage hnext hloaded => exact .of_session hx (h.congr rfl rfl rfl)
  | readSparse _ k block hstage hblock =>
    rcases h.of_op (x := x) rfl rfl rfl with h | hs
    · exact .of_session hx h
    · exact absurd hs not_says_none
  | readKnown _ k block b hstage hblock hb hvalid =>
    rcases h.of_op (x := x) rfl rfl rfl with h | hs
    · exact .of_session hx h
    · exact .of_view hx hb hs
  | collect _ k j hstage hj =>
    cases h with
    | package b hb hs => exact .package x hx b hb hs
    | op b hb hs =>
      rcases List.mem_append.mp hb with hb | hb
      · exact .op x hx b hb hs
      · rw [List.mem_singleton.mp hb] at hs
        exact .write x hx j (List.mem_of_getElem? hj) ⟨Option.some.inj hs.1, hs.2⟩
    | write j' hj' hs => exact .write x hx j' (List.mem_of_mem_eraseIdx hj') hs
  | cowWrite _ idx hstage hidx => exact .of_session hx (h.congr rfl rfl rfl)
  | startFixate _ hstage => exact .of_session hx (h.congr rfl rfl rfl)
  | fixateSparse _ idx size rest hstage hcow =>
    rcases h.of_op (x := x) rfl rfl rfl with h | hs
    · exact .of_session hx h
    · exact absurd hs not_says_none
  | rollback _ idx rest hstage hcow =>
    cases h with
    | package b hb hs => exact .package x hx b hb hs
    | op b hb hs => exact absurd hb List.not_mem_nil
    | write j hj hs => exact .write x hx j hj hs

/-- What is named after a session is put is named by that session, or was named before. -/
theorem Names.of_putSession (h : Names (s.putSession y) uid c n) :
    Names s uid c n ∨ y.Names uid c n := by
  cases h with
  | row b hb hs => exact .inl (.row b hb hs)
  | package z hz b hb hs =>
    rcases mem_sessions_putSession.mp hz with rfl | ⟨hz, -⟩
    · exact .inr (.package b hb hs)
    · exact .inl (.package z hz b hb hs)
  | op z hz b hb hs =>
    rcases mem_sessions_putSession.mp hz with rfl | ⟨hz, -⟩
    · exact .inr (.op b hb hs)
    · exact .inl (.op z hz b hb hs)
  | write z hz j hj hs =>
    rcases mem_sessions_putSession.mp hz with rfl | ⟨hz, -⟩
    · exact .inr (.write j hj hs)
    · exact .inl (.write z hz j hj hs)
  | job j hj hs => exact .inl (.job j hj hs)

/-- Where rows, sessions and jobs only become fewer, so does what is named. -/
theorem Names.mono (h : Names t uid c n)
    (hrows : ∀ b ∈ t.db.blocks, Says b uid c n → Names s uid c n)
    (hsessions : ∀ x ∈ t.sessions, x ∈ s.sessions) (hjobs : ∀ j ∈ t.jobs, j ∈ s.jobs) :
    Names s uid c n := by
  cases h with
  | row b hb hs => exact hrows b hb hs
  | package x hx b hb hs => exact .package x (hsessions x hx) b hb hs
  | op x hx b hb hs => exact .op x (hsessions x hx) b hb hs
  | write x hx j hj hs => exact .write x (hsessions x hx) j hj hs
  | job j hj hs => exact .job j (hjobs j hj) hs

/-- The invariant behind the sharing of blocks. -/
structure Uids (s : State κ) : Prop where
  once : ∀ x ∈ s.sessions, x.Once
  agree : ∀ uid c c' n n', Names s uid c n → Names s uid c' n' → c = c' ∧ n = n'
  unused : ∀ x ∈ s.sessions, ∀ i, x.Unused i → ∀ c n, ¬ Names s (x.blockUid i) c n
  left : ∀ uid c n, Names s uid c n → uid.left < s.nextId
  sessions : ∀ x ∈ s.sessions, x.id < s.nextId
  versions : ∀ v ∈ s.db.versions, v.id < s.nextId

/-- At most one size and checksum for each uid. -/
def UidsAgree (db : Database κ) : Prop :=
  ∀ b ∈ db.blocks, ∀ b' ∈ db.blocks, b.uid.isSome → b.uid = b'.uid →
    b.size = b'.size ∧ b.checksum = b'.checksum

/-- The object that a step writes, and the checksum of what it writes. -/
def written? [DecidableEq κ] (sparseChecksum : ℕ → κ) (s : State κ) :
    Event κ → Option (BlockUid × κ)
  | .write ticket _ => (s.jobs.find? ticket).map fun j => (j.uid, j.checksum)
  | .fixate id checksum _ => (s.sessions.find? id).bind fun x => x.cow.head?.bind fun idx =>
      if checksum = sparseChecksum x.version.blockSize then none
      else some (x.blockUid idx, checksum)
  | .fixateFails id checksum => (s.sessions.find? id).bind fun x => x.cow.head?.bind fun idx =>
      if checksum = sparseChecksum x.version.blockSize then none
      else some (x.blockUid idx, checksum)
  | _ => none

/-- No row that is there has another checksum than the object written under its uid. -/
def WritesAgree [DecidableEq κ] (sparseChecksum : ℕ → κ) (s : State κ) (e : Event κ) : Prop :=
  ∀ o, written? sparseChecksum s e = some o → ∀ b ∈ s.db.blocks, b.uid = some o.1 →
    b.checksum = some o.2

/-- Nothing has a uid of version `id`: no row, committed or not, and no write. -/
def NoUidOf (s : State κ) (id : ℕ) : Prop :=
  (∀ b ∈ s.db.blocks, ∀ uid ∈ b.uid, uid.left ≠ id) ∧
    (∀ x ∈ s.sessions, (∀ b ∈ x.package ++ x.ops, ∀ uid ∈ b.uid, uid.left ≠ id) ∧
      ∀ j ∈ x.writes, j.uid.left ≠ id) ∧
    ∀ j ∈ s.jobs, j.uid.left ≠ id

/-- A backup starts only while nothing has a uid of its version. -/
def FreshUids (s : State κ) : Event κ → Prop
  | .start id _ _ _ _ _ => NoUidOf s id
  | _ => True

theorem NoUidOf.not_names {id : ℕ} (h : NoUidOf s id) (hl : uid.left = id) :
    ¬ Names s uid c n := by
  intro hn
  cases hn with
  | row b hb hs => exact h.1 b hb uid hs.1 hl
  | package x hx b hb hs => exact (h.2.1 x hx).1 b (List.mem_append_left _ hb) uid hs.1 hl
  | op x hx b hb hs => exact (h.2.1 x hx).1 b (List.mem_append_right _ hb) uid hs.1 hl
  | write x hx j hj hs =>
    apply (h.2.1 x hx).2 j hj
    rw [hs.1]
    exact hl
  | job j hj hs =>
    apply h.2.2 j hj
    rw [hs.1]
    exact hl

namespace Uids

/-- Steps after which nothing else is named. -/
theorem of_names (h : Uids s) (hnames : ∀ uid c n, Names t uid c n → Names s uid c n)
    (honce : ∀ y ∈ t.sessions, y.Once)
    (hsessions : ∀ y ∈ t.sessions, (∃ x ∈ s.sessions, y.id = x.id ∧
      ∀ i, y.Unused i → x.Unused i) ∨
        y.id < t.nextId ∧ ∀ uid c n, uid.left = y.id → ¬ Names s uid c n)
    (hnext : s.nextId ≤ t.nextId)
    (hversions : ∀ w ∈ t.db.versions, w.id < t.nextId) : Uids t := by
  refine ⟨honce, ?_, ?_, ?_, ?_, hversions⟩
  · intro uid c c' n n' hn hn'
    exact h.agree uid c c' n n' (hnames _ _ _ hn) (hnames _ _ _ hn')
  · intro y hy i hi c n hn
    rcases hsessions y hy with ⟨x, hx, hid, hunused⟩ | ⟨-, hno⟩
    · have huid : y.blockUid i = x.blockUid i := by
        have hid' : y.version.id = x.version.id := hid
        rw [Session.blockUid, hid', Session.blockUid]
      exact h.unused x hx i (hunused i hi) c n (huid ▸ hnames _ _ _ hn)
    · exact hno _ c n rfl (hnames _ _ _ hn)
  · intro uid c n hn
    exact lt_of_lt_of_le (h.left uid c n (hnames _ _ _ hn)) hnext
  · intro y hy
    rcases hsessions y hy with ⟨x, hx, hid, -⟩ | ⟨hlt, -⟩
    · rw [hid]
      exact lt_of_lt_of_le (h.sessions x hx) hnext
    · exact hlt

/-- The session `x` goes on as `y` and names nothing new. -/
theorem putSession (h : Uids s) (hx : x ∈ s.sessions) (hid : y.id = x.id) (honce : y.Once)
    (hnames : ∀ uid c n, y.Names uid c n → Names s uid c n)
    (hunused : ∀ i, y.Unused i → x.Unused i) : Uids (s.putSession y) := by
  refine h.of_names ?_ ?_ ?_ (le_refl _) h.versions
  · intro uid c n hn
    rcases hn.of_putSession with hn | hn
    · exact hn
    · exact hnames uid c n hn
  · intro z hz
    rcases mem_sessions_putSession.mp hz with rfl | ⟨hz, -⟩
    · exact honce
    · exact h.once z hz
  · intro z hz
    rcases mem_sessions_putSession.mp hz with rfl | ⟨hz, -⟩
    · exact .inl ⟨x, hx, hid, hunused⟩
    · exact .inl ⟨z, hz, rfl, fun _ hi => hi⟩

/-- The session `x` goes on as `y` and names one unused uid of its version. -/
theorem of_new (h : Uids s) {i : ℕ} {checksum : Option κ} {size : ℕ} (hx : x ∈ s.sessions)
    (hi : x.Unused i) (hid : y.id = x.id) (honce : y.Once)
    (hnames : ∀ uid c n, Names t uid c n → Names s uid c n ∨
      uid = x.blockUid i ∧ c = checksum ∧ n = size)
    (hunused : ∀ k, y.Unused k → x.Unused k ∧ k ≠ i)
    (hsessions : ∀ z ∈ t.sessions, z = y ∨ z ∈ s.sessions ∧ z.id ≠ y.id)
    (hnext : t.nextId = s.nextId) (hversions : t.db.versions = s.db.versions) : Uids t := by
  have hnew := h.unused x hx i hi
  refine ⟨?_, ?_, ?_, ?_, ?_, ?_⟩
  · intro z hz
    rcases hsessions z hz with rfl | ⟨hz, -⟩
    · exact honce
    · exact h.once z hz
  · intro uid c c' n n' hn hn'
    rcases hnames _ _ _ hn with hn | ⟨hu, hc, hsize⟩
    · rcases hnames _ _ _ hn' with hn' | ⟨hu, -, -⟩
      · exact h.agree uid c c' n n' hn hn'
      · exact absurd (hu ▸ hn) (hnew c n)
    · rcases hnames _ _ _ hn' with hn' | ⟨-, hc', hsize'⟩
      · exact absurd (hu ▸ hn') (hnew c' n')
      · exact ⟨hc.trans hc'.symm, hsize.trans hsize'.symm⟩
  · intro z hz k hk c n hn
    rcases hsessions z hz with rfl | ⟨hz, hne⟩
    · have huid : z.blockUid k = x.blockUid k := by
        have hid' : z.version.id = x.version.id := hid
        rw [Session.blockUid, hid', Session.blockUid]
      obtain ⟨hk, hki⟩ := hunused k hk
      rcases hnames _ _ _ hn with hn | ⟨hu, -, -⟩
      · exact h.unused x hx k hk c n (huid ▸ hn)
      · rw [huid] at hu
        apply hki
        have := congrArg BlockUid.right hu
        simp only [Session.blockUid] at this
        omega
    · rcases hnames _ _ _ hn with hn | ⟨hu, -, -⟩
      · exact h.unused z hz k hk c n hn
      · apply hne
        rw [hid]
        exact congrArg BlockUid.left hu
  · intro uid c n hn
    rw [hnext]
    rcases hnames _ _ _ hn with hn | ⟨hu, -, -⟩
    · exact h.left uid c n hn
    · rw [hu]
      exact h.sessions x hx
  · intro z hz
    rw [hnext]
    rcases hsessions z hz with rfl | ⟨hz, -⟩
    · rw [hid]
      exact h.sessions x hx
    · exact h.sessions z hz
  · rw [hversions, hnext]
    exact h.versions

/-- Steps that leave the sessions and the jobs alone and name nothing new. -/
theorem of_rows (h : Uids s) (hsessions : t.sessions = s.sessions)
    (hjobs : ∀ j ∈ t.jobs, j ∈ s.jobs) (hnext : t.nextId = s.nextId)
    (hrows : ∀ b ∈ t.db.blocks, ∀ uid c n, Says b uid c n → Names s uid c n)
    (hversions : ∀ w ∈ t.db.versions, ∃ v ∈ s.db.versions, v.id = w.id) : Uids t := by
  refine h.of_names ?_ ?_ ?_ (le_of_eq hnext.symm) ?_
  · intro uid c n hn
    refine hn.mono (fun b hb => hrows b hb uid c n) ?_ hjobs
    rw [hsessions]
    exact fun _ hx => hx
  · rw [hsessions]
    exact h.once
  · intro y hy
    rw [hsessions] at hy
    exact .inl ⟨y, hy, rfl, fun _ hi => hi⟩
  · intro w hw
    obtain ⟨v, hv, hid⟩ := hversions w hw
    rw [hnext, ← hid]
    exact h.versions v hv

theorem endSession (h : Uids s) : Uids (s.endSession x) := by
  refine h.of_names ?_ ?_ ?_ (le_refl _) h.versions
  · intro uid c n hn
    exact hn.mono (fun b hb hs => .row b hb hs) (fun y hy => (Table.mem_erase.mp hy).1)
      fun _ hj => hj
  · exact fun y hy => h.once y (Table.mem_erase.mp hy).1
  · exact fun y hy => .inl ⟨y, (Table.mem_erase.mp hy).1, rfl, fun _ hi => hi⟩

theorem commit (h : Uids s) (hx : x ∈ s.sessions) :
    Uids ({ s with db := s.committed x } : State κ) := by
  refine h.of_rows rfl (fun _ hj => hj) rfl ?_ ?_
  · intro b hb uid c n hs
    exact .of_view hx hb hs
  · intro w hw
    obtain ⟨v, hv, hid, -⟩ := @Database.of_mem_setSize _ _ x.id _ _ _ hw
    exact ⟨v, hv, hid⟩

end Uids

end Benji.Servicer
