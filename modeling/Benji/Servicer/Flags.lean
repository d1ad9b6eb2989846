import Benji.Servicer.Completion

/-! The valid flags of block rows, of rows that share an object and of the rows of a version. -/
namespace Benji.Servicer
open Lib

variable {κ : Type} {s t : State κ} {x y : Session κ} {e : Event κ} {sparseChecksum : ℕ → κ}
  {uid : BlockUid} {f f' : Bool}

/-- A row, committed or not, has the uid and the flag. -/
inductive Flagged (s : State κ) (uid : BlockUid) (f : Bool) : Prop
  | row (b : Block κ) (hb : b ∈ s.db.blocks) (hu : b.uid = some uid) (hf : b.valid = f)
  | package (x : Session κ) (hx : x ∈ s.sessions) (b : Block κ) (hb : b ∈ x.package)
      (hu : b.uid = some uid) (hf : b.valid = f)
  | op (x : Session κ) (hx : x ∈ s.sessions) (b : Block κ) (hb : b ∈ x.ops)
      (hu : b.uid = some uid) (hf : b.valid = f)

theorem Flagged.of_view {b : Block κ} (hx : x ∈ s.sessions) (hb : b ∈ (x.view s.db).blocks)
    (hu : b.uid = some uid) (hf : b.valid = f) : Flagged s uid f := by
  rcases mem_applyOps hb with ⟨op, hop, rfl⟩ | ⟨hb, -⟩
  · exact .op x hx op hop hu hf
  · exact .row b hb hu hf

/-- The backup is still going to write a row for the block. -/
def Session.Rewrites (x : Session κ) (idx : ℕ) : Prop :=
  idx < x.version.blocksCount ∧ (x.stage = .clone ∨ (x.stage = .queue ∧ x.next ≤ idx) ∨
    (∃ b ∈ x.loaded, b.idx = idx ∧ b.valid = false) ∨ (∃ b ∈ x.reads, b.idx = idx) ∨
      (∃ j ∈ x.writes, j.idx = idx) ∨ x.stage ≠ .clone ∧ ∃ op ∈ x.ops, op.idx = idx)

instance {x : Session κ} {idx : ℕ} : Decidable (x.Rewrites idx) :=
  inferInstanceAs (Decidable (_ ∧ _))

/-- A version that is valid has no invalid row, and rows of one uid have one flag. -/
def FlagsAgree (db : Database κ) : Prop :=
  (∀ v ∈ db.versions, v.status = .valid → ∀ b ∈ db.blocks, b.versionId = v.id → b.valid = true) ∧
    ∀ b ∈ db.blocks, ∀ b' ∈ db.blocks, b.uid.isSome → b.uid = b'.uid → b.valid = b'.valid

/-- No row, committed or not, that has a uid of version `id` is invalid. -/
def OwnValid (s : State κ) (id : ℕ) : Prop :=
  (∀ b ∈ s.db.blocks, ∀ uid ∈ b.uid, uid.left = id → b.valid = true) ∧
    ∀ x ∈ s.sessions, ∀ b ∈ x.package ++ x.ops, ∀ uid ∈ b.uid, uid.left = id → b.valid = true

/-- What a running backup has taken for valid stays valid under it, a backup of a version starts
with nothing invalid it would not write again, and a deep-scrub of a version without objects
finds no invalid row. There are no exports. -/
def Undisturbed (s : State κ) : Event κ → Prop
  | .start id size blockSize _ _ _ => OwnValid s id ∧ ∀ b ∈ s.db.blocks, b.versionId = id →
      b.valid = false → b.idx < size ⌈/⌉ blockSize
  | .createBlocks id n => ∀ x ∈ s.sessions, x.id = id → ∀ v ∈ s.db.versions, v.id = id →
      v.status = .valid → ∀ b ∈ x.storedRows n, b.valid = true
  | .setBlockValid uid valid => ∀ x ∈ s.sessions,
      (∀ b ∈ x.package ++ x.ops, b.uid = some uid → b.valid = valid) ∧
        (valid = false → ∀ b ∈ s.db.blocks, b.uid = some uid →
          uid.left ≠ x.id ∧ (b.versionId = x.id → x.Rewrites b.idx))
  | .deepScrub id => ∀ v ∈ s.db.versions, v.id = id → s.AllSparse v →
      ∀ b ∈ s.db.blocks, b.versionId = id → b.valid = true
  | .createCow _ _ => False
  | _ => True

/-- What is known of one session. -/
structure Session.Sound (x : Session κ) (bs : BlockTable κ) : Prop where
  noExport : x.nbd = false ∧ x.stage ≠ .cow ∧ x.stage ≠ .fixate
  package : ∀ b ∈ x.package, b.idx < x.version.blocksCount
  ops : ∀ b ∈ x.ops, b.valid = true ∨ x.stage = .clone ∧ b.idx < x.version.blocksCount
  writes : ∀ j ∈ x.writes, j.uid.left = x.id
  rewrites : ∀ b ∈ bs, b.versionId = x.id → b.valid = false → x.Rewrites b.idx

structure Flags (s : State κ) : Prop where
  agree : ∀ uid f f', Flagged s uid f → Flagged s uid f' → f = f'
  own : ∀ x ∈ s.sessions, ∀ uid f, Flagged s uid f → uid.left = x.id → f = true
  sound : ∀ x ∈ s.sessions, x.Sound s.db.blocks
  rows : ∀ v ∈ s.db.versions, v.status = .valid → ∀ b ∈ s.db.blocks, b.versionId = v.id →
    b.valid = true
  ops : ∀ v ∈ s.db.versions, v.status = .valid → ∀ x ∈ s.sessions, x.id = v.id →
    ∀ b ∈ x.ops, b.valid = true

namespace Session.Sound

theorem begin (v : Version) (base : Option Version) (readBlocks sparseBlocks : List ℕ)
    {bs : BlockTable κ} (h : ∀ b ∈ bs, b.versionId = v.id → b.valid = false →
      b.idx < v.blocksCount) :
    (Session.begin (κ := κ) v base false readBlocks sparseBlocks).Sound bs := by
  refine ⟨⟨rfl, nofun, nofun⟩, ?_, ?_, ?_, ?_⟩
  · exact fun b hb => absurd hb List.not_mem_nil
  · exact fun b hb => absurd hb List.not_mem_nil
  · exact fun j hj => absurd hj List.not_mem_nil
  · exact fun b hb hv hvalid => ⟨h b hb hv hvalid, .inl rfl⟩

/-- A block loaded while no row of the session is in the way is the committed one. -/
theorem row?_applyOps {bs : BlockTable κ} {v : Version} {ops : List (Block κ)} {idx : ℕ}
    (h : ∀ op ∈ ops, op.idx ≠ idx) : (applyOps bs v ops).row? v idx = bs.row? v idx := by
  induction ops generalizing bs with
  | nil => rfl
  | cons op ops ih =>
    have hne : (v.id, idx) ≠ (v.id, op.idx) := by
      intro he
      exact h op List.mem_cons_self (Prod.mk.inj he).2.symm
    have hrest := @ih (bs.setBlock v op.idx op.uid op.checksum op.size op.valid)
      fun op' hop => h op' (List.mem_cons_of_mem _ hop)
    exact hrest.trans (BlockTable.row?_setBlock_of_ne hne)

theorem mem_eraseIdx_or {α : Type} {l : List α} {k : ℕ} {a b : α} (hb : l[k]? = some b)
    (h : a ∈ l) : a = b ∨ a ∈ l.eraseIdx k := by
  obtain ⟨hk, rfl⟩ := List.getElem?_eq_some_iff.mp hb
  have hp := (List.getElem_cons_eraseIdx_perm hk).symm
  exact List.mem_cons.mp (hp.mem_iff.mp h)

/-- A row set in place of a block that is no longer to be read or written. -/
theorem setBlock {z : Session κ} {bs : BlockTable κ} {idx size : ℕ} {u : Option BlockUid}
    {c : Option κ} (h : x.Sound bs) (hstage : x.stage ≠ .clone) (hid : z.version = x.version)
    (hz : z.nbd = x.nbd ∧ z.stage = x.stage ∧ z.package = x.package ∧ z.ops = x.ops)
    (hwrites : ∀ j ∈ z.writes, j ∈ x.writes)
    (hrewrites : ∀ i, x.Rewrites i → i = idx ∨ z.Rewrites i) :
    (z.setBlock idx u c size).Sound bs := by
  obtain ⟨hnbd, hst, hpackage, hops⟩ := hz
  have hne : (z.setBlock idx u c size).stage ≠ .clone := by
    intro he
    exact hstage (hst.symm.trans he)
  have hzid : (z.setBlock idx u c size).id = x.id := congrArg Version.id hid
  refine ⟨?_, ?_, ?_, ?_, ?_⟩
  · have hn := h.noExport
    rw [← hnbd, ← hst] at hn
    exact hn
  · intro b hb
    have hb : b ∈ x.package := hpackage ▸ hb
    have hlt := h.package b hb
    rw [← hid] at hlt
    exact hlt
  · intro b hb
    rcases List.mem_append.mp hb with hb | hb
    · rcases h.ops b (hops ▸ hb) with hv | ⟨hc, -⟩
      · exact .inl hv
      · exact absurd hc hstage
    · rw [List.mem_singleton.mp hb]
      exact .inl rfl
  · intro j hj
    rw [hzid]
    exact h.writes j (hwrites j hj)
  · intro b hb hv hvalid
    rw [hzid] at hv
    have hr := h.rewrites b hb hv hvalid
    refine ⟨hid ▸ hr.1, ?_⟩
    rcases hrewrites _ hr with he | hz
    · exact .inr (.inr (.inr (.inr (.inr ⟨hne, _, List.mem_append_right _
        (List.mem_singleton_self _), he.symm⟩))))
    · rcases hz.2 with hc | hq | hl | hrd | hw | ⟨hc, op, hop, hi⟩
      · exact absurd hc hne
      · exact .inr (.inl hq)
      · exact .inr (.inr (.inl hl))
      · exact .inr (.inr (.inr (.inl hrd)))
      · exact .inr (.inr (.inr (.inr (.inl hw))))
      · exact .inr (.inr (.inr (.inr (.inr ⟨hc, op, List.mem_append_left _ hop, hi⟩))))

/-- The session goes on in its stage; the rows it is going to write stay so. -/
theorem of_rewrites {bs : BlockTable κ} (h : x.Sound bs) (hid : y.version = x.version)
    (hn : y.nbd = false ∧ y.stage ≠ .cow ∧ y.stage ≠ .fixate)
    (hpackage : ∀ b ∈ y.package, b ∈ x.package) (hops : y.ops = x.ops)
    (hstage : x.stage = .clone → y.stage = .clone) (hwrites : y.writes = x.writes)
    (hrewrites : ∀ i, (∃ b ∈ bs, b.versionId = x.id ∧ b.valid = false ∧ b.idx = i) →
      x.Rewrites i → y.Rewrites i) : y.Sound bs := by
  have hyid : y.id = x.id := congrArg Version.id hid
  refine ⟨hn, ?_, ?_, ?_, ?_⟩
  · intro b hb
    rw [hid]
    exact h.package b (hpackage b hb)
  · intro b hb
    rw [hops] at hb
    rcases h.ops b hb with hv | ⟨hc, hlt⟩
    · exact .inl hv
    · rw [hid]
      exact .inr ⟨hstage hc, hlt⟩
  · rw [hyid, hwrites]
    exact h.writes
  · intro b hb hv hvalid
    rw [hyid] at hv
    exact hrewrites _ ⟨b, hb, hv, hvalid, rfl⟩ (h.rewrites b hb hv hvalid)

theorem load (h : x.Sound s.db.blocks) : Session.Sound { x with
      next := x.next + 1
      loaded := x.loaded ++ [(x.view s.db).blocks.getBlockByIdx x.version x.next] }
        s.db.blocks := by
  refine h.of_rewrites rfl h.noExport (fun _ hb => hb) rfl (fun hc => hc) rfl ?_
  rintro i ⟨b, hb, hv, hvalid, rfl⟩ ⟨hlt, hr⟩
  refine ⟨hlt, ?_⟩
  rcases hr with hc | ⟨hq, hle⟩ | ⟨b', hb', hl⟩ | hrd | hw | ho
  · exact .inl hc
  · rcases Nat.eq_or_lt_of_le hle with he | hlt
    · by_cases hop : ∃ op ∈ x.ops, op.idx = b.idx
      · exact .inr (.inr (.inr (.inr (.inr ⟨by rw [hq]; decide, hop⟩))))
      · -- The invalid row itself is what is loaded.
        have hrow : s.db.blocks.row? x.version b.idx = some b :=
          BlockTable.row?_eq_some.mpr ⟨hb, hv, rfl⟩
        have hview : (x.view s.db).blocks.row? x.version b.idx = some b := by
          have hnot : ∀ op ∈ x.ops, op.idx ≠ b.idx := fun op hop' he' => hop ⟨op, hop', he'⟩
          exact (row?_applyOps hnot).trans hrow
        have hget : (x.view s.db).blocks.getBlockByIdx x.version x.next = b := by
          rw [he]
          exact BlockTable.getBlockByIdx_of_row? hview
        refine .inr (.inr (.inl ⟨b, ?_, rfl, hvalid⟩))
        rw [hget]
        exact List.mem_append_right _ (List.mem_singleton_self _)
    · exact .inr (.inl ⟨hq, hlt⟩)
  · exact .inr (.inr (.inl ⟨b', List.mem_append_left _ hb', hl⟩))
  · exact .inr (.inr (.inr (.inl hrd)))
  · exact .inr (.inr (.inr (.inr (.inl hw))))
  · exact .inr (.inr (.inr (.inr (.inr ho))))

theorem queueRead {block : Block κ} {rest : List (Block κ)} {bs : BlockTable κ} (h : x.Sound bs)
    (hloaded : x.loaded = block :: rest) : Session.Sound { x with
      loaded := rest
      reads := x.reads ++ [block]
      readJobs := x.readJobs + 1 } bs := by
  refine h.of_rewrites rfl h.noExport (fun _ hb => hb) rfl (fun hc => hc) rfl ?_
  rintro i - ⟨hlt, hr⟩
  refine ⟨hlt, ?_⟩
  rcases hr with hc | hq | ⟨b, hb, hl, hf⟩ | ⟨b, hb, hi⟩ | hw | ho
  · exact .inl hc
  · exact .inr (.inl hq)
  · rw [hloaded] at hb
    rcases List.mem_cons.mp hb with rfl | hb
    · exact .inr (.inr (.inr (.inl ⟨b, List.mem_append_right _ (List.mem_singleton_self _), hl⟩)))
    · exact .inr (.inr (.inl ⟨b, hb, hl, hf⟩))
  · exact .inr (.inr (.inr (.inl ⟨b, List.mem_append_left _ hb, hi⟩)))
  · exact .inr (.inr (.inr (.inr (.inl hw))))
  · exact .inr (.inr (.inr (.inr (.inr ho))))

theorem queueKeep {block : Block κ} {rest : List (Block κ)} {bs : BlockTable κ} (h : x.Sound bs)
    (hloaded : x.loaded = block :: rest) (hvalid : block.valid = true) :
    Session.Sound { x with loaded := rest } bs := by
  refine h.of_rewrites rfl h.noExport (fun _ hb => hb) rfl (fun hc => hc) rfl ?_
  rintro i - ⟨hlt, hr⟩
  refine ⟨hlt, ?_⟩
  rcases hr with hc | hq | ⟨b, hb, hl, hf⟩ | hrd | hw | ho
  · exact .inl hc
  · exact .inr (.inl hq)
  · rw [hloaded] at hb
    rcases List.mem_cons.mp hb with rfl | hb
    · rw [hvalid] at hf
      cases hf
    · exact .inr (.inr (.inl ⟨b, hb, hl, hf⟩))
  · exact .inr (.inr (.inr (.inl hrd)))
  · exact .inr (.inr (.inr (.inr (.inl hw))))
  · exact .inr (.inr (.inr (.inr (.inr ho))))

theorem queueSparse {block : Block κ} {rest : List (Block κ)} {bs : BlockTable κ} (h : x.Sound bs)
    (hstage : x.stage = .queue) (hloaded : x.loaded = block :: rest) {size : ℕ} :
    (({ x with loaded := rest } : Session κ).setBlock block.idx none none size).Sound bs := by
  refine h.setBlock ?_ rfl ⟨rfl, rfl, rfl, rfl⟩ (fun _ hj => hj) ?_
  · rw [hstage]
    decide
  · rintro i ⟨hlt, hr⟩
    rcases hr with hc | hq | ⟨b, hb, hl, hf⟩ | hrd | hw | ho
    · exact .inr ⟨hlt, .inl hc⟩
    · exact .inr ⟨hlt, .inr (.inl hq)⟩
    · rw [hloaded] at hb
      rcases List.mem_cons.mp hb with rfl | hb
      · exact .inl hl.symm
      · exact .inr ⟨hlt, .inr (.inr (.inl ⟨b, hb, hl, hf⟩))⟩
    · exact .inr ⟨hlt, .inr (.inr (.inr (.inl hrd)))⟩
    · exact .inr ⟨hlt, .inr (.inr (.inr (.inr (.inl hw))))⟩
    · exact .inr ⟨hlt, .inr (.inr (.inr (.inr (.inr ho))))⟩

theorem startLoop {bs : BlockTable κ} (h : x.Sound bs) (hstage : x.stage = .queue)
    (hnext : x.next = x.version.blocksCount) : Session.Sound { x with stage := .loop } bs := by
  refine h.of_rewrites rfl ⟨h.noExport.1, nofun, nofun⟩ (fun _ hb => hb) rfl ?_ rfl ?_
  · intro hc
    rw [hstage] at hc
    cases hc
  · rintro i - ⟨hlt, hr⟩
    refine ⟨hlt, ?_⟩
    rcases hr with hc | ⟨-, hle⟩ | hl | hrd | hw | ⟨-, ho⟩
    · rw [hstage] at hc
      cases hc
    · omega
    · exact .inr (.inr (.inl hl))
    · exact .inr (.inr (.inr (.inl hrd)))
    · exact .inr (.inr (.inr (.inr (.inl hw))))
    · exact .inr (.inr (.inr (.inr (.inr ⟨nofun, ho⟩))))

/-- The row for the block whose read has completed. -/
theorem read {k size : ℕ} {block : Block κ} {u : Option BlockUid} {c : Option κ}
    {bs : BlockTable κ} (h : x.Sound bs) (hstage : x.stage = .loop)
    (hblock : x.reads[k]? = some block) :
    ((State.taken x k).setBlock block.idx u c size).Sound bs := by
  refine h.setBlock ?_ rfl ⟨rfl, rfl, rfl, rfl⟩ (fun _ hj => hj) ?_
  · rw [hstage]
    decide
  · rintro i ⟨hlt, hr⟩
    rcases hr with hc | hq | hl | ⟨b, hb, hi⟩ | hw | ho
    · exact .inr ⟨hlt, .inl hc⟩
    · exact .inr ⟨hlt, .inr (.inl hq)⟩
    · exact .inr ⟨hlt, .inr (.inr (.inl hl))⟩
    · rcases mem_eraseIdx_or hblock hb with rfl | hb
      · exact .inl hi.symm
      · exact .inr ⟨hlt, .inr (.inr (.inr (.inl ⟨b, hb, hi⟩)))⟩
    · exact .inr ⟨hlt, .inr (.inr (.inr (.inr (.inl hw))))⟩
    · exact .inr ⟨hlt, .inr (.inr (.inr (.inr (.inr ho))))⟩

theorem collect {k : ℕ} {j : Job κ} {bs : BlockTable κ} (h : x.Sound bs) (hstage : x.stage = .loop)
    (hj : x.writes[k]? = some j) : (({ x with
      writes := x.writes.eraseIdx k
      doneWriteJobs := x.doneWriteJobs + 1 } : Session κ).setBlock j.idx (some j.uid)
        (some j.checksum) j.size).Sound bs := by
  refine h.setBlock ?_ rfl ⟨rfl, rfl, rfl, rfl⟩ (fun _ hm => List.mem_of_mem_eraseIdx hm) ?_
  · rw [hstage]
    decide
  · rintro i ⟨hlt, hr⟩
    rcases hr with hc | hq | hl | hrd | ⟨j', hj', hi⟩ | ho
    · exact .inr ⟨hlt, .inl hc⟩
    · exact .inr ⟨hlt, .inr (.inl hq)⟩
    · exact .inr ⟨hlt, .inr (.inr (.inl hl))⟩
    · exact .inr ⟨hlt, .inr (.inr (.inr (.inl hrd)))⟩
    · rcases mem_eraseIdx_or hj hj' with rfl | hj'
      · exact .inl hi.symm
      · exact .inr ⟨hlt, .inr (.inr (.inr (.inr (.inl ⟨j', hj', hi⟩))))⟩
    · exact .inr ⟨hlt, .inr (.inr (.inr (.inr (.inr ho))))⟩

theorem submit {k : ℕ} {block : Block κ} {checksum : κ} {bs : BlockTable κ} (h : x.Sound bs)
    (hblock : x.reads[k]? = some block) : (State.addJob (State.taken x k)
      (s.newJob (State.taken x k) block checksum)).Sound bs := by
  refine ⟨h.noExport, h.package, h.ops, ?_, ?_⟩
  · intro j hj
    rcases List.mem_append.mp hj with hj | hj
    · exact h.writes j hj
    · rw [List.mem_singleton.mp hj]
      rfl
  · intro b hb hv hvalid
    obtain ⟨hlt, hr⟩ := h.rewrites b hb hv hvalid
    refine ⟨hlt, ?_⟩
    rcases hr with hc | hq | hl | ⟨b', hb', hi⟩ | ⟨j, hj, hi⟩ | ho
    · exact .inl hc
    · exact .inr (.inl hq)
    · exact .inr (.inr (.inl hl))
    · rcases mem_eraseIdx_or hblock hb' with rfl | hb'
      · exact .inr (.inr (.inr (.inr (.inl ⟨_, List.mem_append_right _
          (List.mem_singleton_self _), hi⟩))))
      · exact .inr (.inr (.inr (.inl ⟨b', hb', hi⟩)))
    · exact .inr (.inr (.inr (.inr (.inl ⟨j, List.mem_append_left _ hj, hi⟩))))
    · exact .inr (.inr (.inr (.inr (.inr ho))))

theorem of_local (h : x.Sound s.db.blocks) (hy : Local s x e y) : y.Sound s.db.blocks := by
  obtain ⟨hnbd, hncow, hnfixate⟩ := h.noExport
  cases hy with
  | clone _ hstage hnext =>
    refine ⟨h.noExport, ?_, h.ops, h.writes, ?_⟩
    · intro b hb
      rcases List.mem_append.mp hb with hb | hb
      · exact h.package b hb
      · rw [List.mem_singleton.mp hb, clonedBlock_idx]
        exact hnext
    · intro b hb hv hvalid
      exact ⟨(h.rewrites b hb hv hvalid).1, .inl hstage⟩
  | createBlocks n hstage =>
    refine ⟨h.noExport, ?_, ?_, h.writes, ?_⟩
    · exact fun b hb => h.package b (List.mem_of_mem_drop hb)
    · intro b hb
      rcases List.mem_append.mp hb with hb | hb
      · exact h.ops b hb
      · exact .inr ⟨hstage, h.package b (List.mem_of_mem_take (List.mem_filter.mp hb).1)⟩
    · intro b hb hv hvalid
      exact ⟨(h.rewrites b hb hv hvalid).1, .inl hstage⟩
  | load _ hstage hnext => exact h.load
  | queueRead _ block rest hstage hloaded => exact h.queueRead hloaded
  | queueSparse _ block rest hstage hloaded => exact h.queueSparse hstage hloaded
  | queueKeep _ block rest hstage hloaded hvalid => exact h.queueKeep hloaded hvalid
  | startLoop _ hstage hnext hloaded => exact h.startLoop hstage hnext
  | readSparse _ k block hstage hblock => exact h.read hstage hblock
  | readKnown _ k block b hstage hblock hb hvalid => exact h.read hstage hblock
  | collect _ k j hstage hj => exact h.collect hstage hj
  | cowWrite _ idx hstage hidx => exact absurd hstage hncow
  | startFixate _ hstage => exact absurd hstage hncow
  | fixateSparse _ idx size rest hstage hcow => exact absurd hstage hnfixate
  | rollback _ idx rest hstage hcow => exact absurd hstage hnfixate

/-- What `x` has committed takes the place of the rows it was going to write, or is to be written
again. -/
theorem commitAs {bs : BlockTable κ} (h : x.Sound bs) (hid : y.version = x.version)
    (hn : y.nbd = false ∧ y.stage ≠ .cow ∧ y.stage ≠ .fixate) (hpackage : y.package = x.package)
    (hops : y.ops = []) (hwrites : y.writes = x.writes)
    (hclone : ∀ i < x.version.blocksCount, x.stage = .clone → y.Rewrites i)
    (hrewrites : ∀ i, (∀ op ∈ x.ops, op.idx ≠ i) → x.Rewrites i → y.Rewrites i) :
    y.Sound (applyOps bs x.version x.ops) := by
  have hyid : y.id = x.id := congrArg Version.id hid
  refine ⟨hn, ?_, ?_, ?_, ?_⟩
  · rw [hpackage, hid]
    exact h.package
  · rw [hops]
    exact fun b hb => absurd hb List.not_mem_nil
  · rw [hyid, hwrites]
    exact h.writes
  · intro b hb hv hvalid
    rcases mem_applyOps hb with ⟨op, hop, rfl⟩ | ⟨hb, hne⟩
    · rcases h.ops op hop with hf | ⟨hc, hlt⟩
      · rw [show op.valid = false from hvalid] at hf
        cases hf
      · exact hclone _ hlt hc
    · rw [hyid] at hv
      refine hrewrites _ ?_ (h.rewrites b hb hv hvalid)
      intro op hop he
      apply hne op hop
      rw [Block.key, he, hv]
      rfl

/-- Other sessions commit rows of their own versions only. -/
theorem of_commit {bs : BlockTable κ} (h : x.Sound bs) (hne : x.id ≠ y.id) :
    x.Sound (applyOps bs y.version y.ops) := by
  refine ⟨h.noExport, h.package, h.ops, h.writes, ?_⟩
  intro b hb hv hvalid
  rcases mem_applyOps hb with ⟨op, hop, rfl⟩ | ⟨hb, -⟩
  · exact absurd hv.symm hne
  · exact h.rewrites b hb hv hvalid

/-- Once nothing is outstanding, no row of the version is invalid. -/
theorem valid_of_allDone {bs : BlockTable κ} (h : x.Sound bs) (hstage : x.stage = .loop)
    (hall : x.AllDone) (hops : x.ops = []) {b : Block κ} (hb : b ∈ bs) (hv : b.versionId = x.id) :
    b.valid = true := by
  obtain ⟨-, hloaded, hreads, hwrites, -⟩ := hall
  by_contra hne
  obtain ⟨-, hr⟩ := h.rewrites b hb hv (Bool.eq_false_iff.mpr hne)
  rcases hr with hc | ⟨hq, -⟩ | ⟨c, hc, -⟩ | ⟨c, hc, -⟩ | ⟨j, hj, -⟩ | ⟨-, op, hop, -⟩
  · rw [hstage] at hc
    cases hc
  · rw [hstage] at hq
    cases hq
  · rw [List.length_eq_zero_iff.mp hloaded] at hc
    exact absurd hc List.not_mem_nil
  · rw [List.length_eq_zero_iff.mp hreads] at hc
    exact absurd hc List.not_mem_nil
  · rw [List.length_eq_zero_iff.mp hwrites] at hj
    exact absurd hj List.not_mem_nil
  · rw [hops] at hop
    exact absurd hop List.not_mem_nil

end Session.Sound

end Benji.Servicer
