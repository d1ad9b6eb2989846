import Benji.Servicer.Flags

/-! Whether a version with status valid has valid rows only. -/
namespace Benji.Servicer
open Lib

variable {κ : Type} {s t : State κ} {x y : Session κ} {e : Event κ} {sparseChecksum : ℕ → κ}
  {uid : BlockUid} {f : Bool}

/-- What is flagged after a session is put is one of its rows, or was flagged before. -/
theorem Flagged.of_putSession (h : Flagged (s.putSession y) uid f) : Flagged s uid f ∨
    ∃ b, (b ∈ y.package ∨ b ∈ y.ops) ∧ b.uid = some uid ∧ b.valid = f := by
  cases h with
  | row b hb hu hf => exact .inl (.row b hb hu hf)
  | package z hz b hb hu hf =>
    rcases mem_sessions_putSession.mp hz with rfl | ⟨hz, -⟩
    · exact .inr ⟨b, .inl hb, hu, hf⟩
    · exact .inl (.package z hz b hb hu hf)
  | op z hz b hb hu hf =>
    rcases mem_sessions_putSession.mp hz with rfl | ⟨hz, -⟩
    · exact .inr ⟨b, .inr hb, hu, hf⟩
    · exact .inl (.op z hz b hb hu hf)

theorem Flagged.mono (h : Flagged t uid f)
    (hrows : ∀ b ∈ t.db.blocks, b.uid = some uid → b.valid = f → Flagged s uid f)
    (hsessions : ∀ x ∈ t.sessions, x ∈ s.sessions) : Flagged s uid f := by
  cases h with
  | row b hb hu hf => exact hrows b hb hu hf
  | package x hx b hb hu hf => exact .package x (hsessions x hx) b hb hu hf
  | op x hx b hb hu hf => exact .op x (hsessions x hx) b hb hu hf

/-- A cloned row with a uid has the flag of the base's row. -/
theorem flagged_of_clonedBlock {v : Version} {idx : ℕ} {old : Option (Block κ)}
    (hu : (clonedBlock v idx old).uid = some uid) (hf : (clonedBlock v idx old).valid = f) :
    ∃ b ∈ old, b.uid = some uid ∧ b.valid = f := by
  cases old with
  | none =>
    by_cases hsize : v.blockSize = v.blockSizeAt idx
    · rw [clonedBlock_none_of_eq hsize] at hu
      cases hu
    · rw [clonedBlock_none_of_ne hsize] at hu
      cases hu
  | some b =>
    by_cases hsize : b.size = v.blockSizeAt idx
    · rw [clonedBlock_of_size_eq hsize] at hu hf
      exact ⟨b, rfl, hu, hf⟩
    · rw [clonedBlock_of_size_ne hsize] at hu
      cases hu

/-- The rows of a session after a step of its own: what is flagged already, or a valid row with a
uid of its version. -/
theorem flagged_of_local (hw : ∀ j ∈ x.writes, j.uid.left = x.id) (hx : x ∈ s.sessions)
    (hy : Local s x e y) {b : Block κ} (hb : b ∈ y.package ∨ b ∈ y.ops) (hu : b.uid = some uid)
    (hf : b.valid = f) : Flagged s uid f ∨ uid.left = x.id ∧ f = true := by
  have hold : b ∈ x.package ∨ b ∈ x.ops → Flagged s uid f := by
    rintro (hb | hb)
    · exact .package x hx b hb hu hf
    · exact .op x hx b hb hu hf
  have hset : ∀ {r : Block κ}, b ∈ x.package ∨ b ∈ x.ops ++ [r] →
      (b = r → Flagged s uid f ∨ uid.left = x.id ∧ f = true) →
      Flagged s uid f ∨ uid.left = x.id ∧ f = true := by
    rintro r (hb | hb) hr
    · exact .inl (hold (.inl hb))
    · rcases List.mem_append.mp hb with hb | hb
      · exact .inl (hold (.inr hb))
      · exact hr (List.mem_singleton.mp hb)
  cases hy with
  | clone _ hstage hnext =>
    rcases hb with hb | hb
    · rcases List.mem_append.mp hb with hb | hb
      · exact .inl (hold (.inl hb))
      · rw [List.mem_singleton.mp hb] at hu hf
        obtain ⟨old, hold, hu, hf⟩ := flagged_of_clonedBlock hu hf
        obtain ⟨w, -, hold⟩ := Option.bind_eq_some_iff.mp hold
        rw [Option.ite_none_right_eq_some] at hold
        rw [← Option.some.inj hold.2] at hu hf
        cases hr : (x.view s.db).blocks.row? w x.next with
        | none =>
          rw [BlockTable.getBlockByIdx_of_none hr] at hu
          cases hu
        | some b =>
          rw [BlockTable.getBlockByIdx_of_row? hr] at hu hf
          exact .inl (.of_view hx (BlockTable.row?_eq_some.mp hr).1 hu hf)
    · exact .inl (hold (.inr hb))
  | createBlocks n hstage =>
    rcases hb with hb | hb
    · exact .inl (hold (.inl (List.mem_of_mem_drop hb)))
    · rcases List.mem_append.mp hb with hb | hb
      · exact .inl (hold (.inr hb))
      · exact .inl (hold (.inl (List.mem_of_mem_take (List.mem_filter.mp hb).1)))
  | load _ hstage hnext => exact .inl (hold hb)
  | queueRead _ block rest hstage hloaded => exact .inl (hold hb)
  | queueSparse _ block rest hstage hloaded =>
    refine hset hb ?_
    rintro rfl
    cases hu
  | queueKeep _ block rest hstage hloaded hvalid => exact .inl (hold hb)
  | startLoop _ hstage hnext hloaded => exact .inl (hold hb)
  | readSparse _ k block hstage hblock =>
    refine hset hb ?_
    rintro rfl
    cases hu
  | readKnown _ k block b' hstage hblock hb' hvalid =>
    refine hset hb ?_
    rintro rfl
    exact .inl (.of_view hx hb' hu (hvalid.trans hf))
  | collect _ k j hstage hj =>
    refine hset hb ?_
    rintro rfl
    have huid : j.uid = uid := Option.some.inj hu
    rw [← huid]
    exact .inr ⟨hw j (List.mem_of_getElem? hj), hf.symm⟩
  | cowWrite _ idx hstage hidx => exact .inl (hold hb)
  | startFixate _ hstage => exact .inl (hold hb)
  | fixateSparse _ idx size rest hstage hcow =>
    refine hset hb ?_
    rintro rfl
    cases hu
  | rollback _ idx rest hstage hcow =>
    rcases hb with hb | hb
    · exact .inl (hold (.inl hb))
    · exact absurd hb List.not_mem_nil

/-- In a step of its own a session writes valid rows, but for those `create_blocks` inserts. -/
theorem valid_of_local (hy : Local s x e y)
    (hcreate : ∀ n, e = .createBlocks x.id n → ∀ b ∈ x.storedRows n, b.valid = true)
    (h : ∀ b ∈ x.ops, b.valid = true) : ∀ b ∈ y.ops, b.valid = true := by
  have hset : ∀ {r : Block κ}, r.valid = true → ∀ b ∈ x.ops ++ [r], b.valid = true := by
    intro r hr b hb
    rcases List.mem_append.mp hb with hb | hb
    · exact h b hb
    · rw [List.mem_singleton.mp hb]
      exact hr
  cases hy with
  | createBlocks n hstage =>
    intro b hb
    rcases List.mem_append.mp hb with hb | hb
    · exact h b hb
    · exact hcreate n rfl b hb
  | queueSparse _ block rest hstage hloaded => exact hset rfl
  | readSparse _ k block hstage hblock => exact hset rfl
  | readKnown _ k block b hstage hblock hb hvalid => exact hset rfl
  | collect _ k j hstage hj => exact hset rfl
  | fixateSparse _ idx size rest hstage hcow => exact hset rfl
  | rollback _ idx rest hstage hcow => exact fun b hb => absurd hb List.not_mem_nil
  | _ => exact h

namespace Flags

theorem flagsAgree (h : Flags s) : FlagsAgree s.db := by
  refine ⟨h.rows, ?_⟩
  intro b hb b' hb' hsome hu
  obtain ⟨uid, huid⟩ := Option.isSome_iff_exists.mp hsome
  exact h.agree uid _ _ (.row b hb huid rfl) (.row b' hb' (hu.symm.trans huid) rfl)

/-- Steps that touch neither the rows nor a status, and end sessions at most. -/
theorem of_fewer (h : Flags s) (hblocks : ∀ b ∈ t.db.blocks, b ∈ s.db.blocks)
    (hsessions : ∀ x ∈ t.sessions, x ∈ s.sessions)
    (hversions : ∀ w ∈ t.db.versions, w.status = .valid →
      ∃ v ∈ s.db.versions, v.id = w.id ∧ v.status = .valid) : Flags t := by
  have hflagged : ∀ uid f, Flagged t uid f → Flagged s uid f := fun uid f hn =>
    hn.mono (fun b hb hu hf => .row b (hblocks b hb) hu hf) hsessions
  refine ⟨?_, ?_, ?_, ?_, ?_⟩
  · exact fun uid f f' hn hn' => h.agree uid f f' (hflagged _ _ hn) (hflagged _ _ hn')
  · exact fun x hx uid f hn => h.own x (hsessions x hx) uid f (hflagged _ _ hn)
  · intro x hx
    have hsound := h.sound x (hsessions x hx)
    exact ⟨hsound.noExport, hsound.package, hsound.ops, hsound.writes,
      fun b hb => hsound.rewrites b (hblocks b hb)⟩
  · intro w hw hst b hb hv
    obtain ⟨v, hv', hid, hvst⟩ := hversions w hw hst
    exact h.rows v hv' hvst b (hblocks b hb) (hv.trans hid.symm)
  · intro w hw hst x hx hid'
    obtain ⟨v, hv', hid, hvst⟩ := hversions w hw hst
    exact h.ops v hv' hvst x (hsessions x hx) (hid'.trans hid.symm)

/-- The session `x` goes on as `y`. -/
theorem putSession (h : Flags s) (hx : x ∈ s.sessions) (hid : y.id = x.id)
    (hsound : y.Sound s.db.blocks)
    (hflagged : ∀ uid f b, b ∈ y.package ∨ b ∈ y.ops → b.uid = some uid → b.valid = f →
      Flagged s uid f ∨ uid.left = x.id ∧ f = true)
    (hops : ∀ v ∈ s.db.versions, v.status = .valid → v.id = x.id →
      (∀ b ∈ x.ops, b.valid = true) → ∀ b ∈ y.ops, b.valid = true) : Flags (s.putSession y) := by
  have hnew : ∀ uid f, Flagged (s.putSession y) uid f →
      Flagged s uid f ∨ uid.left = x.id ∧ f = true := by
    intro uid f hn
    rcases hn.of_putSession with hn | ⟨b, hb, hu, hf⟩
    · exact .inl hn
    · exact hflagged uid f b hb hu hf
  have hold : ∀ z ∈ (s.putSession y).sessions, ∃ z' ∈ s.sessions, z'.id = z.id := by
    intro z hz
    rcases mem_sessions_putSession.mp hz with rfl | ⟨hz, -⟩
    · exact ⟨x, hx, hid.symm⟩
    · exact ⟨z, hz, rfl⟩
  refine ⟨?_, ?_, ?_, h.rows, ?_⟩
  · intro uid f f' hn hn'
    rcases hnew uid f hn with hn | ⟨hl, hf⟩
    · rcases hnew uid f' hn' with hn' | ⟨hl, hf'⟩
      · exact h.agree uid f f' hn hn'
      · rw [hf']
        exact h.own x hx uid f hn hl
    · rcases hnew uid f' hn' with hn' | ⟨-, hf'⟩
      · rw [hf]
        exact (h.own x hx uid f' hn' hl).symm
      · exact hf.trans hf'.symm
  · intro z hz uid f hn hl
    obtain ⟨z', hz', hzid⟩ := hold z hz
    rcases hnew uid f hn with hn | ⟨-, hf⟩
    · exact h.own z' hz' uid f hn (hl.trans hzid.symm)
    · exact hf
  · intro z hz
    rcases mem_sessions_putSession.mp hz with rfl | ⟨hz, -⟩
    · exact hsound
    · exact h.sound z hz
  · intro v hv hst z hz hzid
    rcases mem_sessions_putSession.mp hz with rfl | ⟨hz, -⟩
    · have hvx : v.id = x.id := hzid.symm.trans hid
      exact hops v hv hst hvx (h.ops v hv hst x hx hvx.symm)
    · exact h.ops v hv hst z hz hzid

/-- A commit makes rows of the session's version out of what is flagged already. -/
theorem commitAs (h : Flags s) (hx : x ∈ s.sessions) (hid : y.id = x.id)
    (hsound : y.Sound (applyOps s.db.blocks x.version x.ops)) (hpackage : y.package = x.package)
    (hops : y.ops = []) :
    Flags ({ s.putSession y with db := s.committed x } : State κ) := by
  have hnew : ∀ uid f, Flagged ({ s.putSession y with db := s.committed x } : State κ) uid f →
      Flagged s uid f := by
    intro uid f hn
    cases hn with
    | row b hb hu hf => exact .of_view hx hb hu hf
    | package z hz b hb hu hf =>
      rcases mem_sessions_putSession.mp hz with rfl | ⟨hz, -⟩
      · exact .package x hx b (hpackage ▸ hb) hu hf
      · exact .package z hz b hb hu hf
    | op z hz b hb hu hf =>
      rcases mem_sessions_putSession.mp hz with rfl | ⟨hz, -⟩
      · rw [hops] at hb
        exact absurd hb List.not_mem_nil
      · exact .op z hz b hb hu hf
  refine ⟨?_, ?_, ?_, ?_, ?_⟩
  · exact fun uid f f' hn hn' => h.agree uid f f' (hnew _ _ hn) (hnew _ _ hn')
  · intro z hz uid f hn hl
    rcases mem_sessions_putSession.mp hz with rfl | ⟨hz, -⟩
    · exact h.own x hx uid f (hnew _ _ hn) (hl.trans hid)
    · exact h.own z hz uid f (hnew _ _ hn) hl
  · intro z hz
    rcases mem_sessions_putSession.mp hz with rfl | ⟨hz, hne⟩
    · exact hsound
    · exact (h.sound z hz).of_commit (y := x) (hid ▸ hne)
  · intro w hw hst b hb hv
    obtain ⟨v, hvm, hvid, hvst⟩ := @Database.of_mem_setSize _ _ x.id _ _ _ hw
    have hvst := hvst.trans hst
    rcases mem_applyOps hb with ⟨op, hop, rfl⟩ | ⟨hb, -⟩
    · exact h.ops v hvm hvst x hx (hv.trans hvid.symm) op hop
    · exact h.rows v hvm hvst b hb (hv.trans hvid.symm)
  · intro w hw hst z hz hzid
    obtain ⟨v, hvm, hvid, hvst⟩ := @Database.of_mem_setSize _ _ x.id _ _ _ hw
    rcases mem_sessions_putSession.mp hz with rfl | ⟨hz, -⟩
    · rw [hops]
      exact fun b hb => absurd hb List.not_mem_nil
    · exact h.ops v hvm (hvst.trans hst) z hz (hzid.trans hvid.symm)

/-- A version may be set valid when its rows are, and no session is at work on it. -/
theorem setValid (h : Flags s) (id : ℕ) (hfree : ∀ x ∈ s.sessions, x.id ≠ id)
    (hrows : ∀ b ∈ s.db.blocks, b.versionId = id → b.valid = true) :
    Flags ({ s with db := s.db.setStatus id .valid } : State κ) := by
  refine ⟨?_, ?_, h.sound, ?_, ?_⟩
  · intro uid f f' hn hn'
    exact h.agree uid f f' (hn.mono (fun b hb hu hf => .row b hb hu hf) fun _ hx => hx)
      (hn'.mono (fun b hb hu hf => .row b hb hu hf) fun _ hx => hx)
  · intro x hx uid f hn
    exact h.own x hx uid f (hn.mono (fun b hb hu hf => .row b hb hu hf) fun _ hx => hx)
  · intro w hw hst b hb hv
    rcases Database.of_mem_setStatus hw with ⟨hid, -, -⟩ | ⟨-, hw⟩
    · exact hrows b hb (hv.trans hid)
    · exact h.rows w hw hst b hb hv
  · intro w hw hst x hx hxid
    rcases Database.of_mem_setStatus hw with ⟨hid, -, -⟩ | ⟨-, hw⟩
    · exact absurd (hxid.trans hid) (hfree x hx)
    · exact h.ops w hw hst x hx hxid

theorem setBlockValid {u : BlockUid} {valid : Bool} (h : Flags s)
    (hok : Undisturbed s (.setBlockValid u valid)) :
    Flags ({ s with db := s.db.setBlockValid (some u) valid } : State κ) := by
  have hnew : ∀ uid f,
      Flagged ({ s with db := s.db.setBlockValid (some u) valid } : State κ) uid f →
      (uid ≠ u ∧ Flagged s uid f) ∨
        uid = u ∧ f = valid ∧ ∃ g, Flagged s uid g ∧ (g = valid ∨
          ∃ b ∈ s.db.blocks, b.uid = some u) := by
    intro uid f hn
    have hpending : ∀ x ∈ s.sessions, ∀ b, (b ∈ x.package ∨ b ∈ x.ops) → b.uid = some uid →
        b.valid = f → Flagged s uid f → (uid ≠ u ∧ Flagged s uid f) ∨
          uid = u ∧ f = valid ∧ ∃ g, Flagged s uid g ∧ (g = valid ∨
            ∃ b ∈ s.db.blocks, b.uid = some u) := by
      intro x hx b hb hu hf hfl
      by_cases he : uid = u
      · have hvalid := (hok x hx).1 b (List.mem_append.mpr hb) (he ▸ hu)
        exact .inr ⟨he, hf.symm.trans hvalid, f, hfl, .inl (hf.symm.trans hvalid)⟩
      · exact .inl ⟨he, hfl⟩
    cases hn with
    | row b hb hu hf =>
      obtain ⟨b', hb', rfl⟩ := Database.mem_blocks_setBlockValid.mp hb
      by_cases he : b'.uid = some u
      · rw [if_pos he] at hu hf
        have huu : uid = u := Option.some.inj (hu.symm.trans he)
        exact .inr ⟨huu, hf.symm, b'.valid, .row b' hb' hu rfl, .inr ⟨b', hb', he⟩⟩
      · rw [if_neg he] at hu hf
        have hne : uid ≠ u := fun heq => he (heq ▸ hu)
        exact .inl ⟨hne, .row b' hb' hu hf⟩
    | package x hx b hb hu hf => exact hpending x hx b (.inl hb) hu hf (.package x hx b hb hu hf)
    | op x hx b hb hu hf => exact hpending x hx b (.inr hb) hu hf (.op x hx b hb hu hf)
  refine ⟨?_, ?_, ?_, ?_, ?_⟩
  · intro uid f f' hn hn'
    rcases hnew uid f hn with ⟨hne, hn⟩ | ⟨he, hf, -⟩
    · rcases hnew uid f' hn' with ⟨-, hn'⟩ | ⟨he, -⟩
      · exact h.agree uid f f' hn hn'
      · exact absurd he hne
    · rcases hnew uid f' hn' with ⟨hne, -⟩ | ⟨-, hf', -⟩
      · exact absurd he hne
      · exact hf.trans hf'.symm
  · intro x hx uid f hn hl
    rcases hnew uid f hn with ⟨-, hn⟩ | ⟨rfl, hf, g, hg, hrow⟩
    · exact h.own x hx uid f hn hl
    · have hgt := h.own x hx uid g hg hl
      rcases hrow with hgv | ⟨b, hb, hu⟩
      · exact hf.trans (hgv.symm.trans hgt)
      · cases valid with
        | true => exact hf
        | false => exact absurd hl ((hok x hx).2 rfl b hb hu).1
  · intro x hx
    have hsound := h.sound x hx
    refine ⟨hsound.noExport, hsound.package, hsound.ops, hsound.writes, ?_⟩
    intro b hb hv hvalid
    obtain ⟨b', hb', rfl⟩ := Database.mem_blocks_setBlockValid.mp hb
    by_cases he : b'.uid = some u
    · rw [if_pos he] at hv hvalid ⊢
      exact ((hok x hx).2 hvalid b' hb' he).2 hv
    · rw [if_neg he] at hv hvalid ⊢
      exact hsound.rewrites b' hb' hv hvalid
  · intro w hw hst b hb hv
    obtain ⟨b', hb', rfl⟩ := Database.mem_blocks_setBlockValid.mp hb
    cases valid with
    | true =>
      have hw : w ∈ s.db.versions := hw
      split at hv
      · rename_i he
        rw [if_pos he]
      · rename_i he
        rw [if_neg he]
        exact h.rows w hw hst b' hb' hv
    | false =>
      obtain ⟨hwm, hnot⟩ := Database.mem_versions_setBlockValid_false hw hst
      by_cases he : b'.uid = some u
      · rw [if_pos he] at hv
        exact absurd he (hnot b' hb' hv)
      · rw [if_neg he] at hv ⊢
        exact h.rows w hwm hst b' hb' hv
  · intro w hw hst x hx hid
    rcases Database.of_mem_versions_setBlockValid hw with hw | ⟨hinvalid, -⟩
    · exact h.ops w hw hst x hx hid
    · rw [hinvalid] at hst
      cases hst

theorem beginSession {v : Version} {size blockSize : ℕ} {base : Option Version}
    {readBlocks sparseBlocks : List ℕ} (h : Flags s) (hown : OwnValid s v.id)
    (hrows : ∀ b ∈ s.db.blocks, b.versionId = v.id → b.valid = false →
      b.idx < size ⌈/⌉ blockSize) :
    Flags (s.putSession (.begin { v with size := size, blockSize := blockSize } base false
      readBlocks sparseBlocks)) := by
  have hold : ∀ uid f, Flagged (s.putSession (.begin { v with
      size := size, blockSize := blockSize } base false readBlocks sparseBlocks)) uid f →
      Flagged s uid f := by
    intro uid f hn
    rcases hn.of_putSession with hn | ⟨b, hb | hb, -, -⟩
    · exact hn
    · exact absurd hb List.not_mem_nil
    · exact absurd hb List.not_mem_nil
  have hownValid : ∀ uid f, Flagged s uid f → uid.left = v.id → f = true := by
    intro uid f hn hl
    cases hn with
    | row b hb hu hf => exact hf ▸ hown.1 b hb uid hu hl
    | package x hx b hb hu hf =>
      exact hf ▸ hown.2 x hx b (List.mem_append_left _ hb) uid hu hl
    | op x hx b hb hu hf => exact hf ▸ hown.2 x hx b (List.mem_append_right _ hb) uid hu hl
  refine ⟨?_, ?_, ?_, h.rows, ?_⟩
  · exact fun uid f f' hn hn' => h.agree uid f f' (hold _ _ hn) (hold _ _ hn')
  · intro z hz uid f hn hl
    rcases mem_sessions_putSession.mp hz with rfl | ⟨hz, -⟩
    · exact hownValid uid f (hold _ _ hn) hl
    · exact h.own z hz uid f (hold _ _ hn) hl
  · intro z hz
    rcases mem_sessions_putSession.mp hz with rfl | ⟨hz, -⟩
    · exact .begin _ _ _ _ hrows
    · exact h.sound z hz
  · intro w hw hst z hz hid
    rcases mem_sessions_putSession.mp hz with rfl | ⟨hz, -⟩
    · exact fun b hb => absurd hb List.not_mem_nil
    · exact h.ops w hw hst z hz hid

theorem effect (h : Flags s) (hp : Underway s) (hok : Undisturbed s e)
    (he : Effect sparseChecksum s e t) : Flags t := by
  have hsame : ∀ b ∈ s.db.blocks, b ∈ s.db.blocks := fun _ hb => hb
  have hsessions : ∀ x ∈ s.sessions, x ∈ s.sessions := fun _ hx => hx
  have hversions : ∀ w ∈ s.db.versions, w.status = .valid →
      ∃ v ∈ s.db.versions, v.id = w.id ∧ v.status = .valid := fun w hw hst => ⟨w, hw, rfl, hst⟩
  cases he with
  | create _ v hid hstatus =>
    refine h.of_fewer hsame hsessions ?_
    intro w hw hst
    rcases Table.mem_put.mp hw with rfl | ⟨hw, -⟩
    · rw [hstatus] at hst
      cases hst
    · exact ⟨w, hw, rfl, hst⟩
  | start v size blockSize b base readBlocks sparseBlocks hfree hv =>
    exact h.beginSession hok.1 hok.2
  | createCow v w base hid hstatus => exact absurd hok id
  | session _ x y hx hy =>
    have hid : y.id = x.id := by cases hy <;> rfl
    have hsound := h.sound x hx
    refine h.putSession hx hid (hsound.of_local hy) ?_ ?_
    · exact fun uid f b hb hu hf => flagged_of_local hsound.writes hx hy hb hu hf
    · intro v hv hst hvid hops
      refine valid_of_local hy ?_ hops
      rintro n rfl
      exact hok x hx rfl v hv hvid hst
  | save _ x hx hstage hnext hpackage =>
    have hsound := h.sound x hx
    have hnbd := hsound.noExport.1
    refine h.commitAs hx rfl ?_ rfl rfl
    refine hsound.commitAs rfl ?_ rfl rfl rfl ?_ ?_
    · rw [hnbd]
      exact ⟨rfl, nofun, nofun⟩
    · intro i hlt _
      rw [hnbd]
      exact ⟨hlt, .inr (.inl ⟨rfl, Nat.zero_le _⟩)⟩
    · intro i _ hr
      rw [hnbd]
      exact ⟨hr.1, .inr (.inl ⟨rfl, Nat.zero_le _⟩)⟩
  | commit _ x hx =>
    have hsound := h.sound x hx
    refine h.commitAs hx rfl ?_ rfl rfl
    refine hsound.commitAs rfl hsound.noExport rfl rfl rfl ?_ ?_
    · exact fun i hlt hstage => ⟨hlt, .inl hstage⟩
    · rintro i hnot ⟨hlt, hr⟩
      refine ⟨hlt, ?_⟩
      rcases hr with hc | hq | hl | hrd | hw | ⟨-, op, hop, hi⟩
      · exact .inl hc
      · exact .inr (.inl hq)
      · exact .inr (.inr (.inl hl))
      · exact .inr (.inr (.inr (.inl hrd)))
      · exact .inr (.inr (.inr (.inr (.inl hw))))
      · exact absurd hi (hnot op hop)
  | readNew _ x hx k block checksum hstage hblock =>
    have hput := h.putSession hx (y := State.addJob (State.taken x k)
      (s.newJob (State.taken x k) block checksum)) rfl ((h.sound x hx).submit hblock) ?_ ?_
    · refine hput.of_fewer hsame (fun _ hz => hz) hversions
    · rintro uid f b (hb | hb) hu hf
      · exact .inl (.package x hx b hb hu hf)
      · exact .inl (.op x hx b hb hu hf)
    · exact fun _ _ _ _ hops => hops
  | write j hj raises => exact h.of_fewer hsame hsessions hversions
  | dropWrite _ ticket => exact h.of_fewer hsame hsessions hversions
  | complete _ x hx hc hops =>
    have hsound := h.sound x hx
    have hstage : x.stage = .loop := by
      rcases hc with ⟨hstage, -⟩ | ⟨hstage, -⟩
      · exact hstage
      · exact absurd hstage hsound.noExport.2.2
    have hend : Flags (s.endSession x) :=
      h.of_fewer hsame (fun _ hz => (Table.mem_erase.mp hz).1) hversions
    have hset := hend.setValid x.id (fun _ hz => (Table.mem_erase.mp hz).2)
      fun b hb hv => hsound.valid_of_allDone hstage ((hp x hx).allDone hc) hops hb hv
    exact hset.of_fewer (fun _ hb => hb) (fun _ hz => hz) fun w hw hst => ⟨w, hw, rfl, hst⟩
  | close _ x failed =>
    exact h.of_fewer hsame (fun _ hz => (Table.mem_erase.mp hz).1) hversions
  | refuse _ failed => exact h.of_fewer hsame hsessions hversions
  | setInvalid _ id failed =>
    refine h.of_fewer hsame hsessions ?_
    intro w hw hst
    rcases Database.of_mem_setStatus hw with ⟨-, hinvalid, -⟩ | ⟨-, hw⟩
    · rw [hinvalid] at hst
      cases hst
    · exact ⟨w, hw, rfl, hst⟩
  | fixate x hx checksum size idx rest hstage hcow hsparse =>
    exact absurd hstage (h.sound x hx).noExport.2.2
  | fixateFails x hx checksum idx rest hstage hcow hsparse =>
    exact absurd hstage (h.sound x hx).noExport.2.2
  | removeVersion _ v date =>
    refine h.of_fewer ?_ hsessions ?_
    · exact fun b hb => (Database.mem_blocks_removeVersion.mp hb).1
    · exact fun w hw hst => ⟨w, (Database.mem_versions_removeVersion.mp hw).1, rfl, hst⟩
  | cleanup _ ids o => exact h.of_fewer hsame hsessions hversions
  | setBlockValid uid valid => exact h.setBlockValid hok
  | deepScrub v hv hfree hstatus hsparse =>
    have hnone := Table.find?_eq_none.mp hfree
    exact h.setValid v.id hnone (hok v hv rfl hsparse)
  | idle => exact h

theorem init : Flags (init : State κ) := by
  have hno : ∀ uid f, ¬ Flagged (Servicer.init : State κ) uid f := by
    intro uid f hn
    cases hn with
    | row b hb hu hf => exact absurd hb Table.not_mem_empty
    | package x hx b hb hu hf => exact absurd hx Table.not_mem_empty
    | op x hx b hb hu hf => exact absurd hx Table.not_mem_empty
  refine ⟨?_, ?_, ?_, ?_, ?_⟩
  · exact fun uid f f' hn _ => absurd hn (hno uid f)
  · exact fun x hx => absurd hx Table.not_mem_empty
  · exact fun x hx => absurd hx Table.not_mem_empty
  · exact fun v hv => absurd hv Table.not_mem_empty
  · exact fun v hv => absurd hv Table.not_mem_empty

end Flags

instance {s : State κ} {id : ℕ} : Decidable (OwnValid s id) := inferInstanceAs (Decidable (_ ∧ _))

instance {s : State κ} {e : Event κ} : Decidable (Undisturbed s e) :=
  match e with
  | .start id size blockSize _ _ _ => inferInstanceAs (Decidable (OwnValid s id ∧
      ∀ b ∈ s.db.blocks, b.versionId = id → b.valid = false → b.idx < size ⌈/⌉ blockSize))
  | .createBlocks id n => inferInstanceAs (Decidable (∀ x ∈ s.sessions, x.id = id →
      ∀ v ∈ s.db.versions, v.id = id → v.status = .valid → ∀ b ∈ x.storedRows n, b.valid = true))
  | .setBlockValid uid valid => inferInstanceAs (Decidable (∀ x ∈ s.sessions,
      (∀ b ∈ x.package ++ x.ops, b.uid = some uid → b.valid = valid) ∧
        (valid = false → ∀ b ∈ s.db.blocks, b.uid = some uid →
          uid.left ≠ x.id ∧ (b.versionId = x.id → x.Rewrites b.idx))))
  | .deepScrub id => inferInstanceAs (Decidable (∀ v ∈ s.db.versions, v.id = id → s.AllSparse v →
      ∀ b ∈ s.db.blocks, b.versionId = id → b.valid = true))
  | .createCow .. => isFalse id
  | .create _ | .refuse _ | .clone _ | .save _ | .load _ | .queue _ | .startLoop _ | .read ..
  | .write .. | .dropWrite _ | .collect .. | .commit _ | .finish _ | .fail _ | .setInvalid _
  | .cowWrite .. | .startFixate _ | .fixate .. | .fixateFails .. | .fixateDone _
  | .removeVersion .. | .cleanup .. => isTrue trivial

/-- In a run that leaves running backups undisturbed, no valid version has an invalid row, and
rows that share an object are valid together. -/
theorem valid_flags_agree [DecidableEq κ] (sparseChecksum : ℕ → κ) {s : State κ}
    (h : Steps (step sparseChecksum) Undisturbed init s) : FlagsAgree s.db := by
  have hboth : Underway s ∧ Flags s := by
    refine h.invariant (I := fun s => Underway s ∧ Flags s) ⟨.init, .init⟩ ?_
    rintro s e t ⟨hp, hf⟩ hok hs
    have he := effect_of_step hs
    exact ⟨hp.effect he, hf.effect hp hok he⟩
  exact hboth.2.flagsAgree

section Example

/-- Version 1 is valid, and the backup of version 2 has found its block. -/
def foundBlock : List (Event ℕ) :=
  .create (newVersion 1 1 "v1") :: .create (newVersion 2 1 "v2") :: toRead 1 ++ fromRead 1 0 5 ++
    toRead 2 ++ [.startLoop 2, .read 2 0 5 0]

/-- A scrub that finds the block damaged before the backup of version 2 commits marks version 1
alone; one that comes after it is forgotten when that backup sets its version valid. -/
theorem marked_during_backup :
    (∃ s, Reaches (step fun _ => 0) (init : State ℕ) s ∧
      ∃ b ∈ s.db.blocks, ∃ b' ∈ s.db.blocks, b.uid.isSome ∧ b.uid = b'.uid ∧
        b.valid ≠ b'.valid) ∧
    ∃ s, Reaches (step fun _ => 0) (init : State ℕ) s ∧ ¬ FlagsAgree s.db := by
  constructor
  · have hrun : (run (step fun _ => 0) init (foundBlock ++
        [.setBlockValid ⟨1, 1⟩ false, .commit 2])).any (fun s =>
          decide (∃ b ∈ s.db.blocks, ∃ b' ∈ s.db.blocks, b.uid.isSome ∧ b.uid = b'.uid ∧
            b.valid ≠ b'.valid)) = true := by
      decide +kernel
    obtain ⟨s, hs, hf⟩ := exists_reaches_of_run hrun
    exact ⟨s, hs, of_decide_eq_true hf⟩
  · have hrun : (run (step fun _ => 0) init (foundBlock ++
        [.commit 2, .setBlockValid ⟨1, 1⟩ false, .finish 2])).any (fun s =>
          decide (∃ v ∈ s.db.versions, v.status = .valid ∧
            ∃ b ∈ s.db.blocks, b.versionId = v.id ∧ b.valid = false)) = true := by
      decide +kernel
    obtain ⟨s, hs, hf⟩ := exists_reaches_of_run hrun
    obtain ⟨v, hv, hst, b, hb, hvid, hvalid⟩ := of_decide_eq_true hf
    refine ⟨s, hs, ?_⟩
    intro h
    have htrue := h.1 v hv hst b hb hvid
    rw [hvalid] at htrue
    cases htrue

theorem valid_flags_agree_example : ∃ s : State ℕ,
    (∃ b ∈ s.db.blocks, b.valid = false) ∧ FlagsAgree s.db := by
  have hrun : (runIf (step fun _ => 0) Undisturbed init (foundBlock ++
      [.commit 2, .finish 2, .setBlockValid ⟨1, 1⟩ false])).any (fun s =>
        decide (∃ b ∈ s.db.blocks, b.valid = false)) = true := by
    decide +kernel
  obtain ⟨s, hs, hf⟩ := exists_steps_of_runIf hrun
  exact ⟨s, of_decide_eq_true hf, valid_flags_agree (fun _ => 0) hs⟩

end Example

end Benji.Servicer
