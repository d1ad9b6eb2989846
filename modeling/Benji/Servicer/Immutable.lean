import Benji.Servicer.Uids

/-! Objects do not change while a row refers to them: each uid is written for one content. -/
namespace Benji.Servicer
open Lib

variable {κ : Type} {s t : State κ} {x y : Session κ} {e : Event κ} {sparseChecksum : ℕ → κ}

namespace Uids

theorem createVersion {v : Version} (h : Uids s) (hid : v.id = s.nextId) :
    Uids ({ s with
      nextId := s.nextId + 1
      db := { s.db with versions := s.db.versions.put v } } : State κ) := by
  refine h.of_names ?_ h.once ?_ (Nat.le_succ _) ?_
  · intro uid c n hn
    exact hn.mono (fun b hb hs => .row b hb hs) (fun _ hx => hx) fun _ hj => hj
  · exact fun y hy => .inl ⟨y, hy, rfl, fun _ hi => hi⟩
  · intro w hw
    rcases Table.mem_put.mp hw with rfl | ⟨hw, -⟩
    · rw [hid]
      exact Nat.lt_succ_self _
    · exact Nat.lt_succ_of_lt (h.versions w hw)

/-- A new session names nothing. -/
theorem beginSession {v : Version} {base : Option Version} {nbd : Bool}
    {readBlocks sparseBlocks : List ℕ} (h : Uids s) (hv : v.id < s.nextId)
    (hno : ∀ uid c n, uid.left = v.id → ¬ Names s uid c n) :
    Uids (s.putSession (.begin v base nbd readBlocks sparseBlocks)) := by
  refine h.of_names ?_ ?_ ?_ (le_refl _) h.versions
  · intro uid c n hn
    rcases hn.of_putSession with hn | hn
    · exact hn
    · cases hn with
      | package b hb hs => exact absurd hb List.not_mem_nil
      | op b hb hs => exact absurd hb List.not_mem_nil
      | write j hj hs => exact absurd hj List.not_mem_nil
  · intro z hz
    rcases mem_sessions_putSession.mp hz with rfl | ⟨hz, -⟩
    · exact .begin _ _ _ _ _
    · exact h.once z hz
  · intro z hz
    rcases mem_sessions_putSession.mp hz with rfl | ⟨hz, -⟩
    · exact .inr ⟨hv, hno⟩
    · exact .inl ⟨z, hz, rfl, fun _ hi => hi⟩

theorem session (h : Uids s) (hx : x ∈ s.sessions) (hy : Local s x e y) :
    Uids (s.putSession y) := by
  have honce := h.once x hx
  have hid : y.id = x.id := by cases hy <;> rfl
  exact h.putSession hx hid (honce.of_local hy) (fun _ _ _ => names_of_local hx hy)
    fun _ => Session.unused_of_local honce hy

theorem readNew {k : ℕ} {block : Block κ} {checksum : κ} (h : Uids s) (hx : x ∈ s.sessions)
    (hstage : x.stage = .loop) (hblock : x.reads[k]? = some block) :
    Uids (s.submit (State.taken x k) block checksum) := by
  obtain ⟨htaken, hnot, hmem, hsub⟩ := (h.once x hx).taken hblock
  have hunused : x.Unused block.idx := by
    unfold Session.Unused
    rw [hstage]
    exact List.mem_map_of_mem hmem
  have hid : (State.addJob (State.taken x k)
      (s.newJob (State.taken x k) block checksum)).id = x.id := rfl
  have hy : (State.addJob (State.taken x k)
      (s.newJob (State.taken x k) block checksum)).Once :=
    ⟨htaken.nodup, htaken.loaded, htaken.cow⟩
  refine @of_new _ s _ x _ h block.idx (some checksum) block.size hx hunused hid hy ?_ ?_ ?_
    rfl rfl
  · intro uid c n hn
    have hjob : ∀ j, j = s.newJob (State.taken x k) block checksum → j.Says uid c n →
        uid = x.blockUid block.idx ∧ c = some checksum ∧ n = block.size := by
      rintro j rfl ⟨hu, hc, hn⟩
      exact ⟨hu.symm, hc.symm, hn.symm⟩
    cases hn with
    | row b hb hs => exact .inl (.row b hb hs)
    | package z hz b hb hs =>
      rcases mem_sessions_putSession.mp hz with rfl | ⟨hz, -⟩
      · exact .inl (.package x hx b hb hs)
      · exact .inl (.package z hz b hb hs)
    | op z hz b hb hs =>
      rcases mem_sessions_putSession.mp hz with rfl | ⟨hz, -⟩
      · exact .inl (.op x hx b hb hs)
      · exact .inl (.op z hz b hb hs)
    | write z hz j hj hs =>
      rcases mem_sessions_putSession.mp hz with rfl | ⟨hz, -⟩
      · rcases List.mem_append.mp hj with hj | hj
        · exact .inl (.write x hx j hj hs)
        · exact .inr (hjob j (List.mem_singleton.mp hj) hs)
      · exact .inl (.write z hz j hj hs)
    | job j hj hs =>
      rcases Table.mem_put.mp hj with rfl | ⟨hj, -⟩
      · exact .inr (hjob _ rfl hs)
      · exact .inl (.job j hj hs)
  · intro i hi
    have hl : (State.addJob (State.taken x k)
        (s.newJob (State.taken x k) block checksum)).stage = .loop := hstage
    unfold Session.Unused at hi ⊢
    rw [hl] at hi
    rw [hstage]
    obtain ⟨b, hb, rfl⟩ := List.mem_map.mp hi
    refine ⟨List.mem_map_of_mem (hsub b hb), ?_⟩
    intro he
    exact hnot (he ▸ hi)
  · exact fun z hz => mem_sessions_putSession.mp hz

theorem fixate {checksum : κ} {size idx : ℕ} {rest : List ℕ} {o : ℕ → BlockUid → Option κ}
    (h : Uids s) (hx : x ∈ s.sessions) (hstage : x.stage = .fixate) (hcow : x.cow = idx :: rest) :
    Uids ({ s with objects := o }.putSession
      ({ x with cow := rest }.setBlock idx (some (x.blockUid idx)) (some checksum) size)) := by
  have honce := h.once x hx
  obtain ⟨hnodup, hnot, hmem, hsub⟩ := honce.of_cow hcow
  have hunused : x.Unused idx := by
    unfold Session.Unused
    rw [hstage]
    exact hmem
  have hy : (({ x with cow := rest } : Session κ).setBlock idx (some (x.blockUid idx))
      (some checksum) size).Once := ⟨honce.nodup, honce.loaded, hnodup⟩
  have hid : (({ x with cow := rest } : Session κ).setBlock idx (some (x.blockUid idx))
      (some checksum) size).id = x.id := rfl
  refine @of_new _ s _ x _ h idx (some checksum) size hx hunused hid hy ?_ ?_ ?_ rfl rfl
  · intro uid c n hn
    rcases hn.of_putSession with hn | hn
    · exact .inl (hn.mono (fun b hb hs => .row b hb hs) (fun _ hz => hz) fun _ hj => hj)
    · rcases hn.of_op (x := x) rfl rfl rfl with hn | ⟨hu, hc, hsize⟩
      · exact .inl (.of_session hx hn)
      · exact .inr ⟨(Option.some.inj hu).symm, hc.symm, hsize.symm⟩
  · intro i hi
    have hl : (({ x with cow := rest } : Session κ).setBlock idx (some (x.blockUid idx))
        (some checksum) size).stage = .fixate := hstage
    unfold Session.Unused at hi ⊢
    rw [hl] at hi
    rw [hstage]
    refine ⟨hsub i hi, ?_⟩
    rintro rfl
    exact hnot hi
  · exact fun z hz => mem_sessions_putSession.mp hz

/-- The commit of `x`, which goes on as `y` with nothing left to commit. -/
theorem commitAs (h : Uids s) (hx : x ∈ s.sessions) (hid : y.id = x.id) (honce : y.Once)
    (hpackage : y.package = x.package) (hops : y.ops = []) (hwrites : y.writes = x.writes)
    (hunused : ∀ i, y.Unused i → x.Unused i) :
    Uids ({ s.putSession y with db := s.committed x } : State κ) := by
  have hc := h.commit hx
  refine hc.putSession (x := x) hx hid honce ?_ hunused
  intro uid c n hn
  cases hn with
  | package b hb hs => exact .package x hx b (hpackage ▸ hb) hs
  | op b hb hs =>
    rw [hops] at hb
    exact absurd hb List.not_mem_nil
  | write j hj hs => exact .write x hx j (hwrites ▸ hj) hs

theorem save (h : Uids s) (hp : x.Progress) (hx : x ∈ s.sessions) (hstage : x.stage = .clone) :
    Uids ({ s.putSession { x with
        ops := []
        stage := if x.nbd then .cow else .queue
        next := if x.nbd then x.next else 0 } with
      db := s.committed x } : State κ) := by
  have hne : x.stage ≠ .queue ∧ x.stage ≠ .loop := by
    rw [hstage]
    decide
  have hnil : x.reads ++ x.loaded = [] := by
    rw [(hp.noReads.resolve_left hne.1).resolve_left hne.2, hp.loaded.resolve_left hne.1]
    rfl
  refine h.commitAs hx rfl ⟨(h.once x hx).nodup, ?_, (h.once x hx).cow⟩ rfl rfl rfl ?_
  · intro b hb
    have hb : b ∈ x.reads ++ x.loaded := hb
    rw [hnil] at hb
    exact absurd hb List.not_mem_nil
  · intro i _
    unfold Session.Unused
    rw [hstage]
    trivial

theorem effect (h : Uids s) (hp : Underway s) (hok : FreshUids s e)
    (he : Effect sparseChecksum s e t) : Uids t := by
  have hsame : ∀ b ∈ s.db.blocks, ∀ uid c n, Says b uid c n → Names s uid c n :=
    fun b hb _ _ _ hs => .row b hb hs
  have hversions : ∀ w ∈ s.db.versions, ∃ v ∈ s.db.versions, v.id = w.id :=
    fun w hw => ⟨w, hw, rfl⟩
  have hjobs : ∀ j ∈ s.jobs, j ∈ s.jobs := fun _ hj => hj
  cases he with
  | create _ v hid hstatus => exact h.createVersion hid
  | start v size blockSize b base readBlocks sparseBlocks hfree hv =>
    have hok : NoUidOf s v.id := hok
    exact h.beginSession (h.versions v hv) fun uid c n hl => hok.not_names hl
  | createCow v w base hid hstatus =>
    have hlt : v.id < s.nextId + 1 := by
      rw [hid]
      exact Nat.lt_succ_self _
    refine (h.createVersion hid).beginSession hlt ?_
    intro uid c n hl hn
    have hn : Names s uid c n :=
      hn.mono (fun b hb hs => .row b hb hs) (fun _ hx => hx) hjobs
    have hbound := h.left uid c n hn
    rw [hl, hid] at hbound
    exact absurd hbound (lt_irrefl _)
  | session _ x y hx hy => exact h.session hx hy
  | save _ x hx hstage hnext hpackage =>
    exact h.save (hp x hx) hx hstage
  | commit _ x hx =>
    have honce := h.once x hx
    exact h.commitAs hx rfl ⟨honce.nodup, honce.loaded, honce.cow⟩ rfl rfl rfl fun _ hi => hi
  | readNew _ x hx k block checksum hstage hblock => exact h.readNew hx hstage hblock
  | write j hj raises =>
    exact h.of_rows rfl (fun _ hj => (Table.mem_erase.mp hj).1) rfl hsame hversions
  | dropWrite _ ticket =>
    exact h.of_rows rfl (fun _ hj => (Table.mem_erase.mp hj).1) rfl hsame hversions
  | complete _ x hx hc hops =>
    refine (h.endSession (x := x)).of_rows rfl hjobs rfl (fun b hb _ _ _ hs => .row b hb hs) ?_
    intro w hw
    rcases Database.of_mem_setStatus hw with ⟨hid, -, v, hv, hvid⟩ | ⟨-, hw⟩
    · exact ⟨v, hv, hvid.trans hid.symm⟩
    · exact ⟨w, hw, rfl⟩
  | close _ x failed =>
    exact (h.endSession (x := x)).of_rows rfl hjobs rfl (fun b hb _ _ _ hs => .row b hb hs)
      hversions
  | refuse _ failed => exact h.of_rows rfl hjobs rfl hsame hversions
  | setInvalid _ id failed =>
    refine h.of_rows rfl hjobs rfl hsame ?_
    intro w hw
    rcases Database.of_mem_setStatus hw with ⟨hid, -, v, hv, hvid⟩ | ⟨-, hw⟩
    · exact ⟨v, hv, hvid.trans hid.symm⟩
    · exact ⟨w, hw, rfl⟩
  | fixate x hx checksum size idx rest hstage hcow hsparse => exact h.fixate hx hstage hcow
  | fixateFails x hx checksum idx rest hstage hcow hsparse =>
    have hl : Local s x (.fixateFails x.id checksum) { x with cow := rest, ops := [] } :=
      .rollback _ idx rest hstage hcow
    exact (h.session hx hl).of_rows rfl hjobs rfl (fun b hb _ _ _ hs => .row b hb hs) hversions
  | removeVersion _ v date =>
    refine h.of_rows rfl hjobs rfl ?_ ?_
    · intro b hb uid c n hs
      exact .row b (Database.mem_blocks_removeVersion.mp hb).1 hs
    · intro w hw
      exact ⟨w, (Database.mem_versions_removeVersion.mp hw).1, rfl⟩
  | cleanup _ ids o => exact h.of_rows rfl hjobs rfl hsame hversions
  | setBlockValid uid valid =>
    refine h.of_rows rfl hjobs rfl ?_ ?_
    · intro b hb u c n hs
      obtain ⟨b', hb', rfl⟩ := Database.mem_blocks_setBlockValid.mp hb
      refine .row b' hb' ?_
      split at hs
      · exact hs
      · exact hs
    · intro w hw
      rcases Database.of_mem_versions_setBlockValid hw with hw | ⟨-, v, hv, hid⟩
      · exact ⟨w, hw, rfl⟩
      · exact ⟨v, hv, hid⟩
  | deepScrub v hv hfree hstatus hsparse =>
    refine h.of_rows rfl hjobs rfl hsame ?_
    intro w hw
    rcases Database.of_mem_setStatus hw with ⟨hid, -, v, hv, hvid⟩ | ⟨-, hw⟩
    · exact ⟨v, hv, hvid.trans hid.symm⟩
    · exact ⟨w, hw, rfl⟩
  | idle => exact h

theorem init : Uids (init : State κ) := by
  have hno : ∀ uid c n, ¬ Names (Servicer.init : State κ) uid c n := by
    intro uid c n hn
    cases hn with
    | row b hb hs => exact absurd hb Table.not_mem_empty
    | package x hx b hb hs => exact absurd hx Table.not_mem_empty
    | op x hx b hb hs => exact absurd hx Table.not_mem_empty
    | write x hx j hj hs => exact absurd hx Table.not_mem_empty
    | job j hj hs => exact absurd hj Table.not_mem_empty
  refine ⟨?_, ?_, ?_, ?_, ?_, ?_⟩
  · exact fun x hx => absurd hx Table.not_mem_empty
  · exact fun uid c c' n n' hn _ => absurd hn (hno uid c n)
  · exact fun x hx => absurd hx Table.not_mem_empty
  · exact fun uid c n hn => absurd hn (hno uid c n)
  · exact fun x hx => absurd hx Table.not_mem_empty
  · exact fun v hv => absurd hv Table.not_mem_empty

theorem uidsAgree (h : Uids s) : UidsAgree s.db := by
  intro b hb b' hb' hsome hu
  obtain ⟨uid, huid⟩ := Option.isSome_iff_exists.mp hsome
  have hn : Names s uid b.checksum b.size := .row b hb ⟨huid, rfl, rfl⟩
  have hn' : Names s uid b'.checksum b'.size := .row b' hb' ⟨hu.symm.trans huid, rfl, rfl⟩
  obtain ⟨hc, hsize⟩ := h.agree uid _ _ _ _ hn hn'
  exact ⟨hsize, hc⟩

/-- A uid that no row has is free to be written. -/
theorem fixated_unused (h : Uids s) {idx : ℕ} {b : Block κ} (hx : x ∈ s.sessions)
    (hstage : x.stage = .fixate) (hcow : x.cow.head? = some idx) (hb : b ∈ s.db.blocks) :
    b.uid ≠ some (x.blockUid idx) := by
  intro hu
  have hunused : x.Unused idx := by
    unfold Session.Unused
    rw [hstage]
    exact List.mem_of_head? hcow
  exact h.unused x hx idx hunused _ _ (.row b hb ⟨hu, rfl, rfl⟩)

theorem writesAgree [DecidableEq κ] (h : Uids s) (hs : step sparseChecksum s e = some t) :
    WritesAgree sparseChecksum s e := by
  have hfixated : ∀ {id : ℕ} {checksum : κ} {o : BlockUid × κ} {f : Session κ → Option (State κ)},
      s.onSession id f = some t → (∀ x ∈ s.sessions, f x = some t → x.stage = .fixate) →
      ((s.sessions.find? id).bind fun x => x.cow.head?.bind fun idx =>
        if checksum = sparseChecksum x.version.blockSize then none
        else some (x.blockUid idx, checksum)) = some o →
      ∀ b ∈ s.db.blocks, b.uid = some o.1 → b.checksum = some o.2 := by
    intro id checksum o f hf hstage ho b hb hu
    obtain ⟨x, hx, hid, hfx⟩ := onSession_eq_some.mp hf
    obtain ⟨y, hy, ho⟩ := Option.bind_eq_some_iff.mp ho
    have hxy : y = x := Option.some.inj (hy.symm.trans (Table.find?_eq_some.mpr ⟨hx, hid⟩))
    obtain ⟨idx, hidx, ho⟩ := Option.bind_eq_some_iff.mp ho
    rw [Option.ite_none_left_eq_some] at ho
    rw [← Option.some.inj ho.2] at hu
    rw [hxy] at hidx hu
    exact absurd hu (h.fixated_unused hx (hstage x hx hfx) hidx hb)
  intro o ho b hb hu
  cases e with
  | write ticket raises =>
    obtain ⟨j, hj, rfl⟩ := Option.map_eq_some_iff.mp ho
    have hn : Names s j.uid (some j.checksum) j.size :=
      .job j (Table.mem_of_find? hj) ⟨rfl, rfl, rfl⟩
    exact (h.agree j.uid _ _ _ _ (.row b hb ⟨hu, rfl, rfl⟩) hn).1
  | fixate id checksum size =>
    refine hfixated hs ?_ ho b hb hu
    intro x _ hf
    unfold State.fixate at hf
    split at hf
    · assumption
    · cases hf
  | fixateFails id checksum =>
    refine hfixated hs ?_ ho b hb hu
    intro x _ hf
    unfold State.fixateFails at hf
    split at hf
    · assumption
    · cases hf
  | _ => cases ho

end Uids

instance {s : State κ} {id : ℕ} : Decidable (NoUidOf s id) := inferInstanceAs (Decidable (_ ∧ _))

instance {s : State κ} {e : Event κ} : Decidable (FreshUids s e) :=
  match e with
  | .start id _ _ _ _ _ => inferInstanceAs (Decidable (NoUidOf s id))
  | .create _ | .refuse _ | .createCow .. | .clone _ | .createBlocks .. | .save _ | .load _
  | .queue _ | .startLoop _ | .read .. | .write .. | .dropWrite _ | .collect .. | .commit _
  | .finish _ | .fail _ | .setInvalid _ | .cowWrite .. | .startFixate _ | .fixate ..
  | .fixateFails .. | .fixateDone _ | .removeVersion .. | .cleanup .. | .setBlockValid ..
  | .deepScrub _ => isTrue trivial

/-- In a run in which a backup starts only while nothing has a uid of its version, rows with one
uid agree, and no object is written under a uid of a row with another checksum. -/
theorem objects_immutable [DecidableEq κ] (sparseChecksum : ℕ → κ) {s : State κ}
    (h : Steps (step sparseChecksum) FreshUids init s) : UidsAgree s.db ∧
      ∀ e t, step sparseChecksum s e = some t → WritesAgree sparseChecksum s e := by
  have hboth : Underway s ∧ Uids s := by
    refine h.invariant (I := fun s => Underway s ∧ Uids s) ⟨.init, .init⟩ ?_
    rintro s e t ⟨hp, hu⟩ hok hs
    have he := effect_of_step hs
    exact ⟨hp.effect he, hu.effect hp hok he⟩
  exact ⟨hboth.2.uidsAgree, fun e t hs => hboth.2.writesAgree hs⟩

section Example

/-- The backup of version 1 writes its block and fails, the one of version 2 finds the block, and
then version 1 is requested again with another content. -/
def requestedAgain : List (Event ℕ) :=
  .create (newVersion 1 1 "v1") :: .create (newVersion 2 1 "v2") :: toRead 1 ++
    [.startLoop 1, .read 1 0 5 0, .write 0 false, .collect 1 0, .commit 1, .fail 1,
      .setInvalid 1] ++
    toRead 2 ++ [.startLoop 2, .read 2 0 5 0, .commit 2, .finish 2] ++
    toRead 1 ++ [.startLoop 1, .read 1 0 7 0]

/-- The second backup of version 1 writes over the object that both versions refer to, and leaves
two rows with one uid that disagree. -/
theorem second_backup_overwrites :
    (∃ s, Reaches (step fun _ => 0) (init : State ℕ) s ∧ ∃ e t, step (fun _ => 0) s e = some t ∧
      ¬ WritesAgree (fun _ => 0) s e) ∧
    ∃ s, Reaches (step fun _ => 0) (init : State ℕ) s ∧ ¬ UidsAgree s.db := by
  constructor
  · have hrun : (run (step fun _ => 0) init requestedAgain).any (fun s =>
        decide ((step (fun _ => 0) s (.write 1 false)).isSome ∧
          written? (fun _ => 0) s (.write 1 false) = some (⟨1, 1⟩, 7) ∧
          ∃ b ∈ s.db.blocks, b.uid = some ⟨1, 1⟩ ∧ b.checksum ≠ some 7)) = true := by
      decide +kernel
    obtain ⟨s, hs, hf⟩ := exists_reaches_of_run hrun
    obtain ⟨hstep, hwritten, b, hb, hu, hc⟩ := of_decide_eq_true hf
    obtain ⟨t, ht⟩ := Option.isSome_iff_exists.mp hstep
    exact ⟨s, hs, _, t, ht, fun h => hc (h _ hwritten b hb hu)⟩
  · have hrun : (run (step fun _ => 0) init (requestedAgain ++
        [.write 1 false, .collect 1 0, .commit 1])).any (fun s =>
          decide (∃ b ∈ s.db.blocks, ∃ b' ∈ s.db.blocks, b.uid.isSome ∧ b.uid = b'.uid ∧
            b.checksum ≠ b'.checksum)) = true := by
      decide +kernel
    obtain ⟨s, hs, hf⟩ := exists_reaches_of_run hrun
    obtain ⟨b, hb, b', hb', hsome, hu, hc⟩ := of_decide_eq_true hf
    exact ⟨s, hs, fun h => hc (h b hb b' hb' hsome hu).2⟩

theorem objects_immutable_example : ∃ s : State ℕ, s.db.blocks.rows.length = 2 ∧
    UidsAgree s.db ∧
      ∀ e t, step (fun _ => 0) s e = some t → WritesAgree (fun _ => 0) s e := by
  have hrun : (runIf (step fun _ => 0) FreshUids init (.create (newVersion 1 1 "v1") ::
      .create (newVersion 2 1 "v2") :: toRead 1 ++ fromRead 1 0 5 ++ toRead 2 ++
      [.startLoop 2, .read 2 0 5 0, .commit 2, .finish 2])).any
        (fun s => decide (s.db.blocks.rows.length = 2)) = true := by
    decide +kernel
  obtain ⟨s, hs, hf⟩ := exists_steps_of_runIf hrun
  exact ⟨s, of_decide_eq_true hf, objects_immutable (fun _ => 0) hs⟩

end Example

end Benji.Servicer
