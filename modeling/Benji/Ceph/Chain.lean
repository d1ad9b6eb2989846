import Benji.Ceph.Backup
import Benji.Lib.Triple
import Mathlib.Data.List.Rotate

/-! Whatever fails and whoever writes to the image meanwhile, a version that is valid holds what
the image held when the snapshot of its name was taken. -/
namespace Benji.Ceph
open Lib
open Proc (Triple)

variable {volume snapshot last uid name : String} {c : Cluster} {o : Outcome} {s t : State}
  {sizes : ℕ → Prop} {blockSize : ℕ} {hints : List Hint} {base : Option String} {content : Bytes}
  {others : List Snapshot}

def snapshotNames (c : Cluster) : List String := c.taken.map Snapshot.name

/-- A snapshot of Benji's is one it took, and so is the content of a valid version. -/
structure Inv (sizes : ℕ → Prop) (volume : String) (others : List Snapshot) (c : Cluster) :
    Prop where
  unique : (snapshotNames c).Nodup
  names : (c.snapshots.map Snapshot.name).Nodup
  others : c.snapshots.filter (fun s => ¬ IsBenjis s.name) = others
  snapshots : ∀ s ∈ c.snapshots, IsBenjis s.name → s ∈ c.taken
  versions : ∀ v ∈ c.versions, v.volume = volume → v.status = .valid →
    ⟨v.snapshot, v.content⟩ ∈ c.taken
  uids : (c.versions.map Version.uid).Nodup
  image : sizes c.image.length
  taken : ∀ s ∈ c.taken, sizes s.content.length

/-- The content from which a backup starts: nothing, or that of the snapshot before and of the
base version, as long as it is valid. -/
def Based (last : String) (base : Option String) (content : Bytes) (c : Cluster) : Prop :=
  (base = none → content = []) ∧ ∀ uid, base = some uid → ⟨last, content⟩ ∈ c.taken ∧
    ∀ v ∈ c.versions, v.uid = uid → v.status = .valid → v.content = content

/-- The hints tell all that changed in the snapshot. -/
def Hinted (snapshot : String) (content : Bytes) (hints : List Hint) (c : Cluster) : Prop :=
  ∀ new, ⟨snapshot, new⟩ ∈ c.taken → CorrectDiff content new hints

/-- One more element with a new key. -/
theorem nodup_map_concat {α β : Type} {f : α → β} {l : List α} {a : α} (h : (l.map f).Nodup)
    (ha : f a ∉ l.map f) : ((l ++ [a]).map f).Nodup := by
  rw [List.map_append, List.map_singleton]
  exact List.concat_eq_append ▸ h.concat ha

namespace Cluster

theorem find?_eq_none : c.find? name = none ↔ name ∉ c.snapshots.map Snapshot.name := by
  simp [find?, List.find?_eq_none]

theorem of_find? {content : Bytes} (h : c.find? name = some content) :
    ⟨name, content⟩ ∈ c.snapshots := by
  obtain ⟨s, hs, rfl⟩ := Option.map_eq_some_iff.mp h
  have hname : s.name = name := by simpa using List.find?_some hs
  rw [← hname]
  exact List.mem_of_find?_eq_some hs

@[simp] theorem advance_snapshots : (c.advance o).snapshots = c.snapshots := rfl

@[simp] theorem advance_taken : (c.advance o).taken = c.taken := rfl

/-- What others leave of the versions is there before, with the same status or invalid now. -/
theorem of_mem_advance {v : Version} (h : v ∈ (c.advance o).versions) :
    ∃ w ∈ c.versions, v.uid = w.uid ∧ v.volume = w.volume ∧ v.snapshot = w.snapshot ∧
      v.content = w.content ∧ (v.status = .valid → w.status = .valid) := by
  obtain ⟨w, hw, rfl⟩ := List.mem_map.mp h
  refine ⟨w, (List.mem_filter.mp hw).1, ?_⟩
  split
  · exact ⟨rfl, rfl, rfl, rfl, nofun⟩
  · exact ⟨rfl, rfl, rfl, rfl, id⟩

theorem advance_uids : ((c.advance o).versions.map Version.uid).Sublist
    (c.versions.map Version.uid) := by
  have huid : ((c.advance o).versions.map Version.uid) =
      (c.versions.filter fun v => v.uid ∉ o.removed).map Version.uid := by
    rw [advance, List.map_map]
    apply List.map_congr_left
    intro v _
    simp only [Function.comp_apply]
    split <;> rfl
  rw [huid]
  exact List.filter_sublist.map _

end Cluster

theorem Inv.advance (h : Inv sizes volume others c) (ho : sizes o.image.length) :
    Inv sizes volume others (c.advance o) where
  unique := h.unique
  names := h.names
  others := h.others
  snapshots := h.snapshots
  versions := by
    intro v hv hvolume hstatus
    obtain ⟨w, hw, -, hwvolume, hsnapshot, hcontent, hvalid⟩ := Cluster.of_mem_advance hv
    rw [hsnapshot, hcontent]
    exact h.versions w hw (hwvolume ▸ hvolume) (hvalid hstatus)
  uids := Cluster.advance_uids.nodup h.uids
  image := ho
  taken := h.taken

theorem Based.advance (h : Based last base content c) : Based last base content (c.advance o) := by
  refine ⟨h.1, fun uid hbase => ⟨(h.2 uid hbase).1, fun v hv huid hstatus => ?_⟩⟩
  obtain ⟨w, hw, hwuid, -, -, hcontent, hvalid⟩ := Cluster.of_mem_advance hv
  rw [hcontent]
  exact (h.2 uid hbase).2 w hw (hwuid ▸ huid) (hvalid hstatus)

/-- There is one snapshot of a name among those taken. -/
theorem Inv.content_unique (h : Inv sizes volume others c) {x y : Bytes} (hx : ⟨name, x⟩ ∈ c.taken)
    (hy : ⟨name, y⟩ ∈ c.taken) : x = y :=
  congrArg Snapshot.content (List.inj_on_of_nodup_map h.unique hx hy rfl)

theorem Inv.of_find? (h : Inv sizes volume others c) (hname : IsBenjis name) {x : Bytes}
    (hx : c.find? name = some x) : ⟨name, x⟩ ∈ c.taken :=
  h.snapshots _ (Cluster.of_find? hx) hname

/-! ### The processes -/

/-- What is going to be written to the image is of an allowed size. -/
def Ready (sizes : ℕ → Prop) (P : Cluster → Prop) (s : State) : Prop :=
  (∀ o ∈ s.outcomes, sizes o.image.length) ∧ P s.cluster

section Processes
variable {α : Type} {act : Outcome → Cluster → Option (α × Cluster)} {P E : Cluster → Prop}
  {Q : α → Cluster → Prop}

/-- A process does what it does or nothing, after what others did; seen to fail, it may have done
either. -/
theorem triple_subprocessRun (hadvance : ∀ o c, sizes o.image.length → P c → P (c.advance o))
    (hact : ∀ o c a c', P c → act o c = some (a, c') → Q a c' ∧ E c') (hE : ∀ c, P c → E c) :
    Triple (Ready sizes P) (subprocessRun act) (fun a => Ready sizes (Q a))
      fun _ => Ready sizes E := by
  have key : ∀ s r t, Ready sizes P s → subprocessRun act s = some (r, t) →
      (∀ a, r = .ok a → Ready sizes (Q a) t) ∧ Ready sizes E t := by
    intro s r t hs h
    obtain ⟨houtcomes, hP⟩ := hs
    unfold subprocessRun at h
    split at h
    · cases h
      exact ⟨nofun, houtcomes, hE _ hP⟩
    · rename_i o rest hrest
      rw [hrest] at houtcomes
      have hrest' : ∀ o ∈ rest, sizes o.image.length := fun x hx =>
        houtcomes x (List.mem_cons_of_mem o hx)
      have hadv := hadvance o s.cluster (houtcomes o List.mem_cons_self) hP
      dsimp only at h
      split at h
      · cases h
        exact ⟨nofun, hrest', hE _ hadv⟩
      · rename_i a c' hc
        obtain ⟨hQ, hE'⟩ := hact o _ a c' hadv hc
        split at h
        · rename_i hok
          rw [if_pos (Bool.and_eq_true_iff.mp hok).1] at h
          cases h
          exact ⟨fun _ ha => Except.ok.inj ha ▸ ⟨hrest', hQ⟩, hrest', hE'⟩
        · cases h
          refine ⟨nofun, hrest', ?_⟩
          dsimp only
          split
          · exact hE'
          · exact hE _ hadv
  exact ⟨fun s a t hs h => (key s _ t hs h).1 a rfl, fun s e t hs h => (key s _ t hs h).2⟩

end Processes

/-- Before the snapshot is taken: its name is new. -/
def Unnamed (sizes : ℕ → Prop) (volume : String) (others : List Snapshot) (snapshot : String)
    (c : Cluster) : Prop :=
  Inv sizes volume others c ∧ snapshot ∉ snapshotNames c

theorem Unnamed.advance (h : Unnamed sizes volume others snapshot c) (ho : sizes o.image.length) :
    Unnamed sizes volume others snapshot (c.advance o) := ⟨h.1.advance ho, h.2⟩

theorem triple_snapLs : Triple (Ready sizes (Unnamed sizes volume others snapshot)) snapLs
    (fun names => Ready sizes fun c =>
      Unnamed sizes volume others snapshot c ∧ ∀ n ∈ names, IsBenjis n)
    fun _ => Ready sizes (Inv sizes volume others) := by
  apply triple_subprocessRun
  · exact fun _ _ ho h => h.advance ho
  · rintro o c names _ h ⟨⟩
    refine ⟨⟨h, fun n hn => ?_⟩, h.1⟩
    exact of_decide_eq_true (List.mem_filter.mp hn).2
  · exact fun _ h => h.1

/-- The removal of a snapshot of Benji's takes nothing away that the rest relies on. -/
theorem Inv.remove (h : Inv sizes volume others c) (hname : IsBenjis name) :
    Inv sizes volume others { c with snapshots := c.snapshots.filter fun s => s.name ≠ name } where
  unique := h.unique
  names := (List.filter_sublist.map _).nodup h.names
  others := by
    rw [← h.others, List.filter_filter]
    apply List.filter_congr
    intro s _
    by_cases hs : IsBenjis s.name
    · simp [hs]
    · have hne : s.name ≠ name := fun heq => hs (heq ▸ hname)
      simp [hs, hne]
  snapshots := fun s hs hname => h.snapshots s (List.mem_filter.mp hs).1 hname
  versions := h.versions
  uids := h.uids
  image := h.image
  taken := h.taken

theorem triple_snapRm {F : Cluster → Prop} (hname : IsBenjis name)
    (hadvance : ∀ o c, F c → F (c.advance o))
    (hremove : ∀ c, F c → F { c with snapshots := c.snapshots.filter fun s => s.name ≠ name }) :
    Triple (Ready sizes fun c => Inv sizes volume others c ∧ F c) (snapRm name)
      (fun _ => Ready sizes fun c => Inv sizes volume others c ∧ F c)
      fun _ => Ready sizes (Inv sizes volume others) := by
  apply triple_subprocessRun
  · exact fun o c ho h => ⟨h.1.advance ho, hadvance o c h.2⟩
  · intro o c _ c' h hc
    split at hc
    · cases hc
    · cases hc
      exact ⟨⟨h.1.remove hname, hremove c h.2⟩, h.1.remove hname⟩
  · exact fun _ h => h.1

theorem triple_snapRm_unnamed (hname : IsBenjis name) :
    Triple (Ready sizes (Unnamed sizes volume others snapshot)) (snapRm name)
      (fun _ => Ready sizes (Unnamed sizes volume others snapshot))
      fun _ => Ready sizes (Inv sizes volume others) :=
  triple_snapRm (F := fun c => snapshot ∉ snapshotNames c) hname (fun _ _ => id) fun _ => id

/-- A version found for the newest snapshot has its content. -/
theorem triple_benjiLs : Triple (Ready sizes (Unnamed sizes volume others snapshot))
    (benjiLs volume last)
    (fun found => Ready sizes fun c => Unnamed sizes volume others snapshot c ∧
      ∀ uid ∈ found, ∃ content, Based last (some uid) content c)
    fun _ => Ready sizes (Inv sizes volume others) := by
  apply triple_subprocessRun
  · exact fun _ _ ho h => h.advance ho
  · rintro o c found _ h ⟨⟩
    refine ⟨⟨h, fun uid hmem => ?_⟩, h.1⟩
    rw [List.mem_rotate] at hmem
    obtain ⟨v, hv, rfl⟩ := List.mem_map.mp hmem
    obtain ⟨hin, hfound⟩ := List.mem_filter.mp hv
    obtain ⟨hvolume, rfl, hstatus⟩ := of_decide_eq_true hfound
    refine ⟨v.content, nofun, fun _ huid => ⟨h.1.versions v hin hvolume hstatus, ?_⟩⟩
    intro w hw hwuid _
    have heq : w = v := List.inj_on_of_nodup_map h.1.uids hw hin
      (hwuid.trans (Option.some.inj huid).symm)
    rw [heq]
  · exact fun _ h => h.1

theorem triple_snapCreate (hname : IsBenjis snapshot) :
    Triple (Ready sizes fun c => Unnamed sizes volume others snapshot c ∧ Based last base content c)
      (snapCreate snapshot)
      (fun _ => Ready sizes fun c => Inv sizes volume others c ∧ Based last base content c)
      fun _ => Ready sizes fun c => Inv sizes volume others c ∧ Based last base content c := by
  apply triple_subprocessRun
  · exact fun _ _ ho h => ⟨h.1.advance ho, h.2.advance⟩
  · intro o c _ c' h hc
    obtain ⟨⟨hinv, hnew⟩, hbased⟩ := h
    split at hc
    · cases hc
    · rename_i hfree
      cases hc
      have hnext : Inv sizes volume others { c with
          snapshots := c.snapshots ++ [⟨snapshot, c.image⟩]
          taken := c.taken ++ [⟨snapshot, c.image⟩] } := by
        refine ⟨nodup_map_concat hinv.unique hnew, nodup_map_concat hinv.names ?_, ?_, ?_, ?_,
          hinv.uids, hinv.image, ?_⟩
        · exact Cluster.find?_eq_none.mp hfree
        · rw [List.filter_append, hinv.others]
          simp [hname]
        · intro s hs hsname
          apply List.mem_append.mpr
          rcases List.mem_append.mp hs with hold | hlast
          · exact .inl (hinv.snapshots s hold hsname)
          · exact .inr hlast
        · intro v hv hvolume hstatus
          exact List.mem_append_left _ (hinv.versions v hv hvolume hstatus)
        · intro s hs
          rcases List.mem_append.mp hs with hold | hlast
          · exact hinv.taken s hold
          · rw [List.mem_singleton.mp hlast]
            exact hinv.image
      have hbase : Based last base content { c with
          snapshots := c.snapshots ++ [⟨snapshot, c.image⟩]
          taken := c.taken ++ [⟨snapshot, c.image⟩] } :=
        ⟨hbased.1, fun uid huid => ⟨List.mem_append_left _ (hbased.2 uid huid).1,
          (hbased.2 uid huid).2⟩⟩
      exact ⟨⟨hnext, hbase⟩, hnext, hbase⟩
  · exact fun _ h => ⟨h.1.1, h.2⟩

/-- The run goes on if the snapshot could not be taken. -/
theorem triple_snapshotCreate (hname : IsBenjis snapshot) :
    Triple (Ready sizes fun c => Unnamed sizes volume others snapshot c ∧ Based last base content c)
      (snapshotCreate snapshot)
      (fun _ => Ready sizes fun c => Inv sizes volume others c ∧ Based last base content c)
      fun _ => Ready sizes (Inv sizes volume others) := by
  apply Triple.tryExcept (triple_snapCreate hname)
  intro e
  cases e with
  | runtimeError => exact .pure fun _ h => h
  | killed => exact .raise fun _ h => ⟨h.1, h.2.1⟩

/-- The hints come from the snapshot the base version was made of. -/
theorem triple_rbdDiff {fromSnap : Option String} (hname : IsBenjis snapshot)
    (hfrom : ∀ n ∈ fromSnap, n = last ∧ IsBenjis last) (hbase : fromSnap = none ↔ base = none) :
    Triple (Ready sizes fun c => Inv sizes volume others c ∧ Based last base content c)
      (rbdDiff fromSnap snapshot)
      (fun hints => Ready sizes fun c => Inv sizes volume others c ∧ Based last base content c ∧
        Hinted snapshot content hints c)
      fun _ => Ready sizes (Inv sizes volume others) := by
  apply triple_subprocessRun
  · exact fun _ _ ho h => ⟨h.1.advance ho, h.2.advance⟩
  · intro o c hints c' h hc
    obtain ⟨hinv, hbased⟩ := h
    split at hc
    · rename_i old new hold hnew
      obtain ⟨hdiff, hc⟩ := Option.ite_none_right_eq_some.mp hc
      cases hc
      have hcontent : old = content := by
        cases fromSnap with
        | none =>
          rw [hbased.1 (hbase.mp rfl)]
          exact (Option.some.inj hold).symm
        | some n =>
          obtain ⟨rfl, hlast⟩ := hfrom n rfl
          obtain ⟨uid, huid⟩ := Option.ne_none_iff_exists'.mp (mt hbase.mpr nofun)
          exact hinv.content_unique (hinv.of_find? hlast hold) (hbased.2 uid huid).1
      refine ⟨⟨hinv, hbased, fun x hx => ?_⟩, hinv⟩
      rw [hinv.content_unique hx (hinv.of_find? hname hnew), ← hcontent]
      exact hdiff
    · cases hc
  · exact fun _ h => h.1

theorem Inv.addIncomplete (h : Inv sizes volume others c) :
    Inv sizes volume others (addIncomplete volume snapshot o c) := by
  unfold Ceph.addIncomplete
  split
  · rename_i hnew
    refine ⟨h.unique, h.names, h.others, h.snapshots, ?_, ?_, h.image, h.taken⟩
    · intro v hv hvolume hstatus
      rcases List.mem_append.mp hv with hold | hlast
      · exact h.versions v hold hvolume hstatus
      · rw [List.mem_singleton.mp hlast] at hstatus
        cases hstatus
    · exact nodup_map_concat h.uids hnew.2
  · exact h

/-- The new version gets what is in the snapshot. -/
theorem Inv.addVersion (h : Inv sizes volume others c) {source : Bytes}
    (hnew : uid ∉ c.versions.map Version.uid) (hsource : ⟨snapshot, source⟩ ∈ c.taken) :
    Inv sizes volume others { c with
      versions := c.versions ++ [⟨uid, volume, snapshot, .valid, source⟩] } := by
  refine ⟨h.unique, h.names, h.others, h.snapshots, ?_, ?_, h.image, h.taken⟩
  · intro v hv hvolume hstatus
    rcases List.mem_append.mp hv with hold | hlast
    · exact h.versions v hold hvolume hstatus
    · rw [List.mem_singleton.mp hlast]
      exact hsource
  · exact nodup_map_concat h.uids hnew

/-- A size that the image may have later never makes a full block of a partial last one. -/
def NoOutgrowth (blockSize : ℕ) (sizes : ℕ → Prop) : Prop :=
  ∀ m n, sizes m → sizes n → m % blockSize ≠ 0 → n < m ⌈/⌉ blockSize * blockSize

theorem versionContent_eq (hsizes : NoOutgrowth blockSize sizes) {source other : Bytes}
    (hold : content = [] ∨ sizes content.length) (hnew : sizes source.length)
    (hdiff : CorrectDiff content source hints) :
    versionContent blockSize hints content source other = source := by
  rw [versionContent, if_pos]
  refine ⟨hdiff, fun ⟨hpart, hle, _⟩ => ?_⟩
  rcases hold with rfl | hold
  · exact hpart (Nat.zero_mod blockSize)
  · exact absurd hle (not_le.mpr (hsizes _ _ hold hnew hpart))

theorem baseContent_eq (hbased : Based last base content c) {old : Bytes}
    (h : baseContent c base = some old) : old = content := by
  cases base with
  | none =>
    rw [hbased.1 rfl]
    exact (Option.some.inj h).symm
  | some uid =>
    obtain ⟨v, hv, rfl⟩ := Option.map_eq_some_iff.mp h
    have hfound := List.find?_some hv
    obtain ⟨huid, hstatus⟩ := of_decide_eq_true hfound
    exact (hbased.2 uid rfl).2 v (List.mem_of_find?_eq_some hv) huid hstatus

/-- Whether it is seen to fail or not, the process keeps the invariant. -/
theorem keeps_benjiBackup (hsizes : NoOutgrowth blockSize sizes) (hname : IsBenjis snapshot)
    {r : Except Failure Unit} (hs : Ready sizes (fun c => Inv sizes volume others c ∧
      Based last base content c ∧ Hinted snapshot content hints c) s)
    (h : benjiBackup blockSize volume snapshot hints base s = some (r, t)) :
    Ready sizes (Inv sizes volume others) t := by
  obtain ⟨houtcomes, hinv, hbased, hhinted⟩ := hs
  unfold benjiBackup at h
  split at h
  · cases h
    exact ⟨houtcomes, hinv⟩
  · rename_i o rest hrest
    rw [hrest] at houtcomes
    have hrest' : ∀ o ∈ rest, sizes o.image.length := fun x hx =>
      houtcomes x (List.mem_cons_of_mem o hx)
    have hadv := hinv.advance (houtcomes o List.mem_cons_self)
    dsimp only at h
    split at h
    · cases h
      exact ⟨hrest', hadv.addIncomplete⟩
    · split at h
      · rename_i old source hold hsource
        split at h
        · cases h
          exact ⟨hrest', hadv⟩
        · rename_i hnew
          have hin := hadv.of_find? hname hsource
          have hsize : content = [] ∨ sizes content.length := by
            cases base with
            | none => exact .inl (hbased.1 rfl)
            | some uid => exact .inr (hinv.taken _ (hbased.2 uid rfl).1)
          have hcontent : ∀ other,
              versionContent blockSize hints old source other = source := by
            intro other
            rw [baseContent_eq hbased.advance hold]
            exact versionContent_eq hsizes hsize (hadv.taken _ hin) (hhinted source hin)
          rw [hcontent] at h
          split at h
          all_goals
            cases h
            exact ⟨hrest', hadv.addVersion hnew hin⟩
      · cases h
        exact ⟨hrest', hadv.addIncomplete⟩

theorem triple_benjiBackup (hsizes : NoOutgrowth blockSize sizes) (hname : IsBenjis snapshot) :
    Triple (Ready sizes fun c => Inv sizes volume others c ∧ Based last base content c ∧
        Hinted snapshot content hints c)
      (benjiBackup blockSize volume snapshot hints base)
      (fun _ => Ready sizes (Inv sizes volume others))
      fun _ => Ready sizes (Inv sizes volume others) :=
  ⟨fun _ _ _ hs h => keeps_benjiBackup hsizes hname hs h,
    fun _ _ _ hs h => keeps_benjiBackup hsizes hname hs h⟩

/-! ### The script -/

section Script
variable (hsizes : NoOutgrowth blockSize sizes) (hname : IsBenjis snapshot)
include hsizes hname

theorem triple_backupInitial : Triple (Ready sizes (Unnamed sizes volume others snapshot))
    (backupInitial blockSize volume snapshot) (fun _ => Ready sizes (Inv sizes volume others))
    fun _ => Ready sizes (Inv sizes volume others) := by
  have hbased : ∀ s, Ready sizes (Unnamed sizes volume others snapshot) s → Ready sizes (fun c =>
      Unnamed sizes volume others snapshot c ∧ Based snapshot none [] c) s :=
    fun s hs => ⟨hs.1, hs.2, fun _ => rfl, nofun⟩
  refine Triple.bind ((triple_snapshotCreate hname).pre hbased) fun _ => ?_
  exact Triple.bind (triple_rbdDiff hname nofun (by simp)) fun hints =>
    triple_benjiBackup hsizes hname

theorem triple_backupDifferential (hlast : IsBenjis last) :
    Triple (Ready sizes fun c => Unnamed sizes volume others snapshot c ∧
        ∃ content, Based last (some uid) content c)
      (backupDifferential blockSize volume snapshot last uid)
      (fun _ => Ready sizes (Inv sizes volume others))
      fun _ => Ready sizes (Inv sizes volume others) := by
  have hany : ∀ content, Triple
      (Ready sizes fun c =>
        Unnamed sizes volume others snapshot c ∧ Based last (some uid) content c)
      (backupDifferential blockSize volume snapshot last uid)
      (fun _ => Ready sizes (Inv sizes volume others))
      fun _ => Ready sizes (Inv sizes volume others) := by
    intro content
    refine Triple.bind (triple_snapshotCreate hname) fun _ => ?_
    refine Triple.bind (triple_rbdDiff hname ?_ (by simp)) fun hints => ?_
    · exact fun n hn => ⟨(Option.some.inj hn).symm, hlast⟩
    · refine Triple.bind (triple_snapRm hlast ?_ fun _ => id) fun _ =>
        triple_benjiBackup hsizes hname
      exact fun o c h => ⟨h.1.advance, h.2⟩
  refine (Triple.exists_pre hany).pre ?_
  rintro s ⟨houtcomes, hnew, content, hbased⟩
  exact ⟨content, houtcomes, hnew, hbased⟩

theorem triple_backupFrom (hlast : IsBenjis last) (found : List String) :
    Triple (Ready sizes fun c => Unnamed sizes volume others snapshot c ∧
        ∀ uid ∈ found, ∃ content, Based last (some uid) content c)
      (backupFrom blockSize volume snapshot last found)
      (fun _ => Ready sizes (Inv sizes volume others))
      fun _ => Ready sizes (Inv sizes volume others) := by
  cases found with
  | nil =>
    refine Triple.bind ((triple_snapRm_unnamed hlast).pre ?_) fun _ =>
      triple_backupInitial hsizes hname
    exact fun s hs => ⟨hs.1, hs.2.1⟩
  | cons uid found =>
    apply (triple_backupDifferential hsizes hname hlast).pre
    exact fun s hs => ⟨hs.1, hs.2.1, hs.2.2 uid List.mem_cons_self⟩

theorem triple_backup : Triple (Ready sizes (Unnamed sizes volume others snapshot))
    (backup blockSize volume snapshot) (fun _ => Ready sizes (Inv sizes volume others))
    fun _ => Ready sizes (Inv sizes volume others) := by
  refine Triple.bind triple_snapLs fun names => ?_
  rcases hnewest : names.getLast? with _ | last
  · apply (triple_backupInitial hsizes hname).pre
    exact fun s hs => ⟨hs.1, hs.2.1⟩
  · have hmem : last ∈ names := List.mem_of_getLast? hnewest
    have hpre : ∀ s, Ready sizes (fun c => Unnamed sizes volume others snapshot c ∧
        ∀ n ∈ names, IsBenjis n) s →
        Ready sizes (Unnamed sizes volume others snapshot) s ∧ ∀ n ∈ names, IsBenjis n :=
      fun s hs => ⟨⟨hs.1, hs.2.1⟩, hs.2.2⟩
    refine (Triple.of_pre fun hnames => ?_).pre hpre
    refine Triple.bind (Triple.forEach fun n hn => ?_) fun _ => ?_
    · exact triple_snapRm_unnamed (hnames n (List.mem_of_mem_dropLast hn))
    · exact Triple.bind triple_benjiLs fun found =>
        triple_backupFrom hsizes hname (hnames last hmem) found

end Script

theorem Inv.afterBackup (hsizes : NoOutgrowth blockSize sizes) (hname : IsBenjis snapshot)
    (hnew : snapshot ∉ snapshotNames c) {outcomes : List Outcome}
    (houtcomes : ∀ o ∈ outcomes, sizes o.image.length) (h : Inv sizes volume others c) :
    Inv sizes volume others (afterBackup blockSize volume snapshot outcomes c) := by
  have hstart : Ready sizes (Unnamed sizes volume others snapshot) ⟨c, outcomes⟩ :=
    ⟨houtcomes, h, hnew⟩
  unfold Ceph.afterBackup
  split
  · exact h
  · rename_i r s hs
    cases r with
    | ok a => exact ((triple_backup hsizes hname).returns hstart hs).2
    | error e => exact ((triple_backup hsizes hname).raises hstart hs).2

/-- A new snapshot has a new name, and the image keeps to the allowed sizes. -/
def Allowed (sizes : ℕ → Prop) (c : Cluster) : Event → Prop
  | .backup now outcomes => snapshotName now ∉ snapshotNames c ∧
    ∀ o ∈ outcomes, sizes o.image.length
  | .others o => sizes o.image.length

instance [DecidablePred sizes] : ∀ c e, Decidable (Allowed sizes c e)
  | _, .backup _ _ => inferInstanceAs (Decidable (_ ∧ _))
  | _, .others _ => inferInstanceAs (Decidable (sizes _))

/-- Before the first backup. -/
structure Start (sizes : ℕ → Prop) (volume : String) (c : Cluster) : Prop where
  names : (c.snapshots.map Snapshot.name).Nodup
  snapshots : ∀ s ∈ c.snapshots, ¬ IsBenjis s.name
  versions : ∀ v ∈ c.versions, v.volume ≠ volume
  uids : (c.versions.map Version.uid).Nodup
  image : sizes c.image.length
  taken : c.taken = []

theorem Start.inv (h : Start sizes volume c) : Inv sizes volume c.snapshots c where
  unique := by
    rw [snapshotNames, h.taken]
    exact List.nodup_nil
  names := h.names
  others := List.filter_eq_self.mpr fun s hs => decide_eq_true (h.snapshots s hs)
  snapshots := fun s hs hname => absurd hname (h.snapshots s hs)
  versions := fun v hv hvolume => absurd hvolume (h.versions v hv)
  uids := h.uids
  image := h.image
  taken := by
    rw [h.taken]
    nofun

theorem step_inv {e : Event} {c' : Cluster} (hsizes : NoOutgrowth blockSize sizes)
    (h : Inv sizes volume others c) (he : Allowed sizes c e)
    (hs : step blockSize volume c e = some c') :
    Inv sizes volume others c' := by
  cases e with
  | backup now outcomes =>
    cases hs
    exact h.afterBackup hsizes (isBenjis_snapshotName now) he.1 he.2
  | others o =>
    cases hs
    exact h.advance he

theorem chain_inv {c' : Cluster} (hsizes : NoOutgrowth blockSize sizes)
    (hstart : Start sizes volume c) (h : Steps (step blockSize volume) (Allowed sizes) c c') :
    Inv sizes volume c.snapshots c' :=
  h.invariant hstart.inv fun hi he hs => step_inv hsizes hi he hs

section Example

def exampleCluster : Cluster := ⟨[1, 2, 3, 4], [⟨"manual", [9]⟩], [], []⟩

/-- The processes of two runs. The snapshot of the second is taken although the process is seen to
fail, and others write to the image meanwhile. -/
def firstOutcomes : List Outcome :=
  [{ image := [1, 2, 3, 4] }, { image := [1, 2, 3, 4] },
    { image := [1, 2, 3, 4], diff := [⟨0, 4, true⟩] }, { image := [1, 2, 3, 4], uid := "v1" }]

def secondOutcomes : List Outcome :=
  [{ image := [1, 2, 3, 4] }, { image := [1, 2, 3, 4] }, { image := [1, 2, 7, 0], raises := true },
    { image := [1, 2, 7, 0], diff := [⟨2, 1, true⟩, ⟨3, 1, false⟩] }, { image := [5, 5, 5, 5] },
    { image := [1, 2, 7, 0], uid := "v2" }]

def exampleSizes (n : ℕ) : Prop := n % 2 = 0

instance : DecidablePred exampleSizes := fun n => inferInstanceAs (Decidable (n % 2 = 0))

theorem example_noOutgrowth : NoOutgrowth 2 exampleSizes := fun _ _ hm _ hne => absurd hm hne

theorem example_start : Start exampleSizes "volume" exampleCluster where
  names := by decide
  snapshots := by decide
  versions := by decide
  uids := by decide
  image := by decide
  taken := rfl

end Example

/-- The snapshots of others stay as they are. -/
theorem chain_others {c' : Cluster} (hsizes : NoOutgrowth blockSize sizes)
    (hstart : Start sizes volume c) (h : Steps (step blockSize volume) (Allowed sizes) c c') :
    c'.snapshots.filter (fun s => ¬ IsBenjis s.name) = c.snapshots :=
  (chain_inv hsizes hstart h).others

end Benji.Ceph
