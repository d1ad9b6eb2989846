import Benji.Ceph.Chain

/-! A run that comes to its end without an exception leaves one snapshot of Benji's, and a valid
version with its content: the next run is differential. -/
namespace Benji.Ceph
open Lib
open Proc (Triple)

variable {volume snapshot last uid name : String} {c c' : Cluster} {o : Outcome} {s t : State}
  {sizes : ℕ → Prop} {blockSize : ℕ} {hints : List Hint} {base : Option String}
  {others : List Snapshot} {names : List String}

/-- The names of Benji's snapshots, from the oldest to the newest. -/
def benjisNames (c : Cluster) : List String :=
  (c.snapshots.map Snapshot.name).filter fun name => IsBenjis name

@[simp] theorem benjisNames_advance : benjisNames (c.advance o) = benjisNames c := rfl

theorem Inv.nodup_benjisNames (h : Inv sizes volume others c) : (benjisNames c).Nodup :=
  List.filter_sublist.nodup h.names

theorem Inv.mem_snapshotNames (h : Inv sizes volume others c) (hmem : name ∈ benjisNames c) :
    name ∈ snapshotNames c := by
  obtain ⟨hin, hname⟩ := List.mem_filter.mp hmem
  obtain ⟨s, hs, rfl⟩ := List.mem_map.mp hin
  exact List.mem_map_of_mem (h.snapshots s hs (of_decide_eq_true hname))

theorem mem_benjisNames_of_find? {content : Bytes} (hname : IsBenjis name)
    (h : c.find? name = some content) : name ∈ benjisNames c :=
  List.mem_filter.mpr ⟨List.mem_map_of_mem (Cluster.of_find? h), decide_eq_true hname⟩

/-! ### The processes -/

section Processes
variable {α : Type} {act : Outcome → Cluster → Option (α × Cluster)}

/-- A process that was not seen to fail did what it does. -/
theorem returns_subprocessRun {a : α} (h : (subprocessRun act).Returns s a t) :
    ∃ o, act o (s.cluster.advance o) = some (a, t.cluster) := by
  unfold Proc.Returns subprocessRun at h
  split at h
  · cases h
  · rename_i o rest hrest
    dsimp only at h
    split at h
    · cases h
    · rename_i a' c' hc
      split at h
      · rename_i hok
        have heffect : o.effect = true := (Bool.and_eq_true_iff.mp hok).1
        rw [heffect] at h
        cases h
        exact ⟨o, hc⟩
      · cases h

/-- One that was seen to fail may have done nothing. -/
theorem raises_subprocessRun {e : Failure} (h : (subprocessRun act).Raises s e t) :
    t.cluster = s.cluster ∨ (∃ o, t.cluster = s.cluster.advance o) ∨
      ∃ o a, act o (s.cluster.advance o) = some (a, t.cluster) := by
  unfold Proc.Raises subprocessRun at h
  split at h
  · cases h
    exact .inl rfl
  · rename_i o rest hrest
    dsimp only at h
    split at h
    · cases h
      exact .inr (.inl ⟨o, rfl⟩)
    · rename_i a c' hc
      split at h
      · cases h
      · cases h
        dsimp only
        split
        · exact .inr (.inr ⟨o, a, hc⟩)
        · exact .inr (.inl ⟨o, rfl⟩)

end Processes

theorem snapLs_returns (h : snapLs.Returns s names t) :
    names = benjisNames s.cluster ∧ benjisNames t.cluster = benjisNames s.cluster := by
  obtain ⟨o, ho⟩ := returns_subprocessRun h
  obtain ⟨hnames, hcluster⟩ := Prod.mk.inj (Option.some.inj ho)
  rw [← hcluster]
  exact ⟨hnames.symm, rfl⟩

theorem snapRm_returns (h : (snapRm name).Returns s () t) :
    benjisNames t.cluster = (benjisNames s.cluster).filter fun n => n ≠ name := by
  obtain ⟨o, ho⟩ := returns_subprocessRun h
  split at ho
  · cases ho
  · rw [← (Prod.mk.inj (Option.some.inj ho)).2]
    simp only [benjisNames, List.filter_map, List.filter_filter, Cluster.advance_snapshots]
    congr 1
    apply List.filter_congr
    intro x _
    exact Bool.and_comm _ _

theorem benjiLs_returns {found : List String} (h : (benjiLs volume last).Returns s found t) :
    benjisNames t.cluster = benjisNames s.cluster := by
  obtain ⟨o, ho⟩ := returns_subprocessRun h
  rw [← (Prod.mk.inj (Option.some.inj ho)).2]
  rfl

theorem rbdDiff_returns {fromSnap : Option String} (hname : IsBenjis snapshot)
    (h : (rbdDiff fromSnap snapshot).Returns s hints t) :
    benjisNames t.cluster = benjisNames s.cluster ∧ snapshot ∈ benjisNames s.cluster := by
  obtain ⟨o, ho⟩ := returns_subprocessRun h
  split at ho
  · rename_i hnew
    obtain ⟨-, ho⟩ := Option.ite_none_right_eq_some.mp ho
    rw [← (Prod.mk.inj (Option.some.inj ho)).2]
    exact ⟨rfl, mem_benjisNames_of_find? hname hnew⟩
  · cases ho

/-- The snapshot is there afterwards if it could be taken. -/
theorem snapshotCreate_returns (hname : IsBenjis snapshot)
    (h : (snapshotCreate snapshot).Returns s () t) :
    benjisNames t.cluster = benjisNames s.cluster ∨
      benjisNames t.cluster = benjisNames s.cluster ++ [snapshot] := by
  have hnames : ∀ (o : Outcome) taken, benjisNames { s.cluster.advance o with
      snapshots := (s.cluster.advance o).snapshots ++ [⟨snapshot, o.image⟩]
      taken := taken } = benjisNames s.cluster ++ [snapshot] := by
    intro o taken
    simp [benjisNames, List.filter_append, hname]
  rcases Proc.returns_tryExcept.mp h with hreturns | ⟨e, u, hraises, hhandler⟩
  · obtain ⟨o, ho⟩ := returns_subprocessRun hreturns
    split at ho
    · cases ho
    · rw [← (Prod.mk.inj (Option.some.inj ho)).2]
      exact .inr (hnames o _)
  · cases e with
    | killed => exact absurd hhandler Proc.returns_raise
    | runtimeError =>
      obtain ⟨-, rfl⟩ := Proc.returns_pure.mp hhandler
      rcases raises_subprocessRun hraises with heq | ⟨o, heq⟩ | ⟨o, a, ho⟩
      · exact .inl (by rw [heq])
      · exact .inl (by rw [heq, benjisNames_advance])
      · split at ho
        · cases ho
        · rw [← (Prod.mk.inj (Option.some.inj ho)).2]
          exact .inr (hnames o _)

/-- A backup that succeeds leaves a valid version of the snapshot. -/
theorem benjiBackup_returns
    (h : (benjiBackup blockSize volume snapshot hints base).Returns s () t) :
    benjisNames t.cluster = benjisNames s.cluster ∧ ∃ v ∈ t.cluster.versions,
      v.volume = volume ∧ v.snapshot = snapshot ∧ v.status = .valid := by
  unfold Proc.Returns benjiBackup at h
  split at h
  · cases h
  · dsimp only at h
    split at h
    · cases h
    · split at h
      · split at h
        · cases h
        · split at h
          · cases h
          · cases h
            exact ⟨rfl, _, List.mem_append_right _ (List.mem_singleton_self _), rfl, rfl, rfl⟩
      · cases h

/-! ### The script -/

/-- What the next run is going to find. -/
def Chained (volume snapshot : String) (c : Cluster) : Prop :=
  benjisNames c = [snapshot] ∧ ∃ v ∈ c.versions,
    v.volume = volume ∧ v.snapshot = snapshot ∧ v.status = .valid

section Script
variable (hname : IsBenjis snapshot)
include hname

theorem backupInitial_returns (hs : benjisNames s.cluster = [])
    (h : (backupInitial blockSize volume snapshot).Returns s () t) :
    Chained volume snapshot t.cluster := by
  obtain ⟨_, s₁, hcreate, h⟩ := Proc.returns_bind.mp h
  obtain ⟨hints, s₂, hdiff, h⟩ := Proc.returns_bind.mp h
  obtain ⟨hsame, hmem⟩ := rbdDiff_returns hname hdiff
  obtain ⟨hbackup, hversion⟩ := benjiBackup_returns h
  refine ⟨?_, hversion⟩
  rw [hbackup, hsame]
  rcases snapshotCreate_returns hname hcreate with heq | heq
  · rw [heq, hs] at hmem
    cases hmem
  · rw [heq, hs, List.nil_append]

theorem backupDifferential_returns (hs : benjisNames s.cluster = [last]) (hne : snapshot ≠ last)
    (h : (backupDifferential blockSize volume snapshot last uid).Returns s () t) :
    Chained volume snapshot t.cluster := by
  obtain ⟨_, s₁, hcreate, h⟩ := Proc.returns_bind.mp h
  obtain ⟨hints, s₂, hdiff, h⟩ := Proc.returns_bind.mp h
  obtain ⟨_, s₃, hrm, h⟩ := Proc.returns_bind.mp h
  obtain ⟨hsame, hmem⟩ := rbdDiff_returns hname hdiff
  obtain ⟨hbackup, hversion⟩ := benjiBackup_returns h
  refine ⟨?_, hversion⟩
  rw [hbackup, snapRm_returns hrm, hsame]
  rcases snapshotCreate_returns hname hcreate with heq | heq
  · rw [heq, hs, List.mem_singleton] at hmem
    exact absurd hmem hne
  · rw [heq, hs]
    simp [hne]

theorem backupFrom_returns {found : List String} (hs : benjisNames s.cluster = [last])
    (hne : snapshot ≠ last)
    (h : (backupFrom blockSize volume snapshot last found).Returns s () t) :
    Chained volume snapshot t.cluster := by
  cases found with
  | nil =>
    obtain ⟨_, s₁, hrm, h⟩ := Proc.returns_bind.mp h
    have hnone : benjisNames s₁.cluster = [] := by
      rw [snapRm_returns hrm, hs]
      simp
    exact backupInitial_returns hname hnone h
  | cons uid found => exact backupDifferential_returns hname hs hne h

end Script

theorem forEach_snapRm_returns {removed : List String}
    (h : (Proc.forEach snapRm removed).Returns s () t) :
    benjisNames t.cluster = (benjisNames s.cluster).filter fun n => n ∉ removed := by
  induction removed generalizing s with
  | nil =>
    rw [Proc.returns_forEach_nil.mp h]
    simp
  | cons n removed ih =>
    obtain ⟨u, hu, ht⟩ := Proc.returns_forEach_cons.mp h
    rw [ih ht, snapRm_returns hu, List.filter_filter]
    apply List.filter_congr
    intro x _
    rw [← Bool.decide_and, decide_eq_decide, List.mem_cons, not_or, and_comm]

/-- Without the rest, the newest is left. -/
theorem filter_notMem_dropLast {l : List String} (hl : l.Nodup) (hlast : l.getLast? = some last) :
    (l.filter fun n => n ∉ l.dropLast) = [last] := by
  obtain ⟨init, rfl⟩ := List.getLast?_eq_some_iff.mp hlast
  rw [List.dropLast_concat, List.filter_append]
  have hnew : last ∉ init := fun hmem =>
    (List.nodup_append.mp hl).2.2 last hmem last (List.mem_singleton_self last) rfl
  have hinit : (init.filter fun n => n ∉ init) = [] := by
    rw [List.filter_eq_nil_iff]
    intro n hn
    simpa using hn
  rw [hinit]
  simp [hnew]

theorem backup_returns {outcomes : List Outcome} (hinv : Inv sizes volume others c)
    (hname : IsBenjis snapshot) (hnew : snapshot ∉ snapshotNames c)
    (h : (backup blockSize volume snapshot).Returns ⟨c, outcomes⟩ () t) :
    Chained volume snapshot t.cluster := by
  obtain ⟨names, s₁, hls, h⟩ := Proc.returns_bind.mp h
  obtain ⟨hnames, hsame⟩ := snapLs_returns hls
  rcases hnewest : names.getLast? with _ | last
  · rw [hnewest] at h
    have hnone : benjisNames s₁.cluster = [] := by
      rw [hsame, ← hnames]
      exact List.getLast?_eq_none_iff.mp hnewest
    exact backupInitial_returns hname hnone h
  · rw [hnewest] at h
    obtain ⟨_, s₂, hrm, h⟩ := Proc.returns_bind.mp h
    obtain ⟨found, s₃, hfound, h⟩ := Proc.returns_bind.mp h
    have hnodup : names.Nodup := hnames ▸ hinv.nodup_benjisNames
    have hone : benjisNames s₃.cluster = [last] := by
      rw [benjiLs_returns hfound, forEach_snapRm_returns hrm, hsame, ← hnames]
      exact filter_notMem_dropLast hnodup hnewest
    have hne : snapshot ≠ last := by
      rintro rfl
      apply hnew
      apply hinv.mem_snapshotNames
      rw [← hnames]
      exact List.mem_of_getLast? hnewest
    exact backupFrom_returns hname hone hne h

end Benji.Ceph
