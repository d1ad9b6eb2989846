import Benji.Balance.Operations

/-! A process that calls the operations one after another, each returning or raising at any of
its steps, while others take and release locks of their own. -/
namespace Benji.Balance
open Lib LockFlow

inductive Operation where
  | backup (base : Option String) (versionUid : String)
  | scrub (versionUid : String)
  | deepScrub (versionUid : String)
  | restore (versionUid : String)

structure Call where
  operation : Operation
  /-- Whether it returned. -/
  ok : Bool
  raised : List Step

namespace Operation

def flow : Operation → Flow
  | backup base v => Balance.backup base v
  | scrub v => Balance.scrub v
  | deepScrub v => Balance.deepScrub v
  | restore v => Balance.restore v

def versionUid : Operation → String
  | backup _ v | scrub v | deepScrub v | restore v => v

end Operation

namespace Call

/-- The steps that raised are among those at which the version's lock is released. -/
def Releases (c : Call) : Prop :=
  match c.operation with
  | .backup _ _ => BackupReleases c.raised
  | .scrub _ => True
  | .deepScrub _ => DeepScrubBalanced c.raised
  | .restore _ => RestoreBalanced c.raised

/-- The call ends with the lock of `v`, which it took. -/
def Keeps (c : Call) (v : String) : Prop := c.operation.versionUid = v ∧ ¬ c.Releases

/-- A backup of `v`, or with `v` as its base, that comes to where it takes their locks. -/
def Frees (c : Call) (v : String) : Prop :=
  match c.operation with
  | .backup base u =>
    (v = u ∨ v ∈ base) ∧ .openSource ∉ c.raised ∧ .checkBase ∉ c.raised
  | _ => False

end Call

/-- The calls of a session, from the locks held before to those held after them. -/
inductive Session : Set String → List Call → Set String → Prop
  | nil {held : Set String} : Session held [] held
  | cons {taken held mid after : Set String} {c : Call} {calls : List Call} :
    c.operation.flow.Exec taken held c.ok c.raised mid → Session mid calls after →
      Session held (c :: calls) after

variable {taken held after : Set String} {c : Call} {calls : List Call} {v : String}

/-- One lock over one call: it is held afterwards if the call kept it, or if it was held and the
call was not a backup that released it as if it had taken it. -/
theorem mem_after_iff (h : c.operation.flow.Exec taken held c.ok c.raised after) :
    v ∈ after ↔ c.Keeps v ∨ v ∈ held ∧ ¬ c.Frees v := by
  obtain ⟨operation, ok, raised⟩ := c
  cases operation with
  | scrub u =>
    obtain rfl := exec_scrub h
    simp [Call.Keeps, Call.Releases, Call.Frees]
  | restore u =>
    rcases exec_restore h with ⟨hbal, rfl⟩ | ⟨hbal, hu, rfl⟩
    · simp [Call.Keeps, Call.Releases, Call.Frees, hbal]
    · simp [Call.Keeps, Call.Releases, Call.Frees, hbal, Operation.versionUid, eq_comm]
  | deepScrub u =>
    rcases exec_deepScrub h with ⟨hbal, rfl⟩ | ⟨hbal, hu, rfl⟩
    · simp [Call.Keeps, Call.Releases, Call.Frees, hbal]
    · simp [Call.Keeps, Call.Releases, Call.Frees, hbal, Operation.versionUid, eq_comm]
  | backup base u =>
    rcases exec_backup h with
      ⟨hbal, rfl⟩ | ⟨-, ⟨hrel, hu, hbase, rfl⟩ | ⟨hrel, hopen, hcheck, -, rfl⟩⟩
    · have hkeeps : ¬ Call.Keeps ⟨.backup base u, ok, raised⟩ v := fun hk => hk.2 hbal.2
      constructor
      · intro hv
        refine .inr ⟨hv, ?_⟩
        rintro ⟨hname, hopen, hcheck⟩
        obtain hno | hno | ⟨hu, hbase⟩ := hbal.1
        · exact hopen hno
        · exact hcheck hno
        · rcases hname with rfl | hname
          · exact hu hv
          · exact hbase v hname hv
      · rintro (hk | ⟨hv, -⟩)
        · exact absurd hk hkeeps
        · exact hv
    · constructor
      · rintro (hv | rfl)
        · refine .inr ⟨hv, ?_⟩
          rintro ⟨rfl | hname, -⟩
          · exact hu hv
          · exact hbase v hname hv
        · exact .inl ⟨rfl, hrel⟩
      · rintro (⟨rfl, -⟩ | ⟨hv, -⟩)
        · exact .inr rfl
        · exact .inl hv
    · have hkeeps : ¬ Call.Keeps ⟨.backup base u, ok, raised⟩ v := fun hk => hk.2 hrel
      constructor
      · rintro ⟨⟨hv, hne⟩, hbase⟩
        refine .inr ⟨hv, ?_⟩
        rintro ⟨rfl | hname, -⟩
        · exact hne rfl
        · exact hbase hname
      · rintro (hk | ⟨hv, hfrees⟩)
        · exact absurd hk hkeeps
        · refine ⟨⟨hv, ?_⟩, ?_⟩
          · rintro rfl
            exact hfrees ⟨.inl rfl, hopen, hcheck⟩
          · intro hname
            exact hfrees ⟨.inr hname, hopen, hcheck⟩

/-- A lock is held at the end of a session if it was held at its beginning, or kept by a call, and
no later backup came across it. -/
theorem mem_session_iff {held : Set String} (h : Session held calls after) :
    v ∈ after ↔ (v ∈ held ∧ ∀ d ∈ calls, ¬ d.Frees v) ∨
      ∃ xs c ys, calls = xs ++ c :: ys ∧ c.Keeps v ∧ ∀ d ∈ ys, ¬ d.Frees v := by
  induction h with
  | nil => simp
  | @cons taken held mid after c calls hcall hrest ih =>
    rw [ih, mem_after_iff hcall]
    constructor
    · rintro (⟨hkeeps | ⟨hv, hfrees⟩, hall⟩ | ⟨xs, d, ys, rfl, hkeeps, hys⟩)
      · exact .inr ⟨[], c, calls, rfl, hkeeps, hall⟩
      · exact .inl ⟨hv, List.forall_mem_cons.mpr ⟨hfrees, hall⟩⟩
      · exact .inr ⟨c :: xs, d, ys, rfl, hkeeps, hys⟩
    · rintro (⟨hv, hall⟩ | ⟨xs, d, ys, heq, hkeeps, hys⟩)
      · obtain ⟨hfrees, hall⟩ := List.forall_mem_cons.mp hall
        exact .inl ⟨.inr ⟨hv, hfrees⟩, hall⟩
      · cases xs with
        | nil =>
          obtain ⟨rfl, rfl⟩ := List.cons.inj heq
          exact .inl ⟨.inl hkeeps, hys⟩
        | cons x xs =>
          obtain ⟨rfl, rfl⟩ := List.cons.inj heq
          exact .inr ⟨xs, d, ys, rfl, hkeeps, hys⟩

theorem Session.append_iff {held : Set String} {xs ys : List Call} :
    Session held (xs ++ ys) after ↔ ∃ mid, Session held xs mid ∧ Session mid ys after := by
  constructor
  · intro h
    induction xs generalizing held with
    | nil => exact ⟨held, .nil, h⟩
    | cons x xs ih =>
      obtain _ | ⟨hcall, hrest⟩ := h
      obtain ⟨mid, hxs, hys⟩ := ih hrest
      exact ⟨mid, .cons hcall hxs, hys⟩
  · rintro ⟨mid, hxs, hys⟩
    induction hxs with
    | nil => exact hys
    | cons hcall _ ih => exact .cons hcall (ih hys)

/-- While its lock is held, a version is neither scrubbed nor restored: the call raises before its
first step. -/
theorem exec_of_mem (h : c.operation.flow.Exec taken held c.ok c.raised after)
    (hop : ∀ base, c.operation ≠ .backup base v) (hv : c.operation.versionUid = v)
    (hmem : v ∈ held) : c.ok = false ∧ c.raised = [] := by
  have hlocked : ∀ {rest : Flow} {ok raised}, (seq (lock v) rest).Exec taken held ok raised after →
      ok = false ∧ raised = [] := by
    intro rest ok raised hrest
    rcases exec_seq_lock.mp hrest with ⟨-, hok, hraised, -⟩ | ⟨hheld, -⟩
    · exact ⟨hok, hraised⟩
    · exact absurd hmem hheld
  obtain ⟨operation, ok, raised⟩ := c
  cases operation with
  | backup base u =>
    obtain rfl := hv
    exact absurd rfl (hop base)
  | scrub u =>
    obtain rfl := hv
    exact hlocked h
  | deepScrub u =>
    obtain rfl := hv
    exact hlocked h
  | restore u =>
    obtain rfl := hv
    exact hlocked h

/-- A deep scrub whose jobs do not add up, and an attempt to scrub the version again. -/
def scrubTwice : List Call :=
  [⟨.deepScrub "v1", false, [.countJobs]⟩, ⟨.scrub "v1", false, []⟩]

theorem session_scrubTwice : Session ∅ scrubTwice (∅ ∪ {"v1"}) := by
  have hloop : (tryFinally (guarded "v1" (step .scrubBlocks))
      (seq (step .closeSource) (step .restoreReadCache)) : Flow).Exec
        ∅ (∅ ∪ {"v1"}) true [] (∅ ∪ {"v1"}) :=
    ⟨true, true, [], [], _, .inl ⟨rfl, rfl, .inl ⟨rfl, rfl⟩⟩,
      exec_seq_step.mpr (.inl ⟨rfl, .inl ⟨rfl, rfl⟩⟩), rfl, rfl⟩
  have hstart : (guarded "v1" (seq (step .getVersion) (step .openSource))).Exec
      ∅ (∅ ∪ {"v1"}) true [] (∅ ∪ {"v1"}) :=
    .inl ⟨rfl, exec_seq_step.mpr (.inl ⟨rfl, .inl ⟨rfl, rfl⟩⟩)⟩
  have hfinish : (finishDeepScrub "v1").Exec
      ∅ (∅ ∪ {"v1"}) false [.countJobs] (∅ ∪ {"v1"}) :=
    exec_seq_step.mpr (.inr ⟨rfl, rfl, rfl⟩)
  have hfirst : (Balance.deepScrub "v1").Exec ∅ ∅ false [.countJobs] (∅ ∪ {"v1"}) :=
    exec_seq_lock.mpr (.inr ⟨by simp, by simp,
      .inl ⟨[], _, _, hstart, .inl ⟨[], _, _, hloop, hfinish, rfl⟩, rfl⟩⟩)
  have hsecond : (Balance.scrub "v1").Exec ∅ (∅ ∪ {"v1"}) false [] (∅ ∪ {"v1"}) :=
    exec_seq_lock.mpr (.inl ⟨.inl (by simp), rfl, rfl, rfl⟩)
  exact .cons hfirst (.cons hsecond .nil)

end Benji.Balance
