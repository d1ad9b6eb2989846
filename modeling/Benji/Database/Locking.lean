import Benji.Lib.Steps
import Benji.World

/-! The lock table under the calls of any number of processes. A call is two steps, its query and
its commit, and other processes take steps between them. -/
namespace Benji.LockTable
open Lib

abbrev Locks := Table Lock.lockName

/-- What a process asks for. -/
inductive Request where
  | lock (lockName : String) (reason : Option String)
  | updateLock (lockName : String) (reason : Option String)
  | unlock (lockName : String)
  | unlockAll
  /-- The body of `with_lock` is entered, and left. -/
  | enter (lockName : String) (reason : Option String) (unlock : Bool)
  | leave (raised : Bool)
  deriving DecidableEq

/-- A call between its query and its commit. -/
inductive Call where
  | lock (lockName : String) (reason : Option String)
  | updateLock (lockName : String) (reason : Option String)
  | unlock (lockName : String)
  | unlockAll (lockNames : List String)
  | enter (lockName : String) (reason : Option String) (unlock : Bool)
  | leave (lockName : String)
  deriving DecidableEq

inductive Outcome where
  | pending
  | returned
  | alreadyLocked
  | internalError
  /-- `IntegrityError`, which only `lock` turns into `AlreadyLocked`. -/
  | integrityError
  /-- A row that the query has found is gone at the commit. -/
  | staleDataError
  deriving DecidableEq, Repr

/-- A body of `with_lock`, and whether its lock is released when it returns. -/
structure Body where
  lockName : String
  unlock : Bool
  deriving DecidableEq

structure State where
  locks : Locks
  call : Process → Option Call
  /-- The innermost body first. -/
  bodies : Process → List Body

/-- No process is in a call or in a body; the table is whatever others have left. -/
def State.start (locks : Locks) : State := ⟨locks, fun _ => none, fun _ => []⟩

def holds (locks : Locks) (p : Process) (lockName : String) : Bool :=
  (locks.find? lockName).any fun l => l.owner = p

namespace State

def setCall (s : State) (p : Process) (c : Option Call) : State :=
  { s with call := fun q => if q = p then c else s.call q }

def setBodies (s : State) (p : Process) (bodies : List Body) : State :=
  { s with bodies := fun q => if q = p then bodies else s.bodies q }

def setLocks (s : State) (locks : Locks) : State := { s with locks := locks }

end State

/-- The query of a lock: an own row is an error. -/
def queryFree (s : State) (p : Process) (lockName : String) (c : Call) : State × Outcome :=
  if holds s.locks p lockName then (s, .internalError) else (s.setCall p (some c), .pending)

/-- The query of an update or a release: no own row is an error. -/
def queryHeld (s : State) (p : Process) (lockName : String) (c : Call) : State × Outcome :=
  if holds s.locks p lockName then (s.setCall p (some c), .pending) else (s, .internalError)

def ownNames (locks : Locks) (p : Process) : List String :=
  (locks.rows.filter fun l => l.owner = p).map Lock.lockName

/-- A request up to its query. -/
def query (s : State) (p : Process) : Request → Option (State × Outcome)
  | .lock n reason => some (queryFree s p n (.lock n reason))
  | .enter n reason unlock => some (queryFree s p n (.enter n reason unlock))
  | .updateLock n reason => some (queryHeld s p n (.updateLock n reason))
  | .unlock n => some (queryHeld s p n (.unlock n))
  | .unlockAll => some (s.setCall p (some (.unlockAll (ownNames s.locks p))), .pending)
  | .leave raised => match s.bodies p with
    | [] => none
    | b :: rest =>
      let t := s.setBodies p rest
      some (if raised || b.unlock then queryHeld t p b.lockName (.leave b.lockName)
        else (t, .returned))

/-- The commit of an insertion; the primary key refuses a second row of a name, and the column of
the reason refuses NULL. -/
def insert (s : State) (p : Process) (lockName : String) : Option String → State × Outcome
  | none => (s, .alreadyLocked)
  | some text =>
    if (s.locks.find? lockName).isSome then (s, .alreadyLocked)
    else (s.setLocks (s.locks.put ⟨lockName, p, text⟩), .returned)

/-- The commit of a change to own rows. -/
def change (s : State) (p : Process) (lockNames : List String) (f : Locks → Locks) :
    State × Outcome :=
  if lockNames.all (holds s.locks p) then (s.setLocks (f s.locks), .returned)
  else (s, .staleDataError)

def setReason (s : State) (p : Process) (lockName : String) : Option String → State × Outcome
  | none => if holds s.locks p lockName then (s, .integrityError) else (s, .staleDataError)
  | some text => change s p [lockName] fun locks => locks.put ⟨lockName, p, text⟩

def eraseAll (lockNames : List String) (locks : Locks) : Locks :=
  locks.filter fun l => l.lockName ∉ lockNames

def commitCall (s : State) (p : Process) : Call → State × Outcome
  | .lock n reason => insert s p n reason
  | .enter n reason unlock =>
    let (t, outcome) := insert s p n reason
    if outcome = .returned then (t.setBodies p (⟨n, unlock⟩ :: t.bodies p), outcome)
    else (t, outcome)
  | .updateLock n reason => setReason s p n reason
  | .unlock n => change s p [n] (eraseAll [n])
  | .leave n => change s p [n] (eraseAll [n])
  -- `unlock_all` drops any exception.
  | .unlockAll ns => ((change s p ns (eraseAll ns)).1, .returned)

inductive Event where
  | request (p : Process) (r : Request)
  | commit (p : Process)
  deriving DecidableEq

def Event.process : Event → Process
  | request p _ => p
  | commit p => p

/-- A process makes one call at a time. -/
def step (s : State) : Event → Option (State × Outcome)
  | .request p r => if s.call p = none then query s p r else none
  | .commit p => (s.call p).map fun c => commitCall (s.setCall p none) p c

def next (s : State) (e : Event) : Option State := (step s e).map Prod.fst

variable {s t : State} {locks : Locks} {p q : Process} {lockName n m text : String}
  {ns : List String} {o : Outcome} {c : Call} {e : Event}

/-! ### Holders -/

theorem holds_iff : holds locks p n = true ↔ ∃ l ∈ locks, l.lockName = n ∧ l.owner = p := by
  rw [holds, Option.any_eq_true]
  constructor
  · rintro ⟨l, hl, howner⟩
    exact ⟨l, Table.mem_of_find? hl, Table.key_of_find? hl, of_decide_eq_true howner⟩
  · rintro ⟨l, hl, rfl, howner⟩
    exact ⟨l, Table.find?_of_mem hl, decide_eq_true howner⟩

theorem holds_unique (hp : holds locks p n = true) (hq : holds locks q n = true) : p = q := by
  obtain ⟨l, hl, hname, rfl⟩ := holds_iff.mp hp
  obtain ⟨k, hk, hname', rfl⟩ := holds_iff.mp hq
  rw [Table.eq_of_key_eq hl hk (hname.trans hname'.symm)]

theorem holds_put : holds (locks.put ⟨n, p, text⟩) q m =
    if m = n then decide (p = q) else holds locks q m := by
  unfold holds
  split
  · rename_i heq
    subst heq
    have hfind : (locks.put ⟨m, p, text⟩).find? m = some ⟨m, p, text⟩ := Table.find?_put_self
    rw [hfind]
    rfl
  · rename_i hne
    have hfind : (locks.put ⟨n, p, text⟩).find? m = locks.find? m := Table.find?_put_of_ne hne
    rw [hfind]

theorem holds_eraseAll (h : m ∉ ns) : holds (eraseAll ns locks) q m = holds locks q m := by
  have hfind : (eraseAll ns locks).find? m = locks.find? m := by
    apply Table.find?_filter_of_true
    rintro l rfl
    exact decide_eq_true h
  rw [holds, hfind, holds]

theorem mem_eraseAll {l : Lock} : l ∈ eraseAll ns locks ↔ l ∈ locks ∧ l.lockName ∉ ns := by
  rw [eraseAll, Table.mem_filter, decide_eq_true_eq]

/-- A process that the change is not by holds what it held. -/
theorem holds_congr {locks' : Locks}
    (h : ∀ l : Lock, l.owner ≠ p → (l ∈ locks' ↔ l ∈ locks)) (hq : q ≠ p) :
    holds locks' q n = holds locks q n := by
  rw [Bool.eq_iff_iff, holds_iff, holds_iff]
  constructor
  · rintro ⟨l, hl, hname, rfl⟩
    exact ⟨l, (h l hq).mp hl, hname, rfl⟩
  · rintro ⟨l, hl, hname, rfl⟩
    exact ⟨l, (h l hq).mpr hl, hname, rfl⟩

/-! ### One step -/

/-- The names of the rows that the query of the call has found. -/
def Call.found : Call → List String
  | lock _ _ => []
  | enter _ _ _ => []
  | updateLock n _ => [n]
  | unlock n => [n]
  | leave n => [n]
  | unlockAll ns => ns

/-- What a query leaves: the table, the other processes, and a call whose rows are there. -/
structure Queried (s : State) (p : Process) (t : State) (o : Outcome) : Prop where
  locks : t.locks = s.locks
  outcome : o ≠ .staleDataError
  call : ∀ q ≠ p, t.call q = s.call q
  bodies : ∀ q ≠ p, t.bodies q = s.bodies q
  found : ∀ c, t.call p = some c →
    s.call p = some c ∨ ∀ n ∈ c.found, holds s.locks p n = true

theorem queryFree_queried (h : c.found = []) (hq : queryFree s p n c = (t, o)) :
    Queried s p t o := by
  unfold queryFree at hq
  split at hq
  · obtain ⟨rfl, rfl⟩ := Prod.mk.inj hq
    exact ⟨rfl, by simp, fun _ _ => rfl, fun _ _ => rfl, fun _ hc => .inl hc⟩
  · obtain ⟨rfl, rfl⟩ := Prod.mk.inj hq
    refine ⟨rfl, by simp, fun q hq => if_neg hq, fun _ _ => rfl, ?_⟩
    intro c' hc'
    have heq : c = c' := by simpa [State.setCall] using hc'
    right
    rw [← heq, h]
    intro n hn
    exact absurd hn List.not_mem_nil

theorem queryHeld_queried (h : c.found = [n]) (hq : queryHeld s p n c = (t, o)) :
    Queried s p t o := by
  unfold queryHeld at hq
  split at hq
  · rename_i hheld
    obtain ⟨rfl, rfl⟩ := Prod.mk.inj hq
    refine ⟨rfl, by simp, fun q hq => if_neg hq, fun _ _ => rfl, ?_⟩
    intro c' hc'
    have heq : c = c' := by simpa [State.setCall] using hc'
    right
    rw [← heq, h]
    intro m hm
    rw [List.mem_singleton.mp hm]
    exact hheld
  · obtain ⟨rfl, rfl⟩ := Prod.mk.inj hq
    exact ⟨rfl, by simp, fun _ _ => rfl, fun _ _ => rfl, fun _ hc => .inl hc⟩

theorem holds_of_mem_ownNames (h : n ∈ ownNames locks p) : holds locks p n = true := by
  obtain ⟨l, hl, rfl⟩ := List.mem_map.mp h
  obtain ⟨hmem, howner⟩ := List.mem_filter.mp hl
  exact holds_iff.mpr ⟨l, hmem, rfl, of_decide_eq_true howner⟩

theorem query_queried {r : Request} (h : query s p r = some (t, o)) : Queried s p t o := by
  cases r with
  | lock n reason => exact queryFree_queried rfl (Option.some.inj h)
  | enter n reason unlock => exact queryFree_queried rfl (Option.some.inj h)
  | updateLock n reason => exact queryHeld_queried rfl (Option.some.inj h)
  | unlock n => exact queryHeld_queried rfl (Option.some.inj h)
  | unlockAll =>
    obtain ⟨rfl, rfl⟩ := Prod.mk.inj (Option.some.inj h)
    refine ⟨rfl, by simp, fun q hq => if_neg hq, fun _ _ => rfl, ?_⟩
    intro c hc
    have heq : Call.unlockAll (ownNames s.locks p) = c := by simpa [State.setCall] using hc
    right
    rw [← heq]
    exact fun n hn => holds_of_mem_ownNames hn
  | leave raised =>
    simp only [query] at h
    cases hb : s.bodies p with
    | nil => simp [hb] at h
    | cons b rest =>
      simp only [hb, Option.some.injEq] at h
      have hpop : ∀ q ≠ p, (s.setBodies p rest).bodies q = s.bodies q := fun q hq => if_neg hq
      split at h
      · obtain ⟨hlocks, hout, hcall, hbodies, hfound⟩ := queryHeld_queried rfl h
        exact ⟨hlocks, hout, hcall, fun q hq => (hbodies q hq).trans (hpop q hq), hfound⟩
      · obtain ⟨rfl, rfl⟩ := Prod.mk.inj h
        exact ⟨rfl, by simp, fun _ _ => rfl, hpop, fun _ hc => .inl hc⟩

/-- What a step of `p` may do to the table: others keep their rows, a call that fails changes
nothing, and what a query has found is there at the commit. -/
structure Guarded (s : State) (p : Process) (t : State) (o : Outcome) : Prop where
  others : ∀ l : Lock, l.owner ≠ p → (l ∈ t.locks ↔ l ∈ s.locks)
  failed : o = .alreadyLocked ∨ o = .internalError ∨ o = .integrityError → t.locks = s.locks
  found : o ≠ .staleDataError

theorem Guarded.of_eq (h : t.locks = s.locks) (ho : o ≠ .staleDataError) : Guarded s p t o :=
  ⟨fun l _ => by rw [h], fun _ => h, ho⟩

theorem insert_cases {reason : Option String} (h : insert s p n reason = (t, o)) :
    (o = .alreadyLocked ∧ t = s) ∨
      o = .returned ∧ s.locks.find? n = none ∧
        ∃ text, t = s.setLocks (s.locks.put ⟨n, p, text⟩) := by
  cases reason with
  | none =>
    obtain ⟨rfl, rfl⟩ := Prod.mk.inj h
    exact .inl ⟨rfl, rfl⟩
  | some text =>
    rw [insert] at h
    split at h
    · obtain ⟨rfl, rfl⟩ := Prod.mk.inj h
      exact .inl ⟨rfl, rfl⟩
    · rename_i hnone
      obtain ⟨rfl, rfl⟩ := Prod.mk.inj h
      exact .inr ⟨rfl, by simpa using hnone, text, rfl⟩

theorem insert_guarded {reason : Option String} (h : insert s p n reason = (t, o)) :
    Guarded s p t o := by
  obtain ⟨rfl, rfl⟩ | ⟨rfl, hnone, text, rfl⟩ := insert_cases h
  · exact .of_eq rfl (by simp)
  · refine ⟨?_, by simp, by simp⟩
    intro l howner
    have hne : ∀ k ∈ s.locks, k.lockName ≠ n := Table.find?_eq_none.mp hnone
    simp only [State.setLocks, Table.mem_put]
    constructor
    · rintro (rfl | ⟨hl, -⟩)
      · exact absurd rfl howner
      · exact hl
    · intro hl
      exact .inr ⟨hl, hne l hl⟩

theorem change_eq (h : ∀ n ∈ ns, holds s.locks p n = true) (f : Locks → Locks) :
    change s p ns f = (s.setLocks (f s.locks), .returned) := by
  have hall : ns.all (holds s.locks p) = true := List.all_eq_true.mpr h
  rw [change, if_pos hall]

theorem setReason_cases {reason : Option String} (hown : ∀ m ∈ [n], holds s.locks p m = true)
    (h : setReason s p n reason = (t, o)) :
    (o = .integrityError ∧ t = s) ∨
      o = .returned ∧ ∃ text, t = s.setLocks (s.locks.put ⟨n, p, text⟩) := by
  cases reason with
  | none =>
    rw [setReason, if_pos (hown n List.mem_cons_self)] at h
    obtain ⟨rfl, rfl⟩ := Prod.mk.inj h
    exact .inl ⟨rfl, rfl⟩
  | some text =>
    rw [setReason, change_eq hown] at h
    obtain ⟨rfl, rfl⟩ := Prod.mk.inj h
    exact .inr ⟨rfl, text, rfl⟩

theorem erase_guarded (h : ∀ n ∈ ns, holds s.locks p n = true) :
    Guarded s p (s.setLocks (eraseAll ns s.locks)) .returned := by
  refine ⟨?_, by simp, by simp⟩
  intro l howner
  rw [State.setLocks, mem_eraseAll, and_iff_left_iff_imp]
  intro hl hmem
  obtain ⟨k, hk, hname, rfl⟩ := holds_iff.mp (h l.lockName hmem)
  exact howner (by rw [Table.eq_of_key_eq hl hk hname.symm])

theorem commitCall_guarded (hfound : ∀ n ∈ c.found, holds s.locks p n = true)
    (h : commitCall s p c = (t, o)) : Guarded s p t o := by
  cases c with
  | lock n reason => exact insert_guarded h
  | enter n reason unlock =>
    simp only [commitCall] at h
    have hinsert := @insert_guarded s _ p n _ reason rfl
    split at h
    · obtain ⟨rfl, rfl⟩ := Prod.mk.inj h
      exact ⟨hinsert.others, hinsert.failed, hinsert.found⟩
    · obtain ⟨rfl, rfl⟩ := Prod.mk.inj h
      exact hinsert
  | updateLock n reason =>
    have hown : ∀ m ∈ [n], holds s.locks p m = true := hfound
    obtain ⟨rfl, rfl⟩ | ⟨rfl, text, rfl⟩ := setReason_cases hown h
    · exact .of_eq rfl (by simp)
    · refine ⟨?_, by simp, by simp⟩
      intro l howner
      obtain ⟨k, hk, hname, hkowner⟩ := holds_iff.mp (hown n List.mem_cons_self)
      simp only [State.setLocks, Table.mem_put]
      constructor
      · rintro (rfl | ⟨hl, -⟩)
        · exact absurd rfl howner
        · exact hl
      · intro hl
        refine .inr ⟨hl, ?_⟩
        intro heq
        exact howner (by rw [Table.eq_of_key_eq hl hk (heq.trans hname.symm), hkowner])
  | unlock n =>
    have hown : ∀ m ∈ [n], holds s.locks p m = true := hfound
    rw [commitCall, change_eq hown] at h
    obtain ⟨rfl, rfl⟩ := Prod.mk.inj h
    exact erase_guarded hown
  | leave n =>
    have hown : ∀ m ∈ [n], holds s.locks p m = true := hfound
    rw [commitCall, change_eq hown] at h
    obtain ⟨rfl, rfl⟩ := Prod.mk.inj h
    exact erase_guarded hown
  | unlockAll ns =>
    have hown : ∀ m ∈ ns, holds s.locks p m = true := hfound
    rw [commitCall, change_eq hown] at h
    obtain ⟨rfl, rfl⟩ := Prod.mk.inj h
    exact erase_guarded hown

/-- The rows that the calls under way have found are there, and are their callers'. -/
def Inv (s : State) : Prop :=
  ∀ p c, s.call p = some c → ∀ n ∈ c.found, holds s.locks p n = true

theorem inv_start (locks : Locks) : Inv (State.start locks) := by
  intro p c hc
  cases hc

theorem step_guarded (hs : Inv s) (h : step s e = some (t, o)) : Guarded s e.process t o := by
  cases e with
  | request p r =>
    rw [step, Option.ite_none_right_eq_some] at h
    have hq := query_queried h.2
    exact .of_eq hq.locks hq.outcome
  | commit p =>
    obtain ⟨c, hc, hcommit⟩ := Option.map_eq_some_iff.mp h
    have hg := @commitCall_guarded (s.setCall p none) t p o c (hs p c hc) hcommit
    exact ⟨hg.others, hg.failed, hg.found⟩

/-- A commit changes no other process, and ends the call. -/
theorem commitCall_frame (h : commitCall s p c = (t, o)) :
    t.call = s.call ∧ ∀ q ≠ p, t.bodies q = s.bodies q := by
  have hinsert {n : String} {reason : Option String} : (insert s p n reason).1.call = s.call ∧
      (insert s p n reason).1.bodies = s.bodies := by
    cases reason with
    | none => exact ⟨rfl, rfl⟩
    | some text =>
      rw [insert]
      split <;> exact ⟨rfl, rfl⟩
  have hchange {ns : List String} {f : Locks → Locks} : (change s p ns f).1.call = s.call ∧
      (change s p ns f).1.bodies = s.bodies := by
    unfold change
    split <;> exact ⟨rfl, rfl⟩
  have ht : t = (commitCall s p c).1 := by rw [h]
  subst ht
  cases c with
  | lock n reason => exact ⟨hinsert.1, fun q _ => by rw [commitCall, hinsert.2]⟩
  | enter n reason unlock =>
    simp only [commitCall]
    split
    · refine ⟨hinsert.1, ?_⟩
      intro q hq
      rw [State.setBodies]
      simp only [if_neg hq, hinsert.2]
    · exact ⟨hinsert.1, fun q _ => by rw [hinsert.2]⟩
  | updateLock n reason =>
    cases reason with
    | none =>
      rw [commitCall, setReason]
      split <;> exact ⟨rfl, fun _ _ => rfl⟩
    | some text => exact ⟨hchange.1, fun q _ => by rw [commitCall, setReason, hchange.2]⟩
  | unlock n => exact ⟨hchange.1, fun q _ => by rw [commitCall, hchange.2]⟩
  | leave n => exact ⟨hchange.1, fun q _ => by rw [commitCall, hchange.2]⟩
  | unlockAll ns => exact ⟨hchange.1, fun q _ => by rw [commitCall, hchange.2]⟩

/-- What a step leaves of the calls and bodies of other processes. -/
theorem step_frame (h : step s e = some (t, o)) (hq : q ≠ e.process) :
    t.call q = s.call q ∧ t.bodies q = s.bodies q := by
  cases e with
  | request p r =>
    rw [step, Option.ite_none_right_eq_some] at h
    have hqueried := query_queried h.2
    exact ⟨hqueried.call q hq, hqueried.bodies q hq⟩
  | commit p =>
    obtain ⟨c, hc, hcommit⟩ := Option.map_eq_some_iff.mp h
    obtain ⟨hcall, hbodies⟩ := commitCall_frame hcommit
    exact ⟨by rw [hcall]; exact if_neg hq, hbodies q hq⟩

theorem step_inv (hs : Inv s) (h : step s e = some (t, o)) : Inv t := by
  have hguarded := step_guarded hs h
  intro q c hc n hn
  by_cases hq : q = e.process
  · subst hq
    cases e with
    | request p r =>
      rw [step, Option.ite_none_right_eq_some] at h
      have hqueried := query_queried h.2
      rw [hqueried.locks]
      cases hqueried.found c hc with
      | inl hold => exact hs p c hold n hn
      | inr hfound => exact hfound n hn
    | commit p =>
      obtain ⟨c', hc', hcommit⟩ := Option.map_eq_some_iff.mp h
      have hnone : t.call p = none := by
        rw [(commitCall_frame hcommit).1]
        exact if_pos rfl
      exact absurd (hnone.symm.trans hc) (by simp)
  · rw [(step_frame h hq).1] at hc
    rw [holds_congr hguarded.others hq]
    exact hs q c hc n hn

theorem inv_of_reaches {locks : Locks} (h : Reaches next (State.start locks) s) : Inv s := by
  apply h.invariant (inv_start locks)
  intro s e t hs _ hstep
  obtain ⟨⟨t', o⟩, hx, rfl⟩ := Option.map_eq_some_iff.mp hstep
  exact step_inv hs hx

/-! ### A call that nothing comes between -/

section Alone
variable {κ : Type} {w u : World κ} {lockedMsg : Option String} {r : Request}

/-- The query and the commit of the request, one after the other, leave the locks as in `u`. -/
def RunsTo (s : State) (p : Process) (r : Request) (u : World κ) : Prop :=
  ∃ t, run next s [.request p r, .commit p] = some t ∧ t.locks = u.db.locks

theorem heldBy_eq (hw : w.db.locks = locks) : Locking.heldBy p n w = holds locks p n := by
  rw [Locking.heldBy, holds, hw]
  cases locks.find? n <;> rfl

theorem run_call (hidle : s.call p = none)
    (h : query s p r = some (s.setCall p (some c), .pending)) :
    run next s [.request p r, .commit p] =
      some (commitCall ((s.setCall p (some c)).setCall p none) p c).1 := by
  have hrequest : next s (.request p r) = some (s.setCall p (some c)) := by
    rw [next, step, if_pos hidle, h]
    rfl
  have hcall : (s.setCall p (some c)).call p = some c := if_pos rfl
  rw [run_cons]
  refine ⟨_, hrequest, ?_⟩
  rw [run_singleton, next, step, hcall]
  rfl

theorem eraseAll_singleton : eraseAll [n] locks = locks.erase n := by
  rw [eraseAll, Table.erase]
  congr 1
  funext l
  simp

theorem run_lock (hw : w.db.locks = s.locks) (hidle : s.call p = none)
    (h : (Locking.lock p n text lockedMsg false).Returns w () u) :
    RunsTo s p (.lock n (some text)) u := by
  obtain ⟨hheld, hfree, rfl⟩ := Locking.returns_lock.mp h
  rw [heldBy_eq hw] at hheld
  have hnone : (s.locks.find? n).isSome = false := by
    rw [← hw]
    simpa [Locking.isLocked] using hfree
  refine ⟨_, run_call hidle (c := .lock n (some text)) ?_, ?_⟩
  · rw [query, queryFree, hheld]
    rfl
  · rw [commitCall, insert]
    simp only [State.setCall, hnone, State.setLocks, Locking.putLock, hw, World.commit_db,
      World.mapDb_db]
    rfl

theorem run_updateLock (hw : w.db.locks = s.locks) (hidle : s.call p = none)
    (h : (Locking.updateLock p n text).Returns w () u) :
    RunsTo s p (.updateLock n (some text)) u := by
  obtain ⟨hheld, rfl⟩ := Locking.returns_updateLock.mp h
  rw [heldBy_eq hw] at hheld
  refine ⟨_, run_call hidle (c := .updateLock n (some text)) ?_, ?_⟩
  · rw [query, queryHeld, if_pos hheld]
  · have hown : ∀ m ∈ [n],
        holds ((s.setCall p (some (.updateLock n (some text)))).setCall p none).locks p m = true :=
      List.forall_mem_singleton.mpr hheld
    rw [commitCall, setReason, change_eq hown, Locking.putLock, World.commit_db, World.mapDb_db,
      hw]
    rfl

theorem run_unlock (hw : w.db.locks = s.locks) (hidle : s.call p = none)
    (h : (Locking.unlock p n).Returns w () u) : RunsTo s p (.unlock n) u := by
  obtain ⟨hheld, rfl⟩ := Locking.returns_unlock.mp h
  rw [heldBy_eq hw] at hheld
  refine ⟨_, run_call hidle (c := .unlock n) ?_, ?_⟩
  · rw [query, queryHeld, if_pos hheld]
  · have hown : ∀ m ∈ [n], holds ((s.setCall p (some (.unlock n))).setCall p none).locks
        p m = true := List.forall_mem_singleton.mpr hheld
    rw [commitCall, change_eq hown, Locking.eraseLock, World.commit_db, World.mapDb_db, hw,
      eraseAll_singleton]
    rfl

/-- A call of `Locking` that returns is its query and its commit with nothing between them. -/
theorem locking_runs (hw : w.db.locks = s.locks) (hidle : s.call p = none) :
    (∀ n text lockedMsg u, (Locking.lock p n text lockedMsg false).Returns w () u →
      RunsTo s p (.lock n (some text)) u) ∧
    (∀ n text u, (Locking.updateLock p n text).Returns w () u →
      RunsTo s p (.updateLock n (some text)) u) ∧
    ∀ n u, (Locking.unlock p n).Returns w () u → RunsTo s p (.unlock n) u :=
  ⟨fun _ _ _ _ h => run_lock hw hidle h, fun _ _ _ h => run_updateLock hw hidle h,
    fun _ _ h => run_unlock hw hidle h⟩

theorem locking_runs_example : ∃ w u : World Unit,
    (Locking.lock ⟨"host", "1"⟩ "cleanup" "Cleanup" none false).Returns w () u ∧
      u.db.locks.rows = [⟨"cleanup", ⟨"host", "1"⟩, "Cleanup"⟩] ∧
      RunsTo (State.start Table.empty) ⟨"host", "1"⟩ (.lock "cleanup" (some "Cleanup")) u := by
  have hlock : (Locking.lock ⟨"host", "1"⟩ "cleanup" "Cleanup" none false).Returns
      emptyWorld ()
      (Locking.putLock ⟨"cleanup", ⟨"host", "1"⟩, "Cleanup"⟩ emptyWorld) :=
    Locking.returns_lock.mpr ⟨rfl, .inr rfl, rfl⟩
  exact ⟨_, _, hlock, rfl, (locking_runs rfl rfl).1 _ _ _ _ hlock⟩

end Alone

/-! ### The bodies of `with_lock` -/

/-- The names that the call gives up. -/
def Call.released : Call → List String
  | unlock n => [n]
  | leave n => [n]
  | unlockAll ns => ns
  | lock _ _ => []
  | enter _ _ _ => []
  | updateLock _ _ => []

/-- A process does not release the lock of a body that it is in, other than by leaving it. -/
def KeepsOwn (s : State) : Event → Prop
  | .request p (.unlock n) => n ∉ (s.bodies p).map Body.lockName
  | .request p .unlockAll => s.bodies p = []
  | _ => True

instance (s : State) (e : Event) : Decidable (KeepsOwn s e) := by
  unfold KeepsOwn
  split <;> infer_instance

/-- Whoever is in a body holds its lock, and is not about to release it. -/
structure Bodies (s : State) : Prop where
  held : ∀ p, ∀ b ∈ s.bodies p, holds s.locks p b.lockName = true
  nodup : ∀ p, ((s.bodies p).map Body.lockName).Nodup
  kept : ∀ p c, s.call p = some c → ∀ b ∈ s.bodies p, b.lockName ∉ c.released

theorem bodies_start (locks : Locks) : Bodies (State.start locks) where
  held _ _ hb := absurd hb List.not_mem_nil
  nodup _ := List.nodup_nil
  kept _ _ hc := by cases hc

theorem queryFree_call (h : queryFree s p n c = (t, o)) : t.bodies = s.bodies ∧
    ∀ c', t.call p = some c' → s.call p = some c' ∨ c' = c := by
  unfold queryFree at h
  split at h
  · obtain ⟨rfl, rfl⟩ := Prod.mk.inj h
    exact ⟨rfl, fun _ hc => .inl hc⟩
  · obtain ⟨rfl, rfl⟩ := Prod.mk.inj h
    refine ⟨rfl, ?_⟩
    intro c' hc'
    have heq : c = c' := by simpa [State.setCall] using hc'
    exact .inr heq.symm

theorem queryHeld_call (h : queryHeld s p n c = (t, o)) : t.bodies = s.bodies ∧
    ∀ c', t.call p = some c' → s.call p = some c' ∨ c' = c := by
  unfold queryHeld at h
  split at h
  · obtain ⟨rfl, rfl⟩ := Prod.mk.inj h
    refine ⟨rfl, ?_⟩
    intro c' hc'
    have heq : c = c' := by simpa [State.setCall] using hc'
    exact .inr heq.symm
  · obtain ⟨rfl, rfl⟩ := Prod.mk.inj h
    exact ⟨rfl, fun _ hc => .inl hc⟩

/-- A query may end a body, and begins no release of the lock of another one. -/
theorem query_bodies {r : Request} (hs : Bodies s) (hidle : s.call p = none)
    (hok : KeepsOwn s (.request p r)) (h : query s p r = some (t, o)) :
    (t.bodies p).Sublist (s.bodies p) ∧
      ∀ c, t.call p = some c → ∀ b ∈ t.bodies p, b.lockName ∉ c.released := by
  have hcall {n : String} {c c' : Call} (hc : s.call p = some c' ∨ c' = c) : c' = c := by
    rw [hidle] at hc
    simpa using hc
  cases r with
  | lock n reason =>
    obtain ⟨hbodies, hc⟩ := queryFree_call (Option.some.inj h)
    refine ⟨by rw [hbodies], ?_⟩
    intro c' hc' b _
    rw [@hcall n _ _ (hc c' hc')]
    exact List.not_mem_nil
  | enter n reason unlock =>
    obtain ⟨hbodies, hc⟩ := queryFree_call (Option.some.inj h)
    refine ⟨by rw [hbodies], ?_⟩
    intro c' hc' b _
    rw [@hcall n _ _ (hc c' hc')]
    exact List.not_mem_nil
  | updateLock n reason =>
    obtain ⟨hbodies, hc⟩ := queryHeld_call (Option.some.inj h)
    refine ⟨by rw [hbodies], ?_⟩
    intro c' hc' b _
    rw [@hcall n _ _ (hc c' hc')]
    exact List.not_mem_nil
  | unlock n =>
    obtain ⟨hbodies, hc⟩ := queryHeld_call (Option.some.inj h)
    refine ⟨by rw [hbodies], ?_⟩
    intro c' hc' b hb
    rw [@hcall n _ _ (hc c' hc'), Call.released, List.mem_singleton]
    rintro rfl
    rw [hbodies] at hb
    exact hok (List.mem_map_of_mem hb)
  | unlockAll =>
    obtain ⟨rfl, rfl⟩ := Prod.mk.inj (Option.some.inj h)
    refine ⟨.refl _, ?_⟩
    intro c' hc' b hb
    have hnil : s.bodies p = [] := hok
    have hmem : b ∈ s.bodies p := hb
    rw [hnil] at hmem
    exact absurd hmem List.not_mem_nil
  | leave raised =>
    simp only [query] at h
    cases hb : s.bodies p with
    | nil => simp [hb] at h
    | cons b rest =>
      simp only [hb, Option.some.injEq] at h
      have hpop : (s.setBodies p rest).bodies p = rest := if_pos rfl
      have hnodup := hs.nodup p
      rw [hb, List.map_cons, List.nodup_cons] at hnodup
      split at h
      · obtain ⟨hbodies, hc⟩ := queryHeld_call h
        rw [hbodies, hpop]
        refine ⟨List.sublist_cons_self b rest, ?_⟩
        intro c' hc' b' hb'
        rw [@hcall b.lockName _ _ (hc c' hc'), Call.released, List.mem_singleton]
        intro heq
        exact hnodup.1 (heq ▸ List.mem_map_of_mem hb')
      · obtain ⟨rfl, rfl⟩ := Prod.mk.inj h
        rw [hpop]
        refine ⟨List.sublist_cons_self b rest, ?_⟩
        intro c' hc'
        have hnone : s.call p = some c' := hc'
        rw [hidle] at hnone
        cases hnone

theorem holds_put_of_holds (h : holds locks p m = true) :
    holds (locks.put ⟨n, p, text⟩) p m = true := by
  rw [holds_put]
  split
  · exact decide_eq_true rfl
  · exact h

/-- The commit of a call keeps the locks of the bodies that the call gives nothing up of; a lock
that is taken for a body was free before. -/
theorem commitCall_bodies (hheld : ∀ b ∈ s.bodies p, holds s.locks p b.lockName = true)
    (hnodup : ((s.bodies p).map Body.lockName).Nodup)
    (hkept : ∀ b ∈ s.bodies p, b.lockName ∉ c.released)
    (hfound : ∀ n ∈ c.found, holds s.locks p n = true) (h : commitCall s p c = (t, o)) :
    (∀ b ∈ t.bodies p, holds t.locks p b.lockName = true) ∧
      ((t.bodies p).map Body.lockName).Nodup := by
  have herase {ns : List String} (hns : ∀ b ∈ s.bodies p, b.lockName ∉ ns) :
      ∀ b ∈ s.bodies p, holds (eraseAll ns s.locks) p b.lockName = true := by
    intro b hb
    rw [holds_eraseAll (hns b hb)]
    exact hheld b hb
  cases c with
  | lock n reason =>
    obtain ⟨rfl, rfl⟩ | ⟨rfl, hnone, text, rfl⟩ := insert_cases h
    · exact ⟨hheld, hnodup⟩
    · exact ⟨fun b hb => holds_put_of_holds (hheld b hb), hnodup⟩
  | enter n reason unlock =>
    obtain ⟨s', o', hinsert⟩ : ∃ s' o', insert s p n reason = (s', o') := ⟨_, _, rfl⟩
    simp only [commitCall, hinsert] at h
    obtain ⟨rfl, rfl⟩ | ⟨rfl, hnone, text, rfl⟩ := insert_cases hinsert
    · rw [if_neg (by decide)] at h
      obtain ⟨rfl, -⟩ := Prod.mk.inj h
      exact ⟨hheld, hnodup⟩
    · rw [if_pos rfl] at h
      obtain ⟨rfl, -⟩ := Prod.mk.inj h
      have hbodies : ((s.setLocks (s.locks.put ⟨n, p, text⟩)).setBodies p
          (⟨n, unlock⟩ :: (s.setLocks (s.locks.put ⟨n, p, text⟩)).bodies p)).bodies p =
            ⟨n, unlock⟩ :: s.bodies p := if_pos rfl
      have hlocks : ((s.setLocks (s.locks.put ⟨n, p, text⟩)).setBodies p
          (⟨n, unlock⟩ :: (s.setLocks (s.locks.put ⟨n, p, text⟩)).bodies p)).locks =
            s.locks.put ⟨n, p, text⟩ := rfl
      rw [hbodies, hlocks]
      constructor
      · intro b hb
        cases List.mem_cons.mp hb with
        | inl hnew =>
          rw [hnew, holds_put, if_pos rfl]
          exact decide_eq_true rfl
        | inr hold => exact holds_put_of_holds (hheld b hold)
      · rw [List.map_cons, List.nodup_cons]
        refine ⟨?_, hnodup⟩
        intro hmem
        obtain ⟨b, hb, hname⟩ := List.mem_map.mp hmem
        have hholds := hheld b hb
        have hfree : holds s.locks p n = false := by rw [holds, hnone]; rfl
        rw [hname] at hholds
        exact absurd (hholds.symm.trans hfree) (by simp)
  | updateLock n reason =>
    obtain ⟨rfl, rfl⟩ | ⟨rfl, text, rfl⟩ := setReason_cases hfound h
    · exact ⟨hheld, hnodup⟩
    · exact ⟨fun b hb => holds_put_of_holds (hheld b hb), hnodup⟩
  | unlock n =>
    have hown : ∀ m ∈ [n], holds s.locks p m = true := hfound
    rw [commitCall, change_eq hown] at h
    obtain ⟨rfl, rfl⟩ := Prod.mk.inj h
    exact ⟨herase hkept, hnodup⟩
  | leave n =>
    have hown : ∀ m ∈ [n], holds s.locks p m = true := hfound
    rw [commitCall, change_eq hown] at h
    obtain ⟨rfl, rfl⟩ := Prod.mk.inj h
    exact ⟨herase hkept, hnodup⟩
  | unlockAll ns =>
    have hown : ∀ m ∈ ns, holds s.locks p m = true := hfound
    rw [commitCall, change_eq hown] at h
    obtain ⟨rfl, rfl⟩ := Prod.mk.inj h
    exact ⟨herase hkept, hnodup⟩

theorem step_bodies (hi : Inv s) (hs : Bodies s) (hok : KeepsOwn s e)
    (h : step s e = some (t, o)) : Bodies t := by
  have hguarded := step_guarded hi h
  have hother {q : Process} (hq : q ≠ e.process) : t.call q = s.call q ∧ t.bodies q = s.bodies q :=
    step_frame h hq
  -- Only the process that takes the step has other bodies or another call afterwards.
  have hown : (∀ b ∈ t.bodies e.process, holds t.locks e.process b.lockName = true) ∧
      ((t.bodies e.process).map Body.lockName).Nodup ∧
      ∀ c, t.call e.process = some c → ∀ b ∈ t.bodies e.process, b.lockName ∉ c.released := by
    cases e with
    | request p r =>
      rw [step, Option.ite_none_right_eq_some] at h
      obtain ⟨hidle, hquery⟩ := h
      obtain ⟨hsub, hkept⟩ := query_bodies hs hidle hok hquery
      refine ⟨?_, (hs.nodup p).sublist (hsub.map _), hkept⟩
      intro b hb
      rw [(query_queried hquery).locks]
      exact hs.held p b (hsub.subset hb)
    | commit p =>
      obtain ⟨c, hc, hcommit⟩ := Option.map_eq_some_iff.mp h
      obtain ⟨hheld, hnodup⟩ := @commitCall_bodies (s.setCall p none) t p o c (hs.held p)
        (hs.nodup p) (hs.kept p c hc) (hi p c hc) hcommit
      refine ⟨hheld, hnodup, ?_⟩
      intro c' hc'
      have hnone : t.call p = none := by
        rw [(commitCall_frame hcommit).1]
        exact if_pos rfl
      exact absurd (hnone.symm.trans hc') (by simp)
  constructor
  · intro q b hb
    by_cases hq : q = e.process
    · subst hq
      exact hown.1 b hb
    · rw [(hother hq).2] at hb
      rw [holds_congr hguarded.others hq]
      exact hs.held q b hb
  · intro q
    by_cases hq : q = e.process
    · subst hq
      exact hown.2.1
    · rw [(hother hq).2]
      exact hs.nodup q
  · intro q c hc b hb
    by_cases hq : q = e.process
    · subst hq
      exact hown.2.2 c hc b hb
    · rw [(hother hq).1] at hc
      rw [(hother hq).2] at hb
      exact hs.kept q c hc b hb

/-! ### Mutual exclusion -/

def OneHolder (s : State) : Prop :=
  ∀ l ∈ s.locks, ∀ k ∈ s.locks, l.lockName = k.lockName → l = k

/-- No two bodies under one lock, neither of two processes nor of one. -/
def BodiesApart (s : State) : Prop :=
  (∀ p q, ∀ a ∈ s.bodies p, ∀ b ∈ s.bodies q, a.lockName = b.lockName → p = q) ∧
    ∀ p, ((s.bodies p).map Body.lockName).Nodup

/-- A body that is left with its lock to be released: the release is under way, or the lock was
gone before; and the release takes this one row out. -/
structure Leaves (s : State) (e : Event) (t : State) (o : Outcome) : Prop where
  asked : ∀ p raised b rest, e = .request p (.leave raised) → s.bodies p = b :: rest →
    t.bodies p = rest ∧ (raised = true ∨ b.unlock = true →
      o = .pending ∧ t.call p = some (.leave b.lockName) ∨
        o = .internalError ∧ holds t.locks p b.lockName = false)
  released : ∀ p n, e = .commit p → s.call p = some (.leave n) → o = .returned ∧
    holds s.locks p n = true ∧ ∀ l, l ∈ t.locks ↔ l ∈ s.locks ∧ l.lockName ≠ n

theorem step_leaves (hs : Inv s) (h : step s e = some (t, o)) : Leaves s e t o := by
  constructor
  · rintro p raised b rest rfl hb
    rw [step, Option.ite_none_right_eq_some] at h
    obtain ⟨-, hquery⟩ := h
    simp only [query, hb, Option.some.injEq] at hquery
    have hpop : (s.setBodies p rest).bodies p = rest := if_pos rfl
    split at hquery
    · refine ⟨by rw [(queryHeld_call hquery).1, hpop], fun _ => ?_⟩
      unfold queryHeld at hquery
      split at hquery
      · obtain ⟨rfl, rfl⟩ := Prod.mk.inj hquery
        exact .inl ⟨rfl, if_pos rfl⟩
      · rename_i hheld
        obtain ⟨rfl, rfl⟩ := Prod.mk.inj hquery
        exact .inr ⟨rfl, by simpa using hheld⟩
    · rename_i hno
      obtain ⟨rfl, rfl⟩ := Prod.mk.inj hquery
      refine ⟨hpop, ?_⟩
      intro hyes
      exact absurd hyes (by simpa using hno)
  · rintro p n rfl hc
    obtain ⟨c, hc', hcommit⟩ := Option.map_eq_some_iff.mp h
    obtain rfl := Option.some.inj (hc.symm.trans hc')
    have hown : ∀ m ∈ [n], holds (s.setCall p none).locks p m = true := hs p _ hc
    rw [commitCall, change_eq hown] at hcommit
    obtain ⟨rfl, rfl⟩ := Prod.mk.inj hcommit
    refine ⟨rfl, hown n List.mem_cons_self, ?_⟩
    intro l
    simp only [State.setLocks, mem_eraseAll, List.mem_singleton]
    exact Iff.rfl

/-- Whatever the interleaving: a lock has one holder, only the holder changes its row, a call that
fails changes nothing, a body that is left takes its own lock out; and bodies under one lock do
not overlap as long as none of them releases its lock itself. -/
theorem locks_exclude {locks : Locks} {s : State} (h : Reaches next (State.start locks) s) :
    OneHolder s ∧ (Steps next KeepsOwn (State.start locks) s → BodiesApart s) ∧
      ∀ e t o, step s e = some (t, o) → Guarded s e.process t o ∧ Leaves s e t o := by
  have hinv := inv_of_reaches h
  refine ⟨fun l hl k hk hname => Table.eq_of_key_eq hl hk hname, ?_, ?_⟩
  · intro hkeeps
    have hboth : Inv s ∧ Bodies s := by
      apply hkeeps.invariant (I := fun s => Inv s ∧ Bodies s)
        ⟨inv_start locks, bodies_start locks⟩
      rintro s e t ⟨hs, hbodies⟩ hok hstep
      obtain ⟨⟨t', o⟩, hx, rfl⟩ := Option.map_eq_some_iff.mp hstep
      exact ⟨step_inv hs hx, step_bodies hs hbodies hok hx⟩
    refine ⟨?_, hboth.2.nodup⟩
    intro p q a ha b hb hname
    have hp := hboth.2.held p a ha
    rw [hname] at hp
    exact holds_unique hp (hboth.2.held q b hb)
  · intro e t o hstep
    exact ⟨step_guarded hinv hstep, step_leaves hinv hstep⟩

def firstProcess : Process := ⟨"host", "1"⟩

def secondProcess : Process := ⟨"host", "2"⟩

/-- Two processes go for one lock, and the second one gets it when the first one has left it. -/
def takesTurns : List Event :=
  [.request firstProcess (.enter "cleanup" (some "Cleanup") true),
    .request secondProcess (.enter "cleanup" (some "Cleanup") true), .commit firstProcess,
    .commit secondProcess, .request secondProcess (.enter "storage" (some "Removing") true),
    .commit secondProcess, .request secondProcess (.updateLock "storage" none),
    .request firstProcess (.leave true), .commit secondProcess, .commit firstProcess,
    .request secondProcess (.enter "cleanup" (some "Cleanup") true), .commit secondProcess,
    .request firstProcess (.enter "backup" (some "Backup") false), .commit firstProcess]

theorem locks_exclude_example : ∃ s,
    s.bodies firstProcess = [⟨"backup", false⟩] ∧
      s.bodies secondProcess = [⟨"cleanup", true⟩, ⟨"storage", true⟩] ∧
      OneHolder s ∧ BodiesApart s ∧
      ∀ e t o, step s e = some (t, o) → Guarded s e.process t o ∧ Leaves s e t o := by
  have hrun : (runIf next KeepsOwn (State.start Table.empty) takesTurns).any
      (fun s => s.bodies firstProcess = [⟨"backup", false⟩] ∧
        s.bodies secondProcess = [⟨"cleanup", true⟩, ⟨"storage", true⟩]) = true := by
    decide +kernel
  obtain ⟨s, hs, hbodies⟩ := exists_steps_of_runIf hrun
  obtain ⟨hfirst, hsecond⟩ := of_decide_eq_true hbodies
  obtain ⟨hholder, happart, hsteps⟩ := locks_exclude hs.reaches
  exact ⟨s, hfirst, hsecond, hholder, happart hs, hsteps⟩

/-- A body that releases its lock lets another one in. -/
theorem released_bodies_overlap :
    ¬ ∀ (locks : Locks) (s : State), Reaches next (State.start locks) s → BodiesApart s := by
  intro h
  have hrun : (run next (State.start Table.empty)
      [.request firstProcess (.enter "cleanup" (some "") true), .commit firstProcess,
        .request firstProcess .unlockAll, .commit firstProcess,
        .request secondProcess (.enter "cleanup" (some "") true), .commit secondProcess]).any
      (fun s => s.bodies firstProcess = [⟨"cleanup", true⟩] ∧
        s.bodies secondProcess = [⟨"cleanup", true⟩]) = true := by
    decide +kernel
  obtain ⟨s, hs, hbodies⟩ := exists_reaches_of_run hrun
  obtain ⟨hfirst, hsecond⟩ := of_decide_eq_true hbodies
  have hsame := (h _ s hs).1 firstProcess secondProcess ⟨"cleanup", true⟩
    (by rw [hfirst]; exact List.mem_cons_self) ⟨"cleanup", true⟩
    (by rw [hsecond]; exact List.mem_cons_self) rfl
  exact absurd hsame (by decide)

end Benji.LockTable
