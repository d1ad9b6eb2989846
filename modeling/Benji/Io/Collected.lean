import Benji.Io.JobExecutor
import Mathlib.Data.List.Nodup

/-! `JobExecutor` yields every outcome once and keeps its bounds: the slots of the semaphore that
are taken are those of the jobs that hold one. -/
namespace Benji
open Lib

variable {α : Type}

theorem countP_set_add {β : Type} {p : β → Bool} {l : List β} {i : ℕ} {a b : β}
    (h : l[i]? = some a) :
    (l.set i b).countP p + (if p a then 1 else 0) = l.countP p + (if p b then 1 else 0) := by
  obtain ⟨hlt, ha⟩ := List.getElem?_eq_some_iff.mp h
  have hle := List.boole_getElem_le_countP (p := p) hlt
  rw [List.countP_set hlt]
  rw [ha] at hle ⊢
  omega

namespace JobExecutor

variable {c : Config} {s t : JobExecutor α} {i : ℕ}

/-- The jobs that hold a slot of the semaphore. -/
def Config.holds (c : Config) : Stage α → Bool :=
  if c.blockingSubmit then Stage.isQueuedOrRunning else Stage.isRunningOrFinished

structure Inv (c : Config) (s : JobExecutor α) : Prop where
  slots : s.semaphore + s.jobs.countP c.holds = c.limit
  counts : s.semaphore + s.acquired = s.released + c.limit
  futures : ∀ i, i ∈ s.futures ↔ ∃ stage, s.jobs[i]? = some stage ∧ stage.isCollected = false
  nodup : s.futures.Nodup
  yielded : ∀ i result, (i, result) ∈ s.yielded ↔ s.jobs[i]? = some (.collected result)
  once : (s.yielded.map Prod.fst).Nodup
  pending : ∀ it, s.iteration = some it → it.futures.Nodup ∧ it.futures ⊆ s.futures
  seen : ∀ it, s.iteration = some it → it.submitted ≤ s.jobs.length ∧
    ∀ i < it.submitted, i ∉ it.futures → ∃ result, s.jobs[i]? = some (.collected result)
  faults : s.faults = 0

theorem inv_init : (init c : JobExecutor α).Inv c where
  slots := rfl
  counts := Nat.add_zero _ |>.trans (Nat.zero_add _).symm
  futures i := by simp [init]
  nodup := .nil
  yielded i result := by simp [init]
  once := .nil
  pending _ hit := by cases hit
  seen _ hit := by cases hit
  faults := rfl

/-- A job that is not collected moves on, with the slots it takes or gives back. -/
theorem Inv.move {a b : Stage α} {semaphore acquired released : ℕ} (h : s.Inv c)
    (ha : s.jobs[i]? = some a) (hca : a.isCollected = false) (hcb : b.isCollected = false)
    (hslots : semaphore + (if c.holds b then 1 else 0) =
      s.semaphore + (if c.holds a then 1 else 0))
    (hcounts : semaphore + acquired = released + c.limit) :
    ({ s with jobs := s.jobs.set i b, semaphore, acquired, released } : JobExecutor α).Inv c := by
  have hlt := (List.getElem?_eq_some_iff.mp ha).1
  have hcollected (j : ℕ) (result : Except String α) :
      (s.jobs.set i b)[j]? = some (.collected result) ↔
        s.jobs[j]? = some (.collected result) := by
    by_cases hij : i = j
    · rw [← hij, List.getElem?_set_self hlt, ha, Option.some_inj, Option.some_inj]
      constructor
      · intro hb
        rw [hb] at hcb
        cases hcb
      · intro hb
        rw [hb] at hca
        cases hca
    · rw [List.getElem?_set_ne hij]
  refine { h with
    slots := ?_, counts := hcounts, futures := ?_, yielded := ?_, seen := ?_ }
  · have hcount := countP_set_add (p := c.holds) (b := b) ha
    have hold := h.slots
    show semaphore + (s.jobs.set i b).countP c.holds = c.limit
    omega
  · intro j
    rw [h.futures j]
    show _ ↔ ∃ stage, (s.jobs.set i b)[j]? = some stage ∧ _
    by_cases hij : i = j
    · rw [← hij, List.getElem?_set_self hlt, ha]
      exact ⟨fun _ => ⟨b, rfl, hcb⟩, fun _ => ⟨a, rfl, hca⟩⟩
    · rw [List.getElem?_set_ne hij]
  · intro j result
    rw [h.yielded j result]
    exact (hcollected j result).symm
  · intro it hit
    obtain ⟨hle, hseen⟩ := h.seen it hit
    refine ⟨?_, fun j hj hmem => ?_⟩
    · show it.submitted ≤ (s.jobs.set i b).length
      rw [List.length_set]
      exact hle
    · obtain ⟨result, hresult⟩ := hseen j hj hmem
      exact ⟨result, (hcollected j result).mpr hresult⟩

theorem holds_le_slots {a : Stage α} (h : s.Inv c) (ha : s.jobs[i]? = some a)
    (hholds : c.holds a = true) : s.semaphore + 1 ≤ c.limit := by
  have hpos : 0 < s.jobs.countP c.holds :=
    List.countP_pos_iff.mpr ⟨a, List.mem_of_getElem? ha, hholds⟩
  have hslots := h.slots
  omega

theorem Inv.move_release {a b : Stage α} (h : s.Inv c) (ha : s.jobs[i]? = some a)
    (hca : a.isCollected = false) (hcb : b.isCollected = false) (hholds : c.holds a = true)
    (hfree : c.holds b = false) : ((s.setStage i b).release c).Inv c := by
  have hle := holds_le_slots h ha hholds
  have hcounts := h.counts
  have hlt : (s.setStage i b).semaphore < c.limit := by
    show s.semaphore < c.limit
    omega
  unfold release
  rw [if_pos hlt]
  refine h.move ha hca hcb ?_ ?_
  · rw [hholds, hfree]
    rfl
  · show s.semaphore + 1 + s.acquired = s.released + 1 + c.limit
    omega

theorem Inv.move_acquire {a b : Stage α} {u : JobExecutor α} (h : s.Inv c)
    (ha : s.jobs[i]? = some a) (hca : a.isCollected = false) (hcb : b.isCollected = false)
    (hfree : c.holds a = false) (hholds : c.holds b = true) (hu : s.acquire = some u) :
    (u.setStage i b).Inv c := by
  obtain ⟨hpos, heq⟩ := Option.ite_none_left_eq_some.mp hu
  rw [← Option.some.inj heq]
  have hcounts := h.counts
  refine h.move ha hca hcb ?_ ?_
  · rw [hholds, hfree]
    show s.semaphore - 1 + 1 = s.semaphore + 0
    omega
  · show s.semaphore - 1 + (s.acquired + 1) = s.released + c.limit
    omega

theorem Inv.move_keep {a b : Stage α} (h : s.Inv c) (ha : s.jobs[i]? = some a)
    (hca : a.isCollected = false) (hcb : b.isCollected = false) (hholds : c.holds b = c.holds a) :
    (s.setStage i b).Inv c :=
  h.move ha hca hcb (by rw [hholds]) h.counts

theorem getElem?_enqueue {stage : Stage α} (hstage : stage.isQueued = false) (j : ℕ) :
    (s.jobs ++ [Stage.queued])[j]? = some stage ↔ s.jobs[j]? = some stage := by
  have hne : (.queued : Stage α) ≠ stage := by
    intro heq
    rw [← heq] at hstage
    cases hstage
  rw [List.getElem?_append]
  split
  · exact Iff.rfl
  · next hle =>
    rw [List.getElem?_eq_none (by omega : s.jobs.length ≤ j), List.getElem?_singleton]
    split <;> simp [hne]

theorem Inv.enqueue {semaphore acquired : ℕ} (h : s.Inv c)
    (hslots : semaphore + (if c.blockingSubmit then 1 else 0) = s.semaphore)
    (hcounts : semaphore + acquired = s.released + c.limit) :
    ({ s with semaphore, acquired } : JobExecutor α).enqueue.Inv c := by
  refine { h with
    slots := ?_, counts := hcounts, futures := ?_, nodup := ?_, yielded := ?_, pending := ?_
    seen := ?_ }
  · show semaphore + (s.jobs ++ [Stage.queued]).countP c.holds = c.limit
    have hold := h.slots
    have hqueued : c.holds (.queued : Stage α) = c.blockingSubmit := by
      unfold Config.holds
      cases c.blockingSubmit <;> rfl
    rw [List.countP_append, List.countP_singleton, hqueued]
    omega
  · intro j
    show j ∈ s.futures ++ [s.jobs.length] ↔ ∃ stage, (s.jobs ++ [Stage.queued])[j]? = some stage ∧ _
    rw [List.mem_append, List.mem_singleton, h.futures j, List.getElem?_append]
    split
    next hlt =>
      constructor
      · intro hj
        cases hj with
        | inl hj => exact hj
        | inr heq => omega
      · intro hj
        exact .inl hj
    next hle =>
      rw [List.getElem?_eq_none (by omega : s.jobs.length ≤ j), List.getElem?_singleton]
      constructor
      · intro hj
        cases hj with
        | inl hj =>
          obtain ⟨_, hnone, _⟩ := hj
          cases hnone
        | inr heq => exact ⟨Stage.queued, by rw [if_pos (by omega)], rfl⟩
      · rintro ⟨stage, hstage, -⟩
        obtain ⟨hzero, -⟩ := Option.ite_none_right_eq_some.mp hstage
        exact .inr (by omega)
  · show (s.futures ++ [s.jobs.length]).Nodup
    rw [List.nodup_append]
    refine ⟨h.nodup, List.nodup_singleton _, fun j hj k hk heq => ?_⟩
    obtain ⟨stage, hstage, -⟩ := (h.futures j).mp hj
    have hlt := (List.getElem?_eq_some_iff.mp hstage).1
    rw [List.mem_singleton] at hk
    omega
  · intro j result
    exact (h.yielded j result).trans (getElem?_enqueue rfl j).symm
  · intro it hit
    obtain ⟨hnodup, hsub⟩ := h.pending it hit
    exact ⟨hnodup, List.Subset.trans hsub (List.subset_append_left _ _)⟩
  · intro it hit
    obtain ⟨hle, hseen⟩ := h.seen it hit
    refine ⟨?_, fun j hj hmem => ?_⟩
    · show it.submitted ≤ (s.jobs ++ [Stage.queued]).length
      rw [List.length_append]
      omega
    · obtain ⟨result, hresult⟩ := hseen j hj hmem
      exact ⟨result, (getElem?_enqueue rfl j).mpr hresult⟩

theorem Inv.submit (h : s.Inv c) (ht : s.submit c = some t) : t.Inv c := by
  have hcounts := h.counts
  unfold JobExecutor.submit at ht
  split at ht
  next hblocking =>
    obtain ⟨u, hu, heq⟩ := Option.map_eq_some_iff.mp ht
    obtain ⟨hpos, hacquire⟩ := Option.ite_none_left_eq_some.mp hu
    rw [← heq, ← Option.some.inj hacquire]
    refine h.enqueue ?_ ?_
    · rw [if_pos hblocking]
      omega
    · omega
  next hblocking =>
    rw [← Option.some.inj ht]
    refine h.enqueue ?_ hcounts
    rw [if_neg hblocking]
    rfl

theorem Inv.start (h : s.Inv c) (ht : s.start c i = some t) : t.Inv c := by
  unfold JobExecutor.start at ht
  split at ht
  next hjob =>
    obtain ⟨-, heq⟩ := Option.ite_none_right_eq_some.mp ht
    rw [← Option.some.inj heq]
    cases hb : c.blockingSubmit with
    | true => exact h.move_keep hjob rfl rfl (by rw [Config.holds, hb]; rfl)
    | false => exact h.move_keep hjob rfl rfl (by rw [Config.holds, hb]; rfl)
  · cases ht

theorem Inv.complete {result : Except String α} (h : s.Inv c)
    (ht : s.complete c i result = some t) : t.Inv c := by
  unfold JobExecutor.complete at ht
  split at ht
  next hjob =>
    rw [← Option.some.inj ht]
    cases hb : c.blockingSubmit with
    | true =>
      refine h.move_release hjob rfl rfl ?_ ?_
      · rw [Config.holds, hb]
        rfl
      · rw [Config.holds, hb]
        rfl
    | false => exact h.move_keep hjob rfl rfl (by rw [Config.holds, hb]; rfl)
  · cases ht

/-- Collecting a finished job takes it out of `_futures` and gives its slot back. -/
theorem Inv.collect {it : Iteration} {result : Except String α} (h : s.Inv c)
    (hit : s.iteration = some it) (hjob : s.jobs[i]? = some (.finished result))
    (hi : i ∈ it.futures) : (s.collect c it i result).Inv c := by
  have hlt := (List.getElem?_eq_some_iff.mp hjob).1
  obtain ⟨hnodup, hsub⟩ := h.pending it hit
  have hmem : i ∈ s.futures := hsub hi
  have hother {j : ℕ} (hij : i ≠ j) :
      (s.jobs.set i (.collected result))[j]? = s.jobs[j]? := List.getElem?_set_ne hij
  have hself : (s.jobs.set i (.collected result))[i]? = some (.collected result) :=
    List.getElem?_set_self hlt
  have hcount := countP_set_add (p := c.holds) (b := .collected result) hjob
  have hfree : c.holds (.collected result) = false := by
    unfold Config.holds
    cases c.blockingSubmit <;> rfl
  have hfinished : c.holds (.finished result) = !c.blockingSubmit := by
    unfold Config.holds
    cases c.blockingSubmit <;> rfl
  have hslots := h.slots
  have hcounts := h.counts
  have hinv {semaphore released : ℕ}
      (hsem : semaphore = s.semaphore + if c.blockingSubmit then 0 else 1)
      (hrel : semaphore + s.acquired = released + c.limit) :
      ({ s with
        futures := s.futures.erase i
        iteration := some { it with futures := it.futures.erase i, waiting := false }
        yielded := s.yielded ++ [(i, result)]
        jobs := s.jobs.set i (.collected result), semaphore, released } : JobExecutor α).Inv c := by
    refine {
      slots := ?_, counts := hrel, futures := ?_, nodup := h.nodup.erase i, yielded := ?_
      once := ?_, pending := ?_, seen := ?_, faults := h.faults }
    · show semaphore + (s.jobs.set i (.collected result)).countP c.holds = c.limit
      rw [hfree, hfinished] at hcount
      cases hb : c.blockingSubmit with
      | true =>
        rw [hb] at hcount hsem
        simp only [Bool.not_true, Bool.false_eq_true, if_false, if_true] at hcount hsem
        omega
      | false =>
        rw [hb] at hcount hsem
        simp only [Bool.not_false, Bool.false_eq_true, if_false, if_true] at hcount hsem
        omega
    · intro j
      show j ∈ s.futures.erase i ↔ ∃ stage, (s.jobs.set i _)[j]? = some stage ∧ _
      rw [h.nodup.mem_erase_iff, h.futures j]
      by_cases hij : i = j
      · rw [← hij, hself]
        constructor
        · intro hne
          exact absurd rfl hne.1
        · rintro ⟨_, ⟨⟩, hstage⟩
          cases hstage
      · rw [hother hij]
        exact ⟨fun hj => hj.2, fun hj => ⟨fun heq => hij heq.symm, hj⟩⟩
    · intro j result'
      show (j, result') ∈ s.yielded ++ [(i, result)] ↔ (s.jobs.set i _)[j]? = _
      rw [List.mem_append, List.mem_singleton, h.yielded j result', Prod.mk.injEq]
      by_cases hij : i = j
      · rw [← hij, hself, hjob]
        simp [eq_comm]
      · rw [hother hij]
        exact ⟨fun hj => hj.elim id fun heq => absurd heq.1.symm hij, .inl⟩
    · show ((s.yielded ++ [(i, result)]).map Prod.fst).Nodup
      rw [List.map_append, List.map_singleton, List.nodup_append]
      refine ⟨h.once, List.nodup_singleton _, fun j hj k hk heq => ?_⟩
      rw [List.mem_singleton] at hk
      obtain ⟨⟨j', result'⟩, hp, hfst⟩ := List.mem_map.mp hj
      have hcollected := (h.yielded j' result').mp hp
      have hji : j' = i := hfst.trans (heq.trans hk)
      rw [hji, hjob] at hcollected
      cases hcollected
    · rintro _ ⟨⟩
      refine ⟨hnodup.erase i, fun j hj => ?_⟩
      obtain ⟨hne, hj⟩ := (hnodup.mem_erase_iff).mp hj
      exact (h.nodup.mem_erase_iff).mpr ⟨hne, hsub hj⟩
    · rintro _ ⟨⟩
      obtain ⟨hle, hseen⟩ := h.seen it hit
      refine ⟨?_, fun j hj hmem => ?_⟩
      · show it.submitted ≤ (s.jobs.set i _).length
        rw [List.length_set]
        exact hle
      · by_cases hij : i = j
        · exact ⟨result, hij ▸ hself⟩
        · obtain ⟨result', hresult⟩ := hseen j hj fun hj =>
            hmem ((hnodup.mem_erase_iff).mpr ⟨fun heq => hij heq.symm, hj⟩)
          exact ⟨result', (hother hij).trans hresult⟩
  unfold JobExecutor.collect
  rw [if_pos hmem]
  cases hb : c.blockingSubmit with
  | true => exact hinv (by rw [hb]; rfl) hcounts
  | false =>
    have hle := holds_le_slots h hjob (by rw [hfinished, hb]; rfl)
    have hlt : s.semaphore < c.limit := by omega
    unfold release setStage
    dsimp only
    rw [if_neg Bool.false_ne_true, if_pos hlt]
    exact hinv (by rw [hb]; rfl) (by omega)

/-- Only the main thread's place in its iteration changes. -/
theorem Inv.setIteration {it it' : Iteration} (h : s.Inv c) (hit : s.iteration = some it)
    (hfutures : it'.futures = it.futures) (hsubmitted : it'.submitted = it.submitted) :
    ({ s with iteration := some it' } : JobExecutor α).Inv c := by
  refine { h with pending := ?_, seen := ?_ }
  · rintro _ ⟨⟩
    rw [hfutures]
    exact h.pending it hit
  · rintro _ ⟨⟩
    rw [hfutures, hsubmitted]
    exact h.seen it hit

theorem Inv.endIteration (h : s.Inv c) : ({ s with iteration := none } : JobExecutor α).Inv c :=
  { h with
    pending := fun _ hit => (by cases hit)
    seen := fun _ hit => (by cases hit) }

/-- A new iteration sees every future that is not collected. -/
theorem Inv.next {timeout : Option ℤ} (h : s.Inv c) :
    ({ s with
      iteration := some ⟨timeout, s.futures, s.jobs.length, true⟩ } : JobExecutor α).Inv c := by
  refine { h with pending := ?_, seen := ?_ }
  · rintro _ ⟨⟩
    exact ⟨h.nodup, fun _ hj => hj⟩
  · rintro _ ⟨⟩
    refine ⟨Nat.le_refl _, fun j hj hmem => ?_⟩
    have hget := List.getElem?_eq_getElem hj
    cases hstage : s.jobs[j] with
    | collected result =>
      rw [hstage] at hget
      exact ⟨result, hget⟩
    | _ =>
      rw [hstage] at hget
      exact absurd ((h.futures j).mpr ⟨_, hget, rfl⟩) hmem

theorem Inv.step {e : Event α} (h : s.Inv c) (ht : s.step c e = some t) : t.Inv c := by
  cases e with
  | submit =>
    obtain ⟨-, ht⟩ := Option.ite_none_right_eq_some.mp ht
    exact h.submit ht
  | start i => exact h.start ht
  | acquire i =>
    unfold JobExecutor.step at ht
    dsimp only at ht
    split at ht
    next hjob =>
      obtain ⟨u, hu, heq⟩ := Option.map_eq_some_iff.mp ht
      rw [← heq]
      refine h.move_acquire hjob rfl rfl ?_ ?_ hu
      · unfold Config.holds
        cases c.blockingSubmit <;> rfl
      · unfold Config.holds
        cases c.blockingSubmit <;> rfl
    · cases ht
  | complete i result => exact h.complete ht
  | finish i =>
    unfold JobExecutor.step at ht
    dsimp only at ht
    split at ht
    next result hjob =>
      rw [← Option.some.inj ht]
      refine h.move_keep hjob rfl rfl ?_
      unfold Config.holds
      cases c.blockingSubmit <;> rfl
    · cases ht
  | next timeout =>
    unfold JobExecutor.step at ht
    dsimp only at ht
    split at ht
    · rw [← Option.some.inj ht]
      exact h.next
    · cases ht
  | resume =>
    unfold JobExecutor.step at ht
    dsimp only at ht
    split at ht
    next it hit =>
      obtain ⟨-, heq⟩ := Option.ite_none_left_eq_some.mp ht
      rw [← Option.some.inj heq]
      exact h.setIteration hit rfl rfl
    · cases ht
  | yield i =>
    unfold JobExecutor.step at ht
    dsimp only at ht
    split at ht
    next it result hit hjob =>
      obtain ⟨⟨-, hi⟩, heq⟩ := Option.ite_none_right_eq_some.mp ht
      rw [← Option.some.inj heq]
      exact h.collect hit hjob hi
    · cases ht
  | stopIteration =>
    unfold JobExecutor.step at ht
    dsimp only at ht
    split at ht
    · obtain ⟨-, heq⟩ := Option.ite_none_right_eq_some.mp ht
      rw [← Option.some.inj heq]
      exact h.endIteration
    · cases ht
  | timeoutError =>
    unfold JobExecutor.step at ht
    dsimp only at ht
    split at ht
    · obtain ⟨-, heq⟩ := Option.ite_none_right_eq_some.mp ht
      rw [← Option.some.inj heq]
      exact h.endIteration
    · cases ht
  | abandon =>
    unfold JobExecutor.step at ht
    dsimp only at ht
    split at ht
    · obtain ⟨-, heq⟩ := Option.ite_none_left_eq_some.mp ht
      rw [← Option.some.inj heq]
      exact h.endIteration
    · cases ht

end JobExecutor

/-- What the function of a job has returned or raised. -/
def Stage.outcome : Stage α → Option (Except String α)
  | returned result => some result
  | finished result => some result
  | collected result => some result
  | _ => none

namespace JobExecutor
variable {c : Config} {s t : JobExecutor α} {i : ℕ} {e : Event α} {events : List (Event α)}

/-- The function of a job returns or raises. -/
def Event.completion : Event α → Option (ℕ × Except String α)
  | complete i result => some (i, result)
  | _ => none

def Event.isSubmit : Event α → Bool
  | submit => true
  | _ => false

def outcome (s : JobExecutor α) (i : ℕ) : Option (Except String α) :=
  s.jobs[i]?.bind Stage.outcome

/-- The jobs of a run and what they gave are what its events say. -/
structure Recorded (events : List (Event α)) (s : JobExecutor α) : Prop where
  jobs : s.jobs.length = events.countP Event.isSubmit
  outcomes : ∀ i result, (i, result) ∈ events.filterMap Event.completion ↔
    s.outcome i = some result
  single : ((events.filterMap Event.completion).map Prod.fst).Nodup

theorem outcome_setStage {a b : Stage α} (ha : s.jobs[i]? = some a) (hab : b.outcome = a.outcome) :
    (s.setStage i b).outcome = s.outcome := by
  funext j
  show (s.jobs.set i b)[j]?.bind Stage.outcome = s.jobs[j]?.bind Stage.outcome
  by_cases hij : i = j
  · subst hij
    rw [List.getElem?_set_self (List.getElem?_eq_some_iff.mp ha).1, ha]
    exact hab
  · rw [List.getElem?_set_ne hij]

theorem length_setStage (b : Stage α) : (s.setStage i b).jobs.length = s.jobs.length :=
  List.length_set

theorem release_jobs : (s.release c).jobs = s.jobs := by
  unfold release
  split <;> rfl

theorem acquire_jobs {u : JobExecutor α} (h : s.acquire = some u) : u.jobs = s.jobs := by
  obtain ⟨-, heq⟩ := Option.ite_none_left_eq_some.mp h
  rw [← Option.some.inj heq]

theorem outcome_of_jobs {u : JobExecutor α} (h : u.jobs = s.jobs) : u.outcome = s.outcome := by
  unfold outcome
  rw [h]

theorem outcome_enqueue : s.enqueue.outcome = s.outcome := by
  funext j
  show (s.jobs ++ [Stage.queued])[j]?.bind Stage.outcome = s.jobs[j]?.bind Stage.outcome
  rw [List.getElem?_append]
  split
  next => rfl
  next hle =>
    rw [List.getElem?_eq_none (by omega : s.jobs.length ≤ j), List.getElem?_singleton]
    split <;> rfl

/-- A step that changes no outcome and adds no job. -/
theorem Recorded.keep (h : Recorded events s) (hsubmit : e.isSubmit = false)
    (hcompletion : e.completion = none) (hlength : t.jobs.length = s.jobs.length)
    (houtcome : t.outcome = s.outcome) : Recorded (events ++ [e]) t := by
  have hfilter : (events ++ [e]).filterMap Event.completion =
      events.filterMap Event.completion := by
    rw [List.filterMap_append, List.filterMap_cons_none hcompletion]
    exact List.append_nil _
  refine ⟨?_, ?_, ?_⟩
  · rw [List.countP_append, List.countP_singleton, hsubmit, hlength]
    exact h.jobs
  · intro j result
    rw [hfilter, houtcome]
    exact h.outcomes j result
  · rw [hfilter]
    exact h.single

theorem Recorded.submit (h : Recorded events s) (ht : s.submit c = some t) :
    Recorded (events ++ [.submit]) t := by
  obtain ⟨u, hu, rfl⟩ : ∃ u : JobExecutor α, u.jobs = s.jobs ∧ u.enqueue = t := by
    unfold JobExecutor.submit at ht
    split at ht
    · obtain ⟨u, hu, heq⟩ := Option.map_eq_some_iff.mp ht
      exact ⟨u, acquire_jobs hu, heq⟩
    · exact ⟨s, rfl, Option.some.inj ht⟩
  have hfilter : (events ++ [Event.submit]).filterMap Event.completion =
      events.filterMap Event.completion := by
    rw [List.filterMap_append]
    exact List.append_nil _
  refine ⟨?_, ?_, ?_⟩
  · show (u.jobs ++ [Stage.queued]).length = _
    rw [hu, List.countP_append, List.length_append, h.jobs]
    rfl
  · intro j result
    rw [hfilter, outcome_enqueue, outcome_of_jobs hu]
    exact h.outcomes j result
  · rw [hfilter]
    exact h.single

theorem Recorded.complete {result : Except String α} (h : Recorded events s)
    (ht : s.complete c i result = some t) : Recorded (events ++ [.complete i result]) t := by
  unfold JobExecutor.complete at ht
  split at ht
  case h_2 => cases ht
  case h_1 hjob =>
    have hjobs : t.jobs = s.jobs.set i (.returned result) := by
      rw [← Option.some.inj ht]
      split
      · exact release_jobs
      · rfl
    have hlt := (List.getElem?_eq_some_iff.mp hjob).1
    have hnone : s.outcome i = none := by
      rw [outcome, hjob]
      rfl
    have hself : t.outcome i = some result := by
      rw [outcome, hjobs, List.getElem?_set_self hlt]
      rfl
    have hother {j : ℕ} (hij : i ≠ j) : t.outcome j = s.outcome j := by
      rw [outcome, hjobs, List.getElem?_set_ne hij]
      rfl
    have hnew : i ∉ (events.filterMap Event.completion).map Prod.fst := by
      intro hmem
      obtain ⟨⟨j, r⟩, hp, rfl⟩ := List.mem_map.mp hmem
      have hsome := (h.outcomes j r).mp hp
      rw [hnone] at hsome
      cases hsome
    have hfilter : (events ++ [Event.complete i result]).filterMap Event.completion =
        events.filterMap Event.completion ++ [(i, result)] := by
      rw [List.filterMap_append]
      rfl
    refine ⟨?_, ?_, ?_⟩
    · rw [hjobs, List.length_set, List.countP_append, h.jobs]
      rfl
    · intro j r
      rw [hfilter, List.mem_append, List.mem_singleton, h.outcomes j r, Prod.mk.injEq]
      by_cases hij : i = j
      · subst hij
        rw [hnone, hself]
        simp [eq_comm]
      · rw [hother hij]
        exact ⟨fun hj => hj.elim id fun heq => absurd heq.1.symm hij, .inl⟩
    · rw [hfilter, List.map_append, List.map_singleton]
      exact List.concat_eq_append ▸ h.single.concat hnew

theorem Recorded.collect {it : Iteration} {result : Except String α} (h : Recorded events s)
    (hjob : s.jobs[i]? = some (.finished result)) :
    Recorded (events ++ [.yield i]) (s.collect c it i result) := by
  have hjobs : (s.collect c it i result).jobs = s.jobs ∨
      (s.collect c it i result).jobs = (s.setStage i (.collected result)).jobs := by
    unfold JobExecutor.collect
    split
    · refine .inr ?_
      dsimp only
      split
      · rfl
      · exact release_jobs
    · exact .inl rfl
  cases hjobs with
  | inl hjobs =>
    exact h.keep rfl rfl (congrArg List.length hjobs) (outcome_of_jobs hjobs)
  | inr hjobs =>
    refine h.keep rfl rfl ?_ ?_
    · rw [hjobs]
      exact length_setStage _
    · rw [outcome_of_jobs hjobs]
      exact outcome_setStage hjob rfl

theorem Recorded.step (h : Recorded events s) (ht : s.step c e = some t) :
    Recorded (events ++ [e]) t := by
  cases e with
  | submit =>
    obtain ⟨-, ht⟩ := Option.ite_none_right_eq_some.mp ht
    exact h.submit ht
  | start i =>
    unfold JobExecutor.step JobExecutor.start at ht
    dsimp only at ht
    split at ht
    next hjob =>
      obtain ⟨-, heq⟩ := Option.ite_none_right_eq_some.mp ht
      rw [← Option.some.inj heq]
      refine h.keep rfl rfl (length_setStage _) (outcome_setStage hjob ?_)
      split <;> rfl
    · cases ht
  | acquire i =>
    unfold JobExecutor.step at ht
    dsimp only at ht
    split at ht
    next hjob =>
      obtain ⟨u, hu, heq⟩ := Option.map_eq_some_iff.mp ht
      have hjobs := acquire_jobs hu
      rw [← hjobs] at hjob
      rw [← heq]
      refine h.keep rfl rfl ?_ ?_
      · rw [length_setStage, hjobs]
      · exact (outcome_setStage (b := .running) hjob rfl).trans (outcome_of_jobs hjobs)
    · cases ht
  | complete i result => exact h.complete ht
  | finish i =>
    unfold JobExecutor.step at ht
    dsimp only at ht
    split at ht
    next result hjob =>
      rw [← Option.some.inj ht]
      exact h.keep rfl rfl (length_setStage _) (outcome_setStage hjob rfl)
    · cases ht
  | next timeout =>
    unfold JobExecutor.step at ht
    dsimp only at ht
    split at ht
    · rw [← Option.some.inj ht]
      exact h.keep rfl rfl rfl rfl
    · cases ht
  | resume =>
    unfold JobExecutor.step at ht
    dsimp only at ht
    split at ht
    next it hit =>
      obtain ⟨-, heq⟩ := Option.ite_none_left_eq_some.mp ht
      rw [← Option.some.inj heq]
      exact h.keep rfl rfl rfl rfl
    · cases ht
  | yield i =>
    unfold JobExecutor.step at ht
    dsimp only at ht
    split at ht
    next it result hit hjob =>
      obtain ⟨-, heq⟩ := Option.ite_none_right_eq_some.mp ht
      rw [← Option.some.inj heq]
      exact h.collect hjob
    · cases ht
  | stopIteration =>
    unfold JobExecutor.step at ht
    dsimp only at ht
    split at ht
    · obtain ⟨-, heq⟩ := Option.ite_none_right_eq_some.mp ht
      rw [← Option.some.inj heq]
      exact h.keep rfl rfl rfl rfl
    · cases ht
  | timeoutError =>
    unfold JobExecutor.step at ht
    dsimp only at ht
    split at ht
    · obtain ⟨-, heq⟩ := Option.ite_none_right_eq_some.mp ht
      rw [← Option.some.inj heq]
      exact h.keep rfl rfl rfl rfl
    · cases ht
  | abandon =>
    unfold JobExecutor.step at ht
    dsimp only at ht
    split at ht
    · obtain ⟨-, heq⟩ := Option.ite_none_left_eq_some.mp ht
      rw [← Option.some.inj heq]
      exact h.keep rfl rfl rfl rfl
    · cases ht

theorem recorded_run {es : List (Event α)} (h : Recorded events s)
    (hrun : run (JobExecutor.step c) s es = some t) : Recorded (events ++ es) t := by
  induction es generalizing events s with
  | nil =>
    rw [List.append_nil]
    exact run_nil.mp hrun ▸ h
  | cons e es ih =>
    obtain ⟨u, hu, ht⟩ := run_cons.mp hrun
    rw [List.append_cons]
    exact ih (h.step hu) ht

theorem recorded_init : Recorded [] (init c : JobExecutor α) where
  jobs := rfl
  outcomes i result := by simp [outcome, init]
  single := .nil

/-- What holds of the outcomes and of the semaphore after any events. -/
structure Accounted (c : Config) (events : List (Event α)) (s : JobExecutor α) : Prop where
  once : (s.yielded.map Prod.fst).Nodup
  /-- What is yielded for a job is what its function gave, and a function gives one result. -/
  own : ∀ i result, (i, result) ∈ s.yielded → .complete i result ∈ events
  single : ((events.filterMap Event.completion).map Prod.fst).Nodup
  jobs : s.jobs.length = events.countP Event.isSubmit
  kept : ∀ i < s.jobs.length, i ∈ s.futures ∨ i ∈ s.yielded.map Prod.fst
  ended : ∀ it t, s.iteration = some it → s.step c .stopIteration = some t →
    ∀ i < it.submitted, i ∈ t.yielded.map Prod.fst
  releases : s.released ≤ s.acquired ∧ s.faults = 0
  blocking : c.blockingSubmit = true →
    s.jobs.countP Stage.isQueuedOrRunning ≤ 2 * c.workers + 1
  nonblocking : c.blockingSubmit = false →
    s.jobs.countP Stage.isRunningOrFinished ≤ 2 * c.workers + 1

theorem Inv.accounted (h : s.Inv c) (hrecorded : Recorded events s) : s.Accounted c events where
  once := h.once
  own i result hp := by
    have houtcome : s.outcome i = some result := by
      rw [outcome, (h.yielded i result).mp hp]
      rfl
    obtain ⟨e, he, hcompletion⟩ :=
      List.mem_filterMap.mp ((hrecorded.outcomes i result).mpr houtcome)
    cases e with
    | complete j r =>
      cases hcompletion
      exact he
    | _ => cases hcompletion
  single := hrecorded.single
  jobs := hrecorded.jobs
  kept i hi := by
    have hget := List.getElem?_eq_getElem hi
    cases hstage : s.jobs[i] with
    | collected result =>
      rw [hstage] at hget
      exact .inr (List.mem_map.mpr ⟨_, (h.yielded i result).mpr hget, rfl⟩)
    | _ =>
      rw [hstage] at hget
      exact .inl ((h.futures i).mpr ⟨_, hget, rfl⟩)
  ended it t hit ht i hi := by
    have hended : it.futures = [] ∧ t.yielded = s.yielded := by
      unfold JobExecutor.step at ht
      rw [hit] at ht
      obtain ⟨⟨-, hnil⟩, heq⟩ := Option.ite_none_right_eq_some.mp ht
      rw [← Option.some.inj heq]
      exact ⟨hnil, rfl⟩
    obtain ⟨result, hresult⟩ := (h.seen it hit).2 i hi (hended.1 ▸ List.not_mem_nil)
    rw [hended.2]
    exact List.mem_map.mpr ⟨_, (h.yielded i result).mpr hresult, rfl⟩
  releases := by
    have hcounts := h.counts
    have hslots := h.slots
    exact ⟨by omega, h.faults⟩
  blocking hb := by
    have hslots := h.slots
    rw [Config.holds, if_pos hb, Config.limit] at hslots
    omega
  nonblocking hb := by
    have hslots := h.slots
    rw [Config.holds, hb, if_neg Bool.false_ne_true, Config.limit] at hslots
    omega

/-- For every number of workers, both modes and every order of steps. -/
theorem collects_outcomes (h : run (step c) (init c) events = some s) : s.Accounted c events :=
  (run_invariant (I := Inv c) h inv_init fun hs ht => hs.step ht).accounted
    (recorded_run recorded_init h)

/-- The first iteration times out, the second is abandoned and the third runs to its end. -/
def threeIterations : List (Event ℕ) :=
  [.submit, .submit, .next (some 0), .timeoutError, .start 0, .acquire 0, .complete 0 (.ok 5),
    .finish 0, .next none, .yield 0, .abandon, .next (some 1), .start 1, .acquire 1,
    .complete 1 (.error "IOError"), .finish 1, .yield 1, .submit, .resume, .stopIteration]

theorem collects_outcomes_example : ∃ s : JobExecutor ℕ,
    s.yielded = [(0, .ok 5), (1, .error "IOError")] ∧
      s.Accounted ⟨1, false⟩ threeIterations := by
  have hrun : (run (step ⟨1, false⟩) (init ⟨1, false⟩) threeIterations).any (fun s =>
      decide (s.yielded = [(0, .ok 5), (1, .error "IOError")])) = true := by
    decide +kernel
  obtain ⟨s, hs, hyielded⟩ := (Option.any_eq_true _ _).mp hrun
  exact ⟨s, of_decide_eq_true hyielded, collects_outcomes hs⟩

end JobExecutor

end Benji
