import Mathlib.Data.List.Basic

/-! Transition systems with a computable step function: runs over a list of events, the
states that runs under a condition reach, and the induction rules for both. -/
namespace Lib

variable {σ ε : Type}

/-- Run through the events; `none` when one of them is not possible in its state. -/
def run (step : σ → ε → Option σ) (s : σ) : List ε → Option σ
  | [] => some s
  | e :: es => (step s e).bind fun t => run step t es

/-- `t` is reached from `s` by steps each of which `ok` allows in the state it is taken in. -/
inductive Steps (step : σ → ε → Option σ) (ok : σ → ε → Prop) (s : σ) : σ → Prop
  | refl : Steps step ok s s
  | tail {t u : σ} (e : ε) : Steps step ok s t → ok t e → step t e = some u → Steps step ok s u

/-- Run through the events as long as `ok` allows them. -/
def runIf (step : σ → ε → Option σ) (ok : σ → ε → Prop) [∀ s e, Decidable (ok s e)] (s : σ) :
    List ε → Option σ
  | [] => some s
  | e :: es => if ok s e then (step s e).bind fun t => runIf step ok t es else none

/-- Reached by any steps at all. -/
def Reaches (step : σ → ε → Option σ) : σ → σ → Prop := Steps step fun _ _ => True

variable {step : σ → ε → Option σ} {ok : σ → ε → Prop} {s t u : σ} {e : ε} {es : List ε}

@[simp] theorem run_nil : run step s [] = some t ↔ s = t := by simp [run]

theorem run_cons : run step s (e :: es) = some u ↔
    ∃ t, step s e = some t ∧ run step t es = some u := by
  simp [run, Option.bind_eq_some_iff]

theorem run_append {fs : List ε} : run step s (es ++ fs) = some u ↔
    ∃ t, run step s es = some t ∧ run step t fs = some u := by
  induction es generalizing s with
  | nil => simp
  | cons e es ih =>
    simp only [List.cons_append, run_cons, ih]
    grind

theorem run_singleton : run step s [e] = some t ↔ step s e = some t := by
  simp [run_cons]

/-- A property that each step keeps is kept by a run. -/
theorem run_invariant {I : σ → Prop} (h : run step s es = some t) (hs : I s)
    (hstep : ∀ {s e t}, I s → step s e = some t → I t) : I t := by
  induction es generalizing s with
  | nil => exact run_nil.mp h ▸ hs
  | cons e es ih =>
    obtain ⟨u, hu, ht⟩ := run_cons.mp h
    exact ih ht (hstep hs hu)

namespace Steps

theorem trans (h : Steps step ok s t) (k : Steps step ok t u) : Steps step ok s u := by
  induction k with
  | refl => exact h
  | tail e _ ho hs ih => exact ih.tail e ho hs

theorem single (ho : ok s e) (h : step s e = some t) : Steps step ok s t := .tail e .refl ho h

theorem mono {ok' : σ → ε → Prop} (h : Steps step ok s t) (hw : ∀ s e, ok s e → ok' s e) :
    Steps step ok' s t := by
  induction h with
  | refl => exact .refl
  | tail e _ ho hs ih => exact ih.tail e (hw _ _ ho) hs

theorem reaches (h : Steps step ok s t) : Reaches step s t := h.mono fun _ _ _ => trivial

/-- The invariant rule: what holds at the start and survives every allowed step holds
wherever allowed steps lead. -/
theorem invariant {I : σ → Prop} (h : Steps step ok s t) (hs : I s)
    (hstep : ∀ {s e t}, I s → ok s e → step s e = some t → I t) : I t := by
  induction h with
  | refl => exact hs
  | tail e _ ho hu ih => exact hstep ih ho hu

end Steps

theorem steps_of_runIf [∀ s e, Decidable (ok s e)] (h : runIf step ok s es = some t) :
    Steps step ok s t := by
  induction es generalizing s with
  | nil => exact Option.some.inj h ▸ .refl
  | cons e es ih =>
    unfold runIf at h
    rw [Option.ite_none_right_eq_some] at h
    obtain ⟨u, hu, ht⟩ := Option.bind_eq_some_iff.mp h.2
    exact (Steps.single h.1 hu).trans (ih ht)

/-- Evaluate a run that is expected to end in a state like `f`. -/
theorem exists_steps_of_runIf [∀ s e, Decidable (ok s e)] {f : σ → Bool}
    (h : (runIf step ok s es).any f = true) : ∃ t, Steps step ok s t ∧ f t = true := by
  obtain ⟨t, ht, hf⟩ := (Option.any_eq_true _ _).mp h
  exact ⟨t, steps_of_runIf ht, hf⟩

theorem reaches_of_run (h : run step s es = some t) : Reaches step s t := by
  induction es generalizing s with
  | nil => exact run_nil.mp h ▸ .refl
  | cons e es ih =>
    obtain ⟨u, hu, ht⟩ := run_cons.mp h
    exact (Steps.single trivial hu).trans (ih ht)

theorem exists_reaches_of_run {f : σ → Bool} (h : (run step s es).any f = true) :
    ∃ t, Reaches step s t ∧ f t = true := by
  obtain ⟨t, ht, hf⟩ := (Option.any_eq_true _ _).mp h
  exact ⟨t, reaches_of_run ht, hf⟩

end Lib
