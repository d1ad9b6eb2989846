import Benji.Lib.Proc

/-! Total correctness: a procedure comes to an end, and its result and its last state satisfy a
condition. -/
namespace Lib.Proc
variable {ε σ α β : Type}

/-- From `s`, `p` ends, with a result and in a state that satisfy `Q`. -/
def Meets (p : Proc ε σ α) (s : σ) (Q : Except ε α → σ → Prop) : Prop :=
  ∃ r t, p s = some (r, t) ∧ Q r t

namespace Meets
variable {p : Proc ε σ α} {s t : σ} {a : α} {e : ε} {P Q : Except ε α → σ → Prop}

theorem mono (h : p.Meets s P) (hQ : ∀ r t, P r t → Q r t) : p.Meets s Q := by
  obtain ⟨r, t, hp, hP⟩ := h
  exact ⟨r, t, hp, hQ r t hP⟩

theorem of_returns (h : p.Returns s a t) (hQ : Q (.ok a) t) : p.Meets s Q := ⟨_, t, h, hQ⟩

theorem of_raises (h : p.Raises s e t) (hQ : Q (.error e) t) : p.Meets s Q := ⟨_, t, h, hQ⟩

theorem pure (h : Q (.ok a) s) : (Pure.pure a : Proc ε σ α).Meets s Q := of_returns rfl h

/-- The rule of sequence: `P` holds between the two parts, or is enough where the first raises. -/
theorem bind {f : α → Proc ε σ β} {Q : Except ε β → σ → Prop} (h : p.Meets s P)
    (hok : ∀ a t, P (.ok a) t → (f a).Meets t Q) (herror : ∀ e t, P (.error e) t → Q (.error e) t) :
    (p >>= f).Meets s Q := by
  obtain ⟨r, t, hp, hP⟩ := h
  cases r with
  | error e => exact of_raises (raises_bind.mpr (.inl hp)) (herror e t hP)
  | ok a =>
    obtain ⟨r, u, hf, hQ⟩ := hok a t hP
    refine ⟨r, u, ?_, hQ⟩
    rw [Returns.bind_eq hp, hf]

theorem bind_of_returns {f : α → Proc ε σ β} {Q : Except ε β → σ → Prop} (h : p.Returns s a t)
    (hf : (f a).Meets t Q) : (p >>= f).Meets s Q := by
  obtain ⟨r, u, hu, hQ⟩ := hf
  refine ⟨r, u, ?_, hQ⟩
  rw [h.bind_eq, hu]

theorem tryExcept {handler : ε → Proc ε σ α} (h : p.Meets s P)
    (hok : ∀ a t, P (.ok a) t → Q (.ok a) t)
    (herror : ∀ e t, P (.error e) t → (handler e).Meets t Q) :
    (tryExcept p handler).Meets s Q := by
  obtain ⟨r, t, hp, hP⟩ := h
  cases r with
  | ok a => exact of_returns (returns_tryExcept.mpr (.inl hp)) (hok a t hP)
  | error e =>
    obtain ⟨r, u, hu, hQ⟩ := herror e t hP
    cases r with
    | ok a => exact of_returns (returns_tryExcept.mpr (.inr ⟨e, t, hp, hu⟩)) hQ
    | error f => exact of_raises (raises_tryExcept.mpr ⟨e, t, hp, hu⟩) hQ

theorem onPart {τ : Type} {get : τ → σ} {set : τ → σ → τ} {Q : Except ε α → τ → Prop} {t : τ}
    (h : p.Meets (get t) fun r s => Q r (set t s)) : (onPart get set p).Meets t Q := by
  obtain ⟨r, s, hp, hQ⟩ := h
  cases r with
  | ok a => exact of_returns (returns_onPart.mpr ⟨s, hp, rfl⟩) hQ
  | error e => exact of_raises (raises_onPart.mpr ⟨s, hp, rfl⟩) hQ

end Meets
end Lib.Proc
