import Benji.Lib.Proc

/-! Procedures that keep an invariant however they end, and never raise an exception of a kind. -/
namespace Lib.Proc

variable {ε σ α β : Type}

/-- From a state in which `I` holds, `p` ends in one in which `I` holds, and not with an exception
that is `bad`. -/
def Safe (I : σ → Prop) (bad : ε → Prop) (p : Proc ε σ α) : Prop :=
  ∀ ⦃s r t⦄, p s = some (r, t) → I s → I t ∧ ∀ e, r = .error e → ¬ bad e

/-- The same with a condition on the state that `p` starts in. -/
def Leads (P I : σ → Prop) (bad : ε → Prop) (p : Proc ε σ α) : Prop :=
  ∀ ⦃s r t⦄, p s = some (r, t) → P s → I t ∧ ∀ e, r = .error e → ¬ bad e

namespace Safe
variable {I : σ → Prop} {bad : ε → Prop}

theorem leads {P : σ → Prop} {p : Proc ε σ α} (h : p.Safe I bad) (hP : ∀ s, P s → I s) :
    p.Leads P I bad := fun _ _ _ hp hs => h hp (hP _ hs)

theorem keeps {p : Proc ε σ α} (h : p.Safe I bad) : p.Keeps I := fun _ _ _ hp hs => (h hp hs).1

theorem not_raises {p : Proc ε σ α} (h : p.Safe I bad) {s t : σ} {e : ε} (hs : I s)
    (he : bad e) : ¬ p.Raises s e t := by
  intro hp
  exact (h hp hs).2 e rfl he

theorem of_keeps {p : Proc ε σ α} (h : p.Keeps I) (hr : ∀ s e t, ¬ p.Raises s e t) :
    p.Safe I bad := by
  intro s r t hp hs
  refine ⟨h hp hs, ?_⟩
  intro e he
  subst he
  exact absurd hp (hr s e t)

theorem pure {a : α} : (Pure.pure a : Proc ε σ α).Safe I bad :=
  of_keeps Keeps.pure fun _ _ _ => raises_pure

theorem modify {f : σ → σ} (h : ∀ s, I s → I (f s)) : (modify f : Proc ε σ Unit).Safe I bad :=
  of_keeps (Keeps.modify h) fun _ _ _ => raises_modify

theorem raiseIf {c : Prop} [Decidable c] {e : ε} (h : ¬ bad e) :
    (raiseIf c e : Proc ε σ Unit).Safe I bad := by
  intro s r t hp hs
  refine ⟨Keeps.raiseIf hp hs, ?_⟩
  intro f hf
  subst hf
  obtain ⟨-, rfl, -⟩ := raises_raiseIf.mp hp
  exact h

theorem ofOption {o : Option α} {e : ε} (h : ¬ bad e) :
    (ofOption o e : Proc ε σ α).Safe I bad := by
  intro s r t hp hs
  refine ⟨Keeps.ofOption hp hs, ?_⟩
  intro f hf
  subst hf
  obtain ⟨-, rfl, -⟩ := raises_ofOption.mp hp
  exact h

theorem bind {p : Proc ε σ α} {f : α → Proc ε σ β} (hp : p.Safe I bad)
    (hf : ∀ a, (f a).Safe I bad) : (p >>= f).Safe I bad := by
  intro s r t h hs
  cases r with
  | ok b =>
    obtain ⟨a, u, hu, ht⟩ := returns_bind.mp h
    exact hf a ht (hp hu hs).1
  | error e =>
    cases raises_bind.mp h with
    | inl hr =>
      refine ⟨(hp hr hs).1, ?_⟩
      rintro _ ⟨⟩
      exact (hp hr hs).2 e rfl
    | inr hr =>
      obtain ⟨a, u, hu, ht⟩ := hr
      exact hf a ht (hp hu hs).1

theorem ite {c : Prop} [Decidable c] {p q : Proc ε σ α} (hp : p.Safe I bad)
    (hq : q.Safe I bad) : (if c then p else q).Safe I bad := by
  split
  · exact hp
  · exact hq

theorem forEach {f : β → Proc ε σ Unit} {bs : List β} (hf : ∀ b ∈ bs, (f b).Safe I bad) :
    (forEach f bs).Safe I bad := by
  induction bs with
  | nil => exact pure
  | cons b bs ih =>
    have hrest : (Proc.forEach f bs).Safe I bad := ih fun c hc => hf c (List.mem_cons_of_mem _ hc)
    exact bind (f := fun _ => Proc.forEach f bs) (hf b List.mem_cons_self) fun _ => hrest

end Safe

namespace Leads
variable {P Q I : σ → Prop} {bad : ε → Prop}

theorem safe {p : Proc ε σ α} (h : p.Leads I I bad) : p.Safe I bad := h

theorem raiseIf_bind {c : Prop} [Decidable c] {e : ε} {p : Proc ε σ α} (h : ¬ bad e)
    (hP : ∀ s, P s → I s) (hp : ¬ c → p.Leads P I bad) :
    (Proc.raiseIf c e >>= fun _ => p).Leads P I bad := by
  intro s r t hrun hs
  by_cases hc : c
  · have hraises : (Proc.raiseIf c e >>= fun _ => p).Raises s e s :=
      raises_bind.mpr (.inl (raises_raiseIf.mpr ⟨hc, rfl, rfl⟩))
    cases Option.some.inj (hrun.symm.trans hraises)
    refine ⟨hP s hs, ?_⟩
    rintro _ ⟨⟩
    exact h
  · have hreturns : (Proc.raiseIf c e : Proc ε σ Unit).Returns s () s :=
      returns_raiseIf.mpr ⟨hc, rfl⟩
    rw [hreturns.bind_eq] at hrun
    exact hp hc hrun hs

theorem ofOption_bind {o : Option β} {e : ε} {f : β → Proc ε σ α} (h : ¬ bad e)
    (hP : ∀ s, P s → I s) (hf : ∀ b, o = some b → (f b).Leads P I bad) :
    (Proc.ofOption o e >>= f).Leads P I bad := by
  intro s r t hrun hs
  cases ho : o with
  | none =>
    rw [ho] at hrun
    have hraises : (Proc.ofOption none e >>= f).Raises s e s :=
      raises_bind.mpr (.inl (raises_ofOption.mpr ⟨rfl, rfl, rfl⟩))
    cases Option.some.inj (hrun.symm.trans hraises)
    refine ⟨hP s hs, ?_⟩
    rintro _ ⟨⟩
    exact h
  | some b =>
    rw [ho] at hrun
    have hreturns : (Proc.ofOption (some b) e : Proc ε σ β).Returns s b s :=
      returns_ofOption.mpr ⟨rfl, rfl⟩
    rw [hreturns.bind_eq] at hrun
    exact hf b ho hrun hs

theorem bind {p : Proc ε σ α} {f : α → Proc ε σ β} (hp : p.Leads P Q bad) (hQ : ∀ s, Q s → I s)
    (hf : ∀ a, (f a).Leads Q I bad) : (p >>= f).Leads P I bad := by
  intro s r t h hs
  cases r with
  | ok b =>
    obtain ⟨a, u, hu, ht⟩ := returns_bind.mp h
    exact hf a ht (hp hu hs).1
  | error e =>
    cases raises_bind.mp h with
    | inl hr =>
      refine ⟨hQ t (hp hr hs).1, ?_⟩
      rintro _ ⟨⟩
      exact (hp hr hs).2 e rfl
    | inr hr =>
      obtain ⟨a, u, hu, ht⟩ := hr
      exact hf a ht (hp hu hs).1

theorem get_bind {f : σ → Proc ε σ α} (hf : ∀ s, P s → (f s).Leads (fun t => s = t) I bad) :
    (Proc.get >>= f).Leads P I bad := by
  intro s r t hrun hs
  have hreturns : (Proc.get : Proc ε σ σ).Returns s s s := returns_get.mpr ⟨rfl, rfl⟩
  rw [hreturns.bind_eq] at hrun
  exact hf s hs hrun rfl

theorem modify {f : σ → σ} (h : ∀ s, P s → I (f s)) :
    (Proc.modify f : Proc ε σ Unit).Leads P I bad := by
  intro s r t hrun hs
  cases r with
  | ok a =>
    rw [← returns_modify.mp hrun]
    refine ⟨h s hs, ?_⟩
    rintro _ ⟨⟩
  | error e => exact absurd hrun raises_modify

theorem raiseIf_of_not {c : Prop} [Decidable c] {e : ε} (hc : ∀ s, P s → ¬ c)
    (hP : ∀ s, P s → I s) : (Proc.raiseIf c e : Proc ε σ Unit).Leads P I bad := by
  intro s r t hrun hs
  have hreturns : (Proc.raiseIf c e : Proc ε σ Unit).Returns s () s :=
    returns_raiseIf.mpr ⟨hc s hs, rfl⟩
  cases Option.some.inj (hrun.symm.trans hreturns)
  refine ⟨hP s hs, ?_⟩
  rintro _ ⟨⟩

end Leads

/-- From a state in which `P` holds, `p` raises nothing and ends in one in which `I` holds. -/
abbrev Succeeds (P I : σ → Prop) (p : Proc ε σ α) : Prop := p.Leads P I fun _ => True

namespace Succeeds
variable {P I : σ → Prop}

theorem eq_ok {p : Proc ε σ Unit} {s t : σ} {r : Except ε Unit} (h : p.Succeeds P I) (hs : P s)
    (hp : p s = some (r, t)) : r = .ok () ∧ I t := by
  obtain ⟨ht, hr⟩ := h hp hs
  cases r with
  | ok a => exact ⟨rfl, ht⟩
  | error e => exact absurd trivial (hr e rfl)

theorem bind {Q : σ → Prop} {p : Proc ε σ α} {f : α → Proc ε σ β} (hp : p.Succeeds P Q)
    (hf : ∀ a, (f a).Succeeds Q I) : (p >>= f).Succeeds P I := by
  intro s r t h hs
  cases r with
  | ok b =>
    obtain ⟨a, u, hu, ht⟩ := returns_bind.mp h
    exact hf a ht (hp hu hs).1
  | error e =>
    cases raises_bind.mp h with
    | inl hr => exact absurd trivial ((hp hr hs).2 e rfl)
    | inr hr =>
      obtain ⟨a, u, hu, ht⟩ := hr
      exact hf a ht (hp hu hs).1

theorem tryFinally {Q : σ → Prop} {p : Proc ε σ α} {q : Proc ε σ Unit} (hp : p.Succeeds P Q)
    (hq : q.Succeeds Q I) : (tryFinally p q).Succeeds P I := by
  intro s r t h hs
  cases r with
  | ok a =>
    obtain ⟨u, hu, ht⟩ := returns_tryFinally.mp h
    obtain ⟨hI, -⟩ := hq ht (hp hu hs).1
    refine ⟨hI, ?_⟩
    rintro _ ⟨⟩
  | error e =>
    cases raises_tryFinally.mp h with
    | inl hr =>
      obtain ⟨u, hu, -⟩ := hr
      exact absurd trivial ((hp hu hs).2 e rfl)
    | inr hr =>
      obtain ⟨r, u, hu, ht⟩ := hr
      exact absurd trivial ((hq ht (hp hu hs).1).2 e rfl)

/-- The loop rule, for a condition on the state and on what is still to come. -/
theorem forEach {J : List β → σ → Prop} {f : β → Proc ε σ Unit}
    (hf : ∀ b bs, (f b).Succeeds (J (b :: bs)) (J bs)) (bs : List β) :
    (forEach f bs).Succeeds (J bs) (J []) := by
  induction bs with
  | nil =>
    intro s r t hrun hs
    cases hrun
    refine ⟨hs, ?_⟩
    rintro _ ⟨⟩
  | cons b bs ih => exact bind (f := fun _ => Proc.forEach f bs) (hf b bs) fun _ => ih

end Succeeds
end Lib.Proc
