import Benji.Lib.Proc

/-! Partial correctness: what a condition on the state before says about the result and the
state afterwards, on the path that returns and on the one that raises. -/
namespace Lib.Proc
variable {ε σ α β : Type}

/-- From a state that satisfies `P`, `p` returns as `Q` says or raises as `E` says. -/
structure Triple (P : σ → Prop) (p : Proc ε σ α) (Q : α → σ → Prop) (E : ε → σ → Prop) :
    Prop where
  returns : ∀ ⦃s a t⦄, P s → p.Returns s a t → Q a t
  raises : ∀ ⦃s e t⦄, P s → p.Raises s e t → E e t

namespace Triple
variable {P P' I : σ → Prop} {p : Proc ε σ α} {Q Q' : α → σ → Prop} {E E' : ε → σ → Prop}

theorem mono (h : Triple P p Q E) (hP : ∀ s, P' s → P s) (hQ : ∀ a s, Q a s → Q' a s)
    (hE : ∀ e s, E e s → E' e s) : Triple P' p Q' E' :=
  ⟨fun _ _ _ hs hp => hQ _ _ (h.returns (hP _ hs) hp),
    fun _ _ _ hs hp => hE _ _ (h.raises (hP _ hs) hp)⟩

theorem pre (h : Triple P p Q E) (hP : ∀ s, P' s → P s) : Triple P' p Q E :=
  h.mono hP (fun _ _ => id) fun _ _ => id

theorem exists_pre {ι : Type} {R : ι → σ → Prop} (h : ∀ i, Triple (R i) p Q E) :
    Triple (fun s => ∃ i, R i s) p Q E :=
  ⟨fun _ _ _ ⟨i, hs⟩ hp => (h i).returns hs hp, fun _ _ _ ⟨i, hs⟩ hp => (h i).raises hs hp⟩

/-- A part of the precondition that does not look at the state. -/
theorem of_pre {c : Prop} (h : c → Triple P p Q E) : Triple (fun s => P s ∧ c) p Q E :=
  ⟨fun _ _ _ ⟨hs, hc⟩ hp => (h hc).returns hs hp, fun _ _ _ ⟨hs, hc⟩ hp => (h hc).raises hs hp⟩

theorem of_keeps (h : p.Keeps I) : Triple I p (fun _ => I) fun _ => I :=
  ⟨fun _ _ _ hs hp => h hp hs, fun _ _ _ hs hp => h hp hs⟩

theorem pure {a : α} (h : ∀ s, P s → Q a s) : Triple P (Pure.pure a : Proc ε σ α) Q E where
  returns := by
    rintro s _ _ hs ⟨⟩
    exact h s hs
  raises := by
    rintro s _ _ _ ⟨⟩

theorem raise {e : ε} (h : ∀ s, P s → E e s) : Triple P (raise e : Proc ε σ α) Q E where
  returns := by
    rintro s _ _ _ ⟨⟩
  raises := by
    rintro s _ _ hs ⟨⟩
    exact h s hs

theorem modify {f : σ → σ} {Q : Unit → σ → Prop} (h : ∀ s, P s → Q () (f s)) :
    Triple P (modify f) Q E where
  returns := by
    rintro s _ _ hs ⟨⟩
    exact h s hs
  raises := by
    rintro s _ _ _ ⟨⟩

theorem raiseIf {c : Prop} [Decidable c] {e : ε} {Q : Unit → σ → Prop}
    (hno : ¬ c → ∀ s, P s → Q () s) (hyes : c → ∀ s, P s → E e s) : Triple P (raiseIf c e) Q E where
  returns := by
    intro s a t hs hp
    obtain ⟨hc, rfl⟩ := returns_raiseIf.mp hp
    exact hno hc s hs
  raises := by
    intro s f t hs hp
    obtain ⟨hc, rfl, rfl⟩ := raises_raiseIf.mp hp
    exact hyes hc s hs

theorem ofOption {o : Option α} {e : ε} (hsome : ∀ a, o = some a → ∀ s, P s → Q a s)
    (hnone : o = none → ∀ s, P s → E e s) : Triple P (ofOption o e) Q E where
  returns := by
    intro s a t hs hp
    obtain ⟨ho, rfl⟩ := returns_ofOption.mp hp
    exact hsome a ho s hs
  raises := by
    intro s f t hs hp
    obtain ⟨ho, rfl, rfl⟩ := raises_ofOption.mp hp
    exact hnone ho s hs

/-- The rule of sequence, with what holds between the two parts. -/
theorem bind {f : α → Proc ε σ β} {M : α → σ → Prop} {Q : β → σ → Prop} (h : Triple P p M E)
    (hf : ∀ a, Triple (M a) (f a) Q E) : Triple P (p >>= f) Q E where
  returns := by
    intro s b u hs hp
    obtain ⟨a, t, ht, hu⟩ := returns_bind.mp hp
    exact (hf a).returns (h.returns hs ht) hu
  raises := by
    intro s e u hs hp
    cases raises_bind.mp hp with
    | inl ht => exact h.raises hs ht
    | inr ht =>
      obtain ⟨a, t, ht, hu⟩ := ht
      exact (hf a).raises (h.returns hs ht) hu

/-- The state that `get` returns is the one the rest starts in. -/
theorem get_bind {f : σ → Proc ε σ β} {Q : β → σ → Prop}
    (hf : ∀ s, P s → Triple (fun t => t = s) (f s) Q E) : Triple P (get >>= f) Q E where
  returns := by
    intro s b u hs hp
    obtain ⟨a, t, ht, hu⟩ := returns_bind.mp hp
    obtain ⟨rfl, rfl⟩ := returns_get.mp ht
    exact (hf _ hs).returns rfl hu
  raises := by
    intro s e u hs hp
    cases raises_bind.mp hp with
    | inl ht => exact absurd ht raises_get
    | inr ht =>
      obtain ⟨a, t, ht, hu⟩ := ht
      obtain ⟨rfl, rfl⟩ := returns_get.mp ht
      exact (hf _ hs).raises rfl hu

theorem tryExcept {handler : ε → Proc ε σ α} {H : ε → σ → Prop} (h : Triple P p Q H)
    (hh : ∀ e, Triple (H e) (handler e) Q E) : Triple P (tryExcept p handler) Q E where
  returns := by
    intro s a u hs hp
    cases returns_tryExcept.mp hp with
    | inl ht => exact h.returns hs ht
    | inr ht =>
      obtain ⟨e, t, ht, hu⟩ := ht
      exact (hh e).returns (h.raises hs ht) hu
  raises := by
    intro s f u hs hp
    obtain ⟨e, t, ht, hu⟩ := raises_tryExcept.mp hp
    exact (hh e).raises (h.raises hs ht) hu

/-- A cleanup that raises takes the place of either outcome. -/
theorem tryFinally {cleanup : Proc ε σ Unit} {M : α → σ → Prop} {H : ε → σ → Prop}
    (h : Triple P p M H) (hreturns : ∀ a, Triple (M a) cleanup (fun _ => Q a) E)
    (hraises : ∀ e, Triple (H e) cleanup (fun _ => E e) E) :
    Triple P (tryFinally p cleanup) Q E where
  returns := by
    intro s a u hs hp
    obtain ⟨t, ht, hu⟩ := returns_tryFinally.mp hp
    exact (hreturns a).returns (h.returns hs ht) hu
  raises := by
    intro s e u hs hp
    obtain ⟨t, ht, hu⟩ | ⟨r, t, ht, hu⟩ := raises_tryFinally.mp hp
    · exact (hraises e).returns (h.raises hs ht) hu
    · cases r with
      | ok a => exact (hreturns a).raises (h.returns hs ht) hu
      | error f => exact (hraises f).raises (h.raises hs ht) hu

/-- What each round keeps holds after the loop. -/
theorem forEach {f : β → Proc ε σ Unit} {bs : List β}
    (h : ∀ b ∈ bs, Triple I (f b) (fun _ => I) E) : Triple I (forEach f bs) (fun _ => I) E := by
  induction bs with
  | nil => exact .pure fun _ hs => hs
  | cons b bs ih =>
    have hbind : Proc.forEach f (b :: bs) = f b >>= fun _ => Proc.forEach f bs := rfl
    rw [hbind]
    exact bind (h b List.mem_cons_self) fun _ => ih fun c hc => h c (List.mem_cons_of_mem b hc)

end Triple
end Lib.Proc
