import Mathlib.Logic.Basic
import Mathlib.Tactic.SimpRw

/-! Procedures over a mutable state that return, raise, or do not come to an end. The
state survives an exception, so handlers and `finally` blocks see what was done before it. -/
namespace Lib

/-- `none` stands for a procedure that has not come to an end. -/
def Proc (ε σ α : Type) := σ → Option (Except ε α × σ)

namespace Proc
variable {ε σ α β : Type}

/-- `f` goes on from the state in which `p` returned. -/
def andThen (p : Proc ε σ α) (f : α → Proc ε σ β) : Proc ε σ β := fun s =>
  match p s with
  | none => none
  | some (.error e, t) => some (.error e, t)
  | some (.ok a, t) => f a t

instance : Monad (Proc ε σ) where
  pure a := fun s => some (.ok a, s)
  bind := andThen

def raise (e : ε) : Proc ε σ α := fun s => some (.error e, s)

def get : Proc ε σ σ := fun s => some (.ok s, s)

def modify (f : σ → σ) : Proc ε σ Unit := fun s => some (.ok (), f s)

def raiseIf (c : Prop) [Decidable c] (e : ε) : Proc ε σ Unit := fun s =>
  if c then some (.error e, s) else some (.ok (), s)

/-- A partial result: a value, or an exception when there is none. -/
def ofOption (o : Option α) (e : ε) : Proc ε σ α := fun s =>
  match o with
  | some a => some (.ok a, s)
  | none => some (.error e, s)

def tryExcept (p : Proc ε σ α) (handler : ε → Proc ε σ α) : Proc ε σ α := fun s =>
  match p s with
  | none => none
  | some (.ok a, t) => some (.ok a, t)
  | some (.error e, t) => handler e t

/-- The cleanup runs on both paths; an exception it raises replaces the outcome. -/
def tryFinally (p : Proc ε σ α) (cleanup : Proc ε σ Unit) : Proc ε σ α := fun s =>
  match p s with
  | none => none
  | some (r, t) => match cleanup t with
    | none => none
    | some (.error e, u) => some (.error e, u)
    | some (.ok _, u) => some (r, u)

/-- `for b in bs: f(b)`. -/
def forEach (f : β → Proc ε σ Unit) : List β → Proc ε σ Unit
  | [] => fun s => some (.ok (), s)
  | b :: bs => andThen (f b) fun _ => forEach f bs

/-- Run with a part of the state, or a state built from it. -/
def zoom {τ : Type} (init : σ → τ) (view : τ → σ) (p : Proc ε τ α) : Proc ε σ (α × τ) := fun s =>
  match p (init s) with
  | none => none
  | some (.error e, t) => some (.error e, view t)
  | some (.ok a, t) => some (.ok (a, t), view t)

def Returns (p : Proc ε σ α) (s : σ) (a : α) (t : σ) : Prop := p s = some (.ok a, t)

def Raises (p : Proc ε σ α) (s : σ) (e : ε) (t : σ) : Prop := p s = some (.error e, t)

/-- Run on one part of the state. -/
def onPart {τ : Type} (get : τ → σ) (set : τ → σ → τ) (p : Proc ε σ α) : Proc ε τ α := fun t =>
  match p (get t) with
  | none => none
  | some (r, s) => some (r, set t s)

/-- Evaluate a procedure that is expected to return. -/
def outcome (p : Proc ε σ α) (s : σ) : Option (α × σ) :=
  match p s with
  | some (.ok a, t) => some (a, t)
  | _ => none

theorem returns_of_outcome {p : Proc ε σ α} {s : σ} {f : α → σ → Bool}
    (h : (p.outcome s).any (fun r => f r.1 r.2) = true) :
    ∃ a t, p.Returns s a t ∧ f a t = true := by
  unfold outcome at h
  unfold Returns
  rcases hs : p s with _ | ⟨_ | a, t⟩
  · simp [hs] at h
  · simp [hs] at h
  · exact ⟨a, t, rfl, by simpa [hs] using h⟩

theorem Raises.not_returns {p : Proc ε σ α} {s t u : σ} {e : ε} {a : α} (h : p.Raises s e t) :
    ¬ p.Returns s a u := by
  intro k
  have he := Option.some.inj (h.symm.trans k)
  simp at he

@[simp] theorem returns_pure {s t : σ} {a b : α} :
    (pure a : Proc ε σ α).Returns s b t ↔ a = b ∧ s = t := by
  simp [Returns, pure]

@[simp] theorem raises_pure {s t : σ} {a : α} {e : ε} :
    ¬ (pure a : Proc ε σ α).Raises s e t := by
  simp [Raises, pure]

@[simp] theorem returns_raise {s t : σ} {a : α} {e : ε} :
    ¬ (raise e : Proc ε σ α).Returns s a t := by
  simp [Returns, raise]

@[simp] theorem raises_raise {s t : σ} {e f : ε} :
    (raise e : Proc ε σ α).Raises s f t ↔ e = f ∧ s = t := by
  simp [Raises, raise]

@[simp] theorem returns_get {s t u : σ} :
    (get : Proc ε σ σ).Returns s t u ↔ s = t ∧ s = u := by
  simp [Returns, get]

@[simp] theorem raises_get {s t : σ} {e : ε} : ¬ (get : Proc ε σ σ).Raises s e t := by
  simp [Raises, get]

@[simp] theorem returns_modify {f : σ → σ} {s t : σ} {a : Unit} :
    (modify f : Proc ε σ Unit).Returns s a t ↔ f s = t := by
  simp [Returns, modify]

@[simp] theorem raises_modify {f : σ → σ} {s t : σ} {e : ε} :
    ¬ (modify f : Proc ε σ Unit).Raises s e t := by
  simp [Raises, modify]

@[simp] theorem returns_raiseIf {c : Prop} [Decidable c] {s t : σ} {a : Unit} {e : ε} :
    (raiseIf c e : Proc ε σ Unit).Returns s a t ↔ ¬ c ∧ s = t := by
  unfold Returns raiseIf
  split <;> simp [*]

@[simp] theorem raises_raiseIf {c : Prop} [Decidable c] {s t : σ} {e f : ε} :
    (raiseIf c e : Proc ε σ Unit).Raises s f t ↔ c ∧ e = f ∧ s = t := by
  unfold Raises raiseIf
  split <;> simp [*]

@[simp] theorem returns_ofOption {o : Option α} {s t : σ} {a : α} {e : ε} :
    (ofOption o e : Proc ε σ α).Returns s a t ↔ o = some a ∧ s = t := by
  cases o <;> simp [Returns, ofOption]

@[simp] theorem raises_ofOption {o : Option α} {s t : σ} {e f : ε} :
    (ofOption o e : Proc ε σ α).Raises s f t ↔ o = none ∧ e = f ∧ s = t := by
  cases o <;> simp [Raises, ofOption]

@[simp] theorem returns_bind {p : Proc ε σ α} {f : α → Proc ε σ β} {s u : σ} {b : β} :
    (p >>= f).Returns s b u ↔ ∃ a t, p.Returns s a t ∧ (f a).Returns t b u := by
  change andThen p f s = _ ↔ _
  unfold Returns andThen
  rcases p s with _ | ⟨_ | a, t⟩ <;> grind

/-- An exception comes from the first part, or from the second after the first returned. -/
@[simp] theorem raises_bind {p : Proc ε σ α} {f : α → Proc ε σ β} {s u : σ} {e : ε} :
    (p >>= f).Raises s e u ↔
      p.Raises s e u ∨ ∃ a t, p.Returns s a t ∧ (f a).Raises t e u := by
  change andThen p f s = _ ↔ _
  unfold Raises Returns andThen
  rcases p s with _ | ⟨_ | a, t⟩ <;> grind

/-- Go on from where the first part returned. -/
theorem Returns.bind_eq {p : Proc ε σ α} {f : α → Proc ε σ β} {s t : σ} {a : α}
    (h : p.Returns s a t) : (p >>= f) s = f a t := by
  change andThen p f s = _
  rw [andThen, h]

@[simp] theorem returns_tryExcept {p : Proc ε σ α} {h : ε → Proc ε σ α} {s u : σ} {a : α} :
    (tryExcept p h).Returns s a u ↔
      p.Returns s a u ∨ ∃ e t, p.Raises s e t ∧ (h e).Returns t a u := by
  unfold Returns Raises tryExcept
  rcases p s with _ | ⟨_ | b, t⟩ <;> grind

@[simp] theorem raises_tryExcept {p : Proc ε σ α} {h : ε → Proc ε σ α} {s u : σ} {f : ε} :
    (tryExcept p h).Raises s f u ↔ ∃ e t, p.Raises s e t ∧ (h e).Raises t f u := by
  unfold Raises tryExcept
  rcases p s with _ | ⟨_ | b, t⟩ <;> grind

@[simp] theorem returns_tryFinally {p : Proc ε σ α} {q : Proc ε σ Unit} {s u : σ} {a : α} :
    (tryFinally p q).Returns s a u ↔ ∃ t, p.Returns s a t ∧ q.Returns t () u := by
  unfold Returns tryFinally
  rcases p s with _ | ⟨r, t⟩
  · simp
  · rcases hq : q t with _ | ⟨_ | _, v⟩ <;> grind

theorem raises_tryFinally {p : Proc ε σ α} {q : Proc ε σ Unit} {s u : σ} {e : ε} :
    (tryFinally p q).Raises s e u ↔
      (∃ t, p.Raises s e t ∧ q.Returns t () u) ∨
        ∃ r t, p s = some (r, t) ∧ q.Raises t e u := by
  unfold Returns Raises tryFinally
  rcases p s with _ | ⟨r, t⟩
  · simp
  · rcases hq : q t with _ | ⟨_ | _, v⟩ <;> grind

@[simp] theorem returns_forEach_nil {f : β → Proc ε σ Unit} {s t : σ} :
    (forEach f []).Returns s () t ↔ s = t := by
  simp [Returns, forEach]

theorem returns_forEach_cons {f : β → Proc ε σ Unit} {b : β} {bs : List β} {s u : σ} :
    (forEach f (b :: bs)).Returns s () u ↔
      ∃ t, (f b).Returns s () t ∧ (forEach f bs).Returns t () u := by
  have h : forEach f (b :: bs) = f b >>= fun _ => forEach f bs := rfl
  rw [h, returns_bind]
  constructor
  · rintro ⟨_, t, ht⟩
    exact ⟨t, ht⟩
  · rintro ⟨t, ht⟩
    exact ⟨(), t, ht⟩

theorem forEach_cons_ok {f : β → Proc ε σ Unit} {b : β} {bs : List β} {s t : σ}
    (h : f b s = some (.ok (), t)) : forEach f (b :: bs) s = forEach f bs t := by
  unfold forEach andThen
  rw [h]
  cases bs <;> rfl

theorem forEach_cons_error {f : β → Proc ε σ Unit} {b : β} {bs : List β} {s t : σ} {e : ε}
    (h : f b s = some (.error e, t)) : forEach f (b :: bs) s = some (.error e, t) := by
  unfold forEach andThen
  rw [h]

/-- What each round of a loop keeps, the loop keeps. -/
theorem forEach_invariant {f : β → Proc ε σ Unit} {bs : List β} {I : σ → Prop} {s t : σ}
    (h : (forEach f bs).Returns s () t) (hs : I s)
    (hstep : ∀ {b s t}, b ∈ bs → I s → (f b).Returns s () t → I t) : I t := by
  induction bs generalizing s with
  | nil => exact returns_forEach_nil.mp h ▸ hs
  | cons b bs ih =>
    obtain ⟨u, hu, ht⟩ := returns_forEach_cons.mp h
    exact ih ht (hstep (List.mem_cons_self) hs hu)
      fun hmem => hstep (List.mem_cons_of_mem _ hmem)

theorem returns_onPart {τ : Type} {get : τ → σ} {set : τ → σ → τ} {p : Proc ε σ α} {t u : τ}
    {a : α} :
    (onPart get set p).Returns t a u ↔ ∃ s, p.Returns (get t) a s ∧ set t s = u := by
  unfold Returns onPart
  rcases p (get t) with _ | ⟨_ | b, s⟩ <;> grind

theorem raises_onPart {τ : Type} {get : τ → σ} {set : τ → σ → τ} {p : Proc ε σ α} {t u : τ}
    {e : ε} :
    (onPart get set p).Raises t e u ↔ ∃ s, p.Raises (get t) e s ∧ set t s = u := by
  unfold Raises onPart
  rcases p (get t) with _ | ⟨_ | b, s⟩ <;> grind

theorem onPart_eq_some {τ : Type} {get : τ → σ} {set : τ → σ → τ} {p : Proc ε σ α} {t u : τ}
    {r : Except ε α} :
    onPart get set p t = some (r, u) ↔ ∃ s, p (get t) = some (r, s) ∧ set t s = u := by
  cases r with
  | ok a => exact returns_onPart
  | error e => exact raises_onPart

theorem returns_zoom {τ : Type} {init : σ → τ} {view : τ → σ} {p : Proc ε τ α} {s u : σ}
    {a : α} {t : τ} :
    (zoom init view p).Returns s (a, t) u ↔ p.Returns (init s) a t ∧ view t = u := by
  unfold Returns zoom
  rcases p (init s) with _ | ⟨_ | b, v⟩ <;> grind

theorem raises_zoom {τ : Type} {init : σ → τ} {view : τ → σ} {p : Proc ε τ α} {s u : σ} {e : ε} :
    (zoom init view p).Raises s e u ↔ ∃ t, p.Raises (init s) e t ∧ view t = u := by
  unfold Raises zoom
  rcases p (init s) with _ | ⟨_ | b, v⟩ <;> grind

/-- However `p` ends, `I` holds again; what has not come to an end says nothing. -/
def Keeps (I : σ → Prop) (p : Proc ε σ α) : Prop :=
  ∀ ⦃s r t⦄, p s = some (r, t) → I s → I t

namespace Keeps
variable {I : σ → Prop}

theorem pure {a : α} : (Pure.pure a : Proc ε σ α).Keeps I := by
  rintro s r t ⟨⟩ hs
  exact hs

theorem raise {e : ε} : (raise e : Proc ε σ α).Keeps I := by
  rintro s r t ⟨⟩ hs
  exact hs

theorem get : (get : Proc ε σ σ).Keeps I := by
  rintro s r t ⟨⟩ hs
  exact hs

theorem modify {f : σ → σ} (h : ∀ s, I s → I (f s)) : (modify f : Proc ε σ Unit).Keeps I := by
  rintro s r t ⟨⟩ hs
  exact h s hs

theorem raiseIf {c : Prop} [Decidable c] {e : ε} : (raiseIf c e : Proc ε σ Unit).Keeps I := by
  intro s r t h hs
  unfold Proc.raiseIf at h
  split at h
  all_goals
    cases h
    exact hs

theorem ofOption {o : Option α} {e : ε} : (ofOption o e : Proc ε σ α).Keeps I := by
  intro s r t h hs
  unfold Proc.ofOption at h
  split at h
  all_goals
    cases h
    exact hs

theorem bind {p : Proc ε σ α} {f : α → Proc ε σ β} (hp : p.Keeps I) (hf : ∀ a, (f a).Keeps I) :
    (p >>= f).Keeps I := by
  intro s r t h hs
  cases r with
  | ok b =>
    obtain ⟨a, u, hu, ht⟩ := returns_bind.mp h
    exact hf a ht (hp hu hs)
  | error e =>
    cases raises_bind.mp h with
    | inl hr => exact hp hr hs
    | inr hr =>
      obtain ⟨a, u, hu, ht⟩ := hr
      exact hf a ht (hp hu hs)

theorem tryExcept {p : Proc ε σ α} {q : ε → Proc ε σ α} (hp : p.Keeps I)
    (hq : ∀ e, (q e).Keeps I) : (tryExcept p q).Keeps I := by
  intro s r t h hs
  cases r with
  | ok a =>
    rcases returns_tryExcept.mp h with hr | ⟨e, u, hu, ht⟩
    · exact hp hr hs
    · exact hq e ht (hp hu hs)
  | error e =>
    obtain ⟨f, u, hu, ht⟩ := raises_tryExcept.mp h
    exact hq f ht (hp hu hs)

theorem forEach {f : β → Proc ε σ Unit} {bs : List β} (hf : ∀ b ∈ bs, (f b).Keeps I) :
    (forEach f bs).Keeps I := by
  induction bs with
  | nil =>
    rintro s r t ⟨⟩ hs
    exact hs
  | cons b bs ih =>
    have hbind : Proc.forEach f (b :: bs) = f b >>= fun _ => Proc.forEach f bs := rfl
    rw [hbind]
    exact bind (hf b List.mem_cons_self) fun _ => ih fun c hc => hf c (List.mem_cons_of_mem _ hc)

theorem zoom {τ : Type} {J : τ → Prop} {init : σ → τ} {view : τ → σ} {p : Proc ε τ α}
    (hp : p.Keeps J) (hinit : ∀ s, I s → J (init s)) (hview : ∀ t, J t → I (view t)) :
    (zoom init view p).Keeps I := by
  intro s r u h hs
  cases r with
  | ok a =>
    obtain ⟨ht, rfl⟩ := returns_zoom.mp h
    exact hview _ (hp ht (hinit s hs))
  | error e =>
    obtain ⟨t, ht, rfl⟩ := raises_zoom.mp h
    exact hview t (hp ht (hinit s hs))

theorem onPart {τ : Type} {get : τ → σ} {set : τ → σ → τ} {J : τ → Prop} {p : Proc ε σ α}
    (hp : p.Keeps I) (hget : ∀ t, J t → I (get t)) (hset : ∀ t s, J t → I s → J (set t s)) :
    (onPart get set p).Keeps J := by
  intro t r u h ht
  cases r with
  | ok a =>
    obtain ⟨s, hs, rfl⟩ := returns_onPart.mp h
    exact hset t s ht (hp hs (hget t ht))
  | error e =>
    obtain ⟨s, hs, rfl⟩ := raises_onPart.mp h
    exact hset t s ht (hp hs (hget t ht))

end Keeps

end Proc
end Lib
