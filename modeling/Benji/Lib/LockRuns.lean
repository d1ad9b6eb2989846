import Benji.Lib.LockFlow
import Benji.Lib.Proc

/-! Procedures whose runs are executions of a flow of locks. -/
namespace Lib
open LockFlow

variable {ε σ τ α β ν κ : Type}

/-- Each run of `p` from a state that `holds` some locks is an execution of `F` from them. -/
def Implements (holds : σ → Set ν → Prop) (taken : Set ν) (p : Proc ε σ α)
    (F : LockFlow ν κ) : Prop :=
  ∀ ⦃s r t held⦄, holds s held → p s = some (r, t) →
    ∃ raised after, F.Exec taken held r.isOk raised after ∧ holds t after

namespace Implements
variable {holds : σ → Set ν → Prop} {taken : Set ν} {p : Proc ε σ α} {f : α → Proc ε σ β}
  {F G H : LockFlow ν κ} {k : κ}

theorem pure {a : α} : Implements holds taken (Pure.pure a : Proc ε σ α) (skip : LockFlow ν κ) := by
  rintro s r t held hs ⟨⟩
  exact ⟨[], held, ⟨rfl, rfl, rfl⟩, hs⟩

theorem raise {e : ε} :
    Implements holds taken (Proc.raise e : Proc ε σ α) (raise : LockFlow ν κ) := by
  rintro s r t held hs ⟨⟩
  exact ⟨[], held, ⟨rfl, rfl, rfl⟩, hs⟩

theorem modify {g : σ → σ} (hg : ∀ s held, holds s held → holds (g s) held) :
    Implements holds taken (Proc.modify g : Proc ε σ Unit) (skip : LockFlow ν κ) := by
  rintro s r t held hs ⟨⟩
  exact ⟨[], held, ⟨rfl, rfl, rfl⟩, hg s held hs⟩

/-- What leaves the locks alone is a step, whether it returns or raises. -/
theorem of_keeps (h : ∀ held, p.Keeps fun s => holds s held) :
    Implements holds taken p (step k) := by
  intro s r t held hs hp
  cases r with
  | ok a => exact ⟨[], held, ⟨rfl, .inl ⟨rfl, rfl⟩⟩, h held hp hs⟩
  | error e => exact ⟨[k], held, ⟨rfl, .inr ⟨rfl, rfl⟩⟩, h held hp hs⟩

theorem bind_of_returns (hp : Implements holds taken p F)
    (hf : ∀ ⦃s a t⦄, p.Returns s a t → Implements holds taken (f a) G) :
    Implements holds taken (p >>= f) (seq F G) := by
  intro s r t held hs h
  cases r with
  | ok b =>
    obtain ⟨a, u, hu, ht⟩ := Proc.returns_bind.mp h
    obtain ⟨ks, mid, hF, hmid⟩ := hp hs hu
    obtain ⟨ls, after, hG, hafter⟩ := hf hu hmid ht
    exact ⟨ks ++ ls, after, .inl ⟨ks, ls, mid, hF, hG, rfl⟩, hafter⟩
  | error e =>
    rcases Proc.raises_bind.mp h with hr | ⟨a, u, hu, ht⟩
    · obtain ⟨ks, mid, hF, hmid⟩ := hp hs hr
      exact ⟨ks, mid, .inr ⟨rfl, hF⟩, hmid⟩
    · obtain ⟨ks, mid, hF, hmid⟩ := hp hs hu
      obtain ⟨ls, after, hG, hafter⟩ := hf hu hmid ht
      exact ⟨ks ++ ls, after, .inl ⟨ks, ls, mid, hF, hG, rfl⟩, hafter⟩

theorem bind (hp : Implements holds taken p F) (hf : ∀ a, Implements holds taken (f a) G) :
    Implements holds taken (p >>= f) (seq F G) :=
  hp.bind_of_returns fun _ a _ _ => hf a

/-- The first part of what is a step of the flow as a whole. -/
theorem step_bind (hp : ∀ held, p.Keeps fun s => holds s held)
    (hf : ∀ a, Implements holds taken (f a) (seq (step k) G)) :
    Implements holds taken (p >>= f) (seq (step k) G) := by
  intro s r t held hs h
  cases r with
  | ok b =>
    obtain ⟨a, u, hu, ht⟩ := Proc.returns_bind.mp h
    exact hf a (hp held hu hs) ht
  | error e =>
    rcases Proc.raises_bind.mp h with hr | ⟨a, u, hu, ht⟩
    · exact ⟨[k], held, exec_seq_step.mpr (.inr ⟨rfl, rfl, rfl⟩), hp held hr hs⟩
    · exact hf a (hp held hu hs) ht

/-- What never raises and leaves the locks alone has no counterpart in the flow. -/
theorem of_bind (hp : ∀ held, p.Keeps fun s => holds s held)
    (hr : ∀ s e t, ¬ p.Raises s e t) (hf : ∀ a, Implements holds taken (f a) F) :
    Implements holds taken (p >>= f) F := by
  intro s r t held hs h
  cases r with
  | ok b =>
    obtain ⟨a, u, hu, ht⟩ := Proc.returns_bind.mp h
    exact hf a (hp held hu hs) ht
  | error e =>
    rcases Proc.raises_bind.mp h with hraise | ⟨a, u, hu, ht⟩
    · exact absurd hraise (hr s e t)
    · exact hf a (hp held hu hs) ht

theorem get_bind {f : σ → Proc ε σ β} (hf : ∀ s, Implements holds taken (f s) F) :
    Implements holds taken (Proc.get >>= f) F :=
  of_bind (fun _ => Proc.Keeps.get) (fun _ _ _ => Proc.raises_get) hf

theorem modify_bind {g : σ → σ} {f : Unit → Proc ε σ β}
    (hg : ∀ s held, holds s held → holds (g s) held)
    (hf : Implements holds taken (f ()) F) : Implements holds taken (Proc.modify g >>= f) F :=
  of_bind (fun held => Proc.Keeps.modify fun s => hg s held) (fun _ _ _ => Proc.raises_modify)
    fun _ => hf

/-- A return value that is computed at the end. -/
theorem bind_pure {f : α → β} (hp : Implements holds taken p F) :
    Implements holds taken (p >>= fun a => Pure.pure (f a)) F := by
  intro s r t held hs h
  cases r with
  | ok b =>
    obtain ⟨a, u, hu, ht⟩ := Proc.returns_bind.mp h
    obtain ⟨-, rfl⟩ := Proc.returns_pure.mp ht
    exact hp hs hu
  | error e =>
    rcases Proc.raises_bind.mp h with hraise | ⟨a, u, hu, ht⟩
    · exact hp hs hraise
    · exact absurd ht Proc.raises_pure

/-- A step that `p` does not make. -/
theorem seq_step (hp : Implements holds taken p F) :
    Implements holds taken p (seq (step k) F) := by
  intro s r t held hs h
  obtain ⟨raised, after, hF, hafter⟩ := hp hs h
  exact ⟨raised, after, exec_seq_step.mpr (.inl hF), hafter⟩

/-- A last step that `p` does not make. -/
theorem seq_last (hp : Implements holds taken p F) :
    Implements holds taken p (seq F (step k)) := by
  intro s r t held hs h
  obtain ⟨raised, after, hF, hafter⟩ := hp hs h
  cases r with
  | ok a =>
    exact ⟨raised, after, .inl ⟨raised, [], after, hF, ⟨rfl, .inl ⟨rfl, rfl⟩⟩,
      (List.append_nil raised).symm⟩, hafter⟩
  | error e => exact ⟨raised, after, .inr ⟨rfl, hF⟩, hafter⟩

theorem either_left (hp : Implements holds taken p F) :
    Implements holds taken p (either F G) := by
  intro s r t held hs h
  obtain ⟨raised, after, hF, hafter⟩ := hp hs h
  exact ⟨raised, after, .inl hF, hafter⟩

theorem either_right (hp : Implements holds taken p G) :
    Implements holds taken p (either F G) := by
  intro s r t held hs h
  obtain ⟨raised, after, hG, hafter⟩ := hp hs h
  exact ⟨raised, after, .inr hG, hafter⟩

theorem tryExcept {handler : ε → Proc ε σ α} (hp : Implements holds taken p F)
    (hh : ∀ e, Implements holds taken (handler e) G) :
    Implements holds taken (Proc.tryExcept p handler) (tryExcept F G) := by
  intro s r t held hs h
  have hraised : ∀ {e u}, p.Raises s e u → handler e u = some (r, t) →
      ∃ raised after, (LockFlow.tryExcept F G).Exec taken held r.isOk raised after ∧
        holds t after := by
    intro e u hu ht
    obtain ⟨ks, mid, hF, hmid⟩ := hp hs hu
    obtain ⟨ls, after, hG, hafter⟩ := hh e hmid ht
    exact ⟨ks ++ ls, after, .inr ⟨ks, ls, mid, hF, hG, rfl⟩, hafter⟩
  cases r with
  | ok a =>
    rcases Proc.returns_tryExcept.mp h with hr | ⟨e, u, hu, ht⟩
    · obtain ⟨ks, mid, hF, hmid⟩ := hp hs hr
      exact ⟨ks, mid, .inl ⟨rfl, hF⟩, hmid⟩
    · exact hraised hu ht
  | error e =>
    obtain ⟨f, u, hu, ht⟩ := Proc.raises_tryExcept.mp h
    exact hraised hu ht

theorem tryFinally {cleanup : Proc ε σ Unit} (hp : Implements holds taken p F)
    (hc : Implements holds taken cleanup G) :
    Implements holds taken (Proc.tryFinally p cleanup) (tryFinally F G) := by
  intro s r t held hs h
  cases r with
  | ok a =>
    obtain ⟨u, hu, ht⟩ := Proc.returns_tryFinally.mp h
    obtain ⟨ks, mid, hF, hmid⟩ := hp hs hu
    obtain ⟨ls, after, hG, hafter⟩ := hc hmid ht
    exact ⟨ks ++ ls, after, ⟨_, _, ks, ls, mid, hF, hG, rfl, rfl⟩, hafter⟩
  | error e =>
    rcases Proc.raises_tryFinally.mp h with ⟨u, hu, ht⟩ | ⟨r', u, hu, ht⟩
    · obtain ⟨ks, mid, hF, hmid⟩ := hp hs hu
      obtain ⟨ls, after, hG, hafter⟩ := hc hmid ht
      exact ⟨ks ++ ls, after, ⟨_, _, ks, ls, mid, hF, hG, rfl, rfl⟩, hafter⟩
    · obtain ⟨ks, mid, hF, hmid⟩ := hp hs hu
      obtain ⟨ls, after, hG, hafter⟩ := hc hmid ht
      exact ⟨ks ++ ls, after, ⟨_, _, ks, ls, mid, hF, hG, (Bool.and_false _).symm, rfl⟩, hafter⟩

/-- A loop of which a round changes nothing, unless it raises. -/
theorem forEach {f : β → Proc ε σ Unit} {bs : List β}
    (hreturns : ∀ held raised after, F.Exec taken held true raised after ↔
      raised = [] ∧ after = held)
    (hf : ∀ b ∈ bs, Implements holds taken (f b) F) :
    Implements holds taken (Proc.forEach f bs) F := by
  induction bs with
  | nil =>
    rintro s r t held hs ⟨⟩
    exact ⟨[], held, (hreturns _ _ _).mpr ⟨rfl, rfl⟩, hs⟩
  | cons b bs ih =>
    intro s r t held hs h
    have hbind : Proc.forEach f (b :: bs) = f b >>= fun _ => Proc.forEach f bs := rfl
    rw [hbind] at h
    have hround : ∀ {a u}, (f b).Returns s a u → holds u held := by
      intro a u hu
      obtain ⟨raised, after, hF, hafter⟩ := hf b List.mem_cons_self hs hu
      obtain ⟨-, rfl⟩ := (hreturns _ _ _).mp hF
      exact hafter
    have hrest := ih fun c hc => hf c (List.mem_cons_of_mem _ hc)
    cases r with
    | ok c =>
      obtain ⟨a, u, hu, ht⟩ := Proc.returns_bind.mp h
      exact hrest (hround hu) ht
    | error e =>
      rcases Proc.raises_bind.mp h with hr | ⟨a, u, hu, ht⟩
      · exact hf b List.mem_cons_self hs hr
      · exact hrest (hround hu) ht

theorem onPart {get : τ → σ} {set : τ → σ → τ} (hset : ∀ t s, get (set t s) = s)
    (hp : Implements holds taken p F) :
    Implements (fun t => holds (get t)) taken (Proc.onPart get set p) F := by
  intro t r u held ht h
  obtain ⟨s, hs, rfl⟩ := Proc.onPart_eq_some.mp h
  obtain ⟨raised, after, hF, hafter⟩ := hp ht hs
  refine ⟨raised, after, hF, ?_⟩
  dsimp only
  rw [hset]
  exact hafter

end Implements
end Lib
