import Mathlib.Data.List.Basic

/-! Rounds that may fail, and the rounds that take them back in the opposite order. -/
namespace Lib

variable {σ ι : Type} {f g : ι → σ → Option σ} {P : σ → Prop} {is js : List ι} {s t u : σ}

def rounds (f : ι → σ → Option σ) : List ι → σ → Option σ
  | [], s => some s
  | i :: is, s => (f i s).bind (rounds f is)

@[simp] theorem rounds_nil : rounds f [] s = some t ↔ s = t := by simp [rounds]

theorem rounds_cons {i : ι} :
    rounds f (i :: is) s = some u ↔ ∃ t, f i s = some t ∧ rounds f is t = some u := by
  simp [rounds, Option.bind_eq_some_iff]

theorem rounds_append :
    rounds f (is ++ js) s = some u ↔ ∃ t, rounds f is s = some t ∧ rounds f js t = some u := by
  induction is generalizing s with
  | nil => simp
  | cons i is ih =>
    simp only [List.cons_append, rounds_cons, ih]
    grind

/-- Every round that comes through can be taken back. -/
def Undoes (g f : ι → σ → Option σ) (P : σ → Prop) (is : List ι) : Prop :=
  ∀ i ∈ is, ∀ s t, P s → f i s = some t → P t ∧ g i t = some s

/-- Taken back one by one from the last, rounds come to where they started. -/
theorem Undoes.rounds (h : Undoes g f P is) (hs : P s) (hrun : rounds f is s = some t) :
    P t ∧ Lib.rounds g is.reverse t = some s := by
  induction is generalizing s with
  | nil =>
    obtain rfl := rounds_nil.mp hrun
    exact ⟨hs, rfl⟩
  | cons i is ih =>
    obtain ⟨u, hu, ht⟩ := rounds_cons.mp hrun
    obtain ⟨hPu, hback⟩ := h i List.mem_cons_self s u hs hu
    have hrest : Undoes g f P is := fun j hj => h j (List.mem_cons_of_mem i hj)
    obtain ⟨hPt, hrounds⟩ := ih hrest hPu ht
    refine ⟨hPt, ?_⟩
    rw [List.reverse_cons]
    exact rounds_append.mpr ⟨u, hrounds, rounds_cons.mpr ⟨s, hback, rfl⟩⟩

/-- Rounds come through where every single one does. -/
theorem exists_rounds (h : ∀ i ∈ is, ∀ s, P s → ∃ t, f i s = some t ∧ P t) (hs : P s) :
    ∃ t, rounds f is s = some t ∧ P t := by
  induction is generalizing s with
  | nil => exact ⟨s, rfl, hs⟩
  | cons i is ih =>
    obtain ⟨t, ht, hPt⟩ := h i List.mem_cons_self s hs
    obtain ⟨u, hu, hPu⟩ := ih (fun j hj => h j (List.mem_cons_of_mem i hj)) hPt
    exact ⟨u, rounds_cons.mpr ⟨t, ht, hu⟩, hPu⟩

end Lib
