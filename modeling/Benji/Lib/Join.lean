import Mathlib.Data.List.Infix
import Mathlib.Data.List.Basic

/-! Words joined by a separator that none of them contains: what can be found in the join. -/
namespace Lib

variable {α : Type} {c : α} {w a r : List α}

/-- A word without the separator is on one side of it. -/
theorem infix_append_cons (hw : c ∉ w) : w <:+: a ++ c :: r ↔ w <:+: a ∨ w <:+: r := by
  constructor
  · intro ⟨p, q, h⟩
    rcases List.append_eq_append_iff.mp h with ⟨x, ha, -⟩ | ⟨x, hpw, hx⟩
    · exact .inl ⟨p, x, ha.symm⟩
    · cases x with
      | nil => exact .inl ⟨p, [], by rw [hpw, List.append_nil, List.append_nil]⟩
      | cons d x =>
        obtain ⟨rfl, hr⟩ := List.cons.inj hx
        rcases List.append_eq_append_iff.mp hpw with ⟨y, -, hwy⟩ | ⟨y, -, hy⟩
        · have hmem : c ∈ w := by
            rw [hwy]
            simp
          exact absurd hmem hw
        · cases y with
          | nil =>
            have hmem : c ∈ w := by
              rw [List.nil_append] at hy
              rw [← hy]
              exact List.mem_cons_self
            exact absurd hmem hw
          | cons d y =>
            obtain ⟨-, hx⟩ := List.cons.inj hy
            exact .inr ⟨y, q, by rw [hr, hx]; rfl⟩
  · intro h
    cases h with
    | inl h => exact h.trans (List.prefix_append a (c :: r)).isInfix
    | inr h => exact h.trans ((List.suffix_cons c r).trans (List.suffix_append a (c :: r))).isInfix

/-- Among words of one length, the words that are found in a join are the words joined. -/
theorem infix_intercalate {n : ℕ} {ws : List (List α)} (hn : 0 < n) (hw : c ∉ w)
    (hlen : w.length = n) (hws : ∀ v ∈ ws, v.length = n) :
    w <:+: [c].intercalate ws ↔ w ∈ ws := by
  have hself {v : List α} (hv : v.length = n) : w <:+: v ↔ w = v :=
    ⟨fun h => h.eq_of_length (hlen.trans hv.symm), fun h => h ▸ List.infix_rfl⟩
  induction ws with
  | nil =>
    have hne : w ≠ [] := by
      intro h
      rw [h] at hlen
      exact absurd hlen (by simpa using hn.ne)
    rw [List.intercalate_nil, List.infix_nil]
    simpa using hne
  | cons v ws ih =>
    cases ws with
    | nil => rw [List.intercalate_singleton, hself (hws v (by simp)), List.mem_singleton]
    | cons u ws =>
      have hrest : w <:+: [c].intercalate (u :: ws) ↔ w ∈ u :: ws :=
        ih fun x hx => hws x (List.mem_cons_of_mem _ hx)
      rw [List.intercalate_cons_cons, List.append_assoc, List.singleton_append,
        infix_append_cons hw, hself (hws v List.mem_cons_self),
        hrest, ← List.mem_cons]

end Lib
