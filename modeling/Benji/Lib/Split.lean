import Mathlib.Data.List.Count

/-! What a list is split into at the occurrences of an element. -/
namespace Lib

variable {α : Type} [DecidableEq α] {c x : α} {l a b p : List α}

theorem splitOn_cons_self (c : α) (l : List α) : (c :: l).splitOn c = [] :: l.splitOn c := by
  rw [List.splitOn_cons_eq_if_modifyHead, if_pos (beq_self_eq_true c)]

theorem splitOn_cons_of_ne (hx : x ≠ c) :
    ∃ p ps, l.splitOn c = p :: ps ∧ (x :: l).splitOn c = (x :: p) :: ps := by
  cases hs : l.splitOn c with
  | nil => exact absurd hs (List.splitOnP_ne_nil _ l)
  | cons p ps =>
    refine ⟨p, ps, rfl, ?_⟩
    rw [List.splitOn_cons_eq_if_modifyHead, if_neg (by simpa using hx), hs, List.modifyHead_cons]

theorem length_splitOn (c : α) (l : List α) : (l.splitOn c).length = l.count c + 1 := by
  induction l with
  | nil => rfl
  | cons x l ih =>
    by_cases hx : x = c
    · subst hx
      rw [splitOn_cons_self, List.length_cons, ih, List.count_cons_self]
    · obtain ⟨p, ps, hl, hxl⟩ := splitOn_cons_of_ne (l := l) hx
      rw [hl, List.length_cons] at ih
      rw [hxl, List.length_cons, ih, List.count_cons_of_ne hx]

theorem not_mem_of_mem_splitOn (hp : p ∈ l.splitOn c) : c ∉ p := by
  induction l generalizing p with
  | nil =>
    rw [List.mem_singleton.mp hp]
    exact List.not_mem_nil
  | cons x l ih =>
    by_cases hx : x = c
    · subst hx
      rw [splitOn_cons_self, List.mem_cons] at hp
      cases hp with
      | inl hp =>
        rw [hp]
        exact List.not_mem_nil
      | inr hp => exact ih hp
    · obtain ⟨q, qs, hl, hxl⟩ := splitOn_cons_of_ne (l := l) hx
      rw [hxl, List.mem_cons] at hp
      rw [hl] at ih
      cases hp with
      | inl hp =>
        rw [hp, List.mem_cons, not_or]
        exact ⟨Ne.symm hx, ih List.mem_cons_self⟩
      | inr hp => exact ih (List.mem_cons_of_mem _ hp)

theorem exists_mem_splitOn (hx : x ≠ c) (hl : x ∈ l) : ∃ p ∈ l.splitOn c, x ∈ p := by
  induction l with
  | nil => cases hl
  | cons y l ih =>
    by_cases hy : y = c
    · subst hy
      rw [splitOn_cons_self]
      obtain ⟨p, hp, hxp⟩ := ih (List.mem_of_ne_of_mem hx hl)
      exact ⟨p, List.mem_cons_of_mem _ hp, hxp⟩
    · obtain ⟨q, qs, hq, hyq⟩ := splitOn_cons_of_ne (l := l) hy
      rw [hyq]
      rw [hq] at ih
      cases List.mem_cons.mp hl with
      | inl h => exact ⟨y :: q, List.mem_cons_self, h ▸ List.mem_cons_self⟩
      | inr h =>
        obtain ⟨p, hp, hxp⟩ := ih h
        cases List.mem_cons.mp hp with
        | inl hpq => exact ⟨y :: q, List.mem_cons_self, List.mem_cons_of_mem _ (hpq ▸ hxp)⟩
        | inr hpq => exact ⟨p, List.mem_cons_of_mem _ hpq, hxp⟩

theorem splitOn_eq_one_iff : l.splitOn c = [a] ↔ c ∉ l ∧ l = a := by
  constructor
  · intro h
    have hl : [c].intercalate (l.splitOn c) = l := List.intercalate_splitOn c
    have hl : l = a := by
      rw [← hl, h]
      simp
    have ha : c ∉ a := not_mem_of_mem_splitOn (h ▸ List.mem_singleton.mpr rfl)
    exact ⟨hl ▸ ha, hl⟩
  · rintro ⟨hc, rfl⟩
    exact List.splitOn_eq_singleton hc

theorem splitOn_eq_two_iff : l.splitOn c = [a, b] ↔ l = a ++ c :: b ∧ c ∉ a ∧ c ∉ b := by
  constructor
  · intro h
    have hl : [c].intercalate (l.splitOn c) = l := List.intercalate_splitOn c
    have hl : l = a ++ c :: b := by
      rw [← hl, h]
      simp
    have ha : a ∈ l.splitOn c := h ▸ List.mem_cons_self
    have hb : b ∈ l.splitOn c := h ▸ List.mem_cons_of_mem _ List.mem_cons_self
    exact ⟨hl, not_mem_of_mem_splitOn ha, not_mem_of_mem_splitOn hb⟩
  · rintro ⟨rfl, ha, hb⟩
    rw [List.splitOn_append_cons_self_of_not_mem ha, List.splitOn_eq_singleton hb]

end Lib
