import Mathlib.Data.List.Sort
import Mathlib.Data.List.Induction
import Mathlib.Data.List.Nodup

/-! Sorting and grouping of lists: a stable sort commutes with a filter, and a dictionary of lists
filled in a loop holds at each key what a filter for it gives. -/
namespace Lib

section StableSort
variable {α : Type} {r : α → α → Prop} [DecidableRel r]

theorem orderedInsert_of_forall {a : α} {l : List α} (h : ∀ b ∈ l, r a b) :
    l.orderedInsert r a = a :: l := by
  cases l with
  | nil => rfl
  | cons b l => exact List.orderedInsert_cons_of_le r l (h b List.mem_cons_self)

theorem filter_orderedInsert [IsTrans α r] (p : α → Bool) (a : α) {l : List α}
    (h : l.Pairwise r) :
    (l.orderedInsert r a).filter p =
      if p a then (l.filter p).orderedInsert r a else l.filter p := by
  induction l with
  | nil => by_cases hp : p a <;> simp [hp]
  | cons b l ih =>
    obtain ⟨hb, hl⟩ := List.pairwise_cons.mp h
    by_cases hab : r a b
    · rw [List.orderedInsert_cons_of_le r l hab]
      have hall : ∀ c ∈ (b :: l).filter p, r a c := by
        intro c hc
        cases List.mem_cons.mp (List.mem_of_mem_filter hc) with
        | inl heq => exact heq ▸ hab
        | inr hc => exact trans_of r hab (hb c hc)
      rw [orderedInsert_of_forall hall, List.filter_cons]
    · rw [List.orderedInsert_of_not_le r l hab, List.filter_cons, ih hl, List.filter_cons]
      by_cases hpb : p b
      · rw [if_pos hpb, if_pos hpb]
        split
        · rw [List.orderedInsert_of_not_le r _ hab]
        · rfl
      · rw [if_neg hpb, if_neg hpb]

/-- Sorting is stable, so it does not matter what is filtered out before. -/
theorem filter_insertionSort [IsTrans α r] [Std.Total r] (p : α → Bool) (l : List α) :
    (l.insertionSort r).filter p = (l.filter p).insertionSort r := by
  induction l with
  | nil => rfl
  | cons a l ih =>
    rw [List.insertionSort_cons, filter_orderedInsert p a (List.pairwise_insertionSort r l), ih,
      List.filter_cons]
    split
    · rw [List.insertionSort_cons]
    · rfl

end StableSort

section Group
variable {α κ : Type}

/-- `d[k].append(a)` for a `defaultdict(list)`, whose keys keep the order they came in. -/
def appendAt [DecidableEq κ] (k : κ) (a : α) : List (κ × List α) → List (κ × List α)
  | [] => [(k, [a])]
  | (k', as) :: d => if k' = k then (k', as ++ [a]) :: d else (k', as) :: appendAt k a d

/-- A dictionary that has the non-empty lists among the `f k`. -/
structure Groups (d : List (κ × List α)) (f : κ → List α) : Prop where
  nodup : (d.map Prod.fst).Nodup
  mem_iff : ∀ k as, (k, as) ∈ d ↔ as = f k ∧ f k ≠ []

variable {d : List (κ × List α)} {f : κ → List α} {k : κ} {a : α}

theorem groups_nil : Groups ([] : List (κ × List α)) fun _ => [] where
  nodup := .nil
  mem_iff _ _ := by simp

variable [DecidableEq κ]

theorem mem_keys_appendAt {k' : κ} :
    k' ∈ (appendAt k a d).map Prod.fst ↔ k' ∈ d.map Prod.fst ∨ k' = k := by
  induction d with
  | nil => simp [appendAt]
  | cons p d ih =>
    obtain ⟨l, as⟩ := p
    unfold appendAt
    split
    next heq =>
      rw [List.map_cons, List.map_cons, List.mem_cons, heq]
      tauto
    · rw [List.map_cons, List.mem_cons, ih, List.map_cons, List.mem_cons]
      tauto

theorem nodup_keys_appendAt (h : (d.map Prod.fst).Nodup) :
    ((appendAt k a d).map Prod.fst).Nodup := by
  induction d with
  | nil => simp [appendAt]
  | cons p d ih =>
    obtain ⟨l, as⟩ := p
    rw [List.map_cons, List.nodup_cons] at h
    unfold appendAt
    split
    · rw [List.map_cons, List.nodup_cons]
      exact h
    next hne =>
      rw [List.map_cons, List.nodup_cons, mem_keys_appendAt]
      refine ⟨fun hmem => ?_, ih h.2⟩
      cases hmem with
      | inl hmem => exact h.1 hmem
      | inr heq => exact hne heq

theorem mem_appendAt_of_ne {k' : κ} {as : List α} (h : k' ≠ k) :
    (k', as) ∈ appendAt k a d ↔ (k', as) ∈ d := by
  induction d with
  | nil => simp [appendAt, h]
  | cons p d ih =>
    obtain ⟨l, bs⟩ := p
    unfold appendAt
    split
    next heq =>
      have hne : k' ≠ l := fun hk => h (hk.trans heq)
      simp [hne]
    · rw [List.mem_cons, ih, List.mem_cons]

theorem mem_appendAt_self {as : List α} (h : (d.map Prod.fst).Nodup) :
    (k, as) ∈ appendAt k a d ↔ (∃ bs, (k, bs) ∈ d ∧ as = bs ++ [a]) ∨
      k ∉ d.map Prod.fst ∧ as = [a] := by
  induction d with
  | nil => simp [appendAt]
  | cons p d ih =>
    obtain ⟨l, bs⟩ := p
    rw [List.map_cons, List.nodup_cons] at h
    unfold appendAt
    split
    next heq =>
      subst heq
      have hnot (cs : List α) : (l, cs) ∉ d := fun hmem => h.1 (List.mem_map.mpr ⟨_, hmem, rfl⟩)
      simp [hnot]
    next hne =>
      have hne' : k ≠ l := fun hk => hne hk.symm
      rw [List.mem_cons, ih h.2]
      simp [hne']

/-- One more entry of the loop. -/
theorem Groups.appendAt (h : Groups d f) :
    Groups (appendAt k a d) (Function.update f k (f k ++ [a])) where
  nodup := nodup_keys_appendAt h.nodup
  mem_iff k' as := by
    by_cases hk : k' = k
    · subst hk
      rw [mem_appendAt_self h.nodup, Function.update_self]
      constructor
      · intro hmem
        cases hmem with
        | inl hmem =>
          obtain ⟨bs, hbs, has⟩ := hmem
          rw [has, ((h.mem_iff k' bs).mp hbs).1]
          exact ⟨rfl, by simp⟩
        | inr hmem =>
          have hnil : f k' = [] := by
            by_contra hne
            exact hmem.1 (List.mem_map.mpr ⟨_, (h.mem_iff k' (f k')).mpr ⟨rfl, hne⟩, rfl⟩)
          rw [hmem.2, hnil]
          exact ⟨rfl, by simp⟩
      · rintro ⟨has, -⟩
        by_cases hnil : f k' = []
        · refine .inr ⟨fun hmem => ?_, by rw [has, hnil, List.nil_append]⟩
          obtain ⟨⟨l, bs⟩, hbs, hl⟩ := List.mem_map.mp hmem
          have hl : l = k' := hl
          subst hl
          exact ((h.mem_iff l bs).mp hbs).2 hnil
        · exact .inl ⟨f k', (h.mem_iff k' _).mpr ⟨rfl, hnil⟩, has⟩
    · rw [mem_appendAt_of_ne hk, h.mem_iff, Function.update_of_ne hk]

/-- The groups of a list by a key. -/
theorem groups_foldl (key : α → κ) (l : List α) :
    Groups (l.foldl (fun d a => Lib.appendAt (key a) a d) []) fun k =>
      l.filter fun a => key a = k := by
  induction l using List.reverseRecOn with
  | nil => exact groups_nil
  | append_singleton l a ih =>
    rw [List.foldl_append, List.foldl_cons, List.foldl_nil]
    have happend := ih.appendAt (k := key a) (a := a)
    refine ⟨happend.nodup, fun k as => ?_⟩
    rw [happend.mem_iff, List.filter_append, List.filter_singleton]
    by_cases hk : k = key a
    · subst hk
      rw [Function.update_self, decide_eq_true rfl]
      exact Iff.rfl
    · have hne : ¬ key a = k := fun heq => hk heq.symm
      rw [Function.update_of_ne hk, decide_eq_false hne]
      exact Iff.of_eq (by rw [Bool.cond_false, List.append_nil])

end Group

end Lib
