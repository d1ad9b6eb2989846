import Mathlib.Data.List.SplitBy
import Benji.Lib.Group

/-! `itertools.groupby`, which starts a new group whenever the key changes. -/
namespace Lib

variable {α κ : Type} {key : α → κ} {l : List α} {groups : List (List α)}

/-- The lists of `groupby(l, key)`. -/
def groupby [DecidableEq κ] (key : α → κ) (l : List α) : List (List α) :=
  l.splitBy fun a b => key a = key b

/-- Runs of one key, each as long as possible. -/
structure Runs (key : α → κ) (l : List α) (groups : List (List α)) : Prop where
  flatten : groups.flatten = l
  nonempty : ∀ g ∈ groups, g ≠ []
  constant : ∀ g ∈ groups, ∀ a ∈ g, ∀ b ∈ g, key a = key b
  adjacent : groups.IsChain fun g h => ∃ hg hh, key (g.getLast hg) ≠ key (h.head hh)

/-- What has one key is not interrupted. -/
def Contiguous (key : α → κ) (l : List α) : Prop :=
  ∀ a b c, [a, b, c].Sublist l → key a = key c → key b = key a

theorem Contiguous.sublist {l' : List α} (h : Contiguous key l) (hs : l'.Sublist l) :
    Contiguous key l' := fun a b c habc => h a b c (habc.trans hs)

theorem contiguous_of_sorted [PartialOrder κ] (h : l.Pairwise fun a b => key a ≤ key b) :
    Contiguous key l := by
  intro a b c habc hac
  have hp := h.sublist habc
  simp only [List.pairwise_cons, List.mem_cons, forall_eq_or_imp, List.not_mem_nil,
    false_implies, implies_true, and_true] at hp
  apply le_antisymm
  · rw [hac]
    exact hp.2.1
  · exact hp.1.1

theorem eq_of_isChain {a : α} (h : l.IsChain fun a b => key a = key b)
    (ha : a ∈ l) {b : α} (hb : b ∈ l) : key a = key b := by
  have hp : l.Pairwise fun a b => key a = key b := by
    rw [← List.isChain_iff_pairwise]
    exact h
  have hsymm : Std.Symm fun a b : α => key a = key b := ⟨fun _ _ => Eq.symm⟩
  have hself : ∀ a ∈ l, key a = key a := fun _ _ => rfl
  exact List.Pairwise.forall_of_forall hself hp ha hb

theorem runs_groupby [DecidableEq κ] (key : α → κ) (l : List α) :
    Runs key l (groupby key l) := by
  have hconstant : ∀ g ∈ groupby key l, ∀ a ∈ g, ∀ b ∈ g, key a = key b := by
    intro g hg a ha b hb
    have hchain := List.isChain_of_mem_splitBy hg
    simp only [decide_eq_true_eq] at hchain
    exact eq_of_isChain hchain ha hb
  refine ⟨List.flatten_splitBy _ _, fun g hg => List.ne_nil_of_mem_splitBy hg, hconstant, ?_⟩
  apply (List.isChain_getLast_head_splitBy (fun a b => decide (key a = key b)) l).imp
  rintro g h ⟨hg, hh, hne⟩
  exact ⟨hg, hh, of_decide_eq_false hne⟩

/-- No two groups have the same key. -/
def Apart (key : α → κ) (groups : List (List α)) : Prop :=
  groups.Pairwise fun g h => ∀ a ∈ g, ∀ b ∈ h, key a ≠ key b

theorem Runs.tail {g : List α} (h : Runs key l (g :: groups)) :
    Runs key groups.flatten groups where
  flatten := rfl
  nonempty f hf := h.nonempty f (List.mem_cons_of_mem g hf)
  constant f hf := h.constant f (List.mem_cons_of_mem g hf)
  adjacent := h.adjacent.tail

theorem Runs.apart (h : Runs key l groups) (hc : Contiguous key l) : Apart key groups := by
  induction groups generalizing l with
  | nil => exact .nil
  | cons g groups ih =>
    have hl : g ++ groups.flatten = l := h.flatten
    have hrest : groups.flatten.Sublist l := hl ▸ List.sublist_append_right _ _
    refine List.Pairwise.cons ?_ (ih h.tail (hc.sublist hrest))
    intro f hf a ha c hfc hac
    cases groups with
    | nil => cases hf
    | cons g' groups =>
      -- Between `g` and a later group of its key stands its neighbour, of another key.
      obtain ⟨hg, hg', hne⟩ := (List.isChain_cons_cons.mp h.adjacent).1
      have hlast : key (g.getLast hg) = key a :=
        h.constant g List.mem_cons_self _ (List.getLast_mem hg) a ha
      cases List.mem_cons.mp hf with
      | inl heq =>
        subst heq
        have hhead := h.constant f (by simp) _ (List.head_mem hg') c hfc
        exact hne (hlast.trans (hac.trans hhead.symm))
      | inr hmem =>
        have hsub : [a, g'.head hg', c].Sublist l := by
          rw [← hl, List.flatten_cons]
          have hca : [a].Sublist g := List.singleton_sublist.mpr ha
          have hcb : [g'.head hg'].Sublist g' := List.singleton_sublist.mpr (List.head_mem hg')
          have hcc : [c].Sublist groups.flatten :=
            List.singleton_sublist.mpr (List.mem_flatten.mpr ⟨f, hmem, hfc⟩)
          exact hca.append (hcb.append hcc)
        exact hne (hlast.trans (hc a _ c hsub hac).symm)

theorem Runs.contiguous (h : Runs key l groups) (ha : Apart key groups) : Contiguous key l := by
  induction groups generalizing l with
  | nil =>
    have hl : [] = l := h.flatten
    subst hl
    intro a b c habc
    cases habc
  | cons g groups ih =>
    have hl : g ++ groups.flatten = l := h.flatten
    obtain ⟨hg, hrest⟩ := List.pairwise_cons.mp ha
    have hne {a c : α} (ha : a ∈ g) (hc : c ∈ groups.flatten) : key a ≠ key c := by
      obtain ⟨f, hf, hfc⟩ := List.mem_flatten.mp hc
      exact hg f hf a ha c hfc
    intro a b c habc hac
    rw [← hl] at habc
    obtain ⟨l₁, l₂, heq, h₁, h₂⟩ := List.sublist_append_iff.mp habc
    -- The last of the three is in the group of the first, and so is what lies between.
    rcases l₁ with _ | ⟨x, _ | ⟨y, _ | ⟨z, l₁⟩⟩⟩
    · obtain rfl : [a, b, c] = l₂ := heq
      exact ih h.tail hrest a b c h₂ hac
    · obtain ⟨rfl, rfl⟩ : a = x ∧ [b, c] = l₂ := List.cons.inj heq
      exact absurd hac (hne (h₁.subset (by simp)) (h₂.subset (by simp)))
    · obtain ⟨rfl, rfl, rfl⟩ : a = x ∧ b = y ∧ [c] = l₂ := by simpa using heq
      exact absurd hac (hne (h₁.subset (by simp)) (h₂.subset (by simp)))
    · obtain ⟨rfl, rfl, rfl, -⟩ : a = x ∧ b = y ∧ c = z ∧ l₁ ++ l₂ = [] := by
        simpa [eq_comm] using heq
      exact h.constant g List.mem_cons_self b (h₁.subset (by simp)) a (h₁.subset (by simp))

theorem Runs.eq_filter [DecidableEq κ] (h : Runs key l groups) (hp : Apart key groups)
    {g : List α} {a : α} (hg : g ∈ groups) (ha : a ∈ g) :
    g = l.filter fun b => key b = key a := by
  induction groups generalizing l with
  | nil => cases hg
  | cons f groups ih =>
    have hl : f ++ groups.flatten = l := h.flatten
    obtain ⟨hf, hrest⟩ := List.pairwise_cons.mp hp
    rw [← hl, List.filter_append]
    cases List.mem_cons.mp hg with
    | inl heq =>
      subst heq
      have hall : g.filter (fun b => key b = key a) = g := by
        rw [List.filter_eq_self]
        intro b hb
        exact decide_eq_true (h.constant g List.mem_cons_self b hb a ha)
      have hnone : groups.flatten.filter (fun b => key b = key a) = [] := by
        rw [List.filter_eq_nil_iff]
        intro b hb
        obtain ⟨f, hmem, hfb⟩ := List.mem_flatten.mp hb
        simpa using (hf f hmem a ha b hfb).symm
      rw [hall, hnone, List.append_nil]
    | inr hmem =>
      have hnone : f.filter (fun b => key b = key a) = [] := by
        rw [List.filter_eq_nil_iff]
        intro b hb
        simpa using hf g hmem b hb a ha
      rw [hnone, List.nil_append]
      exact ih h.tail hrest hmem

/-- Sorted by the key, the groups are what a filter gives for each key. -/
theorem apart_sorted [LinearOrder κ] (key : α → κ) (l : List α) :
    Apart key (groupby key (l.insertionSort fun a b => key a ≤ key b)) :=
  (runs_groupby key _).apart (contiguous_of_sorted (List.pairwise_insertionSort _ _))

theorem filter_sorted [LinearOrder κ] (key : α → κ) (l : List α) (k : κ) :
    (l.insertionSort fun a b => key a ≤ key b).filter (fun a => key a = k) =
      l.filter fun a => key a = k := by
  have htotal : Std.Total fun a b : α => key a ≤ key b := ⟨fun a b => le_total (key a) (key b)⟩
  have htrans : IsTrans α fun a b => key a ≤ key b := ⟨fun _ _ _ => le_trans⟩
  rw [filter_insertionSort]
  apply List.Pairwise.insertionSort_eq
  rw [List.pairwise_filter]
  apply List.pairwise_of_forall
  intro a b ha hb
  rw [decide_eq_true_eq] at ha hb
  rw [ha, hb]

theorem mem_groupby_sorted [LinearOrder κ] {g : List α} :
    g ∈ groupby key (l.insertionSort fun a b => key a ≤ key b) ↔
      ∃ a ∈ l, g = l.filter fun b => key b = key a := by
  have hperm := List.perm_insertionSort (fun a b : α => key a ≤ key b) l
  have hruns := runs_groupby key (l.insertionSort fun a b => key a ≤ key b)
  have hfilter {g : List α} {a : α}
      (hg : g ∈ groupby key (l.insertionSort fun a b => key a ≤ key b)) (ha : a ∈ g) :
      g = l.filter fun b => key b = key a := by
    rw [hruns.eq_filter (apart_sorted key l) hg ha]
    exact filter_sorted key l (key a)
  constructor
  · intro hg
    obtain ⟨a, ha⟩ := List.exists_mem_of_ne_nil g (hruns.nonempty g hg)
    refine ⟨a, hperm.subset ?_, hfilter hg ha⟩
    exact hruns.flatten ▸ List.mem_flatten.mpr ⟨g, hg, ha⟩
  · rintro ⟨a, ha, rfl⟩
    have hmem := hperm.symm.subset ha
    rw [← hruns.flatten, List.mem_flatten] at hmem
    obtain ⟨g, hg, hag⟩ := hmem
    rw [← hfilter hg hag]
    exact hg

/-- The first element of the first group. -/
theorem Runs.exists_head (h : Runs key l groups) (hne : l ≠ []) :
    ∃ g a, groups.head? = some g ∧ g.head? = some a ∧ a ∈ l := by
  cases groups with
  | nil => exact absurd h.flatten.symm hne
  | cons g groups =>
    cases g with
    | nil => exact absurd rfl (h.nonempty [] List.mem_cons_self)
    | cons a g => exact ⟨_, a, rfl, rfl, h.flatten ▸ List.mem_cons_self⟩

section Listed
variable {β : Type} {idOf : β → κ} {entry : List α → β} {good : List α → β → Prop}

/-- One entry for each key, good for the list of what has the key. -/
structure Listed [DecidableEq κ] (key : α → κ) (idOf : β → κ) (good : List α → β → Prop)
    (l : List α) (entries : List β) : Prop where
  nodup : (entries.map idOf).Nodup
  mem_iff : ∀ k, k ∈ entries.map idOf ↔ ∃ a ∈ l, key a = k
  each : ∀ e ∈ entries, good (l.filter fun a => key a = idOf e) e

theorem nodup_iff_apart (h : Runs key l groups)
    (hid : ∀ g ∈ groups, ∀ a ∈ g, key a = idOf (entry g)) :
    ((groups.map entry).map idOf).Nodup ↔ Apart key groups := by
  rw [List.map_map, List.Nodup, List.pairwise_map]
  apply List.Pairwise.iff_of_mem
  intro g f hg hf
  obtain ⟨a, ha⟩ := List.exists_mem_of_ne_nil g (h.nonempty g hg)
  obtain ⟨b, hb⟩ := List.exists_mem_of_ne_nil f (h.nonempty f hf)
  constructor
  · intro hne a ha b hb
    rw [hid g hg a ha, hid f hf b hb]
    exact hne
  · intro hne
    have hkeys := hne a ha b hb
    rw [hid g hg a ha, hid f hf b hb] at hkeys
    exact hkeys

/-- An entry for each group lists the keys exactly if no key has two groups. -/
theorem listed_iff [DecidableEq κ] (h : Runs key l groups)
    (hid : ∀ g ∈ groups, ∀ a ∈ g, key a = idOf (entry g)) :
    Listed key idOf good l (groups.map entry) ↔
      Apart key groups ∧ ∀ g ∈ groups, good g (entry g) := by
  have hfilter (hp : Apart key groups) {g : List α} (hg : g ∈ groups) :
      l.filter (fun a => key a = idOf (entry g)) = g := by
    obtain ⟨a, ha⟩ := List.exists_mem_of_ne_nil g (h.nonempty g hg)
    rw [← hid g hg a ha]
    exact (h.eq_filter hp hg ha).symm
  constructor
  · intro hl
    have hp := (nodup_iff_apart h hid).mp hl.nodup
    refine ⟨hp, fun g hg => ?_⟩
    have heach := hl.each (entry g) (List.mem_map_of_mem hg)
    rw [hfilter hp hg] at heach
    exact heach
  · rintro ⟨hp, hgood⟩
    refine ⟨(nodup_iff_apart h hid).mpr hp, fun k => ?_, fun e he => ?_⟩
    · rw [List.map_map, List.mem_map]
      constructor
      · rintro ⟨g, hg, rfl⟩
        obtain ⟨a, ha⟩ := List.exists_mem_of_ne_nil g (h.nonempty g hg)
        have hal : a ∈ l := h.flatten ▸ List.mem_flatten.mpr ⟨g, hg, ha⟩
        exact ⟨a, hal, hid g hg a ha⟩
      · rintro ⟨a, ha, rfl⟩
        rw [← h.flatten, List.mem_flatten] at ha
        obtain ⟨g, hg, ha⟩ := ha
        exact ⟨g, hg, (hid g hg a ha).symm⟩
    · obtain ⟨g, hg, rfl⟩ := List.mem_map.mp he
      rw [hfilter hp hg]
      exact hgood g hg

theorem listed_sorted [LinearOrder κ] {entries : List β} :
    Listed key idOf good (l.insertionSort fun a b => key a ≤ key b) entries ↔
      Listed key idOf good l entries := by
  have hmem (a : α) : a ∈ l.insertionSort (fun a b => key a ≤ key b) ↔ a ∈ l :=
    (List.perm_insertionSort _ l).mem_iff
  constructor
  · intro h
    refine ⟨h.nodup, fun k => ?_, fun e he => ?_⟩
    · rw [h.mem_iff]
      exact exists_congr fun a => and_congr_left fun _ => hmem a
    · rw [← filter_sorted]
      exact h.each e he
  · intro h
    refine ⟨h.nodup, fun k => ?_, fun e he => ?_⟩
    · rw [h.mem_iff]
      exact exists_congr fun a => and_congr_left fun _ => (hmem a).symm
    · rw [filter_sorted]
      exact h.each e he

end Listed

end Lib
