import Benji.Storage.File

/-! The texts of keys and their components. -/
namespace Benji
open Lib

namespace FileStorage
variable {k l : Key} {names rel : List Name} {n top : Name} {text root : Text}

theorem name_plain (n : Name) : '/' ∉ n.val ∧ Path.empty n.val = false ∧ n.val ≠ Path.dotdot := by
  have h := n.property
  unfold isName at h
  simpa [and_assoc] using h

theorem name_ne_nil (n : Name) : n.val ≠ [] := by
  intro h
  have hempty := (name_plain n).2.1
  rw [h] at hempty
  cases hempty

theorem splitOn_slashed (h : names ≠ []) :
    (slashed names).splitOn '/' = names.map Subtype.val := by
  refine List.splitOn_intercalate '/' ?_ (List.map_eq_nil_iff.not.mpr h)
  intro c hc
  obtain ⟨n, -, rfl⟩ := List.mem_map.mp hc
  exact (name_plain n).1

theorem names?_eq_some : names? text = some names ↔ text.splitOn '/' = names.map Subtype.val := by
  unfold names?
  generalize text.splitOn '/' = parts
  induction parts generalizing names with
  | nil =>
    rw [List.mapM_nil]
    cases names with
    | nil => simp
    | cons n names => simp [pure]
  | cons c parts ih =>
    rw [List.mapM_cons]
    by_cases hc : isName c = true
    · rw [dif_pos hc]
      cases names with
      | nil =>
        constructor
        · intro h
          obtain ⟨_, hmem, heq⟩ := Option.bind_eq_some_iff.mp h
          obtain ⟨_, -, heq⟩ := Option.bind_eq_some_iff.mp heq
          cases heq
        · nofun
      | cons n names =>
        simp only [Option.pure_def, Option.bind_eq_bind, Option.bind_some, Option.bind_eq_some_iff,
          Option.some.injEq, List.cons.injEq, List.map_cons]
        constructor
        · rintro ⟨ns, hns, rfl, rfl⟩
          exact ⟨rfl, ih.mp hns⟩
        · rintro ⟨rfl, hparts⟩
          exact ⟨names, ih.mpr hparts, rfl, rfl⟩
    · rw [dif_neg hc]
      constructor
      · nofun
      · intro h
        cases names with
        | nil => cases h
        | cons n names =>
          obtain ⟨rfl, -⟩ := List.cons.inj h
          exact absurd n.property hc

theorem ofText?_eq_some : Key.ofText? text = some k ↔ text = k.text := by
  unfold Key.ofText?
  rw [Option.bind_eq_some_iff]
  constructor
  · rintro ⟨names, hnames, h⟩
    split at h
    · cases h
      rw [Key.text, slashed, ← names?_eq_some.mp hnames, List.intercalate_splitOn]
    · cases h
  · rintro rfl
    exact ⟨k.names, names?_eq_some.mpr (splitOn_slashed k.ne_nil), dif_pos k.ne_nil⟩

theorem Key.ofText?_text (k : Key) : Key.ofText? k.text = some k := ofText?_eq_some.mpr rfl

theorem text_inj : k.text = l.text ↔ k = l := by
  constructor
  · intro h
    have hl := ofText?_eq_some.mpr h
    rw [Key.ofText?_text] at hl
    exact Option.some.inj hl
  · rintro rfl
    rfl

theorem slashed_cons (h : names ≠ []) : slashed (n :: names) = n.val ++ '/' :: slashed names := by
  unfold slashed
  rw [List.map_cons, List.intercalate_cons_of_ne_nil (List.map_eq_nil_iff.not.mpr h),
    List.append_assoc]
  rfl

/-- The keys below a directory of the storage. -/
theorem topText_some_le_iff : topText (some top) <+: k.text ↔ ∃ rest, rest ≠ [] ∧
    k.names = top :: rest := by
  constructor
  · rintro ⟨rest, hrest⟩
    have htext : slashed k.names = top.val ++ '/' :: rest := by
      rw [topText, List.append_assoc] at hrest
      exact hrest.symm
    have hsplit := splitOn_slashed k.ne_nil
    rw [htext, List.splitOn_append_cons_self_of_not_mem (name_plain top).1] at hsplit
    cases hnames : k.names with
    | nil => exact absurd hnames k.ne_nil
    | cons n names =>
      rw [hnames, List.map_cons] at hsplit
      obtain ⟨htop, hrest'⟩ := List.cons.inj hsplit
      refine ⟨names, ?_, by rw [Subtype.ext htop]⟩
      rintro rfl
      exact List.splitOn_ne_nil '/' rest hrest'
  · rintro ⟨rest, hrest, hnames⟩
    refine ⟨slashed rest, ?_⟩
    rw [Key.text, hnames, slashed_cons hrest, topText, List.append_assoc]
    rfl

theorem head_name (n : Name) : n.val.head? ≠ some '/' := by
  intro h
  exact (name_plain n).1 (List.mem_of_mem_head? h)

theorem join_name (hroot : root = [] ∨ root.getLast? = some '/') :
    Path.join root n.val = root ++ n.val := by
  rw [Path.join, if_neg (head_name n), if_pos hroot]

theorem getLast?_append_name (root : Text) (n : Name) : (root ++ n.val).getLast? ≠ some '/' := by
  rw [List.getLast?_append_of_ne_nil root (name_ne_nil n)]
  intro h
  exact (name_plain n).1 (List.mem_of_mem_getLast? h)

theorem foldl_join_of_name (hroot : root ≠ []) (hlast : root.getLast? ≠ some '/') :
    rel.foldl (fun r m => Path.join r m.val) root =
      root ++ (rel.map fun m => '/' :: m.val).flatten := by
  induction rel generalizing root with
  | nil => rw [List.foldl_nil, List.map_nil, List.flatten_nil, List.append_nil]
  | cons m rel ih =>
    have hjoin : Path.join root m.val = root ++ '/' :: m.val := by
      rw [Path.join, if_neg (head_name m), if_neg (not_or.mpr ⟨hroot, hlast⟩)]
    rw [List.foldl_cons, hjoin, List.append_cons, ih, List.map_cons, List.flatten_cons]
    · simp only [List.append_assoc, List.cons_append, List.nil_append]
    · exact List.append_ne_nil_of_right_ne_nil _ (name_ne_nil m)
    · exact getLast?_append_name _ m

theorem slashed_eq (n : Name) (rel : List Name) :
    slashed (n :: rel) = n.val ++ (rel.map fun m => '/' :: m.val).flatten := by
  induction rel generalizing n with
  | nil => simp [slashed]
  | cons m rel ih =>
    rw [slashed_cons (List.cons_ne_nil m rel), ih, List.map_cons, List.flatten_cons]
    rfl

/-- Joining names one after the other puts slashes between them. -/
theorem foldl_join (hroot : root = [] ∨ root.getLast? = some '/') :
    (n :: rel).foldl (fun r m => Path.join r m.val) root = root ++ slashed (n :: rel) := by
  rw [List.foldl_cons, join_name hroot, foldl_join_of_name, slashed_eq, List.append_assoc]
  · exact List.append_ne_nil_of_right_ne_nil _ (name_ne_nil n)
  · exact getLast?_append_name root n

end FileStorage
end Benji
