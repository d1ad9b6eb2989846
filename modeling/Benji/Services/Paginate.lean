import Mathlib.Data.Rat.Floor
import Mathlib.Data.List.Lex
import Mathlib.Data.List.Perm.Basic
import Mathlib.Tactic.Linarith

/-! Queries of rows and the pages of their results. -/
namespace Benji.Services

/-- The rows that match, as a set, and the columns of `ORDER BY`. -/
structure Query (α : Type) where
  rows : List α
  orderBy : List (α → ℤ)

/-- One page of a query, and the number of all its rows. -/
structure Pagination (α : Type) where
  page : ℤ
  perPage : ℤ
  total : ℕ
  items : List α
deriving DecidableEq

namespace Pagination
variable {α : Type} (p : Pagination α)

def pages : ℤ := if p.perPage = 0 then 0 else ⌈(p.total : ℚ) / p.perPage⌉

def hasPrev : Bool := 1 < p.page

def prevNum : Option ℤ := if p.hasPrev then some (p.page - 1) else none

def hasNext : Bool := p.page < p.pages

def nextNum : Option ℤ := if p.hasNext then some (p.page + 1) else none

end Pagination

/-- `LIMIT` and `OFFSET`; a negative limit is none, and a negative offset is 0. -/
def limitOffset {α : Type} (limit offset : ℤ) (rows : List α) : List α :=
  let rest := rows.drop offset.toNat
  if limit < 0 then rest else rest.take limit.toNat

namespace Query
variable {α : Type}

def order_by (q : Query α) (column : α → ℤ) : Query α := { q with orderBy := q.orderBy ++ [column] }

/-- An order in which a database may return the rows: any one that respects `ORDER BY`. -/
structure Answer (q : Query α) (rows : List α) : Prop where
  perm : rows.Perm q.rows
  sorted : rows.Pairwise fun a b => q.orderBy.map (fun column => column a) ≤
    q.orderBy.map fun column => column b

/-- The query of a model, which may have a column `created_at`, with a filter. -/
def build_s (createdAt : Option (α → ℤ)) (filter : α → Bool) (table : List α) : Query α :=
  let query : Query α := ⟨table.filter filter, []⟩
  match createdAt with
  | some column =>
    -- `order_by` returns another query; this one is dropped.
    let _ := query.order_by column
    query
  | none => query

/-- `rows` is what the database returns this time. -/
def paginate (q : Query α) (rows : List α) (page perPage maxPerPage : Option ℤ) (errorOut : Bool) :
    Pagination α :=
  let page := page.getD 1
  let perPage := perPage.getD 20
  let perPage := match maxPerPage with
    | some maximum => min perPage maximum
    | none => perPage
  let page := if page < 1 ∧ errorOut = false then 1 else page
  let perPage := if perPage < 0 ∧ errorOut = false then 20 else perPage
  { page, perPage, total := q.rows.length,
    items := limitOffset perPage ((page - 1) * perPage) rows }

/-- The rows of the pages 1 to `pages`, where `answers` is what the database returns for each. -/
def walk (q : Query α) (answers : ℕ → List α) (perPage : ℤ) : List α :=
  (List.range (q.paginate (answers 0) (some 1) (some perPage) none false).pages.toNat).flatMap
    fun i => (q.paginate (answers i) (some (i + 1)) (some perPage) none false).items

variable {q : Query α} {rows l : List α} {answers : ℕ → List α} {n i : ℕ} {perPage : ℤ}

theorem items_paginate (h : 1 ≤ perPage) :
    (q.paginate rows (some (i + 1)) (some perPage) none false).items =
      (rows.drop (i * perPage.toNat)).take perPage.toNat := by
  have hpage : ¬ ((i : ℤ) + 1 < 1) := by omega
  have hperPage : ¬ perPage < 0 := by omega
  have hoffset : ((i : ℤ) * perPage).toNat = i * perPage.toNat := by
    rw [Int.toNat_mul (by omega) (by omega), Int.toNat_natCast]
  simp only [paginate, limitOffset, Option.getD_some, hpage, hperPage, false_and, if_false,
    add_sub_cancel_right, hoffset]

theorem pages_paginate (h : 1 ≤ perPage) :
    (q.paginate rows (some 1) (some perPage) none false).pages =
      ⌈(q.rows.length : ℚ) / perPage⌉ := by
  have hperPage : ¬ perPage < 0 := by omega
  have hne : perPage ≠ 0 := by omega
  simp only [paginate, Pagination.pages, Option.getD_some, hperPage, false_and, if_false, hne]

/-- As many pages as the rows need. -/
theorem length_le_pages (h : 1 ≤ perPage) :
    q.rows.length ≤ (q.paginate rows (some 1) (some perPage) none false).pages.toNat *
      perPage.toNat := by
  rw [pages_paginate h]
  have hpos : (0 : ℚ) < perPage := by exact_mod_cast h
  have hceil := Int.le_ceil ((q.rows.length : ℚ) / perPage)
  rw [div_le_iff₀ hpos] at hceil
  have hle : (q.rows.length : ℤ) ≤ ⌈(q.rows.length : ℚ) / perPage⌉ * perPage := by
    exact_mod_cast hceil
  have hnonneg : 0 ≤ ⌈(q.rows.length : ℚ) / perPage⌉ := by
    apply Int.ceil_nonneg
    positivity
  have hnat : ((⌈(q.rows.length : ℚ) / perPage⌉.toNat * perPage.toNat : ℕ) : ℤ) =
      ⌈(q.rows.length : ℚ) / perPage⌉ * perPage := by
    rw [Nat.cast_mul, Int.toNat_of_nonneg hnonneg, Int.toNat_of_nonneg (by omega)]
  omega

theorem flatMap_slices {m P : ℕ} :
    (List.range m).flatMap (fun i => (l.drop (i * P)).take P) = l.take (m * P) := by
  induction m with
  | zero => simp
  | succ m ih =>
    rw [List.range_succ, List.flatMap_append, ih, Nat.succ_mul, List.take_add]
    simp

/-- Where the database returns the rows in one order on all calls, the pages are complete. -/
theorem walk_of_consistent (h : 1 ≤ perPage) (hl : l.length = q.rows.length) :
    q.walk (fun _ => l) perPage = l := by
  unfold walk
  have hle := @length_le_pages _ q l perPage h
  simp only [items_paginate h]
  rw [flatMap_slices, List.take_of_length_le (by omega)]

/-- Only an `ORDER BY` of columns that tell the rows apart makes the order one. -/
theorem walk_of_total (h : 1 ≤ perPage) (hanswers : ∀ i, q.Answer (answers i))
    (htotal : ∀ a ∈ q.rows, ∀ b ∈ q.rows,
      q.orderBy.map (fun column => column a) = q.orderBy.map (fun column => column b) → a = b) :
    (q.walk answers perPage).Perm q.rows := by
  have hsame (i : ℕ) : answers i = answers 0 := by
    apply List.Perm.eq_of_pairwise ?_ (hanswers i).sorted (hanswers 0).sorted
    · exact (hanswers i).perm.trans (hanswers 0).perm.symm
    · intro a b ha hb hab hba
      exact htotal a ((hanswers i).perm.subset ha) b ((hanswers 0).perm.subset hb)
        (le_antisymm hab hba)
  have hconstant : answers = fun _ => answers 0 := funext hsame
  rw [hconstant, walk_of_consistent h (hanswers 0).perm.length_eq]
  exact (hanswers 0).perm

/-- Two rows on pages of one row, ordered by the rows themselves. -/
theorem walk_of_total_example :
    (((build_s none (fun _ => true) [2, 1]).order_by (fun n : ℕ => (n : ℤ))).walk
      (fun _ => [1, 2]) 1).Perm [2, 1] := by
  refine walk_of_total (by decide) (fun _ => ⟨.swap 2 1 [], by decide⟩) ?_
  intro a _ b _ h
  simpa [order_by, build_s] using h

theorem walk_of_one_page (h : 1 ≤ perPage) (hanswers : ∀ i, q.Answer (answers i))
    (hle : (q.rows.length : ℤ) ≤ perPage) : (q.walk answers perPage).Perm q.rows := by
  have hpos : (0 : ℚ) < perPage := by exact_mod_cast h
  have hone : (q.paginate (answers 0) (some 1) (some perPage) none false).pages.toNat ≤ 1 := by
    rw [pages_paginate h, Int.toNat_le, Int.ceil_le, div_le_iff₀ hpos]
    have hcast : (q.rows.length : ℚ) ≤ perPage := by exact_mod_cast hle
    simpa using hcast
  have hlength := @length_le_pages _ q (answers 0) perPage h
  unfold walk
  simp only [items_paginate h]
  generalize (q.paginate (answers 0) (some 1) (some perPage) none false).pages.toNat = m
    at hone hlength
  have hperm := (hanswers 0).perm
  have hcases : m = 0 ∨ m = 1 := by omega
  cases hcases with
  | inl hm =>
    have hnil : q.rows = [] := by
      apply List.eq_nil_of_length_eq_zero
      simpa [hm] using hlength
    rw [hm, hnil]
    exact .nil
  | inr hm =>
    have hfits : (answers 0).length ≤ perPage.toNat := by
      rw [hperm.length_eq]
      simpa [hm] using hlength
    rw [hm]
    simpa [List.take_of_length_le hfits] using hperm

/-- Without `ORDER BY`, a row on the second page may be on the first one at the next call. -/
theorem exists_incomplete (h : 1 ≤ perPage) (hn : q.rows.Nodup) (horder : q.orderBy = [])
    (hlt : perPage < q.rows.length) :
    ∃ answers : ℕ → List α, (∀ i, q.Answer (answers i)) ∧
      ¬ (q.walk answers perPage).Perm q.rows := by
  classical
  have hP : perPage.toNat < q.rows.length := by omega
  let x := q.rows[perPage.toNat]
  have hx : x ∈ q.rows := List.getElem_mem hP
  have hanswer {rows : List α} (hperm : rows.Perm q.rows) : q.Answer rows := by
    refine ⟨hperm, ?_⟩
    rw [horder]
    exact List.pairwise_of_forall fun _ _ => by simp
  refine ⟨fun i => if i = 0 then q.rows else x :: q.rows.erase x, fun i => ?_, fun hperm => ?_⟩
  · dsimp only
    split_ifs
    · exact hanswer (.refl _)
    · exact hanswer (List.perm_cons_erase hx).symm
  · have hmem := hperm.symm.subset hx
    unfold walk at hmem
    rw [List.mem_flatMap] at hmem
    obtain ⟨i, -, hmem⟩ := hmem
    rw [items_paginate h] at hmem
    cases i with
    | zero =>
      have htake : x ∈ q.rows.take perPage.toNat := by simpa using hmem
      have hdrop : x ∈ q.rows.drop perPage.toNat := by
        rw [List.drop_eq_getElem_cons hP]
        exact List.mem_cons_self
      rw [← List.take_append_drop perPage.toNat q.rows, List.nodup_append] at hn
      exact hn.2.2 x htake x hdrop rfl
    | succ i =>
      dsimp only at hmem
      rw [if_neg (Nat.succ_ne_zero i)] at hmem
      have hpos : 0 < (i + 1) * perPage.toNat := by
        apply Nat.mul_pos (Nat.succ_pos i)
        omega
      obtain ⟨k, hk⟩ := Nat.exists_eq_succ_of_ne_zero hpos.ne'
      rw [hk, List.drop_succ_cons] at hmem
      exact hn.not_mem_erase (List.mem_of_mem_drop (List.mem_of_mem_take hmem))

theorem items_subset {page perPage maxPerPage : Option ℤ} {errorOut : Bool} {a : α}
    (h : a ∈ (q.paginate rows page perPage maxPerPage errorOut).items) : a ∈ rows := by
  unfold paginate limitOffset at h
  dsimp only at h
  split_ifs at h
  all_goals first
    | exact List.mem_of_mem_drop h
    | exact List.mem_of_mem_drop (List.mem_of_mem_take h)

/-- A page with a successor is not empty. -/
theorem items_ne_nil {page pageSize : ℤ} (hsize : pageSize ≠ 0) (hrows : rows.Perm q.rows)
    (h : (q.paginate rows (some page) (some pageSize) none false).hasNext = true) :
    (q.paginate rows (some page) (some pageSize) none false).items ≠ [] := by
  simp only [paginate, Pagination.hasNext, Pagination.pages, Option.getD_some, decide_eq_true_eq,
    and_true] at h ⊢
  generalize hp : (if page < 1 then 1 else page) = p at h ⊢
  generalize hn : (if pageSize < 0 then 20 else pageSize) = n at h ⊢
  have hp1 : 1 ≤ p := by
    rw [← hp]
    split_ifs <;> omega
  have hn1 : 1 ≤ n := by
    rw [← hn]
    split_ifs with hneg
    · decide
    · exact Int.add_one_le_iff.mpr (lt_of_le_of_ne (not_lt.mp hneg) hsize.symm)
  have hpos : (0 : ℚ) < n := by exact_mod_cast hn1
  rw [if_neg (by omega), Int.lt_ceil, lt_div_iff₀ hpos] at h
  have hlt : p * n < (q.rows.length : ℤ) := by exact_mod_cast h
  have hoffset : (p - 1) * n < p * n := by
    apply mul_lt_mul_of_pos_right <;> omega
  have hnonneg : 0 ≤ (p - 1) * n := by
    apply mul_nonneg <;> omega
  unfold limitOffset
  rw [if_neg (by omega), ← List.length_pos_iff_ne_nil, List.length_take, List.length_drop,
    hrows.length_eq]
  omega

theorem page_lt_pages {page pageSize : ℤ}
    (h : (q.paginate rows (some page) (some pageSize) none false).hasNext = true) :
    page < (q.paginate [] (some 1) (some pageSize) none false).pages := by
  have hpages : (q.paginate rows (some page) (some pageSize) none false).pages =
      (q.paginate [] (some 1) (some pageSize) none false).pages := rfl
  have hle : page ≤ (q.paginate rows (some page) (some pageSize) none false).page := by
    simp only [paginate, Option.getD_some, and_true]
    split_ifs <;> omega
  unfold Pagination.hasNext at h
  rw [decide_eq_true_eq, hpages] at h
  exact lt_of_le_of_lt hle h

/-- The loop of `dump_raw_object`; `answers` is what the database returns at each call. -/
def dumpPages (q : Query α) (answers : ℕ → List α) (pageSize page : ℤ) (call : ℕ)
    (rawData : List α) (prevPage : Option ℤ) : List α × Pagination α × Option ℤ :=
  let objects := q.paginate (answers call) (some page) (some pageSize) none false
  let rawData := rawData ++ objects.items
  let prevPage := if prevPage = none ∧ objects.hasPrev then objects.prevNum else prevPage
  if h : rawData ≠ [] ∨ objects.hasNext = false then (rawData, objects, prevPage)
  else dumpPages q answers pageSize (page + 1) (call + 1) rawData prevPage
termination_by ((q.paginate [] (some 1) (some pageSize) none false).pages - page).toNat
decreasing_by
  have hlt := page_lt_pages (Bool.eq_true_of_not_eq_false fun hnext => h (.inr hnext))
  omega

/-- `int(data.pop(key, default) or default)`. -/
def orDefault (value : Option ℤ) (default : ℤ) : ℤ :=
  match value with
  | none => default
  | some n => if n = 0 then default else n

/-- `dump_raw_object` on the query of the model and the condition: the rows, the page they are on
and the number of the page before. -/
def dumpRawObject (q : Query α) (answers : ℕ → List α) (page pageSize : Option ℤ) :
    List α × Pagination α × Option ℤ :=
  dumpPages q answers (orDefault pageSize 10) (orDefault page 1) 0 [] none

/-- The loop ends at the first page: an empty one has no successor. -/
theorem dumpRawObject_eq {page pageSize : Option ℤ} (h : (answers 0).Perm q.rows) :
    q.dumpRawObject answers page pageSize =
      let objects := q.paginate (answers 0) (some (orDefault page 1))
        (some (orDefault pageSize 10)) none false
      (objects.items, objects, objects.prevNum) := by
  have hsize : orDefault pageSize 10 ≠ 0 := by
    unfold orDefault
    split
    · decide
    · split_ifs with hn
      · decide
      · exact hn
  unfold dumpRawObject dumpPages
  dsimp only
  rw [dif_pos]
  · rw [List.nil_append]
    congr 2
    unfold Pagination.prevNum
    split_ifs <;> simp_all
  · by_contra hnot
    rw [not_or, not_not, List.nil_append] at hnot
    have hnext := Bool.eq_true_of_not_eq_false hnot.2
    exact items_ne_nil hsize h hnext hnot.1

theorem rows_of_dumpRawObject {page pageSize : Option ℤ} (h : (answers 0).Perm q.rows) {a : α}
    (ha : a ∈ (q.dumpRawObject answers page pageSize).1) : a ∈ q.rows := by
  rw [dumpRawObject_eq h] at ha
  dsimp only at ha
  exact h.subset (items_subset ha)

end Query

section Complete
variable {α : Type}

/-- Whatever orders the database chooses, each matching row is on one page. -/
theorem walk_complete_iff (createdAt : Option (α → ℤ)) (filter : α → Bool) (table : List α)
    (perPage : ℤ) (hn : table.Nodup) (h : 1 ≤ perPage) :
    (∀ answers : ℕ → List α, (∀ i, (Query.build_s createdAt filter table).Answer (answers i)) →
      ((Query.build_s createdAt filter table).walk answers perPage).Perm (table.filter filter)) ↔
      ((table.filter filter).length : ℤ) ≤ perPage := by
  have hquery : Query.build_s createdAt filter table = ⟨table.filter filter, []⟩ := by
    cases createdAt <;> rfl
  rw [hquery]
  constructor
  · intro hall
    by_contra hlt
    have hlt' : perPage < ((table.filter filter).length : ℤ) := by omega
    obtain ⟨answers, hanswers, hincomplete⟩ :=
      Query.exists_incomplete (q := ⟨table.filter filter, []⟩) h (hn.filter filter) rfl hlt'
    exact hincomplete (hall answers hanswers)
  · intro hle answers hanswers
    exact Query.walk_of_one_page h hanswers hle

/-- The rows 0 and 1 of a table of four on pages of three. -/
theorem walk_complete_iff_example :
    (∀ answers : ℕ → List ℕ,
      (∀ i, (Query.build_s (some Nat.cast) (fun n => n < 2) [0, 1, 2, 3]).Answer (answers i)) →
      ((Query.build_s (some Nat.cast) (fun n => n < 2) [0, 1, 2, 3]).walk answers 3).Perm
        ([0, 1, 2, 3].filter fun n => n < 2)) ↔
      ((([0, 1, 2, 3] : List ℕ).filter fun n => n < 2).length : ℤ) ≤ 3 :=
  walk_complete_iff _ _ [0, 1, 2, 3] 3 (by decide) (by decide)

/-- Two rows on pages of one row, returned in the other order at the second call: the first row is
returned twice, and the second one never. -/
theorem row_never_returned : ¬ ∀ (createdAt : Option (ℕ → ℤ)) (filter : ℕ → Bool)
    (table : List ℕ) (perPage : ℤ) (answers : ℕ → List ℕ), table.Nodup → 1 ≤ perPage →
    (∀ i, (Query.build_s createdAt filter table).Answer (answers i)) →
    ((Query.build_s createdAt filter table).walk answers perPage).Perm (table.filter filter) := by
  intro h
  have hquery : Query.build_s (some Nat.cast) (fun _ => true) [1, 2] = ⟨[1, 2], []⟩ := rfl
  have hanswers (i : ℕ) : (⟨[1, 2], []⟩ : Query ℕ).Answer (if i = 0 then [1, 2] else [2, 1]) := by
    split_ifs
    · exact ⟨.refl _, by simp⟩
    · exact ⟨.swap 1 2 [], by simp⟩
  have hperm := h (some Nat.cast) (fun _ => true) [1, 2] 1
    (fun i => if i = 0 then [1, 2] else [2, 1]) (by decide) (by decide) hanswers
  have hpages : (2 : ℚ) / 1 = 2 := by norm_num
  rw [hquery] at hperm
  have hwalk : (⟨[1, 2], []⟩ : Query ℕ).walk (fun i => if i = 0 then [1, 2] else [2, 1]) 1 =
      [1, 1] := by
    simp [Query.walk, Query.paginate, Pagination.pages, limitOffset, List.range_succ]
  rw [hwalk] at hperm
  exact absurd (hperm.mem_iff.mpr (by simp : 2 ∈ [1, 2].filter fun _ => true)) (by decide)

end Complete

end Benji.Services
