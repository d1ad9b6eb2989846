import Mathlib.Data.List.Basic
import Mathlib.Data.List.Nodup

/-! Tables of rows with a primary key: lookup, insertion, replacement and deletion. -/
namespace Lib

/-- Rows no two of which have the same key. -/
structure Table {α κ : Type} (key : α → κ) where
  rows : List α
  nodup : (rows.map key).Nodup

/-- In a list without repeated keys, the row found is the only one that a deletion of its key
takes away. -/
theorem perm_cons_filter_of_find? {α κ : Type} [DecidableEq κ] (key : α → κ) {l : List α} {k : κ}
    {a : α} (hn : (l.map key).Nodup) (h : l.find? (fun b => key b = k) = some a) :
    l.Perm (a :: l.filter fun b => key b ≠ k) := by
  induction l with
  | nil => simp at h
  | cons b l ih =>
    obtain ⟨hnot, hn⟩ := List.nodup_cons.mp hn
    by_cases hk : key b = k
    · have hb : b = a := by simpa [List.find?_cons, hk] using h
      have hf : l.filter (fun c => key c ≠ k) = l := by
        apply List.filter_eq_self.mpr
        intro c hc
        have hne : key c ≠ k := by
          intro he
          exact hnot (List.mem_map.mpr ⟨c, hc, he.trans hk.symm⟩)
        simpa using hne
      rw [List.filter_cons_of_neg (by simpa using hk), hf, hb]
    · rw [List.find?_cons_of_neg (by simpa using hk)] at h
      rw [List.filter_cons_of_pos (by simpa using hk)]
      exact ((ih hn h).cons b).trans (List.Perm.swap a b _)

theorem mem_tail_of_perm_cons {α : Type} {l l' : List α} {a b : α} (hn : l.Nodup)
    (hp : l.Perm (a :: l')) : b ∈ l' ↔ b ∈ l ∧ b ≠ a := by
  have hnot := (List.nodup_cons.mp (hp.nodup_iff.mp hn)).1
  rw [hp.mem_iff, List.mem_cons]
  constructor
  · intro hb
    refine ⟨.inr hb, ?_⟩
    rintro rfl
    exact hnot hb
  · rintro ⟨rfl | hb, hne⟩
    · exact absurd rfl hne
    · exact hb

namespace Table
variable {α κ : Type} {key : α → κ}

theorem ext_rows {t u : Table key} (h : t.rows = u.rows) : t = u := by
  cases t
  cases u
  cases h
  rfl

def empty : Table key := ⟨[], by simp⟩

instance : Inhabited (Table key) := ⟨empty⟩

instance : Membership α (Table key) := ⟨fun t a => a ∈ t.rows⟩

theorem mem_def {t : Table key} {a : α} : a ∈ t ↔ a ∈ t.rows := Iff.rfl

instance {t : Table key} {p : α → Prop} [DecidablePred p] : Decidable (∀ a ∈ t, p a) :=
  inferInstanceAs (Decidable (∀ a ∈ t.rows, p a))

instance {t : Table key} {p : α → Prop} [DecidablePred p] : Decidable (∃ a ∈ t, p a) :=
  inferInstanceAs (Decidable (∃ a ∈ t.rows, p a))

@[simp] theorem not_mem_empty {a : α} : a ∉ (empty : Table key) := by
  simp [mem_def, empty]

theorem eq_of_key_eq {t : Table key} {a b : α} (ha : a ∈ t) (hb : b ∈ t)
    (h : key a = key b) : a = b :=
  List.inj_on_of_nodup_map t.nodup ha hb h

def filter (t : Table key) (p : α → Bool) : Table key :=
  ⟨t.rows.filter p, t.nodup.sublist (List.filter_sublist.map key)⟩

@[simp] theorem mem_filter {t : Table key} {p : α → Bool} {a : α} :
    a ∈ t.filter p ↔ a ∈ t ∧ p a = true := by
  simp [mem_def, filter]

/-- An update of rows that leaves their keys alone. -/
def update (t : Table key) (f : α → α) (hf : ∀ a, key (f a) = key a) : Table key :=
  ⟨t.rows.map f, by
    have h : (t.rows.map f).map key = t.rows.map key := by simp [Function.comp_def, hf]
    rw [h]
    exact t.nodup⟩

@[simp] theorem mem_update {t : Table key} {f : α → α} {hf : ∀ a, key (f a) = key a} {b : α} :
    b ∈ t.update f hf ↔ ∃ a ∈ t, f a = b := by
  simp [mem_def, update]

variable [DecidableEq κ]

def find? (t : Table key) (k : κ) : Option α := t.rows.find? fun a => key a = k

theorem find?_eq_some {t : Table key} {k : κ} {a : α} :
    t.find? k = some a ↔ a ∈ t ∧ key a = k := by
  constructor
  · intro h
    exact ⟨List.mem_of_find?_eq_some h, by simpa using List.find?_some h⟩
  · rintro ⟨ha, rfl⟩
    cases hf : t.find? (key a) with
    | none => simpa using List.find?_eq_none.mp hf a ha
    | some b =>
      have hb : key b = key a := by simpa using List.find?_some hf
      rw [eq_of_key_eq (List.mem_of_find?_eq_some hf) ha hb]

theorem find?_eq_none {t : Table key} {k : κ} : t.find? k = none ↔ ∀ a ∈ t, key a ≠ k := by
  simp [find?, mem_def]

theorem find?_of_mem {t : Table key} {a : α} (h : a ∈ t) : t.find? (key a) = some a :=
  find?_eq_some.mpr ⟨h, rfl⟩

theorem key_of_find? {t : Table key} {k : κ} {a : α} (h : t.find? k = some a) : key a = k :=
  (find?_eq_some.mp h).2

theorem mem_of_find? {t : Table key} {k : κ} {a : α} (h : t.find? k = some a) : a ∈ t :=
  (find?_eq_some.mp h).1

theorem find?_filter_of_true {t : Table key} {p : α → Bool} {k : κ}
    (h : ∀ a, key a = k → p a = true) : (t.filter p).find? k = t.find? k := by
  ext a
  simp only [find?_eq_some, mem_filter]
  grind

theorem find?_filter_of_false {t : Table key} {p : α → Bool} {k : κ}
    (h : ∀ a, key a = k → p a = false) : (t.filter p).find? k = none := by
  simp only [find?_eq_none, mem_filter]
  grind

theorem find?_update {t : Table key} {f : α → α} {hf : ∀ a, key (f a) = key a} {k : κ} :
    (t.update f hf).find? k = (t.find? k).map f := by
  ext b
  simp only [find?_eq_some, mem_update, Option.map_eq_some_iff]
  grind

def erase (t : Table key) (k : κ) : Table key := t.filter fun a => key a ≠ k

@[simp] theorem mem_erase {t : Table key} {k : κ} {a : α} :
    a ∈ t.erase k ↔ a ∈ t ∧ key a ≠ k := by
  simp [erase]

@[simp] theorem find?_erase_self {t : Table key} {k : κ} : (t.erase k).find? k = none :=
  find?_filter_of_false (by simp)

theorem find?_erase_of_ne {t : Table key} {k l : κ} (h : l ≠ k) :
    (t.erase k).find? l = t.find? l :=
  find?_filter_of_true (by rintro a rfl; simpa using h)

theorem erase_of_find?_none {t : Table key} {k : κ} (h : t.find? k = none) : t.erase k = t := by
  apply ext_rows
  have hk := find?_eq_none.mp h
  exact List.filter_eq_self.mpr fun a ha => by simpa using hk a ha

/-- Insert a row, or replace the one that has its key. -/
def put (t : Table key) (a : α) : Table key :=
  ⟨a :: (t.erase (key a)).rows, by
    rw [List.map_cons, List.nodup_cons]
    refine ⟨?_, (t.erase (key a)).nodup⟩
    rw [List.mem_map]
    rintro ⟨b, hb, hk⟩
    exact (mem_erase.mp (mem_def.mpr hb)).2 hk⟩

@[simp] theorem mem_put {t : Table key} {a b : α} :
    b ∈ t.put a ↔ b = a ∨ b ∈ t ∧ key b ≠ key a := by
  rw [← mem_erase]
  simp [mem_def, put]

@[simp] theorem find?_put_self {t : Table key} {a : α} : (t.put a).find? (key a) = some a :=
  find?_eq_some.mpr (by simp)

theorem find?_put_of_ne {t : Table key} {a : α} {k : κ} (h : k ≠ key a) :
    (t.put a).find? k = t.find? k := by
  ext b
  simp only [find?_eq_some, mem_put]
  grind

/-- A new row that is taken out again. -/
theorem erase_put {t : Table key} {a : α} (h : t.find? (key a) = none) :
    (t.put a).erase (key a) = t := by
  have hnone := erase_of_find?_none h
  apply ext_rows
  have hrows : (t.put a).rows = a :: t.rows := by
    have hput : (t.put a).rows = a :: (t.erase (key a)).rows := rfl
    rw [hput, hnone]
  have hfilter : ((t.put a).erase (key a)).rows =
      (t.put a).rows.filter fun b => decide (key b ≠ key a) := rfl
  have hself : (t.erase (key a)).rows = t.rows.filter fun b => decide (key b ≠ key a) := rfl
  rw [hfilter, hrows, List.filter_cons_of_neg (by simp), ← hself, hnone]

/-- Insert a row; `none` when its key is taken. -/
def insert? (t : Table key) (a : α) : Option (Table key) :=
  if (t.find? (key a)).isSome then none else some (t.put a)

/-- Insert rows one after the other; one taken key fails the whole insertion. -/
def insertAll? (t : Table key) (as : List α) : Option (Table key) := as.foldlM insert? t

@[simp] theorem insertAll?_nil {t : Table key} : t.insertAll? [] = some t := rfl

theorem insert?_eq_some {t u : Table key} {a : α} :
    t.insert? a = some u ↔ t.find? (key a) = none ∧ t.put a = u := by
  unfold insert?
  split
  · rename_i h
    simp [Option.isSome_iff_ne_none.mp h]
  · rename_i h
    simp [Option.not_isSome_iff_eq_none.mp h]

theorem insertAll?_cons {t u : Table key} {a : α} {as : List α} :
    t.insertAll? (a :: as) = some u ↔
      t.find? (key a) = none ∧ (t.put a).insertAll? as = some u := by
  unfold insertAll?
  rw [List.foldlM_cons]
  simp only [Option.bind_eq_bind, Option.bind_eq_some_iff, insert?_eq_some]
  grind

theorem insertAll?_append {t u : Table key} {as bs : List α} :
    t.insertAll? (as ++ bs) = some u ↔
      ∃ v, t.insertAll? as = some v ∧ v.insertAll? bs = some u := by
  unfold insertAll?
  rw [List.foldlM_append]
  simp [Option.bind_eq_some_iff]

theorem mem_insertAll? {t u : Table key} {as : List α} (h : t.insertAll? as = some u) {b : α} :
    b ∈ u ↔ b ∈ as ∨ b ∈ t := by
  induction as generalizing t with
  | nil =>
    obtain rfl : t = u := by simpa using h
    simp
  | cons a as ih =>
    obtain ⟨hn, hu⟩ := insertAll?_cons.mp h
    have ha := find?_eq_none.mp hn b
    rw [ih hu, mem_put, List.mem_cons]
    grind

/-- The insertion goes through exactly when the keys are new and distinct. -/
theorem insertAll?_isSome {t : Table key} {as : List α} :
    (t.insertAll? as).isSome ↔ (as.map key).Nodup ∧ ∀ a ∈ as, t.find? (key a) = none := by
  induction as generalizing t with
  | nil => simp
  | cons a as ih =>
    have hc : (t.insertAll? (a :: as)).isSome ↔
        t.find? (key a) = none ∧ ((t.put a).insertAll? as).isSome := by
      simp only [Option.isSome_iff_exists, insertAll?_cons]
      grind
    rw [hc, ih, List.map_cons, List.nodup_cons, List.forall_mem_cons]
    simp only [find?_eq_none, mem_put, List.mem_map]
    grind

theorem find?_insertAll?_of_mem {t u : Table key} {as : List α} (h : t.insertAll? as = some u)
    {a : α} (ha : a ∈ as) : u.find? (key a) = some a :=
  find?_eq_some.mpr ⟨(mem_insertAll? h).mpr (.inl ha), rfl⟩

theorem find?_insertAll?_of_notMem {t u : Table key} {as : List α} (h : t.insertAll? as = some u)
    {k : κ} (hk : ∀ a ∈ as, key a ≠ k) : u.find? k = t.find? k := by
  ext b
  simp only [find?_eq_some, mem_insertAll? h]
  grind

end Table
end Lib
