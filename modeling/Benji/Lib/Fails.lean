import Mathlib.Data.List.Forall2

/-! Computations that may fail, and failures of a certain kind. -/
namespace Lib

section
variable {ε α β : Type} {bad : ε → Prop} {x : Except ε α} {f : α → Except ε β} {a : α} {b : β}
  {e : ε}

/-- The computation raises an exception of the kind. -/
def Fails (bad : ε → Prop) (x : Except ε α) : Prop := ∃ e, x = .error e ∧ bad e

@[simp] theorem fails_ok : ¬ Fails bad (.ok a : Except ε α) := by
  rintro ⟨e, h, -⟩
  cases h

@[simp] theorem fails_error : Fails bad (.error e : Except ε α) ↔ bad e := by
  constructor
  · rintro ⟨e', h, he⟩
    cases h
    exact he
  · intro he
    exact ⟨e, rfl, he⟩

theorem fails_bind : Fails bad (x >>= f) ↔ Fails bad x ∨ ∃ a, x = .ok a ∧ Fails bad (f a) := by
  cases x with
  | error e =>
    have hbind : (Except.error e >>= f) = .error e := rfl
    rw [hbind, fails_error, fails_error]
    simp
  | ok a =>
    have hbind : (Except.ok a >>= f) = f a := rfl
    rw [hbind]
    simp

theorem exists_unit_iff {p : Unit → Prop} : (∃ a, p a) ↔ p () := by
  constructor
  · rintro ⟨_, h⟩
    exact h
  · intro h
    exact ⟨(), h⟩

theorem bind_eq_ok : (x >>= f) = .ok b ↔ ∃ a, x = .ok a ∧ f a = .ok b := by
  cases x with
  | error e =>
    constructor
    · intro h
      cases h
    · rintro ⟨a, h, -⟩
      cases h
  | ok a =>
    have hbind : (Except.ok a >>= f) = f a := rfl
    rw [hbind]
    simp

/-- The first element that is not passed is refused. -/
def FirstRefused (passed refused : α → Prop) (xs : List α) : Prop :=
  ∃ before x after, xs = before ++ x :: after ∧ (∀ y ∈ before, passed y) ∧ refused x

theorem firstRefused_cons {passed refused : α → Prop} {xs : List α} :
    FirstRefused passed refused (a :: xs) ↔
      refused a ∨ passed a ∧ FirstRefused passed refused xs := by
  constructor
  · rintro ⟨before, x, after, heq, hbefore, hx⟩
    cases before with
    | nil =>
      cases heq
      exact .inl hx
    | cons y before =>
      cases heq
      exact .inr ⟨hbefore _ List.mem_cons_self, before, x, after, rfl,
        fun y hy => hbefore y (List.mem_cons_of_mem _ hy), hx⟩
  · rintro (ha | ⟨ha, before, x, after, rfl, hbefore, hx⟩)
    · exact ⟨[], a, xs, rfl, by simp, ha⟩
    · refine ⟨a :: before, x, after, rfl, ?_, hx⟩
      rw [List.forall_mem_cons]
      exact ⟨ha, hbefore⟩

variable {check : α → Except ε Unit} {xs : List α}

theorem forM_cons {x : α} :
    (x :: xs).forM check = (check x >>= fun _ => xs.forM check) := rfl

theorem forM_eq_ok : xs.forM check = .ok () ↔ ∀ x ∈ xs, check x = .ok () := by
  induction xs with
  | nil => simp [pure, Except.pure]
  | cons x xs ih =>
    rw [forM_cons, bind_eq_ok, exists_unit_iff, List.forall_mem_cons, ← ih]

theorem fails_forM : Fails bad (xs.forM check) ↔
    FirstRefused (fun x => check x = .ok ()) (fun x => Fails bad (check x)) xs := by
  induction xs with
  | nil =>
    have hnil : ([] : List α).forM check = .ok () := rfl
    rw [hnil]
    simp [FirstRefused]
  | cons x xs ih =>
    rw [forM_cons, fails_bind, exists_unit_iff, firstRefused_cons, ← ih]

theorem mapM_cons {x : α} : (x :: xs).mapM f =
    (f x >>= fun b => xs.mapM f >>= fun bs => pure (b :: bs)) := List.mapM_cons

theorem mapM_eq_ok_iff {bs : List β} :
    xs.mapM f = .ok bs ↔ List.Forall₂ (fun x b => f x = .ok b) xs bs := by
  induction xs generalizing bs with
  | nil =>
    have hnil : ([] : List α).mapM f = .ok [] := rfl
    rw [hnil, List.forall₂_nil_left_iff, Except.ok.injEq, eq_comm]
  | cons x xs ih =>
    rw [mapM_cons, bind_eq_ok, List.forall₂_cons_left_iff]
    constructor
    · rintro ⟨b, hb, hrest⟩
      obtain ⟨rest, hxs, hbs⟩ := bind_eq_ok.mp hrest
      cases hbs
      exact ⟨b, rest, hb, ih.mp hxs, rfl⟩
    · rintro ⟨b, rest, hb, hrest, rfl⟩
      exact ⟨b, hb, bind_eq_ok.mpr ⟨rest, ih.mpr hrest, rfl⟩⟩

theorem fails_mapM_iff : Fails bad (xs.mapM f) ↔
    FirstRefused (fun x => ∃ b, f x = .ok b) (fun x => Fails bad (f x)) xs := by
  induction xs with
  | nil =>
    have hnil : ([] : List α).mapM f = .ok [] := rfl
    rw [hnil]
    simp [FirstRefused]
  | cons x xs ih =>
    rw [mapM_cons, fails_bind, firstRefused_cons, ← ih]
    apply or_congr Iff.rfl
    constructor
    · rintro ⟨b, hb, hrest⟩
      rw [fails_bind] at hrest
      cases hrest with
      | inl hxs => exact ⟨⟨b, hb⟩, hxs⟩
      | inr hbs =>
        obtain ⟨rest, -, hpure⟩ := hbs
        exact absurd hpure fails_ok
    · rintro ⟨⟨b, hb⟩, hxs⟩
      exact ⟨b, hb, fails_bind.mpr (.inl hxs)⟩

/-- A computation that never returns stops at the first element. -/
theorem fails_mapM (h : ∀ x b, f x ≠ .ok b) :
    Fails bad (xs.mapM f) ↔ ∃ x rest, xs = x :: rest ∧ Fails bad (f x) := by
  cases xs with
  | nil =>
    have hnil : ([] : List α).mapM f = .ok [] := rfl
    rw [hnil]
    simp
  | cons x xs =>
    rw [mapM_cons, fails_bind]
    simp [h]

theorem mapM_eq_ok {bs : List β} (h : ∀ x b, f x ≠ .ok b) :
    xs.mapM f = .ok bs ↔ xs = [] ∧ bs = [] := by
  cases xs with
  | nil =>
    have hnil : ([] : List α).mapM f = .ok [] := rfl
    rw [hnil]
    simp [eq_comm]
  | cons x xs =>
    rw [mapM_cons, bind_eq_ok]
    simp [h]

/-- Where each refusal is final, the first one does not matter. -/
theorem firstRefused_iff {passed refused : α → Prop} (h : ∀ x ∈ xs, passed x ∨ refused x) :
    FirstRefused passed refused xs ↔ ∃ x ∈ xs, refused x := by
  induction xs with
  | nil => simp [FirstRefused]
  | cons x xs ih =>
    rw [List.forall_mem_cons] at h
    rw [firstRefused_cons, ih h.2, List.exists_mem_cons_iff]
    constructor
    · rintro (hx | ⟨-, hxs⟩)
      · exact .inl hx
      · exact .inr hxs
    · rintro (hx | hxs)
      · exact .inl hx
      · cases h.1 with
        | inl hp => exact .inr ⟨hp, hxs⟩
        | inr hr => exact .inl hr

end

end Lib
