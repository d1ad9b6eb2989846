import Mathlib.Data.List.Nodup

/-! Listing what a set of keys stands for: when the keys that decode are those of the live
objects, each once. -/
namespace Lib

section
variable {κ β γ : Type} {keys : List κ} {live : β → Prop} {encode : β → κ} {view : β → γ}
  {decode : κ → Option γ}

/-- The list has exactly the elements with the property, each once. -/
def Exactly (l : List γ) (p : γ → Prop) : Prop := l.Nodup ∧ ∀ u, u ∈ l ↔ p u

theorem eq_of_nodup_filterMap {k k' : κ} {u : γ} (hn : (keys.filterMap decode).Nodup)
    (hk : k ∈ keys) (hk' : k' ∈ keys) (hu : decode k = some u) (hu' : decode k' = some u) :
    k = k' := by
  induction keys with
  | nil => cases hk
  | cons a keys ih =>
    have hrest : (keys.filterMap decode).Nodup :=
      hn.sublist ((List.sublist_cons_self a keys).filterMap decode)
    have hhead : ∀ k ∈ keys, decode a = some u → decode k ≠ some u := by
      intro k hk ha hd
      rw [List.filterMap_cons, ha] at hn
      exact (List.nodup_cons.mp hn).1 (List.mem_filterMap.mpr ⟨k, hk, hd⟩)
    rcases List.mem_cons.mp hk with heq | htail
    · rcases List.mem_cons.mp hk' with heq' | htail'
      · exact heq.trans heq'.symm
      · exact absurd hu' (hhead k' htail' (heq ▸ hu))
    · rcases List.mem_cons.mp hk' with heq' | htail'
      · exact absurd hu (hhead k htail (heq' ▸ hu'))
      · exact ih hrest htail htail'

theorem nodup_filterMap_of_inj (hk : keys.Nodup)
    (h : ∀ k ∈ keys, ∀ k' ∈ keys, ∀ u, decode k = some u → decode k' = some u → k = k') :
    (keys.filterMap decode).Nodup := by
  rw [List.Nodup, List.pairwise_filterMap]
  apply hk.imp_of_mem
  intro k k' hmem hmem' hne v hv w hw heq
  exact hne (h k hmem k' hmem' v hv (heq ▸ hw))

/-- Where each value decoded from some key is decoded from its own, the live objects are listed
exactly when their keys decode to them and no other key decodes. -/
theorem exactly_filterMap_iff (hk : keys.Nodup) (hview : Function.Injective view)
    (hin : ∀ o, live o → decode (encode o) = some (view o) → encode o ∈ keys)
    (hown : ∀ k o, decode k = some (view o) → decode (encode o) = some (view o)) :
    Exactly (keys.filterMap decode) (fun u => ∃ o, live o ∧ view o = u) ↔
      (∀ o, live o → decode (encode o) = some (view o)) ∧
        ∀ k ∈ keys, (∀ o, live o → encode o ≠ k) → decode k = none := by
  constructor
  · rintro ⟨hn, hmem⟩
    constructor
    · intro o ho
      obtain ⟨k, -, hd⟩ := List.mem_filterMap.mp ((hmem (view o)).mpr ⟨o, ho, rfl⟩)
      exact hown k o hd
    · intro k hkm hnot
      cases hd : decode k with
      | none => rfl
      | some u =>
        obtain ⟨o, ho, rfl⟩ := (hmem u).mp (List.mem_filterMap.mpr ⟨k, hkm, hd⟩)
        have henc := hown k o hd
        exact absurd (eq_of_nodup_filterMap hn (hin o ho henc) hkm henc hd) (hnot o ho)
  · rintro ⟨hlive, hnone⟩
    -- A key that decodes is the key of a live object.
    have hkey : ∀ k ∈ keys, ∀ u, decode k = some u → ∃ o, live o ∧ encode o = k ∧ view o = u := by
      intro k hkm u hd
      by_contra hno
      have hk0 : decode k = none := by
        apply hnone k hkm
        intro o ho heq
        have hv := hlive o ho
        rw [heq, hd] at hv
        exact hno ⟨o, ho, heq, (Option.some.inj hv).symm⟩
      rw [hk0] at hd
      cases hd
    constructor
    · apply nodup_filterMap_of_inj hk
      intro k hkm k' hkm' u hd hd'
      obtain ⟨o, -, rfl, hv⟩ := hkey k hkm u hd
      obtain ⟨o', -, rfl, hv'⟩ := hkey k' hkm' u hd'
      rw [hview (hv.trans hv'.symm)]
    · intro u
      rw [List.mem_filterMap]
      constructor
      · rintro ⟨k, hkm, hd⟩
        obtain ⟨o, ho, -, hv⟩ := hkey k hkm u hd
        exact ⟨o, ho, hv⟩
      · rintro ⟨o, ho, rfl⟩
        exact ⟨encode o, hin o ho (hlive o ho), hlive o ho⟩

end

end Lib
