import LogosChain.Base.Map

/-!
# Indexes of a finite map

An index of a map by a key of its values is any function from keys to entries, so that a part of a
larger structure can be an index.
-/

namespace Base

variable {K I V : Type} [DecidableEq I]

/-- `index` gives for each key the one entry of `m` that has it. -/
def Indexes (index : K → Option I) (m : Map I V) (key : V → K) : Prop :=
  ∀ k i, index k = some i ↔ ∃ v, m.lookup i = some v ∧ key v = k

namespace Indexes

variable {index index' : K → Option I} {m : Map I V} {key : V → K} {i : I} {v w : V}

theorem empty (h : ∀ k, index k = none) : Indexes index (∅ : Map I V) key := by
  intro k i
  simp [h]

section

variable (h : Indexes index m key) (hi : m.lookup i = some v)
include h hi

theorem of_lookup : index (key v) = some i :=
  (h _ _).mpr ⟨v, hi, rfl⟩

theorem unique {j : I} (hj : m.lookup j = some w) (hkey : key v = key w) : i = j := by
  have h1 := h.of_lookup hi
  rw [hkey, h.of_lookup hj] at h1
  exact (Option.some.inj h1).symm

theorem update (hkey : key w = key v) : Indexes index (m.insert i w) key := by
  intro k j
  rw [h k j]
  by_cases hj : j = i
  · subst hj
    simp [hi, hkey]
  · simp [hj]

end

variable [DecidableEq K]

theorem insert (h : Indexes index m key) (hi : m.lookup i = none) (hv : index (key v) = none)
    (hindex : ∀ k, index' k = if k = key v then some i else index k) :
    Indexes index' (m.insert i v) key := by
  intro k j
  rw [hindex]
  by_cases hk : k = key v
  · subst hk
    simp only [if_true, Option.some.injEq, Map.lookup_insert_some]
    constructor
    · rintro rfl
      exact ⟨v, .inl ⟨rfl, rfl⟩, rfl⟩
    · rintro ⟨w, ⟨rfl, -⟩ | ⟨-, hw⟩, hkey⟩
      · rfl
      · have := (h _ _).mpr ⟨w, hw, hkey⟩
        rw [hv] at this
        cases this
  · rw [if_neg hk, h k j]
    grind [Map.lookup_insert_some]

theorem erase (h : Indexes index m key) (hi : m.lookup i = some v)
    (hindex : ∀ k, index' k = if k = key v then none else index k) :
    Indexes index' (m.erase i) key := by
  intro k j
  rw [hindex]
  by_cases hk : k = key v
  · grind [Map.lookup_erase_some, unique]
  · rw [if_neg hk, h k j]
    grind [Map.lookup_erase_some]

end Indexes

end Base
