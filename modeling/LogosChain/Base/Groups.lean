import LogosChain.Base.Map

/-!
# An index of a map by groups

An index has the keys of the entries of a map by groups. `Groups` says that it is exact: it has the
keys of each group, no others, and no empty group.
-/

namespace Base

variable {K V G : Type} [DecidableEq K] [DecidableEq G]

namespace Map

/-- The keys of a group; none if the index does not have it. -/
def groupOf (index : Map G (Finset K)) (g : G) : Finset K := (index.lookup g).getD ∅

/-- Adds a key to a group. -/
def groupInsert (index : Map G (Finset K)) (g : G) (k : K) : Map G (Finset K) :=
  index.insert g (insert k (groupOf index g))

/-- Takes a key out of a group, and an empty group out of the index. -/
def groupErase (index : Map G (Finset K)) (g : G) (k : K) : Map G (Finset K) :=
  match index.lookup g with
  | none => index
  | some keys => if keys.erase k = ∅ then index.erase g else index.insert g (keys.erase k)

omit [DecidableEq K] in
theorem groupOf_empty (g : G) : groupOf (∅ : Map G (Finset K)) g = ∅ := by
  simp [groupOf]

theorem groupOf_groupInsert (index : Map G (Finset K)) (g g' : G) (k : K) :
    groupOf (groupInsert index g k) g' =
      if g' = g then insert k (groupOf index g) else groupOf index g' := by
  unfold groupInsert
  rw [groupOf, lookup_insert_ite]
  split <;> rfl

theorem groupOf_groupErase (index : Map G (Finset K)) (g g' : G) (k : K) :
    groupOf (groupErase index g k) g' =
      if g' = g then (groupOf index g).erase k else groupOf index g' := by
  unfold groupErase
  cases hg : index.lookup g with
  | none =>
    grind [groupOf]
  | some keys =>
    grind [groupOf, lookup_erase_ite, lookup_insert_ite]

/-- The index has the keys by the groups of their values, and no empty group. -/
structure Groups (group : V → G) (entries : Map K V) (index : Map G (Finset K)) : Prop where
  mem_iff : ∀ g k, k ∈ groupOf index g ↔ ∃ v, entries.lookup k = some v ∧ group v = g
  nonempty : ∀ g keys, index.lookup g = some keys → keys ≠ ∅

namespace Groups

variable {group : V → G} {entries : Map K V} {index : Map G (Finset K)}

theorem empty : Groups group (∅ : Map K V) (∅ : Map G (Finset K)) where
  mem_iff g k := by simp [groupOf_empty]
  nonempty g keys h := by simp at h

theorem insert (h : Groups group entries index) {k : K} {v : V}
    (hk : ∀ w, entries.lookup k = some w → group w = group v) :
    Groups group (entries.insert k v) (groupInsert index (group v) k) where
  mem_iff g k' := by
    rw [groupOf_groupInsert]
    by_cases hk' : k' = k
    · subst hk'
      by_cases hg : g = group v
      · simp [hg]
      · -- The key is in no other group, before and after.
        have hnot : k' ∉ groupOf index g := by
          rw [h.mem_iff]
          rintro ⟨w, hw, rfl⟩
          exact hg (hk w hw)
        simp [hg, Ne.symm hg, hnot]
    · rw [Finmap.lookup_insert_of_ne _ hk', ← h.mem_iff]
      grind
  nonempty g keys hkeys := by
    rcases lookup_insert_some.mp hkeys with ⟨-, rfl⟩ | ⟨-, hkeys⟩
    · exact Finset.insert_ne_empty _ _
    · exact h.nonempty g keys hkeys

theorem erase (h : Groups group entries index) {k : K} {v : V} (hk : entries.lookup k = some v) :
    Groups group (entries.erase k) (groupErase index (group v) k) where
  mem_iff g k' := by
    rw [groupOf_groupErase]
    by_cases hk' : k' = k
    · subst hk'
      by_cases hg : g = group v
      · simp [hg]
      · have hnot : k' ∉ groupOf index g := by
          rw [h.mem_iff]
          grind
        simp [hg, hnot]
    · rw [Finmap.lookup_erase_ne hk', ← h.mem_iff]
      grind
  nonempty g keys hkeys := by grind [groupErase, nonempty, lookup_insert_some, lookup_erase_some]

end Groups

end Map

end Base
