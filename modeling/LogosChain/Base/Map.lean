import Mathlib.Algebra.GroupWithZero.Nat
import Mathlib.Data.Finmap
import Mathlib.Data.List.Sort

/-!
# Finite maps

Maps with the same value at every key are equal. The lemmas read a lookup after an update as a case
split on the key.
-/

namespace Base

variable {K V : Type}

/-- A finite map with one type of values. -/
abbrev Map (K V : Type) : Type := Finmap fun _ : K => V

namespace Map

variable [DecidableEq K] {m : Map K V} {k k' : K} {v w : V} {l : List (K × V)} {α : Type}
  {f : K → V → Nat}

theorem lookup_insert_ite (m : Map K V) (k k' : K) (v : V) :
    (m.insert k v).lookup k' = if k' = k then some v else m.lookup k' := by
  by_cases hk : k' = k
  · subst hk; simp
  · rw [if_neg hk]; exact Finmap.lookup_insert_of_ne m hk

theorem lookup_erase_ite (m : Map K V) (k k' : K) :
    (m.erase k).lookup k' = if k' = k then none else m.lookup k' := by
  by_cases hk : k' = k
  · subst hk; simp
  · rw [if_neg hk]; exact Finmap.lookup_erase_ne hk

theorem lookup_insert_some :
    (m.insert k v).lookup k' = some w ↔ (k' = k ∧ v = w) ∨ (k' ≠ k ∧ m.lookup k' = some w) := by
  rw [lookup_insert_ite]
  split <;> simp_all

theorem lookup_erase_some : (m.erase k).lookup k' = some w ↔ k' ≠ k ∧ m.lookup k' = some w := by
  rw [lookup_erase_ite]
  split <;> simp_all

/-- A map with the keys of a list erased. -/
theorem lookup_foldl_erase (ks : List K) (m : Map K V) (k : K) :
    (ks.foldl (fun m k => m.erase k) m).lookup k = if k ∈ ks then none else m.lookup k := by
  induction ks generalizing m with
  | nil => simp
  | cons k' ks ih =>
    grind [lookup_erase_ite]

theorem mem_of_lookup_foldl (es : List (K × V))
    (h : (es.foldl (fun m e => m.insert e.1 e.2) (∅ : Map K V)).lookup k = some v) :
    (k, v) ∈ es := by
  induction es using List.reverseRecOn with
  | nil => cases h
  | append_singleton es e ih =>
    rw [List.foldl_append] at h
    rcases lookup_insert_some.mp h with ⟨rfl, rfl⟩ | ⟨-, hold⟩
    · exact List.mem_append_right _ (List.mem_singleton_self _)
    · exact List.mem_append_left _ (ih hold)

/-- The entries of a list in which a key has one value. -/
theorem lookup_foldl_insert_of_eq {f : α → K} {g : α → V} {l : List α}
    (hl : ∀ a ∈ l, ∀ b ∈ l, f a = f b → g a = g b) :
    (l.foldl (fun m a => m.insert (f a) (g a)) (∅ : Map K V)).lookup k = some v ↔
      ∃ a ∈ l, f a = k ∧ g a = v := by
  induction l using List.reverseRecOn with
  | nil => simp
  | append_singleton l b ih =>
    grind [lookup_insert_some]

theorem lookup_foldl_insert (hl : (l.map (·.1)).Nodup) :
    (l.foldl (fun m e => m.insert e.1 e.2) (∅ : Map K V)).lookup k = some v ↔ (k, v) ∈ l := by
  have hsame : ∀ a ∈ l, ∀ b ∈ l, a.1 = b.1 → a.2 = b.2 := fun a ha b hb hab =>
    congrArg Prod.snd (List.inj_on_of_nodup_map hl ha hb hab)
  rw [lookup_foldl_insert_of_eq hsame]
  grind

/-- The sum of `f` over the entries of a map. -/
def sum (f : K → V → Nat) (m : Map K V) : Nat := (m.entries.map fun e => f e.1 e.2).sum

theorem sum_insert (v : V) (h : m.lookup k = none) : sum f (m.insert k v) = f k v + sum f m := by
  have hk : k ∉ m := Finmap.lookup_eq_none.mp h
  rw [sum, sum, Finmap.entries_insert_of_notMem hk, Multiset.map_cons, Multiset.sum_cons]

theorem sum_erase (h : m.lookup k = some v) : sum f m = f k v + sum f (m.erase k) := by
  have hm : (m.erase k).insert k v = m := by
    apply Finmap.ext_lookup
    grind [lookup_insert_ite, lookup_erase_ite]
  have hn : (m.erase k).lookup k = none := by simp
  grind [sum_insert]

theorem sum_insert_le (f : K → V → Nat) (m : Map K V) (k : K) (v : V) :
    sum f (m.insert k v) ≤ f k v + sum f m := by
  cases h : m.lookup k with
  | none => exact (sum_insert v h).le
  | some w =>
    have hins : m.insert k v = (m.erase k).insert k v :=
      Finmap.ext_lookup fun k' => by grind [lookup_insert_ite, lookup_erase_ite]
    rw [hins, sum_insert v (Finmap.lookup_erase k m), sum_erase h]
    omega

omit [DecidableEq K] in
private theorem nodupKeys_filter {s : Multiset (Σ _ : K, V)} (h : s.NodupKeys)
    (p : (Σ _ : K, V) → Bool) : (s.filter fun e => p e).NodupKeys := by
  induction s using Quot.inductionOn with
  | h l => exact List.NodupKeys.sublist List.filter_sublist h

/-- The entries of a map that a condition holds for. -/
def filter (p : K → V → Bool) (m : Map K V) : Map K V :=
  ⟨m.entries.filter fun e => p e.1 e.2, nodupKeys_filter m.nodupKeys fun e => p e.1 e.2⟩

theorem lookup_filter_some {p : K → V → Bool} :
    (filter p m).lookup k = some v ↔ m.lookup k = some v ∧ p k v = true := by
  rw [Finmap.lookup_eq_some_iff, Finmap.lookup_eq_some_iff]
  simp [filter]

/-- The map with other values at its keys. -/
def mapValues {W : Type} (f : V → W) (m : Map K V) : Map K W where
  entries := m.entries.map fun e => ⟨e.1, f e.2⟩
  nodupKeys := by
    rw [← Multiset.nodup_keys, Multiset.keys, Multiset.map_map]
    exact Multiset.nodup_keys.mpr m.nodupKeys

theorem lookup_mapValues {W : Type} {f : V → W} :
    (mapValues f m).lookup k = (m.lookup k).map f := by
  refine Option.ext fun w => ?_
  grind [Option.map_eq_some_iff, Finmap.lookup_eq_some_iff, mapValues, Multiset.mem_map]

/-- The entries of a map in the order of their keys. -/
def toList [LinearOrder K] (m : Map K V) : List (K × V) :=
  (Quot.liftOn m.keys.val (fun l => l.insertionSort (· ≤ ·)) fun a b hab =>
    List.Perm.eq_of_pairwise' (List.pairwise_insertionSort _ _) (List.pairwise_insertionSort _ _)
      ((List.perm_insertionSort _ a).trans (hab.trans (List.perm_insertionSort _ b).symm))).filterMap
    fun k => (m.lookup k).map fun v => (k, v)

private theorem toList_keys [LinearOrder K] (m : Map K V) :
    ∃ l : List K, (∀ k, k ∈ l ↔ k ∈ m.keys) ∧ l.Pairwise (· < ·) ∧
      toList m = l.filterMap fun k => (m.lookup k).map fun v => (k, v) := by
  unfold toList
  have hnd := m.keys.nodup
  change ∃ l : List K, (∀ k, k ∈ l ↔ k ∈ m.keys.val) ∧ l.Pairwise (· < ·) ∧ _
  generalize m.keys.val = keys at hnd
  induction keys using Quot.inductionOn with
  | h l =>
    refine ⟨l.insertionSort (· ≤ ·), ?_, ?_, rfl⟩
    · simp
    · have hnd := (List.perm_insertionSort (· ≤ ·) l).nodup_iff.mpr hnd
      grind [List.pairwise_insertionSort, List.Pairwise.imp₂]

theorem mem_toList [LinearOrder K] {e : K × V} : e ∈ toList m ↔ m.lookup e.1 = some e.2 := by
  obtain ⟨l, hl, -, heq⟩ := toList_keys m
  grind [Finmap.mem_of_lookup_eq_some, Option.map_eq_some_iff, Finmap.mem_keys]

theorem pairwise_toList [LinearOrder K] (m : Map K V) :
    (toList m).Pairwise fun a b => a.1 < b.1 := by
  obtain ⟨l, -, hl, heq⟩ := toList_keys m
  grind [Option.map_eq_some_iff]

theorem nodup_toList [LinearOrder K] (m : Map K V) : ((toList m).map (·.1)).Nodup :=
  List.pairwise_map.mpr ((pairwise_toList m).imp fun h => h.ne)

/-- An order in which the entries of a map are visited. -/
structure Iteration (m : Map K V) where
  entries : List (K × V)
  mem_iff : ∀ k v, (k, v) ∈ entries ↔ m.lookup k = some v
  nodup : (entries.map (·.1)).Nodup

/-- The iteration in the order of the keys. -/
def Iteration.ascending [LinearOrder K] (m : Map K V) : Iteration m where
  entries := toList m
  mem_iff _ _ := mem_toList
  nodup := nodup_toList m

/-- An order in which sets are gone through. -/
structure Listing (K : Type) [DecidableEq K] where
  toList : Finset K → List K
  mem_iff : ∀ (s : Finset K) (k : K), k ∈ toList s ↔ k ∈ s
  nodup : ∀ s : Finset K, (toList s).Nodup

/-- The listing in the order of the keys. -/
def Listing.ascending [LinearOrder K] : Listing K where
  toList s := Quot.liftOn s.val (fun l => l.insertionSort (· ≤ ·)) fun a b hab =>
    List.Perm.eq_of_pairwise' (List.pairwise_insertionSort _ _) (List.pairwise_insertionSort _ _)
      ((List.perm_insertionSort _ a).trans (hab.trans (List.perm_insertionSort _ b).symm))
  mem_iff := by
    rintro ⟨l, -⟩ k
    induction l using Quot.inductionOn with
    | h l => exact (List.perm_insertionSort (· ≤ ·) l).mem_iff
  nodup := by
    rintro ⟨l, hl⟩
    induction l using Quot.inductionOn with
    | h l => exact (List.perm_insertionSort (· ≤ ·) l).nodup_iff.mpr hl

/-- The lookups of a map determine its entries in order. -/
theorem toList_eq [LinearOrder K] (hl : l.Pairwise fun a b => a.1 < b.1)
    (hmem : ∀ e, e ∈ l ↔ m.lookup e.1 = some e.2) : toList m = l := by
  exact (pairwise_toList m).eq_of_mem_iff hl fun e => mem_toList.trans (hmem e).symm

omit [DecidableEq K] in
/-- Lists of the same items with different keys sort alike. -/
theorem insertionSort_eq_of_perm [LinearOrder K] {key : α → K} {l l' : List α} (h : l.Perm l')
    (hl : (l.map key).Nodup) :
    l.insertionSort (fun a b => key a ≤ key b) = l'.insertionSort fun a b => key a ≤ key b := by
  have hstrict : ∀ l : List α, (l.map key).Nodup →
      (l.insertionSort fun a b => key a ≤ key b).Pairwise fun a b => key a < key b := by
    intro l hl
    have hnd := ((List.perm_insertionSort (fun a b => key a ≤ key b) l).map key).nodup_iff.mpr hl
    grind [List.pairwise_insertionSort, List.Pairwise.imp₂]
  have : Std.Antisymm fun a b : α => key a < key b := ⟨fun _ _ h h' => absurd h h'.asymm⟩
  grind [List.mem_insertionSort, List.Pairwise.eq_of_mem_iff]

theorem Iteration.perm (order : Iteration m) (hl : (l.map (·.1)).Nodup)
    (hmem : ∀ e, e ∈ l ↔ m.lookup e.1 = some e.2) :
    order.entries.Perm l := by grind [List.perm_ext_iff_of_nodup, List.Nodup.of_map, nodup, mem_iff]

theorem length_toList [LinearOrder K] (m : Map K V) : (toList m).length = m.keys.card := by
  have hkeys : ((toList m).map (·.1)).toFinset = m.keys := by
    ext k
    simp only [List.mem_toFinset, List.mem_map, mem_toList, Finmap.mem_keys]
    constructor
    · rintro ⟨e, he, rfl⟩
      exact Finmap.mem_of_lookup_eq_some he
    · intro hk
      obtain ⟨v, hv⟩ := Finmap.mem_iff.mp hk
      exact ⟨(k, v), hv, rfl⟩
  rw [← hkeys, List.toFinset_card_of_nodup (nodup_toList m), List.length_map]

/-- The entries with keys from `lo` to `hi`, in the order of the keys. -/
def range [LinearOrder K] (lo hi : K) (m : Map K V) : List (K × V) :=
  (toList m).filter fun e => decide (lo ≤ e.1 ∧ e.1 ≤ hi)

/-- A section of the entries from one entry to a later one. -/
theorem exists_section [LinearOrder K] {lo last : K} (hlo : m.lookup lo = some v)
    (hlast : m.lookup last = some w) (hle : lo ≤ last) :
    ∃ pre tail post, toList m = pre ++ (lo, v) :: tail ++ post ∧
      ((lo, v) :: tail).getLast? = some (last, w) := by
  obtain ⟨pre, later, heq⟩ := List.append_of_mem (mem_toList (e := (lo, v)).mpr hlo)
  by_cases he : lo = last
  · subst he
    rw [hlo] at hlast
    cases hlast
    exact ⟨pre, [], later, by rw [heq]; simp, rfl⟩
  · have hp := pairwise_toList m
    rw [heq, List.pairwise_append] at hp
    have hmem : (last, w) ∈ later := by
      have hin := mem_toList (e := (last, w)).mpr hlast
      grind [List.mem_cons_self]
    obtain ⟨mid, post, rfl⟩ := List.append_of_mem hmem
    exact ⟨pre, mid ++ [(last, w)], post, by rw [heq]; simp, by simp [List.getLast?_cons]⟩

/-- A range over a section of the entries is the section. -/
theorem range_of_section [LinearOrder K] {lo hi last : K} {pre tail post : List (K × V)}
    (heq : toList m = pre ++ (lo, v) :: tail ++ post)
    (hlast : ((lo, v) :: tail).getLast? = some (last, w)) (hhi : last ≤ hi)
    (hpost : ∀ e ∈ post, hi < e.1) : range lo hi m = (lo, v) :: tail := by
  have hp := pairwise_toList m
  rw [heq, List.pairwise_append, List.pairwise_append] at hp
  obtain ⟨⟨-, hsec, hpre⟩, -, -⟩ := hp
  have hbefore : pre.filter (fun e => decide (lo ≤ e.1 ∧ e.1 ≤ hi)) = [] := by
    rw [List.filter_eq_nil_iff]
    intro e he
    rw [decide_eq_true_eq]
    grind [List.mem_cons_self]
  have hafter : post.filter (fun e => decide (lo ≤ e.1 ∧ e.1 ≤ hi)) = [] := by
    rw [List.filter_eq_nil_iff]
    intro e he
    rw [decide_eq_true_eq]
    exact fun h => absurd h.2 (hpost e he).not_ge
  have hin : ((lo, v) :: tail).filter (fun e => decide (lo ≤ e.1 ∧ e.1 ≤ hi)) =
      (lo, v) :: tail := by
    rw [List.filter_eq_self]
    intro e he
    refine decide_eq_true ⟨?_, ?_⟩
    · grind [List.pairwise_cons]
    · grind [List.mem_singleton_self, List.getLast?_eq_some_iff]
  grind [range]

theorem keys_insert (m : Map K V) (k : K) (v : V) : (m.insert k v).keys = insert k m.keys := by
  grind [Finmap.mem_keys, Finmap.mem_insert]

theorem keys_foldl_insert (key : α → K) (value : α → V) (l : List α) (m : Map K V) :
    (l.foldl (fun m e => m.insert (key e) (value e)) m).keys = m.keys ∪ (l.map key).toFinset := by
  induction l generalizing m with
  | nil => simp
  | cons e l ih =>
    grind [keys_insert, List.toFinset_cons]

end Map

end Base
