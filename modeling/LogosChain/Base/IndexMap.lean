import LogosChain.Base.Map
import Mathlib.Data.List.TakeWhile

/-!
# Maps and sets that keep an order

Maps that keep their entries in an order of their own (`IndexMap`), sets that keep their items in
the order they were added (`IndexSet`), and the removal that fills the gap with the last item
(`swap_remove`).
-/

namespace Base

variable {K V : Type} {l : List K} {p : K → Bool}

/-! ## Removal that fills the gap -/

/-- Removes the item at a place, which the last item takes. -/
def swapRemoveAt (l : List K) (i : Nat) : List K :=
  match (l.drop (i + 1)).getLast? with
  | none => l.take i
  | some last => l.take i ++ last :: (l.drop (i + 1)).dropLast

/-- The items without the first one that equals `k`. -/
def swapRemove [DecidableEq K] (l : List K) (k : K) : List K :=
  match l.idxOf? k with
  | none => l
  | some i => swapRemoveAt l i

theorem swapRemoveAt_perm (l : List K) (i : Nat) : (swapRemoveAt l i).Perm (l.eraseIdx i) := by
  rw [List.eraseIdx_eq_take_drop_succ]
  unfold swapRemoveAt
  rcases List.eq_nil_or_concat (l.drop (i + 1)) with hnil | ⟨before, last, hlast⟩
  · rw [hnil]
    simp
  · grind [List.perm_append_left_iff, List.perm_append_singleton, List.Perm.symm]

theorem swapRemove_perm [DecidableEq K] (l : List K) (k : K) :
    (swapRemove l k).Perm (l.erase k) := by
  grind [swapRemove, List.erase_of_not_mem, List.erase_eq_eraseIdx_of_idxOf, swapRemoveAt_perm]

theorem mem_swapRemove [DecidableEq K] (hl : l.Nodup) {k x : K} :
    x ∈ swapRemove l k ↔ x ≠ k ∧ x ∈ l :=
  (swapRemove_perm l k).mem_iff.trans hl.mem_erase_iff

theorem nodup_swapRemove [DecidableEq K] (hl : l.Nodup) (k : K) : (swapRemove l k).Nodup :=
  (swapRemove_perm l k).nodup_iff.mpr (hl.erase k)

/-! ## Places in a list -/

theorem insertIdx_length_append (a b : List K) (x : K) :
    (a ++ b).insertIdx a.length x = a ++ x :: b := by
  induction a with
  | nil => rfl
  | cons y a ih => simp [ih]

/-- If what satisfies `p` comes first, `takeWhile` finds it all. -/
theorem takeWhile_eq_filter (h : l.Pairwise fun a b => p b → p a) : l.takeWhile p = l.filter p := by
  induction l with
  | nil => rfl
  | cons a l ih =>
    grind [List.takeWhile_cons_of_pos, List.takeWhile_cons_of_neg, List.pairwise_cons,
      List.filter_eq_nil_iff]

theorem dropWhile_eq_filter (h : l.Pairwise fun a b => p b → p a) :
    l.dropWhile p = l.filter fun a => !p a := by
  induction l with
  | nil => rfl
  | cons a l ih =>
    grind [List.dropWhile_cons_of_pos, List.dropWhile_cons_of_neg, List.pairwise_cons,
      List.filter_eq_self]

/-! ## Sets in the order of insertion -/

/-- A set that keeps its items in the order they were added. -/
structure IndexSet (K : Type) where
  items : List K
  nodup : items.Nodup

namespace IndexSet

variable [DecidableEq K] {s : IndexSet K} {k x : K}

def empty : IndexSet K := ⟨[], List.nodup_nil⟩

instance : Membership K (IndexSet K) := ⟨fun s k => k ∈ s.items⟩

omit [DecidableEq K] in
theorem mem_def : k ∈ s ↔ k ∈ s.items := Iff.rfl

instance (k : K) (s : IndexSet K) : Decidable (k ∈ s) := inferInstanceAs (Decidable (k ∈ s.items))

/-- An item that is there keeps its place. -/
def insert (s : IndexSet K) (k : K) : IndexSet K :=
  if h : k ∈ s.items then s
  else ⟨s.items ++ [k], List.nodup_append.mpr ⟨s.nodup, List.nodup_singleton k, fun a ha b hb => by
    rw [List.mem_singleton.mp hb]
    rintro rfl
    exact h ha⟩⟩

/-- Removes an item; the last one takes its place. -/
def swapRemove (s : IndexSet K) (k : K) : IndexSet K :=
  ⟨Base.swapRemove s.items k, nodup_swapRemove s.nodup k⟩

def isEmpty (s : IndexSet K) : Bool := s.items.isEmpty

/-- The items of a list, each at its first place. -/
def ofList (l : List K) : IndexSet K := l.foldl insert empty

@[simp]
theorem mem_insert : x ∈ s.insert k ↔ x = k ∨ x ∈ s := by
  grind [insert, mem_def]

@[simp]
theorem mem_swapRemove : x ∈ s.swapRemove k ↔ x ≠ k ∧ x ∈ s :=
  Base.mem_swapRemove s.nodup

omit [DecidableEq K] in
@[simp]
theorem not_mem_empty : k ∉ (empty : IndexSet K) := List.not_mem_nil

@[simp]
theorem mem_ofList {l : List K} : x ∈ ofList l ↔ x ∈ l := by
  have h (s : IndexSet K) : x ∈ l.foldl insert s ↔ x ∈ s ∨ x ∈ l := by
    induction l generalizing s with
    | nil => simp
    | cons k l ih =>
      rw [List.foldl_cons, ih, mem_insert, List.mem_cons]
      tauto
  rw [ofList, h]
  simp

end IndexSet

/-! ## Buckets -/

namespace Map

variable {A B : Type} [DecidableEq A] [DecidableEq B] {m : Map A (IndexSet B)} {a a' : A} {b b' : B}

/-- The item goes into the bucket of its key. -/
def bucketInsert (m : Map A (IndexSet B)) (a : A) (b : B) : Map A (IndexSet B) :=
  m.insert a (((m.lookup a).getD .empty).insert b)

/-- The item leaves the bucket of its key, which goes with its last item. -/
def bucketRemove (m : Map A (IndexSet B)) (a : A) (b : B) : Map A (IndexSet B) :=
  match m.lookup a with
  | none => m
  | some bucket =>
    if (bucket.swapRemove b).isEmpty then m.erase a else m.insert a (bucket.swapRemove b)

/-- `b` is in the set of `a`. -/
def InBucket (m : Map A (IndexSet B)) (a : A) (b : B) : Prop :=
  ∃ bucket, m.lookup a = some bucket ∧ b ∈ bucket

theorem inBucket_insert :
    InBucket (m.bucketInsert a b) a' b' ↔ (a' = a ∧ b' = b) ∨ InBucket m a' b' := by
  unfold InBucket bucketInsert
  rw [lookup_insert_ite]
  by_cases ha : a' = a
  · subst ha
    cases hm : m.lookup a' <;> simp
  · simp [ha]

theorem inBucket_remove :
    InBucket (m.bucketRemove a b) a' b' ↔ InBucket m a' b' ∧ ¬(a' = a ∧ b' = b) := by
  unfold InBucket bucketRemove
  cases hm : m.lookup a with
  | none =>
    grind
  | some bucket =>
    dsimp only
    split
    · -- the last item of the bucket
      have hitems : (bucket.swapRemove b).items = [] := List.isEmpty_iff.mp ‹_›
      have hlast (x : B) (hx : x ∈ bucket) : x = b := by
        by_contra hne
        have hmem : x ∈ (bucket.swapRemove b).items := IndexSet.mem_swapRemove.mpr ⟨hne, hx⟩
        rw [hitems] at hmem
        cases hmem
      rw [lookup_erase_ite]
      grind
    · rw [lookup_insert_ite]
      grind [IndexSet.mem_swapRemove]

end Map

/-! ## Maps with an order of their entries -/

/-- A map that keeps its entries in an order of their own. -/
structure IndexMap (K V : Type) where
  entries : List (K × V)
  nodup : (entries.map (·.1)).Nodup

namespace IndexMap

variable [DecidableEq K] {m : IndexMap K V} {k k' : K} {v : V} {p : V → Bool}

def empty : IndexMap K V := ⟨[], List.nodup_nil⟩

def keys (m : IndexMap K V) : List K := m.entries.map (·.1)

/-- The value of a key. -/
def get? (m : IndexMap K V) (k : K) : Option V := (m.entries.find? (·.1 = k)).map (·.2)

/-- `shift_remove`: the entries after it move up. -/
def erase (m : IndexMap K V) (k : K) : IndexMap K V :=
  ⟨m.entries.filter (·.1 ≠ k), m.nodup.sublist (List.filter_sublist.map _)⟩

/-- How many entries at the start meet a condition (`partition_point`). -/
def partitionPoint (m : IndexMap K V) (p : V → Bool) : Nat :=
  (m.entries.takeWhile fun e => p e.2).length

/-- `shift_insert`: the entries from the place on move down. -/
def shiftInsert (m : IndexMap K V) (i : Nat) (k : K) (v : V) : IndexMap K V where
  entries := (m.erase k).entries.insertIdx i (k, v)
  nodup := by
    rcases Nat.lt_or_ge (m.erase k).entries.length i with hi | hi
    · rw [List.insertIdx_of_length_lt hi]
      exact (m.erase k).nodup
    · rw [((List.perm_insertIdx (k, v) _ hi).map _).nodup_iff, List.map_cons, List.nodup_cons]
      refine ⟨fun hk => ?_, (m.erase k).nodup⟩
      obtain ⟨e, he, hek⟩ := List.mem_map.mp hk
      simp only [erase, List.mem_filter, decide_eq_true_eq] at he
      exact he.2 hek

omit [DecidableEq K] in
theorem value_unique {v' : V} (h : (k, v) ∈ m.entries) (h' : (k, v') ∈ m.entries) : v = v' :=
  congrArg Prod.snd (List.inj_on_of_nodup_map m.nodup h h' rfl)

theorem get?_eq_some : m.get? k = some v ↔ (k, v) ∈ m.entries := by
  unfold get?
  rw [Option.map_eq_some_iff]
  constructor
  · grind
  · intro h
    cases hfind : m.entries.find? (·.1 = k) with
    | none => exact absurd (List.find?_eq_none.mp hfind _ h) (by simp)
    | some e =>
      grind [value_unique]

theorem get?_empty : (empty : IndexMap K V).get? k = none := rfl

theorem get?_erase : (m.erase k).get? k' = if k' = k then none else m.get? k' := by
  refine Option.ext fun v => ?_
  grind [get?_eq_some, erase]

theorem erase_of_get?_none (hk : m.get? k = none) : (m.erase k).entries = m.entries := by
  refine List.filter_eq_self.mpr fun e he => ?_
  rw [decide_eq_true_eq]
  rintro rfl
  rw [get?_eq_some.mpr he] at hk
  cases hk

theorem mem_keys : k ∈ m.keys ↔ (m.get? k).isSome := by
  simp [Option.isSome_iff_exists, get?_eq_some, keys, List.mem_map, Prod.exists]

theorem get?_shiftInsert {i : Nat} (hi : i ≤ (m.erase k).entries.length) :
    (m.shiftInsert i k v).get? k' = if k' = k then some v else m.get? k' := by
  refine Option.ext fun w => ?_
  rw [get?_eq_some]
  have hmem : (k', w) ∈ (m.shiftInsert i k v).entries ↔
      (k', w) = (k, v) ∨ (k', w) ∈ (m.erase k).entries := by
    show (k', w) ∈ (m.erase k).entries.insertIdx i (k, v) ↔ _
    rw [List.mem_insertIdx hi]
  rw [hmem, ← get?_eq_some, get?_erase]
  grind

theorem get?_insert_partitionPoint (hk : m.get? k = none) :
    (m.shiftInsert (m.partitionPoint p) k v).get? k' = if k' = k then some v else m.get? k' := by
  refine get?_shiftInsert ?_
  rw [erase_of_get?_none hk]
  exact (List.takeWhile_sublist _).length_le

/-- At a partition point, after what meets the condition. -/
theorem entries_insert_partitionPoint (hk : m.get? k = none) :
    (m.shiftInsert (m.partitionPoint p) k v).entries =
      (m.entries.takeWhile fun e => p e.2) ++ (k, v) :: m.entries.dropWhile fun e => p e.2 := by
  have hinsert := insertIdx_length_append (m.entries.takeWhile fun e => p e.2)
    (m.entries.dropWhile fun e => p e.2) (k, v)
  rw [List.takeWhile_append_dropWhile] at hinsert
  show (m.erase k).entries.insertIdx _ (k, v) = _
  rw [← hinsert, erase_of_get?_none hk, partitionPoint]

/-- The values stay in order when an entry comes after those of at most its value. -/
theorem pairwise_insert_partitionPoint [LinearOrder V] (hk : m.get? k = none)
    (hm : (m.entries.map (·.2)).Pairwise (· ≤ ·)) :
    ((m.shiftInsert (m.partitionPoint (· ≤ v)) k v).entries.map (·.2)).Pairwise (· ≤ ·) := by
  rw [entries_insert_partitionPoint hk, List.map_append, List.map_cons, List.pairwise_append,
    List.pairwise_cons]
  have hbefore : ∀ a ∈ (m.entries.takeWhile fun e => e.2 ≤ v).map (·.2), a ≤ v := by
    grind [List.mem_takeWhile_imp]
  have hafter : ∀ b ∈ (m.entries.dropWhile fun e => e.2 ≤ v).map (·.2), v ≤ b := by
    grind [dropWhile_eq_filter, List.Pairwise.imp]
  grind [List.takeWhile_sublist, List.dropWhile_sublist]

end IndexMap

end Base
