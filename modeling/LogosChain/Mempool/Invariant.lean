import LogosChain.Base.Run
import LogosChain.Mempool.Pool

/-!
# The index of the pool

Every call of the pool is a run of small actions (`call_run`). What an action does to the keys is
said once (`Moves`, `Released`, `Admitted`), and each of these keeps the index (`Indexed`).
-/

namespace Logos

open Base Mantle PoolItem

/-! ## The prefix index -/

section Index

variable {Key Prefix : Type} {keyPrefix : Key → Prefix}

/-- The index finds each of some keys once, under its prefix, and no other. -/
structure IndexOf (keyPrefix : Key → Prefix) [DecidableEq Prefix] (byPrefix : Map Prefix (List Key))
    (Held : Key → Prop) : Prop where
  bucket : ∀ {p : Prefix} {keys : List Key}, byPrefix.lookup p = some keys → keys ≠ [] ∧ keys.Nodup
  mem : ∀ {p : Prefix} {key : Key},
    (∃ keys, byPrefix.lookup p = some keys ∧ key ∈ keys) ↔ keyPrefix key = p ∧ Held key

variable [DecidableEq Prefix] {byPrefix : Map Prefix (List Key)} {Held Held' : Key → Prop}

theorem IndexOf.congr (h : IndexOf keyPrefix byPrefix Held) (heq : ∀ key, Held' key ↔ Held key) :
    IndexOf keyPrefix byPrefix Held' :=
  ⟨h.bucket, h.mem.trans (and_congr_right fun _ => (heq _).symm)⟩

theorem IndexOf.empty : IndexOf keyPrefix (∅ : Map Prefix (List Key)) fun _ => False where
  bucket h := by simp at h
  mem := by simp

section

variable (h : IndexOf keyPrefix byPrefix Held)
include h

/-- Other buckets stay, and the bucket of the key becomes one with the right keys. -/
theorem IndexOf.replace {key : Key} {keys : List Key} (hkeys : keys ≠ [] ∧ keys.Nodup)
    (hmem : ∀ k, k ∈ keys ↔ keyPrefix k = keyPrefix key ∧ Held' k)
    (hother : ∀ k, keyPrefix k ≠ keyPrefix key → (Held' k ↔ Held k)) :
    IndexOf keyPrefix (byPrefix.insert (keyPrefix key) keys) Held' where
  bucket hb := by grind [Map.lookup_insert_some, bucket]
  mem {p k} := by
    by_cases hp : p = keyPrefix key
    · subst hp
      simp [hmem]
    · rw [Map.lookup_insert_ite, if_neg hp, h.mem]
      grind

/-- The keys of a bucket, a missing one included. -/
theorem IndexOf.mem_bucket (p : Prefix) (k : Key) :
    k ∈ (byPrefix.lookup p).getD [] ↔ keyPrefix k = p ∧ Held k := by
  rw [← h.mem]
  cases byPrefix.lookup p <;> simp

theorem IndexOf.nodup_bucket (p : Prefix) : ((byPrefix.lookup p).getD []).Nodup := by
  cases hb : byPrefix.lookup p with
  | none => exact List.nodup_nil
  | some keys => exact (h.bucket hb).2

end

variable [DecidableEq Key]

variable (h : IndexOf keyPrefix byPrefix Held)
include h

theorem IndexOf.index (key : Key) :
    IndexOf keyPrefix (indexByPrefix keyPrefix byPrefix key) fun k => k = key ∨ Held k := by
  have hnew (k : Key) : keyPrefix k = keyPrefix key ∧ (k = key ∨ Held k) ↔
      k ∈ (byPrefix.lookup (keyPrefix key)).getD [] ∨ k = key := by grind [mem_bucket]
  have hother (k : Key) (hk : keyPrefix k ≠ keyPrefix key) : (k = key ∨ Held k) ↔ Held k :=
    or_iff_right fun heq => hk (heq ▸ rfl)
  unfold indexByPrefix
  dsimp only
  split
  · rename_i hin
    refine h.replace ⟨List.ne_nil_of_mem hin, h.nodup_bucket _⟩ (fun k => ?_) hother
    grind
  · rename_i hin
    refine h.replace ⟨by simp, ?_⟩ (fun k => ?_) hother
    · grind [nodup_bucket]
    · rw [hnew, List.mem_append, List.mem_singleton]

theorem IndexOf.unindex (key : Key) :
    IndexOf keyPrefix (unindexByPrefix keyPrefix byPrefix key) fun k => k ≠ key ∧ Held k := by
  unfold unindexByPrefix
  cases hb : byPrefix.lookup (keyPrefix key) with
  | none =>
    have hnot : ¬ Held key := fun hk => by
      obtain ⟨keys, hkeys, -⟩ := h.mem.mpr ⟨rfl, hk⟩
      rw [hb] at hkeys
      cases hkeys
    grind [congr]
  | some bucket =>
    have hrest (k : Key) : k ∈ swapRemove bucket key ↔
        keyPrefix k = keyPrefix key ∧ k ≠ key ∧ Held k := by
      have hmem := h.mem_bucket (keyPrefix key) k
      grind [mem_swapRemove, bucket]
    have hother (k : Key) (hk : keyPrefix k ≠ keyPrefix key) : (k ≠ key ∧ Held k) ↔ Held k :=
      and_iff_right_of_imp fun _ heq => hk (heq ▸ rfl)
    dsimp only
    split
    · rename_i hempty
      rw [List.isEmpty_iff] at hempty
      refine ⟨fun hp => h.bucket (Map.lookup_erase_some.mp hp).2, fun {p k} => ?_⟩
      by_cases hp : p = keyPrefix key
      · subst hp
        rw [← hrest, hempty]
        simp
      · rw [Map.lookup_erase_ite, if_neg hp, h.mem]
        exact and_congr_right fun hk => (hother k (hk ▸ hp)).symm
    · rename_i hempty
      rw [List.isEmpty_iff] at hempty
      exact h.replace ⟨hempty, nodup_swapRemove (h.bucket hb).2 key⟩ hrest hother

theorem IndexOf.foldl_index (keys : List Key) :
    IndexOf keyPrefix (keys.foldl (indexByPrefix keyPrefix) byPrefix)
      fun k => k ∈ keys ∨ Held k := by
  induction keys generalizing byPrefix Held with
  | nil => simpa using h
  | cons key keys ih =>
    grind [index]

theorem IndexOf.foldl_unindex (keys : List Key) :
    IndexOf keyPrefix (keys.foldl (unindexByPrefix keyPrefix) byPrefix)
      fun k => k ∉ keys ∧ Held k := by
  induction keys generalizing byPrefix Held with
  | nil => simpa using h
  | cons key keys ih =>
    grind [unindex]

end Index

/-! ## Places -/

/-- What the three maps of the pool have for a key. -/
@[ext]
structure Place where
  pending : Option Nat
  removed : Option Nat
  included : Option IncludedItem
deriving DecidableEq

namespace Place

/-- One of the maps has the key, with an admission time. -/
def At (p : Place) (t : Nat) : Prop :=
  p.pending = some t ∨ p.removed = some t ∨ ∃ slot, p.included = some ⟨slot, t⟩

/-- No two of the maps have the key. -/
def Apart (p : Place) : Prop :=
  (p.pending = none ∨ p.removed = none) ∧ (p.pending = none ∨ p.included = none) ∧
    (p.removed = none ∨ p.included = none)

/-- The key is pending no more. -/
def retire (p : Place) : Place :=
  match p.pending with
  | none => p
  | some t => ⟨none, some t, p.included⟩

/-- The block that carried the key is not canonical anymore. -/
def leave (p : Place) : Place :=
  match p.included with
  | none => p
  | some included => ⟨p.pending, some included.admittedAt, none⟩

/-- A canonical block carries the key. -/
def enter (p : Place) (slot : Nat) : Place :=
  match p.pending with
  | some t => ⟨none, p.removed, some ⟨slot, t⟩⟩
  | none =>
    match p.removed with
    | some t => ⟨none, none, some ⟨slot, t⟩⟩
    | none =>
      match p.included with
      | some included => ⟨none, none, some ⟨slot, included.admittedAt⟩⟩
      | none => p

/-- The key goes to another place with its admission time. -/
structure Moved (p p' : Place) : Prop where
  apart : p'.Apart
  at_iff : ∀ t, p'.At t ↔ p.At t

variable {p : Place}

variable (h : p.Apart)
include h

theorem Apart.cases : p = ⟨none, none, none⟩ ∨ (∃ t, p = ⟨some t, none, none⟩) ∨
    (∃ t, p = ⟨none, some t, none⟩) ∨ ∃ slot t, p = ⟨none, none, some ⟨slot, t⟩⟩ := by
  rcases p with ⟨_ | t, _ | t', _ | ⟨slot, t''⟩⟩ <;> simp_all [Apart]

theorem Apart.moved_self : Moved p p := ⟨h, fun _ => Iff.rfl⟩

theorem Apart.retire : Moved p p.retire := by
  rcases h.cases with rfl | ⟨t, rfl⟩ | ⟨t, rfl⟩ | ⟨slot, t, rfl⟩
  · exact h.moved_self
  · exact ⟨by simp [Apart, Place.retire], by simp [At, Place.retire]⟩
  · exact h.moved_self
  · exact h.moved_self

theorem Apart.leave : Moved p p.leave := by
  rcases h.cases with rfl | ⟨t, rfl⟩ | ⟨t, rfl⟩ | ⟨slot, t, rfl⟩
  · exact h.moved_self
  · exact h.moved_self
  · exact h.moved_self
  · exact ⟨by simp [Apart, Place.leave], by simp [At, Place.leave]⟩

theorem Apart.enter (slot : Nat) : Moved p (p.enter slot) := by
  rcases h.cases with rfl | ⟨t, rfl⟩ | ⟨t, rfl⟩ | ⟨slot', t, rfl⟩
  · exact h.moved_self
  all_goals exact ⟨by simp [Apart, Place.enter], by simp [At, Place.enter]⟩

/-- An item that enters keeps its admission time. -/
theorem At.enter {t : Nat} (ht : p.At t) (slot : Nat) :
    p.enter slot = ⟨none, none, some ⟨slot, t⟩⟩ := by grind [At, Place.enter, Apart.cases]

end Place

namespace Mempool

variable {Item Key Prefix BlockId : Type} [LinearOrder Key]
  {pool pool' : Mempool Item Key Prefix BlockId} {key : Key}

/-! ## The invariant -/

/-- Where a key is. -/
def place (pool : Mempool Item Key Prefix BlockId) (key : Key) : Place :=
  ⟨pool.pendingItems.get? key, pool.removedItems.lookup key, pool.includedInCanonical.lookup key⟩

/-- The key is in one of the three maps. -/
def Holds (pool : Mempool Item Key Prefix BlockId) (key : Key) : Prop := ∃ t, (pool.place key).At t

/-- The index of the pool. -/
structure Indexed [DecidableEq Prefix] [PoolItem Item Key Prefix BlockId]
    (pool : Mempool Item Key Prefix BlockId) : Prop where
  disjoint : ∀ key, (pool.place key).Apart
  index : IndexOf (keyPrefix Item) pool.byPrefix pool.Holds
  stored : ∀ {key}, pool.Holds key → ∃ item, pool.storage.lookup key = some item
  ordered : (pool.pendingItems.entries.map (·.2)).Pairwise (· ≤ ·)

/-! ## Keys that move between the maps -/

/-- Keys move between the maps, each with its admission time. -/
structure Moves (pool pool' : Mempool Item Key Prefix BlockId) : Prop where
  place : ∀ key, (pool.place key).Moved (pool'.place key)
  ordered : (pool'.pendingItems.entries.map (·.2)).Pairwise (· ≤ ·)
  byPrefix : pool'.byPrefix = pool.byPrefix
  storage : pool'.storage = pool.storage
  evictor : pool'.evictor = pool.evictor
  settings : pool'.settings = pool.settings

theorem Moves.holds_iff (h : Moves pool pool') (key : Key) : pool'.Holds key ↔ pool.Holds key :=
  exists_congr (h.place key).at_iff

theorem place_retireKey (key k : Key) : (pool.retireKey key).place k =
    if k = key then (pool.place k).retire else pool.place k := by
  unfold retireKey Place.retire place
  by_cases hk : k = key
  · subst hk
    rw [if_pos rfl]
    cases hpending : pool.pendingItems.get? k with
    | none => simp [hpending]
    | some t => simp [IndexMap.get?_erase]
  · rw [if_neg hk]
    cases pool.pendingItems.get? key with
    | none => rfl
    | some t => simp [IndexMap.get?_erase, hk]

theorem place_leaveCanonical (key k : Key) : (pool.leaveCanonical key).place k =
    if k = key then (pool.place k).leave else pool.place k := by
  unfold leaveCanonical Place.leave place
  by_cases hk : k = key
  · subst hk
    rw [if_pos rfl]
    cases hincluded : pool.includedInCanonical.lookup k with
    | none => simp [hincluded]
    | some included => simp
  · rw [if_neg hk]
    cases pool.includedInCanonical.lookup key with
    | none => rfl
    | some included => simp [hk]

theorem place_enterCanonical (key : Key) (slot : Nat) (k : Key) :
    (pool.enterCanonical key slot).place k =
      if k = key then (pool.place k).enter slot else pool.place k := by
  unfold enterCanonical Place.enter place
  by_cases hk : k = key
  · subst hk
    rw [if_pos rfl]
    cases hpending : pool.pendingItems.get? k with
    | some t => simp [IndexMap.get?_erase]
    | none =>
      cases hremoved : pool.removedItems.lookup k with
      | some t => simp [hpending]
      | none => cases hincluded : pool.includedInCanonical.lookup k <;> simp [*]
  · rw [if_neg hk]
    cases pool.pendingItems.get? key with
    | some t => simp [IndexMap.get?_erase, hk]
    | none =>
      cases pool.removedItems.lookup key with
      | some t => simp [hk]
      | none =>
        cases pool.includedInCanonical.lookup key <;> simp [hk]

theorem foldl_enter_place {l : List (Key × Nat)} (hkey : key ∉ l.map (·.1))
    (pool : Mempool Item Key Prefix BlockId) :
    (l.foldl (fun pool e => pool.enterCanonical e.1 e.2) pool).place key = pool.place key := by
  induction l generalizing pool with
  | nil => rfl
  | cons e l ih =>
    grind [place_enterCanonical]

variable [DecidableEq Prefix] [PoolItem Item Key Prefix BlockId]

theorem Moves.indexed (hmoves : Moves pool pool') (h : pool.Indexed) : pool'.Indexed where
  disjoint key := (hmoves.place key).apart
  index := hmoves.byPrefix ▸ h.index.congr hmoves.holds_iff
  stored hkey := hmoves.storage ▸ h.stored ((hmoves.holds_iff _).mp hkey)
  ordered := hmoves.ordered

section

variable (h : pool.Indexed)
include h

theorem Indexed.moves_self : Moves pool pool :=
  ⟨fun key => (h.disjoint key).moved_self, h.ordered, rfl, rfl, rfl, rfl⟩

theorem Indexed.moves {f : Place → Place}
    (hplace : ∀ k, pool'.place k = if k = key then f (pool.place k) else pool.place k)
    (hf : ∀ p : Place, p.Apart → p.Moved (f p))
    (hpending : pool'.pendingItems.entries.Sublist pool.pendingItems.entries)
    (hframe : pool'.byPrefix = pool.byPrefix ∧ pool'.storage = pool.storage ∧
      pool'.evictor = pool.evictor ∧ pool'.settings = pool.settings) : Moves pool pool' where
  place k := by grind [Place.Apart.moved_self, disjoint]
  ordered := h.ordered.sublist (hpending.map _)
  byPrefix := hframe.1
  storage := hframe.2.1
  evictor := hframe.2.2.1
  settings := hframe.2.2.2

theorem retireKey_moves (key : Key) : Moves pool (pool.retireKey key) := by
  refine h.moves (place_retireKey key) (fun _ hp => hp.retire) ?_ ?_
  all_goals
    unfold retireKey
    cases pool.pendingItems.get? key with
    | none => simp
    | some t => simp [IndexMap.erase]

theorem leaveCanonical_moves (key : Key) : Moves pool (pool.leaveCanonical key) := by
  refine h.moves (place_leaveCanonical key) (fun _ hp => hp.leave) ?_ ?_
  all_goals
    grind [leaveCanonical]

theorem enterCanonical_moves (key : Key) (slot : Nat) :
    Moves pool (pool.enterCanonical key slot) := by
  refine h.moves (place_enterCanonical key slot) (fun _ hp => hp.enter slot) ?_ ?_
  all_goals
    unfold enterCanonical
    cases pool.pendingItems.get? key with
    | some t => simp [IndexMap.erase]
    | none =>
      cases pool.removedItems.lookup key with
      | some t => simp
      | none => cases pool.includedInCanonical.lookup key <;> simp

end

/-! ## Keys that are released -/

variable [DecidableEq BlockId] {keys : List Key}
  {visits : (m : Map Key IncludedItem) → Map.Iteration m} {settings : MempoolSettings}
  {currentEra : Nat} {reading : RecoverReading Key BlockId}

/-- Some keys leave the pool, with their bodies. -/
structure Released (pool pool' : Mempool Item Key Prefix BlockId) (keys : List Key) : Prop where
  place : ∀ key, pool'.place key = if key ∈ keys then ⟨none, none, none⟩ else pool.place key
  pending : pool'.pendingItems = pool.pendingItems
  byPrefix : pool'.byPrefix = keys.foldl (unindexByPrefix (keyPrefix Item)) pool.byPrefix
  storage : pool'.storage = keys.foldl (fun storage key => storage.erase key) pool.storage
  evictor : pool'.evictor = keys.foldl Evictor.onRelease pool.evictor
  settings : pool'.settings = pool.settings

theorem Released.at_iff (h : Released pool pool' keys) (key : Key) (t : Nat) :
    (pool'.place key).At t ↔ key ∉ keys ∧ (pool.place key).At t := by grind [Place.At, place]

theorem Released.indexed (hreleased : Released pool pool' keys) (h : pool.Indexed) :
    pool'.Indexed where
  disjoint key := by
    rw [hreleased.place]
    split
    · simp [Place.Apart]
    · exact h.disjoint key
  index := by
    rw [hreleased.byPrefix]
    refine (h.index.foldl_unindex keys).congr fun key => ?_
    simp only [Holds, hreleased.at_iff, exists_and_left]
  stored {key} hkey := by
    obtain ⟨t, ht⟩ := hkey
    obtain ⟨hnot, ht⟩ := (hreleased.at_iff key t).mp ht
    obtain ⟨item, hitem⟩ := h.stored ⟨t, ht⟩
    rw [hreleased.storage, Map.lookup_foldl_erase, if_neg hnot]
    exact ⟨item, hitem⟩
  ordered := hreleased.pending ▸ h.ordered

theorem foldl_drop (keys : List Key) (pool : Mempool Item Key Prefix BlockId) :
    keys.foldl drop pool = { pool with
      byPrefix := keys.foldl (unindexByPrefix (keyPrefix Item)) pool.byPrefix
      evictor := keys.foldl Evictor.onRelease pool.evictor } := by
  induction keys generalizing pool with
  | nil => rfl
  | cons key keys ih =>
    rw [List.foldl_cons, ih]
    rfl

theorem deleteRetained_eq {deleted : Bool} (h : pool.deleteRetained keys deleted = some pool') :
    pool' = { pool with
      storage := keys.foldl (fun storage key => storage.erase key) pool.storage
      byPrefix := keys.foldl (unindexByPrefix (keyPrefix Item)) pool.byPrefix
      evictor := keys.foldl Evictor.onRelease pool.evictor } := by
  unfold deleteRetained at h
  split at h
  · simp_all
  · grind [foldl_drop]

/-- A release of retired items: none of them, or those that the evictor selects. -/
theorem releaseRetained_released (h : pool.Indexed) {reading : ReleaseReading}
    (hrelease : pool.releaseRetained reading = .ok pool') :
    ∃ keys releases, Released pool pool' keys ∧ (∀ key ∈ keys, key ∈ releases) ∧
      pool.evictor.selectReleases reading.now pool.removedItems pool.includedInCanonical =
        .ok releases := by
  obtain ⟨releases, hreleases, hrelease⟩ := bind_ok hrelease
  cases hdelete : pool.deleteRetained releases reading.deleted with
  | none =>
    rw [hdelete] at hrelease
    cases hrelease
    exact ⟨[], releases, ⟨by simp, rfl, rfl, rfl, rfl, rfl⟩, by simp, hreleases⟩
  | some pool1 =>
    rw [hdelete] at hrelease
    cases hrelease
    obtain rfl := deleteRetained_eq hdelete
    refine ⟨releases, releases, ⟨fun key => ?_, rfl, rfl, rfl, rfl, rfl⟩, fun _ hk => hk, hreleases⟩
    simp only [place, Map.lookup_foldl_erase]
    split
    · rename_i hkey
      have hpending : pool.pendingItems.get? key = none := by
        obtain ⟨hremoved, hincluded, -⟩ := h.disjoint key
        rcases pool.evictor.mem_selectReleases hreleases hkey with ⟨-, t, -, ht, -⟩ | ⟨-, hretired⟩
        · exact hremoved.resolve_right (by simp [place, ht])
        · rcases hretired with hretired | hretired
          · exact hremoved.resolve_right (Option.isSome_iff_ne_none.mp hretired)
          · exact hincluded.resolve_right (Option.isSome_iff_ne_none.mp hretired)
      rw [hpending]
    · rfl

omit [DecidableEq Prefix] [PoolItem Item Key Prefix BlockId] [DecidableEq BlockId] in
theorem mem_immutableKeys {libSlot : Nat} : key ∈ pool.immutableKeys visits libSlot ↔
      ∃ included, pool.includedInCanonical.lookup key = some included ∧ included.slot ≤ libSlot := by
  unfold immutableKeys
  simp only [List.mem_map, List.mem_filter, (visits _).mem_iff, decide_eq_true_eq]
  simp_all

theorem releaseImmutable_released (h : pool.Indexed)
    (visits : (m : Map Key IncludedItem) → Map.Iteration m) (libSlot : Nat) (deleted : Bool) :
    ∃ keys, Released pool (pool.releaseImmutable visits libSlot deleted) keys ∧
      ∀ key ∈ keys, key ∈ pool.immutableKeys visits libSlot := by
  unfold releaseImmutable
  dsimp only
  cases hdelete : pool.deleteRetained (pool.immutableKeys visits libSlot) deleted with
  | none => exact ⟨[], ⟨by simp, rfl, rfl, rfl, rfl, rfl⟩, by simp⟩
  | some pool1 =>
    obtain rfl := deleteRetained_eq hdelete
    refine ⟨_, ⟨fun key => ?_, rfl, rfl, rfl, rfl, rfl⟩, fun _ hk => hk⟩
    simp only [place, Map.lookup_foldl_erase]
    split
    · rename_i hkey
      obtain ⟨included, hincluded, -⟩ := mem_immutableKeys.mp hkey
      obtain ⟨-, hpending, hremoved⟩ := h.disjoint key
      grind [place]
    · rfl

/-! ## Keys that are admitted -/

theorem place_insertItem (hpending : pool.pendingItems.get? key = none)
    (hincluded : pool.includedInCanonical.lookup key = none) (item : Item)
    (reading : AdmitReading BlockId) (k : Key) : (pool.insertItem key item reading).place k =
      if k = key then ⟨some ((pool.removedItems.lookup key).getD reading.timestamp), none, none⟩
      else pool.place k := by
  grind [place, insertItem, insertPending, IndexMap.get?_insert_partitionPoint,
    Map.lookup_erase_ite]

theorem insertItem_indexed (h : pool.Indexed) (hpending : pool.pendingItems.get? key = none)
    (hincluded : pool.includedInCanonical.lookup key = none) (item : Item)
    (reading : AdmitReading BlockId) : (pool.insertItem key item reading).Indexed := by
  have hholds (k : Key) : (pool.insertItem key item reading).Holds k ↔ k = key ∨ pool.Holds k := by
    unfold Holds
    rw [place_insertItem hpending hincluded]
    split
    · rename_i hk
      simp [hk, Place.At]
    · rename_i hk
      simp [hk]
  refine ⟨fun k => ?_, (h.index.index key).congr hholds, fun {k} hk => ?_, ?_⟩
  · grind [place_insertItem, Place.Apart, Indexed.disjoint]
  · show ∃ item', (pool.storage.insert key item).lookup k = some item'
    rw [Map.lookup_insert_ite]
    split
    · exact ⟨item, rfl⟩
    · rename_i hne
      exact h.stored (((hholds k).mp hk).resolve_left hne)
  · exact IndexMap.pairwise_insert_partitionPoint hpending h.ordered

/-- An admission fails and changes nothing, or the item becomes pending. -/
theorem admitItem_cases (key : Key) (item : Item) (reading : AdmitReading BlockId) :
    (∃ e, pool.admitItem key item reading = (pool, .error e)) ∨
      pool.admitItem key item reading = (pool.insertItem key item reading, .ok ()) ∧
        pool.pendingItems.get? key = none ∧ pool.includedInCanonical.lookup key = none := by
  grind [admitItem, Option.isSome_iff_ne_none]

/-! ## Recovery -/

omit [DecidableEq Prefix] [PoolItem Item Key Prefix BlockId] [DecidableEq BlockId] in
theorem mem_recoveredKeys : key ∈ recoveredKeys pool.save visits ↔ pool.Holds key := by
  have hremoved : key ∈ pool.removedItems.toList.map (·.1) ↔
      ∃ t, pool.removedItems.lookup key = some t := by
    simp [List.mem_map, Map.mem_toList, Prod.exists]
  have hincluded : key ∈ (visits pool.includedInCanonical).entries.map (·.1) ↔
      ∃ t slot, pool.includedInCanonical.lookup key = some ⟨slot, t⟩ := by
    simp only [List.mem_map, Prod.exists, exists_and_right, exists_eq_right,
      (visits pool.includedInCanonical).mem_iff]
    exact ⟨fun ⟨⟨slot, t⟩, h⟩ => ⟨t, slot, h⟩, fun ⟨t, slot, h⟩ => ⟨⟨slot, t⟩, h⟩⟩
  unfold recoveredKeys save Holds Place.At place
  grind [IndexMap.mem_keys, Option.isSome_iff_exists]

theorem place_recover (key : Key) :
    (recover settings currentEra pool.save pool.storage reading).place key = pool.place key := by
  unfold recover
  cases reading.loads <;> rfl

theorem recover_indexed (h : pool.Indexed) :
    (recover settings currentEra pool.save pool.storage reading).Indexed := by
  have hholds (key : Key) :
      (recover settings currentEra pool.save pool.storage reading).Holds key ↔ pool.Holds key := by
    unfold Holds
    rw [place_recover]
  have hindex : IndexOf (keyPrefix Item)
      ((recoveredKeys pool.save reading.visits).foldl (indexByPrefix (keyPrefix Item)) ∅)
      (recover settings currentEra pool.save pool.storage reading).Holds := by
    refine (IndexOf.empty.foldl_index _).congr fun key => ?_
    rw [hholds, mem_recoveredKeys, or_false]
  refine ⟨fun key => by rw [place_recover]; exact h.disjoint key, ?_, fun {key} hkey => ?_, ?_⟩
  · grind [recover]
  · obtain ⟨item, hitem⟩ := h.stored ((hholds key).mp hkey)
    grind [recover]
  · unfold recover
    cases reading.loads <;> exact h.ordered

/-! ## Actions -/

end Mempool

/-- What the calls of the pool are made of. -/
inductive PoolAction (Item Key BlockId : Type) [DecidableEq Key] where
  | retire (key : Key)
  | leave (key : Key)
  | enter (key : Key) (slot : Nat)
  | release (reading : ReleaseReading)
  | releaseImmutable (visits : (m : Map Key IncludedItem) → Map.Iteration m) (libSlot : Nat)
      (deleted : Bool)
  | processed (blockId : BlockId) (slot : Nat)
  | admitItem (key : Key) (item : Item) (reading : AdmitReading BlockId)
  | recover (settings : MempoolSettings) (currentEra : Nat) (reading : RecoverReading Key BlockId)
  | rotateEra (era : Nat)

section Parts

variable {Item Key Prefix BlockId : Type} [LinearOrder Key] [PoolItem Item Key Prefix BlockId]

/-- The actions that a call can take. -/
inductive PoolCall.Part : PoolCall Item Key BlockId → PoolAction Item Key BlockId → Prop where
  | addRelease {key item reading} : Part (.addItem key item reading) (.release reading.release)
  | addAdmit {key item reading} : Part (.addItem key item reading) (.admitItem key item reading)
  | removeRetire {keys now reading key} : Part (.remove keys now reading) (.retire key)
  | removeRelease {keys now reading} : Part (.remove keys now reading) (.release reading)
  | updateLeave {entered visits reorged now} {r : Reorged Item BlockId} : r ∈ reorged →
      Part (.canonicalChainUpdated entered visits reorged now) (.leave (hash r.tx))
  | updateEnter {entered visits reorged now key slot} : entered.lookup key = some slot →
      Part (.canonicalChainUpdated entered visits reorged now) (.enter key slot)
  | updateRelease {entered visits reorged now} {r : Reorged Item BlockId} : r ∈ reorged →
      Part (.canonicalChainUpdated entered visits reorged now) (.release r.reading.release)
  | updateAdmit {entered visits reorged now} {r : Reorged Item BlockId} : r ∈ reorged →
      Part (.canonicalChainUpdated entered visits reorged now)
        (.admitItem (hash r.tx) r.tx r.reading)
  | processedImmutable {blockId slot libSlot reading} :
      Part (.processedBlock blockId slot libSlot reading)
        (.releaseImmutable reading.visits libSlot reading.deleted)
  | processedSlot {blockId slot libSlot reading} :
      Part (.processedBlock blockId slot libSlot reading) (.processed blockId slot)
  | processedRetire {blockId slot libSlot reading key} :
      Part (.processedBlock blockId slot libSlot reading) (.retire key)
  | processedRelease {blockId slot libSlot reading} :
      Part (.processedBlock blockId slot libSlot reading) (.release reading.release)
  | recover {settings currentEra reading} :
      Part (.recover settings currentEra reading) (.recover settings currentEra reading)
  | rotateEra {era} : Part (.rotateEra era) (.rotateEra era)

end Parts

namespace Mempool

variable {Item Key Prefix BlockId : Type} [LinearOrder Key] [DecidableEq Prefix]
  [DecidableEq BlockId] [PoolItem Item Key Prefix BlockId]
  {pool pool' pool₁ : Mempool Item Key Prefix BlockId} {a : PoolAction Item Key BlockId}
  {P P' : PoolAction Item Key BlockId → Prop} {entered : Map Key Nat}
  {visits : Map.Iteration entered} {reorged : List (Reorged Item BlockId)} {now : Nat}

/-- The pool after an action. -/
def act (pool : Mempool Item Key Prefix BlockId) :
    PoolAction Item Key BlockId → Except PoolPanic (Mempool Item Key Prefix BlockId)
  | .retire key => .ok (pool.retireKey key)
  | .leave key => .ok (pool.leaveCanonical key)
  | .enter key slot => .ok (pool.enterCanonical key slot)
  | .release reading => pool.releaseRetained reading
  | .releaseImmutable visits libSlot deleted => .ok (pool.releaseImmutable visits libSlot deleted)
  | .processed blockId slot =>
    .ok { pool with evictor := pool.evictor.onProcessedBlock blockId slot }
  | .admitItem key item reading => .ok (pool.admitItem key item reading).1
  | .recover settings currentEra reading =>
    .ok (recover settings currentEra pool.save pool.storage reading)
  | .rotateEra era => .ok (pool.rotateEra era)

/-- An action takes one pool to another. -/
def Acts (pool : Mempool Item Key Prefix BlockId) (a : PoolAction Item Key BlockId)
    (pool' : Mempool Item Key Prefix BlockId) : Prop := pool.act a = .ok pool'

theorem act_indexed (h : pool.Indexed) (ha : Acts pool a pool') : pool'.Indexed := by
  cases a with
  | retire key => cases ha; exact (retireKey_moves h key).indexed h
  | leave key => cases ha; exact (leaveCanonical_moves h key).indexed h
  | enter key slot => cases ha; exact (enterCanonical_moves h key slot).indexed h
  | release reading =>
    obtain ⟨keys, releases, hreleased, -, -⟩ := releaseRetained_released h ha
    exact hreleased.indexed h
  | releaseImmutable visits libSlot deleted =>
    cases ha
    obtain ⟨keys, hreleased, -⟩ := releaseImmutable_released h visits libSlot deleted
    exact hreleased.indexed h
  | processed blockId slot => cases ha; exact ⟨h.disjoint, h.index, h.stored, h.ordered⟩
  | admitItem key item reading =>
    cases ha
    grind [insertItem_indexed, admitItem_cases]
  | recover settings currentEra reading => cases ha; exact recover_indexed h
  | rotateEra era => cases ha; exact ⟨h.disjoint, h.index, h.stored, h.ordered⟩

/-! ## Calls as runs of actions -/

/-- A run of actions of a kind. -/
def RunOf (P : PoolAction Item Key BlockId → Prop) (pool pool' : Mempool Item Key Prefix BlockId) :
    Prop :=
  ∃ acts, Run Acts pool acts pool' ∧ ∀ a ∈ acts, P a

theorem RunOf.refl : RunOf P pool pool := ⟨[], .nil _, by simp⟩

theorem RunOf.trans (h : RunOf P pool pool₁) (h' : RunOf P pool₁ pool') : RunOf P pool pool' := by
  obtain ⟨acts, hrun, hparts⟩ := h
  obtain ⟨acts', hrun', hparts'⟩ := h'
  refine ⟨acts ++ acts', hrun.append hrun', fun a ha => ?_⟩
  exact (List.mem_append.mp ha).elim (hparts a) (hparts' a)

theorem RunOf.mono (h : RunOf P pool pool') (hP : ∀ a, P a → P' a) : RunOf P' pool pool' := by
  obtain ⟨acts, hrun, hparts⟩ := h
  exact ⟨acts, hrun, fun a ha => hP a (hparts a ha)⟩

theorem RunOf.single (hpart : P a) (ha : Acts pool a pool') : RunOf P pool pool' :=
  ⟨[a], .snoc (.nil _) ha, by simpa using hpart⟩

theorem RunOf.foldl {α : Type} {f : Mempool Item Key Prefix BlockId → α → Mempool Item Key Prefix BlockId}
    (label : α → PoolAction Item Key BlockId) (hf : ∀ pool a, Acts pool (label a) (f pool a))
    {l : List α} (hpart : ∀ a ∈ l, P (label a)) : RunOf P pool (l.foldl f pool) :=
  ⟨l.map label, Run.foldl hf pool l, List.forall_mem_map.mpr hpart⟩

theorem addItem_run {key : Key} {item : Item} {reading : AdmitReading BlockId}
    {result : Except MempoolError Unit} (h : pool.addItem key item reading = .ok (pool', result))
    (hrelease : P (.release reading.release)) (hadmission : P (.admitItem key item reading)) :
    RunOf P pool pool' := by
  obtain ⟨era, -, h⟩ := bind_ok h
  cases hlimits : era.parameters.admitItem item with
  | error e =>
    rw [hlimits] at h
    cases h
    exact .refl
  | ok _ =>
    rw [hlimits] at h
    obtain ⟨pool₁, hpool₁, h⟩ := bind_ok h
    have hpool' : (pool₁.admitItem key item reading).1 = pool' := congrArg Prod.fst (Except.ok.inj h)
    exact (RunOf.single hrelease hpool₁).trans (.single hadmission (congrArg Except.ok hpool'))

theorem evict_run (now : Nat) (hpart : ∀ key, P (.retire key)) : RunOf P pool (pool.evict now) :=
  .foldl .retire (fun _ _ => rfl) fun key _ => hpart key

theorem onProcessedBlock_run {blockId : BlockId} {slot libSlot : Nat}
    {reading : ProcessedReading Key}
    (h : pool.onProcessedBlock blockId slot libSlot reading = .ok pool') :
    RunOf (PoolCall.Part (.processedBlock blockId slot libSlot reading)) pool pool' := by
  let P : PoolAction Item Key BlockId → Prop :=
    PoolCall.Part (.processedBlock blockId slot libSlot reading)
  let immutable := pool.releaseImmutable reading.visits libSlot reading.deleted
  let processed := { immutable with evictor := immutable.evictor.onProcessedBlock blockId slot }
  have himmutable : RunOf P pool immutable := .single .processedImmutable rfl
  have hprocessed : RunOf P immutable processed := .single .processedSlot rfl
  have hevict : RunOf P processed (processed.evict reading.now) :=
    evict_run reading.now fun _ => .processedRetire
  exact himmutable.trans <| hprocessed.trans <| hevict.trans <| .single .processedRelease h

/-- The reorged items left the canonical ones, and the entered ones entered. -/
def moveCanonical (pool : Mempool Item Key Prefix BlockId) {entered : Map Key Nat}
    (visits : Map.Iteration entered) (reorged : List (Reorged Item BlockId)) :
    Mempool Item Key Prefix BlockId :=
  visits.entries.foldl (fun pool e => pool.enterCanonical e.1 e.2)
    (reorged.foldl (fun pool r => pool.leaveCanonical (hash r.tx)) pool)

theorem moveCanonical_run :
    RunOf (PoolCall.Part (.canonicalChainUpdated entered visits reorged now)) pool
      (pool.moveCanonical visits reorged) := by
  refine RunOf.trans (.foldl (fun r => .leave (PoolItem.hash r.tx)) (fun _ _ => rfl)
    fun _ hr => .updateLeave hr) ?_
  refine RunOf.foldl (fun e : Key × Nat => .enter e.1 e.2) (fun _ _ => rfl) fun e he => ?_
  exact .updateEnter ((visits.mem_iff e.1 e.2).mp he)

variable [DateTimeRange] {c : PoolCall Item Key BlockId}

theorem readmitItem_run {state state' : Mempool Item Key Prefix BlockId × List Item}
    {r : Reorged Item BlockId} (h : readmitItem now state r = .ok state')
    (hrelease : P (.release r.reading.release))
    (hadmission : P (.admitItem (hash r.tx) r.tx r.reading)) : RunOf P state.1 state'.1 := by
  unfold readmitItem at h
  dsimp only at h
  split at h
  · cases h
    exact .refl
  · obtain ⟨result, hresult, h⟩ := bind_ok h
    have hsame : state'.1 = result.1 := by
      cases hcase : result.2 <;> rw [hcase] at h <;> cases h <;> rfl
    rw [hsame]
    exact addItem_run hresult hrelease hadmission

/-- After the keys moved there are only releases and admissions. -/
inductive Readmission : PoolAction Item Key BlockId → Prop where
  | release {reading} : Readmission (.release reading)
  | admitItem {key item reading} : Readmission (.admitItem key item reading)

theorem readmissions_run {readmitted : List Item}
    (h : pool.onCanonicalChainUpdated entered visits reorged now = .ok (pool', readmitted)) :
    RunOf (fun a => PoolCall.Part (.canonicalChainUpdated entered visits reorged now) a ∧
      Readmission a) (pool.moveCanonical visits reorged) pool' := by
  refine foldlM_invariant (I := fun state => RunOf _ (pool.moveCanonical visits reorged) state.1) h
    .refl fun r hr state state' hrun hstep => hrun.trans ?_
  exact readmitItem_run hstep ⟨.updateRelease hr, .release⟩ ⟨.updateAdmit hr, .admitItem⟩

theorem call_run (h : Step pool c pool') : RunOf c.Part pool pool' := by
  cases c with
  | addItem key item reading =>
    obtain ⟨⟨pool₁, result⟩, hadd, hpool'⟩ := map_ok h
    exact hpool' ▸ addItem_run hadd .addRelease .addAdmit
  | remove keys now reading =>
    have hretire : RunOf (PoolCall.Part (.remove keys now reading)) pool (pool.retire keys) :=
      .foldl .retire (fun _ _ => rfl) fun _ _ => .removeRetire
    exact hretire.trans <| (evict_run now fun _ => .removeRetire).trans <| .single .removeRelease h
  | canonicalChainUpdated entered visits reorged now =>
    obtain ⟨⟨pool₁, readmitted⟩, hupdate, hpool'⟩ := map_ok h
    exact hpool' ▸ moveCanonical_run.trans ((readmissions_run hupdate).mono fun _ ha => ha.1)
  | processedBlock blockId slot libSlot reading => exact onProcessedBlock_run h
  | recover settings currentEra reading => exact .single .recover h
  | rotateEra era => exact .single .rotateEra h

/-! ## The index along every run of calls -/

theorem call_indexed (h : pool.Indexed) (hc : Step pool c pool') : pool'.Indexed := by
  obtain ⟨acts, hrun, -⟩ := call_run hc
  exact hrun.invariant h fun _ _ _ hi ha => act_indexed hi ha

omit [DecidableEq BlockId] [DateTimeRange] in
theorem new_indexed (settings : MempoolSettings) (currentEra : Nat) (storage : Map Key Item) :
    (new settings currentEra storage : Mempool Item Key Prefix BlockId).Indexed := by
  have hnone (key : Key) : ¬ (new settings currentEra storage :
      Mempool Item Key Prefix BlockId).Holds key := by
    rintro ⟨t, ht⟩
    simp [Place.At, place, new, IndexMap.get?_empty] at ht
  refine ⟨fun key => ?_, IndexOf.empty.congr fun key => iff_false_intro (hnone key),
    fun {key} hkey => absurd hkey (hnone key), List.Pairwise.nil⟩
  simp [Place.Apart, place, new]

/-- After any calls the three maps have no key in common, the prefix index has each of their keys
once, their bodies are in storage, and the pending items are in the order of their admission. -/
theorem index_of_calls {settings : MempoolSettings} {currentEra : Nat} {storage : Map Key Item}
    {calls : List (PoolCall Item Key BlockId)}
    (hrun : Run Step (new settings currentEra storage) calls pool) :
    (∀ key, (pool.place key).Apart) ∧
    (∀ p keys, pool.byPrefix.lookup p = some keys →
      keys ≠ [] ∧ keys.Nodup ∧ ∀ key ∈ keys, keyPrefix Item key = p) ∧
    (∀ key, (∃ keys, pool.byPrefix.lookup (keyPrefix Item key) = some keys ∧ key ∈ keys) ↔
      pool.Holds key) ∧
    (∀ key, pool.Holds key → (pool.storage.lookup key).isSome) ∧
    (pool.pendingItems.entries.map (·.2)).Pairwise (· ≤ ·) ∧
    ∀ ttl now, TtlPolicy.expired ⟨some ttl⟩ pool.pendingItems now =
      (pool.pendingItems.entries.filter fun e => TtlPolicy.Reached ttl now e.2).map (·.1) := by
  have h : pool.Indexed :=
    hrun.invariant (new_indexed settings currentEra storage) fun _ _ _ hi hc => call_indexed hi hc
  refine ⟨h.disjoint, fun p keys hp => ?_, fun key => ?_, fun key hkey => ?_, h.ordered,
    fun ttl now => TtlPolicy.expired_eq ⟨some ttl⟩ rfl h.ordered now⟩
  · obtain ⟨hne, hnodup⟩ := h.index.bucket hp
    exact ⟨hne, hnodup, fun key hkey => (h.index.mem.mp ⟨keys, hp, hkey⟩).1⟩
  · rw [h.index.mem, and_iff_right rfl]
  · obtain ⟨item, hitem⟩ := h.stored hkey
    rw [hitem]
    rfl

/-- A transaction added and then dropped by a leader. -/
def addThenRemove : List (PoolCall SignedOps TxHash Hash) :=
  [.addItem 0 ⟨7, []⟩ ⟨⟨4, true⟩, 5, ∅, .ok ()⟩, .remove [0] 8 ⟨9, true⟩]

def hourSettings : MempoolSettings :=
  ⟨some (3600 * 10 ^ 9), none, .single [7], none, .single ⟨1000, 100⟩⟩

omit [DateTimeRange] in
theorem index_of_addThenRemove :
    letI := Primitives.plain
    letI := DateTimeRange.utc
    ∃ pool : Mempool SignedOps TxHash Nat Hash, Run Step (new hourSettings 0 ∅) addThenRemove pool ∧
      pool.place 0 = ⟨none, some 5, none⟩ ∧
      (∃ keys, pool.byPrefix.lookup 0 = some keys ∧ 0 ∈ keys) ∧ (pool.storage.lookup 0).isSome := by
  let _ := Primitives.plain
  let _ := DateTimeRange.utc
  obtain ⟨pool, hcalls, hplace⟩ := exists_ok (x := addThenRemove.foldlM call
      (new hourSettings 0 ∅ : Mempool SignedOps TxHash Nat Hash))
    (·.place 0 = ⟨none, some 5, none⟩) (by decide +kernel)
  have hrun : Run Step (new hourSettings 0 ∅) addThenRemove pool := Run.of_foldlM hcalls
  obtain ⟨-, -, hindex, hstored, -, -⟩ := index_of_calls hrun
  have hholds : pool.Holds 0 := ⟨5, .inr (.inl (by rw [hplace]))⟩
  exact ⟨pool, hrun, hplace, (hindex 0).mpr hholds, hstored 0 hholds⟩

end Mempool

end Logos
