import LogosChain.Mempool.Policy

/-!
# The mempool (`services/tx-service/src/backend/pool.rs`)

The pool keeps its keys in three maps: pending, retired (`removedItems`), and carried by a canonical
block that is not immutable yet. `byPrefix` finds a key by the prefix that a proposal carries. What
a call reads from outside is an argument: the clock, storage, and the order of a hash map.
-/

namespace Logos

open Base Mantle PoolItem

/-- Why an item is not admitted. -/
inductive MempoolError where
  | existingItem
  | itemTooLarge (size max : Nat)
  | inscriptionTooLarge (size max : Nat)
  | metadataTooLarge (size max : Nat)
  | expired
  | unacceptedForkDigest (forkDigest : ForkDigest)
  | storageError (error : String)
deriving DecidableEq, Repr

/-- What a transaction must fit for the pool to admit it. -/
structure AdmissionLimits where
  maxTransactionSize : Nat
  maxOpDataSize : Nat

/-- The settings of the pool by era. -/
structure MempoolSettings where
  txTtl : Option Nat
  powClaim : Option (EraSchedule PowClaimEvictionSettings)
  acceptedForkDigests : EraSchedule (List ForkDigest)
  eraTiming : Option (EraSchedule EraTiming)
  admission : EraSchedule AdmissionLimits

/-- The pool, with the bodies that its storage holds. -/
structure Mempool (Item Key Prefix BlockId : Type) where
  pendingItems : IndexMap Key Nat
  byPrefix : Map Prefix (List Key)
  removedItems : Map Key Nat
  includedInCanonical : Map Key IncludedItem
  settings : MempoolSettings
  lastItemTimestamp : Nat
  evictor : Evictor Key BlockId
  eraInForce : Nat
  storage : Map Key Item

/-- What is saved of the pool. -/
structure PoolRecoveryState (Key : Type) where
  pendingItems : IndexMap Key Nat
  removedItems : Map Key Nat
  includedInCanonical : Map Key IncludedItem
  lastItemTimestamp : Nat

/-! ## What a call reads -/

/-- A release: the time, and whether storage deletes the bodies. -/
structure ReleaseReading where
  now : Nat
  deleted : Bool

/-- The release before, the time, the anchors, and what storage says. -/
structure AdmitReading (BlockId : Type) where
  release : ReleaseReading
  timestamp : Nat
  blockSlots : Map BlockId Nat
  stored : Except String Unit

/-- The order of included items, the deletions, the time, and the release. -/
structure ProcessedReading (Key : Type) [DecidableEq Key] where
  visits : (m : Map Key IncludedItem) → Map.Iteration m
  deleted : Bool
  now : Nat
  release : ReleaseReading

/-- The order of included items, which bodies load, and the anchors. -/
structure RecoverReading (Key BlockId : Type) [DecidableEq Key] where
  visits : (m : Map Key IncludedItem) → Map.Iteration m
  loads : Option (Key → Bool)
  blockSlots : Key → Map BlockId Nat

/-- A transaction with the slot of its block, and what its admission reads. -/
structure Reorged (Item BlockId : Type) where
  tx : Item
  slot : Nat
  reading : AdmitReading BlockId

/-! ## Admission limits -/

section Limits

variable {Item Key Prefix BlockId : Type} [PoolItem Item Key Prefix BlockId]

/-- The data of an operation is within the limit. -/
def AdmissionLimits.admitOp (limits : AdmissionLimits) : Op → Except MempoolError Unit
  | .channelInscribe op =>
    failIf (limits.maxOpDataSize < op.inscription.length)
      (.inscriptionTooLarge op.inscription.length limits.maxOpDataSize)
  | .channelDeposit op =>
    failIf (limits.maxOpDataSize < op.metadata.length)
      (.metadataTooLarge op.metadata.length limits.maxOpDataSize)
  | _ => .ok ()

/-- The item and its data are within the limits. -/
def AdmissionLimits.admitItem (limits : AdmissionLimits) (item : Item) : Except MempoolError Unit := do
  failIf (limits.maxTransactionSize < storageSize item)
    (.itemTooLarge (storageSize item) limits.maxTransactionSize)
  (ops item).forM limits.admitOp

end Limits

/-! ## The prefix index -/

section Index

variable {Key Prefix : Type} [DecidableEq Key] [DecidableEq Prefix]

/-- The key goes into the bucket of its prefix. -/
def indexByPrefix (keyPrefix : Key → Prefix) (byPrefix : Map Prefix (List Key)) (key : Key) :
    Map Prefix (List Key) :=
  let bucket := (byPrefix.lookup (keyPrefix key)).getD []
  byPrefix.insert (keyPrefix key) (if key ∈ bucket then bucket else bucket ++ [key])

/-- The key leaves its bucket, which goes with its last key. -/
def unindexByPrefix (keyPrefix : Key → Prefix) (byPrefix : Map Prefix (List Key)) (key : Key) :
    Map Prefix (List Key) :=
  match byPrefix.lookup (keyPrefix key) with
  | none => byPrefix
  | some bucket =>
    if (swapRemove bucket key).isEmpty then byPrefix.erase (keyPrefix key)
    else byPrefix.insert (keyPrefix key) (swapRemove bucket key)

end Index

namespace Mempool

variable {Item Key Prefix BlockId : Type} [LinearOrder Key] [DecidableEq Prefix]
  [DecidableEq BlockId] [PoolItem Item Key Prefix BlockId]

/-- The empty pool over a storage. -/
def new (settings : MempoolSettings) (currentEra : Nat) (storage : Map Key Item) :
    Mempool Item Key Prefix BlockId where
  pendingItems := .empty
  byPrefix := ∅
  removedItems := ∅
  includedInCanonical := ∅
  settings := settings
  lastItemTimestamp := 0
  evictor := .new settings.txTtl settings.powClaim
  eraInForce := currentEra
  storage := storage

variable (pool : Mempool Item Key Prefix BlockId)

def rotateEra (era : Nat) : Mempool Item Key Prefix BlockId := { pool with eraInForce := era }

/-! ## Retiring and releasing -/

/-- A pending item is retired; any other key is ignored. -/
def retireKey (key : Key) : Mempool Item Key Prefix BlockId :=
  match pool.pendingItems.get? key with
  | none => pool
  | some admittedAt =>
    { pool with
      pendingItems := pool.pendingItems.erase key
      removedItems := pool.removedItems.insert key admittedAt }

/-- Retires keys. -/
def retire (keys : List Key) : Mempool Item Key Prefix BlockId := keys.foldl retireKey pool

/-- Retires what the policies evict. -/
def evict (now : Nat) : Mempool Item Key Prefix BlockId :=
  pool.retire (pool.evictor.selectRetirements now pool.pendingItems)

/-- A key leaves the prefix index and the evictor. -/
def drop (key : Key) : Mempool Item Key Prefix BlockId :=
  { pool with
    byPrefix := unindexByPrefix (keyPrefix Item) pool.byPrefix key
    evictor := pool.evictor.onRelease key }

/-- `delete_retained`: bodies go with entries. None if storage fails. -/
def deleteRetained (keys : List Key) (deleted : Bool) : Option (Mempool Item Key Prefix BlockId) :=
  if keys.isEmpty then some pool
  else if !deleted then none
  else some (keys.foldl drop { pool with
    storage := keys.foldl (fun storage key => storage.erase key) pool.storage })

/-- `release_retained`: what the evictor selects. -/
def releaseRetained (reading : ReleaseReading) :
    Except PoolPanic (Mempool Item Key Prefix BlockId) := do
  let releases ←
    pool.evictor.selectReleases reading.now pool.removedItems pool.includedInCanonical
  match pool.deleteRetained releases reading.deleted with
  | none => return pool
  | some pool' => return { pool' with
      removedItems := releases.foldl (fun m key => m.erase key) pool'.removedItems
      includedInCanonical := releases.foldl (fun m key => m.erase key) pool'.includedInCanonical }

/-- The included items whose block is immutable. -/
def immutableKeys (visits : (m : Map Key IncludedItem) → Map.Iteration m) (libSlot : Nat) :
    List Key :=
  ((visits pool.includedInCanonical).entries.filter fun e => e.2.slot ≤ libSlot).map (·.1)

/-- `release_immutable`: what immutable blocks carry. -/
def releaseImmutable (visits : (m : Map Key IncludedItem) → Map.Iteration m) (libSlot : Nat)
    (deleted : Bool) : Mempool Item Key Prefix BlockId :=
  let keys := pool.immutableKeys visits libSlot
  match pool.deleteRetained keys deleted with
  | none => pool
  | some pool' => { pool' with
      includedInCanonical := keys.foldl (fun m key => m.erase key) pool'.includedInCanonical }

/-! ## Admission -/

/-- The item gets the place that its admission time gives it. -/
def insertPending (key : Key) (admittedAt : Nat) : IndexMap Key Nat :=
  pool.pendingItems.shiftInsert (pool.pendingItems.partitionPoint (· ≤ admittedAt)) key admittedAt

/-- The item is pending. A retired one keeps its admission time. -/
def insertItem (key : Key) (item : Item) (reading : AdmitReading BlockId) :
    Mempool Item Key Prefix BlockId :=
  { pool with
    storage := pool.storage.insert key item
    removedItems := pool.removedItems.erase key
    byPrefix := indexByPrefix (keyPrefix Item) pool.byPrefix key
    evictor := pool.evictor.onAdd key item reading.blockSlots
    pendingItems := pool.insertPending key ((pool.removedItems.lookup key).getD reading.timestamp)
    lastItemTimestamp := reading.timestamp }

/-- The era in force accepts the fork digest. -/
def accepts (forkDigest : ForkDigest) : Bool :=
  match pool.settings.acceptedForkDigests.get pool.eraInForce with
  | none => false
  | some era => forkDigest ∈ era.parameters

/-- `add_item` after the release. -/
def admitItem (key : Key) (item : Item) (reading : AdmitReading BlockId) :
    Mempool Item Key Prefix BlockId × Except MempoolError Unit :=
  if (pool.pendingItems.get? key).isSome || (pool.includedInCanonical.lookup key).isSome then
    (pool, .error .existingItem)
  else if !pool.accepts (forkDigest item) then
    (pool, .error (.unacceptedForkDigest (forkDigest item)))
  else if pool.evictor.isExpired item reading.timestamp reading.blockSlots then
    (pool, .error .expired)
  else match reading.stored with
    | .error e => (pool, .error (.storageError e))
    | .ok () => (pool.insertItem key item reading, .ok ())

/-- Admits an item after a release. -/
def addItem (key : Key) (item : Item) (reading : AdmitReading BlockId) :
    Except PoolPanic (Mempool Item Key Prefix BlockId × Except MempoolError Unit) := do
  let era ← okOr (pool.settings.admission.get pool.eraInForce) .unscheduledEra
  match era.parameters.admitItem item with
  | .error e => return (pool, .error e)
  | .ok () =>
    let pool' ← pool.releaseRetained reading.release
    return pool'.admitItem key item reading

/-! ## Removal by a leader -/

/-- A leader found these transactions invalid. -/
def remove (keys : List Key) (now : Nat) (reading : ReleaseReading) :
    Except PoolPanic (Mempool Item Key Prefix BlockId) :=
  ((pool.retire keys).evict now).releaseRetained reading

/-! ## Updates of the canonical chain -/

section Canonical

/-- A reorged item leaves the canonical ones. -/
def leaveCanonical (key : Key) : Mempool Item Key Prefix BlockId :=
  match pool.includedInCanonical.lookup key with
  | none => pool
  | some included =>
    { pool with
      includedInCanonical := pool.includedInCanonical.erase key
      removedItems := pool.removedItems.insert key included.admittedAt }

/-- An item that is held is carried by a canonical block. -/
def enterCanonical (key : Key) (slot : Nat) : Mempool Item Key Prefix BlockId :=
  match pool.pendingItems.get? key with
  | some admittedAt =>
    { pool with
      pendingItems := pool.pendingItems.erase key
      includedInCanonical := pool.includedInCanonical.insert key ⟨slot, admittedAt⟩ }
  | none =>
    match pool.removedItems.lookup key with
    | some admittedAt =>
      { pool with
        removedItems := pool.removedItems.erase key
        includedInCanonical := pool.includedInCanonical.insert key ⟨slot, admittedAt⟩ }
    | none =>
      match pool.includedInCanonical.lookup key with
      | some included =>
        { pool with
          includedInCanonical :=
            pool.includedInCanonical.insert key ⟨slot, included.admittedAt⟩ }
      | none => pool

/-- When a slot starts, if the slot timing is known. -/
def slotStart [DateTimeRange] (slot : Nat) : Option Nat := do
  let timing ← pool.settings.eraTiming
  let start ← timing.checkedTimeOf slot
  let millis := start.tdiv (10 ^ 6)
  if 0 ≤ millis ∧ millis < 2 ^ 64 then some millis.toNat else none

/-- An item is older than the TTL. -/
def isExpired (admittedAt now : Nat) : Bool :=
  match pool.settings.txTtl with
  | none => false
  | some txTtl => asMillis txTtl < now - admittedAt

/-- A reorged item is admitted again, unless it is too old. -/
def readmitItem [DateTimeRange] (now : Nat)
    (state : Mempool Item Key Prefix BlockId × List Item) (reorged : Reorged Item BlockId) :
    Except PoolPanic (Mempool Item Key Prefix BlockId × List Item) := do
  let key := hash reorged.tx
  let admittedAt := (state.1.removedItems.lookup key).getD
    ((state.1.slotStart reorged.slot).getD now)
  if state.1.isExpired admittedAt now then return state
  let result ← state.1.addItem key reorged.tx reorged.reading
  match result.2 with
  | .ok () => return (result.1, state.2 ++ [reorged.tx])
  | .error _ => return (result.1, state.2)

/-- Items enter with new blocks; those of old ones are admitted again. -/
def onCanonicalChainUpdated [DateTimeRange] (entered : Map Key Nat) (visits : Map.Iteration entered)
    (reorged : List (Reorged Item BlockId)) (now : Nat) :
    Except PoolPanic (Mempool Item Key Prefix BlockId × List Item) :=
  let left := reorged.foldl (fun pool r => pool.leaveCanonical (hash r.tx)) pool
  let updated := visits.entries.foldl (fun pool e => pool.enterCanonical e.1 e.2) left
  reorged.foldlM (readmitItem now) (updated, [])

end Canonical

/-! ## Processed blocks -/

/-- Immutable items are deleted, and what is due is released. -/
def onProcessedBlock (blockId : BlockId) (slot libSlot : Nat) (reading : ProcessedReading Key) :
    Except PoolPanic (Mempool Item Key Prefix BlockId) :=
  let pool := pool.releaseImmutable reading.visits libSlot reading.deleted
  let pool := { pool with evictor := pool.evictor.onProcessedBlock blockId slot }
  (pool.evict reading.now).releaseRetained reading.release

/-! ## Recovery -/

/-- What is written for a recovery. -/
def save : PoolRecoveryState Key :=
  ⟨pool.pendingItems, pool.removedItems, pool.includedInCanonical, pool.lastItemTimestamp⟩

/-- The keys of a saved state, in the order of the recovery. -/
def recoveredKeys (state : PoolRecoveryState Key)
    (visits : (m : Map Key IncludedItem) → Map.Iteration m) : List Key :=
  state.pendingItems.keys ++ state.removedItems.toList.map (·.1) ++
    (visits state.includedInCanonical).entries.map (·.1)

/-- A loaded item is added to the evictor under its hash. -/
def addRecovered (reading : RecoverReading Key BlockId) (loads : Key → Bool)
    (evictor : Evictor Key BlockId) (key : Key) : Evictor Key BlockId :=
  match pool.storage.lookup key with
  | none => evictor
  | some item =>
    if loads key then evictor.onAdd (hash item) item (reading.blockSlots key) else evictor

/-- Rebuilds the index; the evictor learns of the bodies that load. -/
def recover (settings : MempoolSettings) (currentEra : Nat) (state : PoolRecoveryState Key)
    (storage : Map Key Item) (reading : RecoverReading Key BlockId) :
    Mempool Item Key Prefix BlockId :=
  let keys := recoveredKeys state reading.visits
  let pool : Mempool Item Key Prefix BlockId := {
    pendingItems := state.pendingItems
    byPrefix := keys.foldl (indexByPrefix (keyPrefix Item)) ∅
    removedItems := state.removedItems
    includedInCanonical := state.includedInCanonical
    settings := settings
    lastItemTimestamp := state.lastItemTimestamp
    evictor := .new settings.txTtl settings.powClaim
    eraInForce := currentEra
    storage := storage }
  match reading.loads with
  | none => pool
  | some loads =>
    { pool with evictor := keys.foldl (pool.addRecovered reading loads) pool.evictor }

end Mempool

/-- The pool of a node: signed transactions under their hash, of which proposals carry 16 bytes. -/
instance [Primitives] : PoolItem SignedOps TxHash Nat Hash where
  hash := SignedOps.hash
  keyPrefix key := key % 256 ^ 16
  blockId hash := hash
  ops tx := tx.ops.map SignedOp.operation
  forkDigest := SignedOps.forkDigest
  storageSize := SignedOps.storageSize

/-! ## Calls -/

/-- A call of the pool, with what it reads. `recover` saves it first. -/
inductive PoolCall (Item Key BlockId : Type) [DecidableEq Key] where
  | addItem (key : Key) (item : Item) (reading : AdmitReading BlockId)
  | remove (keys : List Key) (now : Nat) (reading : ReleaseReading)
  | canonicalChainUpdated (entered : Map Key Nat) (visits : Map.Iteration entered)
      (reorged : List (Reorged Item BlockId)) (now : Nat)
  | processedBlock (blockId : BlockId) (slot libSlot : Nat) (reading : ProcessedReading Key)
  | recover (settings : MempoolSettings) (currentEra : Nat) (reading : RecoverReading Key BlockId)
  | rotateEra (era : Nat)

namespace Mempool

variable {Item Key Prefix BlockId : Type} [LinearOrder Key] [DecidableEq Prefix]
  [DecidableEq BlockId] [PoolItem Item Key Prefix BlockId] [DateTimeRange]

/-- What a call does. -/
def call (pool : Mempool Item Key Prefix BlockId) :
    PoolCall Item Key BlockId → Except PoolPanic (Mempool Item Key Prefix BlockId)
  | .addItem key item reading => (·.1) <$> pool.addItem key item reading
  | .remove keys now reading => pool.remove keys now reading
  | .canonicalChainUpdated entered visits reorged now =>
    (·.1) <$> pool.onCanonicalChainUpdated entered visits reorged now
  | .processedBlock blockId slot libSlot reading =>
    pool.onProcessedBlock blockId slot libSlot reading
  | .recover settings currentEra reading =>
    .ok (recover settings currentEra pool.save pool.storage reading)
  | .rotateEra era => .ok (pool.rotateEra era)

/-- A call that returns. -/
def Step (pool : Mempool Item Key Prefix BlockId) (c : PoolCall Item Key BlockId)
    (pool' : Mempool Item Key Prefix BlockId) : Prop := pool.call c = .ok pool'

end Mempool

end Logos
