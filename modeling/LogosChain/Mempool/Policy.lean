import LogosChain.Base.IndexMap
import LogosChain.Mantle.Primitives
import LogosChain.Time.Era

/-!
# The eviction policies of the pool (`services/tx-service/src/backend/policy`, `evictor.rs`)

`TtlPolicy` evicts by age. `PowClaimPolicy` evicts the transactions with a claim of a proof-of-work
reward that no block can accept anymore: it keeps a deadline for every claim with a known anchor
block, and parks the others. A `Duration` is a number of nanoseconds, read as `as_millis() as u64`.
-/

namespace Logos

open Base Mantle

/-- What the pool needs of its items. A proposal carries a `Prefix`. -/
class PoolItem (Item : Type) (Key Prefix BlockId : outParam Type) where
  hash : Item → Key
  keyPrefix : Key → Prefix
  blockId : Hash → BlockId
  ops : Item → List Op
  forkDigest : Item → ForkDigest
  storageSize : Item → Nat

/-- What the policies see: the time, and the highest slot processed. -/
structure PolicyClock where
  nowMillis : Nat
  slot : Option Nat

/-- The slot of the canonical block, and when the item was admitted. -/
structure IncludedItem where
  slot : Nat
  admittedAt : Nat
deriving DecidableEq, Repr

/-- It is in no scheduled era, or a sum of durations does not fit. -/
inductive PoolPanic where
  | unscheduledEra
  | durationOverflow
deriving DecidableEq, Repr

def asMillis (duration : Nat) : Nat := duration / 10 ^ 6 % 2 ^ 64

/-- The sum of two durations, with the seconds in a word. -/
def addDurations (a b : Nat) : Except PoolPanic Nat := do
  failIf (2 ^ 64 * 10 ^ 9 ≤ a + b) .durationOverflow
  return a + b

/-! ## Age -/

/-- `RETIREMENT_GRACE`: ten minutes. -/
def retirementGrace : Nat := 10 * 60 * 10 ^ 9

/-- Eviction by age. -/
structure TtlPolicy where
  txTtl : Option Nat

namespace TtlPolicy

variable {Key : Type} (policy : TtlPolicy)

/-- The age of an item reached the TTL. -/
def Reached (ttl now admittedAt : Nat) : Prop := asMillis ttl ≤ now - admittedAt

instance (ttl now admittedAt : Nat) : Decidable (Reached ttl now admittedAt) :=
  inferInstanceAs (Decidable (_ ≤ _))

/-- The pending keys whose age reached the TTL, up to the first younger one. -/
def expired (pendingTxs : IndexMap Key Nat) (now : Nat) : List Key :=
  match policy.txTtl with
  | none => []
  | some txTtl => (pendingTxs.entries.takeWhile fun e => Reached txTtl now e.2).map (·.1)

/-- The retired keys whose age reached the TTL and the grace. -/
def dueForRelease [LinearOrder Key] (retiredTxs : Map Key Nat) (now : Nat) :
    Except PoolPanic (List Key) :=
  match policy.txTtl with
  | none => .ok []
  | some txTtl => do
    let releaseAge ← addDurations txTtl retirementGrace
    return (retiredTxs.toList.filter fun e => Reached releaseAge now e.2).map (·.1)

/-- Over a pool in the order of admission the scan misses no key. -/
theorem expired_eq {ttl : Nat} (httl : policy.txTtl = some ttl) {pendingTxs : IndexMap Key Nat}
    (hordered : (pendingTxs.entries.map (·.2)).Pairwise (· ≤ ·)) (now : Nat) :
    policy.expired pendingTxs now =
      (pendingTxs.entries.filter fun e => Reached ttl now e.2).map (·.1) := by
  unfold expired
  rw [httl]
  dsimp only
  rw [takeWhile_eq_filter]
  refine (List.pairwise_map.mp hordered).imp fun hab hb => ?_
  rw [decide_eq_true_eq] at hb ⊢
  unfold Reached at hb ⊢
  omega

theorem mem_dueForRelease [LinearOrder Key] {retiredTxs : Map Key Nat} {now : Nat} {keys : List Key}
    (h : policy.dueForRelease retiredTxs now = .ok keys) {key : Key} (hkey : key ∈ keys) :
    ∃ ttl t, policy.txTtl = some ttl ∧ retiredTxs.lookup key = some t ∧
      Reached (ttl + retirementGrace) now t := by
  unfold dueForRelease at h
  cases httl : policy.txTtl with
  | none =>
    rw [httl] at h
    cases h
    cases hkey
  | some ttl =>
    rw [httl] at h
    obtain ⟨age, hage, h⟩ := bind_ok h
    obtain ⟨-, -, hage⟩ := bind_ok hage
    cases hage
    cases h
    obtain ⟨e, he, rfl⟩ := List.mem_map.mp hkey
    obtain ⟨hmem, hreached⟩ := List.mem_filter.mp he
    exact ⟨ttl, e.2, rfl, Map.mem_toList.mp hmem, of_decide_eq_true hreached⟩

end TtlPolicy

/-! ## Claims of proof-of-work rewards -/

/-- The acceptance window of an era, in slots. -/
structure PowClaimEvictionSettings where
  slotWindow : Nat
  slotWindow_pos : 0 < slotWindow

/-- How long an expired claim stays: twice the window. -/
def PowClaimEvictionSettings.graceSlots (settings : PowClaimEvictionSettings) : Nat :=
  saturatingMul 64 settings.slotWindow 2

/-- The first slot at which a claim is evicted (`deadline_for`). -/
def EraSchedule.deadlineFor (settings : EraSchedule PowClaimEvictionSettings) (anchorSlot : Nat) :
    Nat :=
  let era := (settings.atSlot anchorSlot).parameters
  saturatingAdd 64 (saturatingAdd 64 (saturatingAdd 64 anchorSlot era.slotWindow) 1) era.graceSlots

/-- Eviction by deadlines; keys without a known anchor are parked. -/
structure PowClaimPolicy (Key BlockId : Type) where
  settings : EraSchedule PowClaimEvictionSettings
  deadlineByKey : Map Key Nat
  keysByDeadline : Map Nat (IndexSet Key)
  parkedByBlock : Map BlockId (IndexSet Key)
  parkedByKey : Map Key (IndexSet BlockId)

/-- The blocks that the claims of an item are anchored to. -/
def PoolItem.anchors {Item Key Prefix BlockId : Type} [PoolItem Item Key Prefix BlockId]
    (item : Item) : List BlockId :=
  (PoolItem.ops item).filterMap fun
    | .claimPowReward claim => some (PoolItem.blockId Item claim.blockHash)
    | _ => none

namespace PowClaimPolicy

variable {Item Key Prefix BlockId : Type} [LinearOrder Key] [DecidableEq BlockId]

def new (settings : EraSchedule PowClaimEvictionSettings) : PowClaimPolicy Key BlockId :=
  ⟨settings, ∅, ∅, ∅, ∅⟩

variable (policy : PowClaimPolicy Key BlockId)

/-- The keys whose deadline the chain reached. -/
def pastDeadline (clock : PolicyClock) : List Key :=
  match clock.slot with
  | none => []
  | some slot =>
    (policy.keysByDeadline.toList.filter fun e => e.1 ≤ slot).flatMap fun e => e.2.items

/-- Takes a key off its deadline. -/
def untrackDeadline (key : Key) (deadline : Nat) : PowClaimPolicy Key BlockId :=
  { policy with keysByDeadline := policy.keysByDeadline.bucketRemove deadline key }

/-- A key that is tracked for an earlier slot stays there. -/
def track (key : Key) (deadline : Nat) : PowClaimPolicy Key BlockId :=
  match policy.deadlineByKey.lookup key with
  | none =>
    { policy with
      deadlineByKey := policy.deadlineByKey.insert key deadline
      keysByDeadline := policy.keysByDeadline.bucketInsert deadline key }
  | some current =>
    if current ≤ deadline then policy
    else
      { policy.untrackDeadline key current with
        deadlineByKey := policy.deadlineByKey.insert key deadline
        keysByDeadline := (policy.untrackDeadline key current).keysByDeadline.bucketInsert deadline key }

/-- A key waits for an anchor to be known. -/
def park (key : Key) (anchor : BlockId) : PowClaimPolicy Key BlockId :=
  { policy with
    parkedByBlock := policy.parkedByBlock.bucketInsert anchor key
    parkedByKey := policy.parkedByKey.bucketInsert key anchor }

/-- A key waits no more. -/
def unpark (key : Key) : PowClaimPolicy Key BlockId :=
  match policy.parkedByKey.lookup key with
  | none => policy
  | some anchors =>
    { policy with
      parkedByKey := policy.parkedByKey.erase key
      parkedByBlock := anchors.items.foldl
        (fun parked anchor => parked.bucketRemove anchor key) policy.parkedByBlock }

/-- A claim with a known anchor is tracked, one without is parked. -/
def onClaim (key : Key) (blockSlots : Map BlockId Nat) (anchor : BlockId) :
    PowClaimPolicy Key BlockId :=
  match blockSlots.lookup anchor with
  | some anchorSlot => policy.track key (policy.settings.deadlineFor anchorSlot)
  | none => policy.park key anchor

/-- Forgets a key. -/
def onRelease (key : Key) : PowClaimPolicy Key BlockId :=
  let policy := policy.unpark key
  match policy.deadlineByKey.lookup key with
  | none => policy
  | some deadline =>
    ({ policy with deadlineByKey := policy.deadlineByKey.erase key }).untrackDeadline key deadline

/-- The anchor of a parked key is known now. -/
def onAnchor (blockId : BlockId) (deadline : Nat) (key : Key) : PowClaimPolicy Key BlockId :=
  ({ policy with parkedByKey := policy.parkedByKey.bucketRemove key blockId }).track key deadline

/-- The keys that wait for the block get their deadline. -/
def onProcessedBlock (blockId : BlockId) (slot : Nat) : PowClaimPolicy Key BlockId :=
  match policy.parkedByBlock.lookup blockId with
  | none => policy
  | some keys =>
    let deadline := policy.settings.deadlineFor slot
    keys.items.foldl (fun policy key => policy.onAnchor blockId deadline key)
      { policy with parkedByBlock := policy.parkedByBlock.erase blockId }

omit [LinearOrder Key] [DecidableEq BlockId] in
theorem mem_pastDeadline {clock : PolicyClock} {key : Key} (h : key ∈ policy.pastDeadline clock) :
    ∃ slot deadline, clock.slot = some slot ∧ policy.keysByDeadline.InBucket deadline key ∧
      deadline ≤ slot := by
  unfold pastDeadline at h
  cases hslot : clock.slot with
  | none =>
    rw [hslot] at h
    cases h
  | some slot =>
    rw [hslot] at h
    obtain ⟨e, he, hkey⟩ := List.mem_flatMap.mp h
    obtain ⟨hmem, hle⟩ := List.mem_filter.mp he
    exact ⟨slot, e.1, rfl, ⟨e.2, Map.mem_toList.mp hmem, hkey⟩, of_decide_eq_true hle⟩

/-- The keys past their deadline that are retired or included. -/
def selectReleases (clock : PolicyClock) (retiredTxs : Map Key Nat)
    (includedTxs : Map Key IncludedItem) : List Key :=
  (policy.pastDeadline clock).filter fun key =>
    (retiredTxs.lookup key).isSome || (includedTxs.lookup key).isSome

section Items

variable [PoolItem Item Key Prefix BlockId]

/-- A claim whose deadline the chain already reached. -/
def isExpired (tx : Item) (clock : PolicyClock) (blockSlots : Map BlockId Nat) : Bool :=
  match clock.slot with
  | none => false
  | some slot =>
    (PoolItem.anchors tx).any fun anchor =>
      match blockSlots.lookup anchor with
      | none => false
      | some anchorSlot => policy.settings.deadlineFor anchorSlot ≤ slot

/-- Tracks or parks the claims of an item. -/
def onAdd (key : Key) (tx : Item) (blockSlots : Map BlockId Nat) : PowClaimPolicy Key BlockId :=
  (PoolItem.anchors tx).foldl (fun policy anchor => policy.onClaim key blockSlots anchor) policy

end Items

/-! ### What the policy tracks -/

/-- Tracked deadlines and awaited anchors are of claims. -/
structure Justified (policy : PowClaimPolicy Key BlockId)
    (settings : EraSchedule PowClaimEvictionSettings) (Claim : Key → BlockId → Prop)
    (AnchorAt : BlockId → Nat → Prop) : Prop where
  settings_eq : policy.settings = settings
  tracked : ∀ {deadline key}, policy.keysByDeadline.InBucket deadline key →
    ∃ anchor slot, Claim key anchor ∧ AnchorAt anchor slot ∧ settings.deadlineFor slot = deadline
  parked : ∀ {anchor key}, policy.parkedByBlock.InBucket anchor key → Claim key anchor

variable {policy} {settings : EraSchedule PowClaimEvictionSettings} {key : Key} {anchor : BlockId}
  {slot : Nat} {Claim Claim' : Key → BlockId → Prop} {AnchorAt AnchorAt' : BlockId → Nat → Prop}

omit [LinearOrder Key] in
theorem justified_new : (new settings).Justified settings Claim AnchorAt where
  settings_eq := rfl
  tracked h := by
    obtain ⟨bucket, hbucket, -⟩ := h
    cases hbucket
  parked h := by
    obtain ⟨bucket, hbucket, -⟩ := h
    cases hbucket

variable (h : policy.Justified settings Claim AnchorAt)
include h

omit [LinearOrder Key] in
theorem Justified.mono (hclaim : ∀ k a, Claim k a → Claim' k a)
    (hanchor : ∀ a s, AnchorAt a s → AnchorAt' a s) :
    policy.Justified settings Claim' AnchorAt' where
  settings_eq := h.settings_eq
  tracked hin := by
    obtain ⟨a, s, hc, ha, hd⟩ := h.tracked hin
    exact ⟨a, s, hclaim _ _ hc, hanchor _ _ ha, hd⟩
  parked hin := hclaim _ _ (h.parked hin)

theorem Justified.untrackDeadline (deadline : Nat) :
    (policy.untrackDeadline key deadline).Justified settings Claim AnchorAt :=
  ⟨h.settings_eq, fun hin => h.tracked (Map.inBucket_remove.mp hin).1, h.parked⟩

theorem Justified.track (hclaim : Claim key anchor) (hanchor : AnchorAt anchor slot) :
    (policy.track key (settings.deadlineFor slot)).Justified settings Claim AnchorAt := by
  unfold PowClaimPolicy.track
  cases policy.deadlineByKey.lookup key with
  | none =>
    refine ⟨h.settings_eq, fun hin => ?_, h.parked⟩
    rcases Map.inBucket_insert.mp hin with ⟨rfl, rfl⟩ | hin
    · exact ⟨anchor, slot, hclaim, hanchor, rfl⟩
    · exact h.tracked hin
  | some current =>
    dsimp only
    split
    · exact h
    · refine ⟨h.settings_eq, fun hin => ?_, h.parked⟩
      rcases Map.inBucket_insert.mp hin with ⟨rfl, rfl⟩ | hin
      · exact ⟨anchor, slot, hclaim, hanchor, rfl⟩
      · exact (h.untrackDeadline current).tracked hin

theorem Justified.park (hclaim : Claim key anchor) :
    (policy.park key anchor).Justified settings Claim AnchorAt := by
  refine ⟨h.settings_eq, h.tracked, fun hin => ?_⟩
  rcases Map.inBucket_insert.mp hin with ⟨rfl, rfl⟩ | hin
  · exact hclaim
  · exact h.parked hin

theorem Justified.unpark : (policy.unpark key).Justified settings Claim AnchorAt := by
  unfold PowClaimPolicy.unpark
  cases policy.parkedByKey.lookup key with
  | none => exact h
  | some anchors =>
    refine ⟨h.settings_eq, h.tracked, fun {a k} hin => h.parked ?_⟩
    refine List.foldlRecOn (motive := fun parked => Map.InBucket parked a k →
      policy.parkedByBlock.InBucket a k) anchors.items _ id (fun parked hparked b _ hin => ?_) hin
    exact hparked (Map.inBucket_remove.mp hin).1

theorem Justified.onRelease (key : Key) :
    (policy.onRelease key).Justified settings Claim AnchorAt := by
  have hunpark : (policy.unpark key).Justified settings Claim AnchorAt := h.unpark
  unfold PowClaimPolicy.onRelease
  dsimp only
  cases (policy.unpark key).deadlineByKey.lookup key with
  | none => exact hunpark
  | some deadline =>
    exact ⟨hunpark.settings_eq, (hunpark.untrackDeadline deadline).tracked, hunpark.parked⟩

theorem Justified.onProcessedBlock (hanchor : AnchorAt anchor slot) :
    (policy.onProcessedBlock anchor slot).Justified settings Claim AnchorAt := by
  unfold PowClaimPolicy.onProcessedBlock
  cases hkeys : policy.parkedByBlock.lookup anchor with
  | none => exact h
  | some keys =>
    have hclaims : ∀ k ∈ keys.items, Claim k anchor := fun k hk => h.parked ⟨keys, hkeys, hk⟩
    have herased : ({ policy with parkedByBlock := policy.parkedByBlock.erase anchor } :
        PowClaimPolicy Key BlockId).Justified settings Claim AnchorAt := by
      refine ⟨h.settings_eq, h.tracked, fun hin => h.parked ?_⟩
      obtain ⟨bucket, hbucket, hk⟩ := hin
      exact ⟨bucket, (Map.lookup_erase_some.mp hbucket).2, hk⟩
    rw [h.settings_eq] at herased ⊢
    refine List.foldlRecOn (motive := fun policy => Justified policy settings Claim AnchorAt)
      keys.items _ herased fun policy' hpolicy' k hk => ?_
    have hunparked : ({ policy' with parkedByKey := policy'.parkedByKey.bucketRemove k anchor } :
        PowClaimPolicy Key BlockId).Justified settings Claim AnchorAt :=
      ⟨hpolicy'.settings_eq, hpolicy'.tracked, hpolicy'.parked⟩
    exact hunparked.track (hclaims k hk) hanchor

theorem Justified.onAdd [PoolItem Item Key Prefix BlockId] {tx : Item}
    {blockSlots : Map BlockId Nat} (hclaim : ∀ a ∈ PoolItem.anchors tx, Claim key a)
    (hanchor : ∀ a s, blockSlots.lookup a = some s → AnchorAt a s) :
    (policy.onAdd key tx blockSlots).Justified settings Claim AnchorAt := by
  refine List.foldlRecOn (motive := fun policy => Justified policy settings Claim AnchorAt)
    (PoolItem.anchors tx) _ h fun policy' hpolicy' a ha => ?_
  unfold onClaim
  cases hslot : blockSlots.lookup a with
  | none => exact hpolicy'.park (hclaim a ha)
  | some s =>
    rw [hpolicy'.settings_eq]
    exact hpolicy'.track (hclaim a ha) (hanchor a s hslot)

end PowClaimPolicy

/-! ## The evictor -/

/-- Both policies, and the last slot that the chain reported. -/
structure Evictor (Key BlockId : Type) where
  ttl : TtlPolicy
  powClaim : Option (PowClaimPolicy Key BlockId)
  slot : Option Nat

namespace Evictor

variable {Item Key Prefix BlockId : Type} [LinearOrder Key] [DecidableEq BlockId]

def new (txTtl : Option Nat) (powClaim : Option (EraSchedule PowClaimEvictionSettings)) :
    Evictor Key BlockId :=
  ⟨⟨txTtl⟩, powClaim.map .new, none⟩

variable (evictor : Evictor Key BlockId)

def clock (nowMillis : Nat) : PolicyClock := ⟨nowMillis, evictor.slot⟩

def onRelease (key : Key) : Evictor Key BlockId :=
  { evictor with powClaim := evictor.powClaim.map (·.onRelease key) }

/-- The slot never moves backwards. -/
def onProcessedBlock (blockId : BlockId) (slot : Nat) : Evictor Key BlockId :=
  { evictor with
    slot := some (match evictor.slot with | none => slot | some current => max current slot)
    powClaim := evictor.powClaim.map (·.onProcessedBlock blockId slot) }

/-- The keys that the policy of the claims selects. -/
def ofClaims (select : PowClaimPolicy Key BlockId → List Key) : List Key :=
  match evictor.powClaim with
  | none => []
  | some policy => select policy

/-- A key that both policies want is there once. -/
def selectRetirements (nowMillis : Nat) (pendingTxs : IndexMap Key Nat) : List Key :=
  (IndexSet.ofList (evictor.ttl.expired pendingTxs nowMillis ++
    evictor.ofClaims (·.pastDeadline (evictor.clock nowMillis)))).items

/-- The keys that one of the policies releases. -/
def selectReleases (nowMillis : Nat) (retiredTxs : Map Key Nat)
    (includedTxs : Map Key IncludedItem) : Except PoolPanic (List Key) := do
  let due ← evictor.ttl.dueForRelease retiredTxs nowMillis
  return (IndexSet.ofList (due ++ evictor.ofClaims
    (·.selectReleases (evictor.clock nowMillis) retiredTxs includedTxs))).items

omit [DecidableEq BlockId] in
/-- A key is released by its age, or by the deadline of a claim. -/
theorem mem_selectReleases {nowMillis : Nat} {retiredTxs : Map Key Nat}
    {includedTxs : Map Key IncludedItem} {keys : List Key}
    (h : evictor.selectReleases nowMillis retiredTxs includedTxs = .ok keys) {key : Key}
    (hkey : key ∈ keys) :
    (∃ ttl t, evictor.ttl.txTtl = some ttl ∧ retiredTxs.lookup key = some t ∧
      TtlPolicy.Reached (ttl + retirementGrace) nowMillis t) ∨
    ((∃ policy slot deadline, evictor.powClaim = some policy ∧ evictor.slot = some slot ∧
      policy.keysByDeadline.InBucket deadline key ∧ deadline ≤ slot) ∧
      ((retiredTxs.lookup key).isSome ∨ (includedTxs.lookup key).isSome)) := by
  obtain ⟨due, hdue, h⟩ := bind_ok h
  cases h
  rcases List.mem_append.mp (IndexSet.mem_ofList.mp hkey) with hkey | hkey
  · exact .inl (evictor.ttl.mem_dueForRelease hdue hkey)
  · right
    unfold ofClaims at hkey
    cases hpolicy : evictor.powClaim with
    | none =>
      rw [hpolicy] at hkey
      cases hkey
    | some policy =>
      rw [hpolicy] at hkey
      obtain ⟨hpast, hretired⟩ := List.mem_filter.mp hkey
      obtain ⟨slot, deadline, hslot, hbucket, hle⟩ := policy.mem_pastDeadline hpast
      rw [Bool.or_eq_true] at hretired
      exact ⟨⟨policy, slot, deadline, rfl, hslot, hbucket, hle⟩, hretired⟩

section Items

variable [PoolItem Item Key Prefix BlockId]

def isExpired (tx : Item) (nowMillis : Nat) (blockSlots : Map BlockId Nat) : Bool :=
  match evictor.powClaim with
  | none => false
  | some policy => policy.isExpired tx (evictor.clock nowMillis) blockSlots

def onAdd (key : Key) (tx : Item) (blockSlots : Map BlockId Nat) : Evictor Key BlockId :=
  { evictor with powClaim := evictor.powClaim.map (·.onAdd key tx blockSlots) }

end Items

/-! ### What the evictor tracks -/

/-- The policy of the claims tracks what it should. -/
def Justified (evictor : Evictor Key BlockId) (settings : Option (EraSchedule PowClaimEvictionSettings))
    (Claim : Key → BlockId → Prop) (AnchorAt : BlockId → Nat → Prop) : Prop :=
  ∀ policy, evictor.powClaim = some policy →
    ∃ schedule, settings = some schedule ∧ policy.Justified schedule Claim AnchorAt

variable {evictor} {settings : Option (EraSchedule PowClaimEvictionSettings)} {key : Key}
  {anchor : BlockId} {slot : Nat} {Claim Claim' : Key → BlockId → Prop}
  {AnchorAt AnchorAt' : BlockId → Nat → Prop}

omit [LinearOrder Key] in
theorem justified_new (txTtl : Option Nat) :
    (new txTtl settings : Evictor Key BlockId).Justified settings Claim AnchorAt := by
  intro policy hpolicy
  obtain ⟨schedule, hschedule, rfl⟩ := Option.map_eq_some_iff.mp hpolicy
  exact ⟨schedule, hschedule, PowClaimPolicy.justified_new⟩

section

variable (h : evictor.Justified settings Claim AnchorAt)
include h

omit [LinearOrder Key] in
theorem Justified.mono (hclaim : ∀ k a, Claim k a → Claim' k a)
    (hanchor : ∀ a s, AnchorAt a s → AnchorAt' a s) :
    evictor.Justified settings Claim' AnchorAt' := by
  intro policy hpolicy
  obtain ⟨schedule, hschedule, hjustified⟩ := h policy hpolicy
  exact ⟨schedule, hschedule, hjustified.mono hclaim hanchor⟩

omit [LinearOrder Key] in
/-- An update that keeps what is tracked justified. -/
theorem Justified.map {f : PowClaimPolicy Key BlockId → PowClaimPolicy Key BlockId}
    {slot' : Option Nat}
    (hf : ∀ policy schedule, PowClaimPolicy.Justified policy schedule Claim AnchorAt →
      (f policy).Justified schedule Claim AnchorAt) :
    ({ evictor with slot := slot', powClaim := evictor.powClaim.map f } :
      Evictor Key BlockId).Justified settings Claim AnchorAt := by
  intro policy hpolicy
  obtain ⟨policy', hpolicy', rfl⟩ := Option.map_eq_some_iff.mp hpolicy
  obtain ⟨schedule, hschedule, hjustified⟩ := h policy' hpolicy'
  exact ⟨schedule, hschedule, hf policy' schedule hjustified⟩

theorem Justified.foldl_onRelease (keys : List Key) :
    (keys.foldl onRelease evictor).Justified settings Claim AnchorAt :=
  List.foldlRecOn (motive := fun evictor => Justified evictor settings Claim AnchorAt) keys _ h
    fun _ hevictor key _ => hevictor.map fun _ _ hpolicy => hpolicy.onRelease key

theorem Justified.onProcessedBlock (hanchor : AnchorAt anchor slot) :
    (evictor.onProcessedBlock anchor slot).Justified settings Claim AnchorAt :=
  h.map fun _ _ hpolicy => hpolicy.onProcessedBlock hanchor

theorem Justified.onAdd [PoolItem Item Key Prefix BlockId] {tx : Item}
    {blockSlots : Map BlockId Nat} (hclaim : ∀ a ∈ PoolItem.anchors tx, Claim key a)
    (hanchor : ∀ a s, blockSlots.lookup a = some s → AnchorAt a s) :
    (evictor.onAdd key tx blockSlots).Justified settings Claim AnchorAt :=
  h.map fun _ _ hpolicy => hpolicy.onAdd hclaim hanchor

end

theorem foldl_onRelease_slot (keys : List Key) :
    (keys.foldl onRelease evictor).slot = evictor.slot ∧
      (keys.foldl onRelease evictor).ttl = evictor.ttl := by
  induction keys generalizing evictor with
  | nil => exact ⟨rfl, rfl⟩
  | cons key keys ih => exact ih

end Evictor

end Logos
