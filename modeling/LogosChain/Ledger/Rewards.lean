import LogosChain.Ledger.Epoch

/-!
# The rewards of the Blend network (`ledger/src/mantle/sdp/rewards`)

During an epoch the providers prove their activity in the epoch before it, the target epoch. When
the epoch ends the income of the target epoch is shared between them, twice for those whose tokens
came closest to the randomness. After a jump over epochs, or while the network is too small, there
is no target.
-/

namespace Logos.Ledger

open Base Mantle

/-- Why a proof of activity is refused. -/
inductive RewardsError where
  | targetEpochNotSet
  | invalidEpoch (expected got : Nat)
  | duplicateActiveMessage (epoch : Nat) (providerId : ProviderId)
  | invalidProof
  | hammingDistanceTooLarge
  | unknownProvider (providerId : ProviderId)
deriving DecidableEq, Repr

variable [Primitives]

/-- Notes for the rewards, by key, none of value zero. -/
def distributeRewards (rewards : Map ZkPublicKey Nat) (epoch : Nat) (serviceType : ServiceType) :
    List Utxo :=
  ((Map.toList rewards).filter (0 < ·.2)).mapIdx fun index r =>
    ⟨Primitives.rewardOpId epoch serviceType, index, ⟨r.2, r.1⟩⟩

def encapsulationsPerMessage (p : RewardsParameters) : Nat :=
  p.numBlendLayers + p.numBlendLayers * p.dataReplicationFactor

/-- The current epoch, with the inputs of its quota proofs. -/
structure CurrentEpochState where
  epoch : Nat
  epochRandomness : Fr
  polLedgerAged : Fr
  polEpochNonce : Fr
  messageQuota : Nat
  lottery0 : Fr
  lottery1 : Fr
  powBlendDifficulty : Fr
  powQuota : Nat
deriving DecidableEq

def CurrentEpochState.new (s : EpochState) (settings : RewardsParameters) : CurrentEpochState where
  epoch := s.epoch
  epochRandomness := s.nonce
  polLedgerAged := utxosRoot s.utxos
  polEpochNonce := s.nonce
  messageQuota := encapsulationsPerMessage settings
  lottery0 := s.lottery0
  lottery1 := s.lottery1
  powBlendDifficulty := s.blendPowDifficulty
  powQuota := settings.numBlendLayers

/-- What the target epoch fixes. -/
structure TargetEpochState where
  epoch : Nat
  /-- The key and the index of each provider. -/
  providers : Map ProviderId (ZkPublicKey × Nat)
  minimumNetworkSize : Nat
  tokenEvaluation : TokenEvaluation
  proofVerifier : PoQInputs
  epochIncome : Nat
deriving DecidableEq

/-- The key of a provider and the distance of its token (`verify_proof`). -/
def TargetEpochState.verifyProof (t : TargetEpochState) (providerId : ProviderId)
    (proof : ActivityProof) (current : CurrentEpochState) :
    Result RewardsError (ZkPublicKey × Nat) := do
  failIf (proof.epoch ≠ t.epoch) (.error (.invalidEpoch t.epoch proof.epoch))
  let numProviders := t.providers.keys.card
  failIf (numProviders < t.minimumNetworkSize) (.panic .networkSize)
  let (zkId, index) ← okOr (t.providers.lookup providerId) (.error (.unknownProvider providerId))
  failIf (!Primitives.activityVerify t.proofVerifier proof index numProviders)
    (.error .invalidProof)
  let distance := Primitives.tokenDistance t.tokenEvaluation.tokenCountByteLen proof
    current.epochRandomness
  failIf (t.tokenEvaluation.activityThreshold < distance) (.error .hammingDistanceTooLarge)
  return (zkId, distance)

/-- The proofs for the target epoch, with the closest providers. -/
structure TargetEpochTracker where
  submittedProofs : Map ProviderId (ZkPublicKey × Nat)
  minDistance : Nat
  closest : Finset ProviderId
deriving DecidableEq

namespace TargetEpochTracker

def new : TargetEpochTracker := ⟨∅, 2 ^ 64 - 1, ∅⟩

/-- The closest providers (`MinHammingDistance::with_update`). -/
def withUpdate (t : TargetEpochTracker) (distance : Nat) (provider : ProviderId) :
    Nat × Finset ProviderId :=
  if distance < t.minDistance then (distance, {provider})
  else if distance = t.minDistance then (distance, insert provider t.closest)
  else (t.minDistance, t.closest)

/-- Adds the proof of a provider. -/
def insert (t : TargetEpochTracker) (providerId : ProviderId) (epoch : Nat) (zkId : ZkPublicKey)
    (distance : Nat) : Except RewardsError TargetEpochTracker := do
  failIf (t.submittedProofs.lookup providerId).isSome (.duplicateActiveMessage epoch providerId)
  let closest := t.withUpdate distance providerId
  return ⟨t.submittedProofs.insert providerId (zkId, distance), closest.1, closest.2⟩

/-- The reward of each key that has proved its activity. -/
def rewards (t : TargetEpochTracker) (epochIncome : Nat) : Map ZkPublicKey Nat :=
  let baseReward := epochIncome / (t.submittedProofs.keys.card + t.closest.card)
  (Map.toList t.submittedProofs).foldl (fun rewards e =>
    rewards.insert e.2.1 (if e.1 ∈ t.closest then baseReward * 2 else baseReward)) ∅

/-- The notes of the rewards. -/
def finalize (t : TargetEpochTracker) (target : TargetEpochState) : List Utxo :=
  if t.submittedProofs = ∅ then []
  else distributeRewards (t.rewards target.epochIncome) target.epoch .blendNetwork

end TargetEpochTracker

/-- `Rewards`: the current epoch, its income, and the target epoch. -/
structure Rewards where
  target : Option (TargetEpochState × TargetEpochTracker)
  current : CurrentEpochState
  epochIncome : Nat
deriving DecidableEq

/-- The providers in the order of their keys, and the root of the keys. -/
def providersAndZkRoot (declarations : Declarations) : Map ProviderId (ZkPublicKey × Nat) × Fr :=
  let providers := ((Map.toList declarations).map fun e => (e.2.providerId, e.2.zkId)).insertionSort
    (·.2 ≤ ·.2)
  (providers.zipIdx.foldl (fun m e => m.insert e.1.1 (e.1.2, e.2)) ∅,
    Primitives.zkRoot (providers.map (·.2)))

namespace Rewards

def new (settings : RewardsParameters) (s : EpochState) : Rewards := ⟨none, .new s settings, 0⟩

def addIncome (r : Rewards) (income : Nat) : Rewards :=
  { r with epochIncome := wrappingAdd 64 r.epochIncome income }

/-- Checks a proof of activity and adds it. -/
def updateActive (r : Rewards) (providerId : ProviderId) (metadata : ActivityMetadata) :
    Result RewardsError Rewards :=
  match r.target, metadata with
  | none, _ => .error (.error .targetEpochNotSet)
  | some (target, tracker), .blend proof => do
    let (zkId, distance) ← target.verifyProof providerId proof r.current
    let tracker ← lift id (tracker.insert providerId target.epoch zkId distance)
    return { r with target := some (target, tracker) }

/-- The epoch that ends (`CurrentEpochTracker::finalize`). -/
def newTarget {ε : Type} (r : Rewards) (last next : EpochState)
    (targetSettings : RewardsParameters) : Result ε (Option TargetEpochState) := do
  failIf (last.epoch ≠ r.current.epoch) (.panic .rewardsEpoch)
  failIf (next.epoch ≤ last.epoch) (.panic .rewardsEpoch)
  if last.epoch + 1 < next.epoch then return none
  let declarations := (last.activeDeclarations.lookup .blendNetwork).getD ∅
  if declarations.keys.card < targetSettings.minimumNetworkSize then return none
  let (providers, zkRoot) := providersAndZkRoot declarations
  let (coreQuota, evaluation) ← expect
    (Primitives.coreQuotaAndTokenEvaluation targetSettings providers.keys.card) .tokenEvaluation
  return some {
    epoch := last.epoch
    providers := providers
    minimumNetworkSize := targetSettings.minimumNetworkSize
    tokenEvaluation := evaluation
    proofVerifier := ⟨zkRoot, coreQuota, r.current.polLedgerAged, r.current.polEpochNonce,
      r.current.messageQuota, r.current.lottery0, r.current.lottery1,
      r.current.powBlendDifficulty, r.current.powQuota⟩
    epochIncome := r.epochIncome }

/-- The rewards after an epoch, and the notes for the target epoch. -/
def updateEpoch {ε : Type} (r : Rewards) (last next : EpochState)
    (lastParams params : RewardsParameters) : Result ε (Rewards × List Utxo) := do
  let notes := (r.target.map fun t => t.2.finalize t.1).getD []
  let target ← r.newTarget last next lastParams
  return (⟨target.map fun t => (t, .new), .new next params, 0⟩, notes)

end Rewards

end Logos.Ledger
