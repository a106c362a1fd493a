import LogosChain.Ledger.State

/-!
# Blocks and the ledger (`ledger/src/lib.rs`)

A block is applied to the state of its parent: first the header, then the block is recorded among
those that puzzles may be anchored to, then its transactions. The ledger has the state of every
block it keeps.
-/

namespace Logos

namespace Ledger

open Base Mantle

/-- What the ledger reads of a header. -/
structure Header where
  slot : Nat
  proof : LeaderProof
  uncleSlots : List Nat
deriving DecidableEq, Repr

/-- Records a block for puzzles, and forgets those that are too old. -/
def MantleLedger.addSeenBlock (m : MantleLedger) (blockHash : Hash) (slot : Nat)
    (eras : EraScheduledConfig) : MantleLedger :=
  let windows := powSlotWindows eras
  let pow := m.pow.addSeenBlockSlots blockHash slot
  { m with pow :=
    (pow.pruneSeenBlockSlots slot windows).pruneNullifiersBySlots slot windows }

variable [Primitives]

/-- Moves services, leaders and puzzles to the epoch of a header. -/
def MantleLedger.tryApplyHeader (m : MantleLedger) (last next : EpochState) (voucher : VoucherCm)
    (eras : EraScheduledConfig) : Result MantleError (MantleLedger × HeaderEffect) := do
  let lastConfig := configForEpoch eras last.epoch
  let config := configForEpoch eras next.epoch
  let leaders ← wrap .leader (m.leaders.tryApplyHeader next.epoch voucher)
  let (sdp, effect) ← wrap .sdp
    (m.sdp.tryApplyHeader lastConfig.sdpConfig config.sdpConfig last next)
  let pow ← lift .powRewardPool (m.pow.tryApplyHeader last.epoch next.epoch config)
  return ({ m with leaders := leaders, sdp := sdp, pow := pow }, effect)

namespace LedgerState

/-- Records a block in the ledger. -/
def addSeenBlock (s : LedgerState) (blockHash : Hash) (slot : Nat) (eras : EraScheduledConfig) :
    LedgerState :=
  { s with mantleLedger := s.mantleLedger.addSeenBlock blockHash slot eras }

/-- Applies a header, before any transaction. -/
def tryApplyHeader (s : LedgerState) (h : Header) (eras : EraScheduledConfig) :
    Result LedgerError (LedgerState × List HeaderEvent) := do
  let l ← s.cryptarchiaLedger.tryApplyHeader h.slot h.proof h.uncleSlots s.mantleLedger.sdp
    s.mantleLedger.pow eras
  let (m, effect) ← wrap .mantle (s.mantleLedger.tryApplyHeader s.cryptarchiaLedger.epochState
    l.epochState h.proof.voucherCm eras)
  let blockNumber ← expect (checkedAdd 64 s.blockNumber 1) .blockNumber
  return (⟨blockNumber, { l with utxos := l.utxos.insertAll effect.rewardUtxos }, m⟩,
    effect.events)

/-- The proof of leadership of a block on this state. -/
def verifyProofOfLeadership (s : LedgerState) (slot : Nat) (proof : LeaderProof)
    (eras : EraScheduledConfig) : Result LedgerError Unit :=
  s.cryptarchiaLedger.verifyProofOfLeadership slot proof s.mantleLedger.sdp s.mantleLedger.pow eras

/-- The state of the epoch of a slot. -/
def epochStateForSlot (s : LedgerState) (slot : Nat) (eras : EraScheduledConfig) :
    Result LedgerError EpochState :=
  s.cryptarchiaLedger.epochStateForSlot slot s.mantleLedger.sdp s.mantleLedger.pow eras

def isPowRewardClaimed (e : TxEvent) : Bool :=
  match e.payload with
  | .powRewardClaimed _ _ => true
  | _ => false

/-- Counts a block and moves the difficulty of the puzzles. -/
def recordBlock (s : LedgerState) (numTxs : Nat) (claims : Nat) (config : Config) :
    Result LedgerError LedgerState := do
  let pow ← s.mantleLedger.pow.recordBlockTxs numTxs
  return s.withPow (pow.updateDifficulty claims config.powConfig.reward)

/-- Applies a block. -/
def tryUpdate (s : LedgerState) (blockId : Hash) (h : Header) (txs : List SignedOps)
    (eras : EraScheduledConfig) : Result LedgerError (LedgerState × List Event × DeferredProofs) := do
  let (s, headerEvents) ← s.tryApplyHeader h eras
  let s := s.addSeenBlock blockId h.slot eras
  let (s, txEvents, deferred) ← s.tryApplyBlockContents eras txs
  let s ← s.recordBlock txs.length (txEvents.countP isPowRewardClaimed)
    (configForSlot eras h.slot)
  return (s, headerEvents.map .header ++ txEvents.map .tx, deferred)

/-- What an accepted header has done to the parts of the ledger. -/
structure HeaderParts (s : LedgerState) (h : Header) (eras : EraScheduledConfig)
    (l : CryptarchiaLedger) (effect : HeaderEffect) (s' : LedgerState) : Prop where
  cryptarchia : s.cryptarchiaLedger.tryApplyHeader h.slot h.proof h.uncleSlots s.mantleLedger.sdp
    s.mantleLedger.pow eras = .ok l
  mantle : s.mantleLedger.tryApplyHeader s.cryptarchiaLedger.epochState l.epochState
    h.proof.voucherCm eras = .ok (s'.mantleLedger, effect)
  ledger : s'.cryptarchiaLedger = { l with utxos := l.utxos.insertAll effect.rewardUtxos }
  slot : s.slot < h.slot ∧ s'.slot = h.slot
  utxos : s'.utxos = s.utxos.insertAll effect.rewardUtxos
  leaders : s.mantleLedger.leaders.tryApplyHeader l.epochState.epoch h.proof.voucherCm =
    .ok s'.mantleLedger.leaders
  sdp : s.mantleLedger.sdp.tryApplyHeader
    (configForEpoch eras s.cryptarchiaLedger.epochState.epoch).sdpConfig
    (configForEpoch eras l.epochState.epoch).sdpConfig s.cryptarchiaLedger.epochState
    l.epochState = .ok (s'.mantleLedger.sdp, effect)
  pow : s.mantleLedger.pow.tryApplyHeader s.cryptarchiaLedger.epochState.epoch l.epochState.epoch
    (configForEpoch eras l.epochState.epoch) = .ok s'.mantleLedger.pow
  channels : s'.channels = s.channels

variable {h : Header} {eras : EraScheduledConfig}

theorem tryApplyHeader_ok {s s' : LedgerState} {events : List HeaderEvent}
    (hh : s.tryApplyHeader h eras = .ok (s', events)) :
    ∃ l effect, s.HeaderParts h eras l effect s' ∧ effect.events = events := by
  obtain ⟨l, h1, h2⟩ := bind_ok hh
  obtain ⟨⟨m, effect⟩, h3, h4⟩ := bind_ok h2
  obtain ⟨_, -, h5⟩ := bind_ok h4
  cases h5
  obtain ⟨hlt, hslot, hutxos⟩ := CryptarchiaLedger.tryApplyHeader_ok h1
  have hmantle := wrap_ok.mp h3
  obtain ⟨leaders, h6, h7⟩ := bind_ok hmantle
  obtain ⟨⟨sdp, _⟩, h8, h9⟩ := bind_ok h7
  obtain ⟨pow, h10, h11⟩ := bind_ok h9
  cases h11
  refine ⟨l, effect, ⟨h1, hmantle, rfl, ⟨hlt, hslot⟩, ?_, wrap_ok.mp h6, wrap_ok.mp h8,
    lift_ok.mp h10, rfl⟩, rfl⟩
  show l.utxos.insertAll _ = _
  rw [hutxos]
  rfl

/-- A block is its header, its record, its transactions and the settlement of it. -/
theorem tryUpdate_ok {s s' : LedgerState} {id : Hash} {txs : List SignedOps} {events : List Event}
    {deferred : DeferredProofs} (hu : s.tryUpdate id h txs eras = .ok (s', events, deferred)) :
    ∃ s1 headerEvents s2 txEvents, s.tryApplyHeader h eras = .ok (s1, headerEvents) ∧
      (s1.addSeenBlock id h.slot eras).tryApplyBlockContents eras txs =
        .ok (s2, txEvents, deferred) ∧
      s2.recordBlock txs.length (txEvents.countP isPowRewardClaimed) (configForSlot eras h.slot) =
        .ok s' ∧ events = headerEvents.map .header ++ txEvents.map .tx := by
  obtain ⟨⟨s1, headerEvents⟩, h1, h2⟩ := bind_ok hu
  obtain ⟨⟨s2, txEvents, _⟩, h3, h4⟩ := bind_ok h2
  obtain ⟨s3, h5, h6⟩ := bind_ok h4
  simp_all

end LedgerState

/-- A first state over some notes. -/
def LedgerState.fromUtxos (new : List Utxo) (config : Config) (powRewardPool : Nat)
    (excludedKeys : List ZkPublicKey) : LedgerState :=
  let l := CryptarchiaLedger.fromUtxos new config excludedKeys 0
  let sdp := (SdpLedger.new l.epochState.epoch).withBlendService config.sdpConfig.blendRewardsParams
    l.epochState
  ⟨0, l.withGenesisSdp sdp config,
    ⟨.new, sdp, .new, .fromRewardPoolAndConfig powRewardPool config⟩⟩

/-- The genesis transaction with its parameters. -/
structure GenesisTx where
  transfer : TransferOp
  inscription : InscriptionOp
  declarations : List SDPDeclareOp
  epochNonce : Fr
  powRewardPool : Nat
  consensusExcludedKeys : List ZkPublicKey
deriving DecidableEq

/-- The first state, from the genesis transaction. -/
def LedgerState.fromGenesisTx (tx : GenesisTx) (config : Config) :
    Result LedgerError LedgerState := do
  let l ← lift id (CryptarchiaLedger.fromGenesisTx tx.transfer config tx.consensusExcludedKeys
    tx.epochNonce)
  let channels := tx.inscription.execute .new 0
  let sdp ← wrap (.mantle ∘ .sdp)
    (SdpLedger.fromGenesis config.sdpConfig l.utxos channels l.epochState tx.declarations)
  return ⟨0, l.withGenesisSdp sdp config, ⟨channels, sdp, .new,
    .fromRewardPoolAndConfig tx.powRewardPool config⟩⟩

end Ledger

open Base Mantle Ledger

/-- The states of the blocks that are kept. -/
structure Ledger where
  states : Map Hash LedgerState
  eraSchedule : EraScheduledConfig

/-- An update that is not committed yet, with the proofs it leaves. -/
structure PreparedUpdate where
  id : Hash
  state : LedgerState
  events : List Event
  deferredProofs : DeferredProofs

namespace Ledger

/-- A ledger with one state; its block may anchor puzzles. -/
def new (id : Hash) (state : LedgerState) (eraSchedule : EraScheduledConfig) : Ledger :=
  ⟨(∅ : Map _ _).insert id (state.addSeenBlock id state.slot eraSchedule), eraSchedule⟩

def state (l : Ledger) (id : Hash) : Option LedgerState := l.states.lookup id

/-- The state after a block, before it is kept. -/
def prepareUpdate [Primitives] (l : Ledger) (id parentId : Hash) (h : Header) (txs : List SignedOps) :
    Result LedgerError PreparedUpdate := do
  let parent ← okOr (l.state parentId) (.error (.parentNotFound parentId))
  let (state, events, deferred) ← parent.tryUpdate id h txs l.eraSchedule
  return ⟨id, state, events, deferred⟩

/-- Keeps the state of an update whose proofs have been checked. -/
def commitUpdate (l : Ledger) (u : PreparedUpdate) : Ledger :=
  { l with states := l.states.insert u.id u.state }

def pruneStateAt (l : Ledger) (block : Hash) : Ledger :=
  { l with states := l.states.erase block }

end Ledger

end Logos
