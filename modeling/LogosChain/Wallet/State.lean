import LogosChain.Base.Groups
import LogosChain.Chain.Cryptarchia
import LogosChain.Mantle.Builder
import LogosChain.Merkle.Tracked

/-!
# The wallet (`wallet/src/lib.rs`)

A wallet starts from a state of the ledger and reads blocks with their events. It keeps the notes of
its keys, by id and by key, marks those that serve and those that a channel owns, and the vouchers
of the chain. Maps and sets that the code goes through in the order of their hashes are read in any
order.
-/

namespace Logos.Wallet

open Base Mantle Ledger Primitives

/-- An effect of a header. -/
inductive HeaderOp where
  | unlock (noteId : NoteId)
  | sdpReward (utxo : Utxo)
deriving DecidableEq, Repr

def HeaderOp.ofEvent : HeaderEvent → HeaderOp
  | .sdpNoteUnlocked noteId _ _ => .unlock noteId
  | .sdpRewardDistributed _ utxo => .sdpReward utxo

/-- An effect of an operation, with what its event says. -/
inductive WalletOp where
  | transfer (op : TransferOp)
  | lock (noteId : NoteId)
  | leaderClaim (utxo : Utxo)
  | claimPoW (utxo : Utxo)
  | channelDeposit (op : DepositOp)
  | channelTransfer (op : ChannelTransferOp)
  | channelWithdraw (op : ChannelWithdrawOp)
deriving DecidableEq

/-- The effects of a transaction. -/
structure WalletTx where
  ops : List WalletOp
deriving DecidableEq

/-- The effects of a block. -/
structure WalletBlock where
  id : Hash
  parent : Hash
  epoch : Nat
  voucherCm : VoucherCm
  headerOps : List HeaderOp
  txs : List WalletTx
deriving DecidableEq

/-- The assertions of the wallet. -/
inductive WalletPanic where
  /-- "event for LeaderClaim op must exist" -/
  | leaderClaimEvent
  /-- "event for LeaderClaim op must be LeaderRewardClaimed" -/
  | leaderRewardClaimed
  /-- A note of the index that is not there. -/
  | utxo
  | builder (p : BuilderPanic)
  | mmr (p : Mmr.Panic)
deriving DecidableEq

/-- The source keeps the text of an error of the builder. -/
inductive WalletError where
  | insufficientFunds (available : Nat)
  | txBuilder (e : TxBuilderError)
  | invalidVoucherPath (e : Mmr.MerklePathError)
  | voucherMmrFull
deriving DecidableEq

/-- An error or a panic. -/
inductive Failure where
  | error (e : WalletError)
  | panic (p : WalletPanic)
deriving DecidableEq

/-- The events, by transaction and by operation. -/
abbrev TxEvents := Map TxHash (Map Hash TxEventPayload)

/-- The next event of `group_events`. -/
def groupEvent (acc : List HeaderEvent × TxEvents) : Event → List HeaderEvent × TxEvents
  | .tx e => (acc.1, acc.2.insert e.txHash
      (((acc.2.lookup e.txHash).getD ∅).insert e.opId e.payload))
  | .header e => (acc.1 ++ [e], acc.2)

/-- The events of the header, and those of the transactions. -/
def groupEvents (events : List Event) : List HeaderEvent × TxEvents :=
  events.foldl groupEvent ([], ∅)

section

variable [Primitives]

/-- The id that the event of an operation is looked up by. -/
def opIdRef (op : Op) : Option Hash :=
  match op with
  | .leaderClaim _ => some (opId op)
  | .channelWithdraw _ => some (opId op)
  | .channelDeposit _ => some (opId op)
  | .transfer _ => some (opId op)
  | _ => none

omit [Primitives] in
/-- The effect of an operation; none if it is not followed. -/
def transformOp (op : Op) (event : Option TxEventPayload) : Except WalletPanic (Option WalletOp) :=
  match op with
  | .transfer op => .ok (some (.transfer op))
  | .channelDeposit op => .ok (some (.channelDeposit op))
  | .channelTransfer op => .ok (some (.channelTransfer op))
  | .channelWithdraw op => .ok (some (.channelWithdraw op))
  | .sdpDeclare op => .ok (some (.lock op.serviceNoteId))
  | .leaderClaim _ => do
    match ← okOr event .leaderClaimEvent with
    | .leaderRewardClaimed _ utxo => return some (.leaderClaim utxo)
    | .deposit _ _ _ _ => .error .leaderRewardClaimed
    | .powRewardClaimed _ utxo => return some (.claimPoW utxo)
  | .claimPowReward _ => .ok none
  | .channelInscribe _ | .channelConfig _ | .sdpWithdraw _ | .sdpActive _ => .ok none

/-- The operations of a transaction; each event is used once. -/
def transformOps : List Op → Map Hash TxEventPayload → Except WalletPanic (List WalletOp)
  | [], _ => .ok []
  | op :: ops, eventsByOp => do
    let first ← transformOp op ((opIdRef op).bind eventsByOp.lookup)
    let rest ← transformOps ops (((opIdRef op).map eventsByOp.erase).getD eventsByOp)
    return first.toList ++ rest

/-- The transactions of a block, each with its events. -/
def transformTxs : List SignedOps → TxEvents → Except WalletPanic (List WalletTx)
  | [], _ => .ok []
  | tx :: txs, eventsByTx => do
    let ops ← transformOps (tx.ops.map SignedOp.operation) ((eventsByTx.lookup tx.hash).getD ∅)
    let rest ← transformTxs txs (eventsByTx.erase tx.hash)
    return ⟨ops⟩ :: rest

/-- Reads a block with its events. -/
def WalletBlock.fromBlock [Chain.HeaderPrimitives] (block : Chain.Block) (epoch : Nat)
    (events : List Event) : Except WalletPanic WalletBlock := do
  let (headerEvents, txEvents) := groupEvents events
  let txs ← transformTxs block.transactions txEvents
  return {
    id := block.id
    parent := block.header.parentBlock
    epoch := epoch
    voucherCm := block.header.proofOfLeadership.voucherCm
    headerOps := headerEvents.map .ofEvent
    txs := txs }

end

/-- The notes of the wallet, with its index and its marks. -/
structure WalletNotes where
  utxos : Map NoteId Utxo
  pkIndex : Map ZkPublicKey (Finset NoteId)
  serviceNotes : Finset NoteId
  /-- Notes that a channel owns. They stay among the notes but may not be spent. -/
  channelNotes : Finset NoteId
deriving DecidableEq

abbrev VoucherPaths := Map VoucherCm (Mmr.MerklePath Fr)

/-- The wallet at a block. -/
structure WalletState extends WalletNotes where
  epoch : Nat
  /-- The vouchers of all blocks of the chain. -/
  vouchers : MerkleMountainRange VoucherCm
  voucherPaths : VoucherPaths
  /-- The paths at the first block of the epoch. -/
  voucherPathsSnapshot : VoucherPaths

/-- The vouchers that the wallet knows, by their commitments. -/
structure Vouchers (Id : Type) where
  vouchers : Map VoucherCm Id

def Vouchers.get {Id : Type} (v : Vouchers Id) (cm : VoucherCm) : Option Id := v.vouchers.lookup cm

variable {KeyId VoucherId : Type} [Primitives]

namespace WalletNotes

def empty : WalletNotes := ⟨∅, ∅, ∅, ∅⟩

/-- Adds a note of a known key, and says whether it did. -/
def insertUtxoIfOwned (knownKeys : Map ZkPublicKey KeyId) (n : WalletNotes) (utxo : Utxo) :
    WalletNotes × Bool :=
  if (knownKeys.lookup utxo.note.pk).isSome then
    ({ n with
      utxos := n.utxos.insert utxo.id utxo
      pkIndex := Map.groupInsert n.pkIndex utxo.note.pk utxo.id }, true)
  else (n, false)

/-- Adds the notes of known keys. -/
def insertOwned (knownKeys : Map ZkPublicKey KeyId) (n : WalletNotes) (utxos : List Utxo) :
    WalletNotes :=
  utxos.foldl (fun n utxo => (n.insertUtxoIfOwned knownKeys utxo).1) n

omit [Primitives] in
/-- Removes a spent note, also from the index. -/
def removeSpentUtxo (n : WalletNotes) (spentId : NoteId) : WalletNotes :=
  match n.utxos.lookup spentId with
  | none => n
  | some utxo =>
    { n with
      utxos := n.utxos.erase spentId
      pkIndex := Map.groupErase n.pkIndex utxo.note.pk spentId }

omit [Primitives] in
def removeSpent (n : WalletNotes) (ids : List NoteId) : WalletNotes := ids.foldl removeSpentUtxo n

/-- Adds the notes of known keys to a channel. -/
def insertIntoChannel (knownKeys : Map ZkPublicKey KeyId) (n : WalletNotes) (utxo : Utxo) :
    WalletNotes :=
  match n.insertUtxoIfOwned knownKeys utxo with
  | (n, true) => { n with channelNotes := insert utxo.id n.channelNotes }
  | (n, false) => n

/-- The next input of a deposit, re-created in the channel. -/
def depositInput (knownKeys : Map ZkPublicKey KeyId) (op : DepositOp) (n : WalletNotes)
    (input : NoteId × Nat) : WalletNotes :=
  match n.utxos.lookup input.1 with
  | none => n.removeSpentUtxo input.1
  | some utxo => (n.removeSpentUtxo input.1).insertIntoChannel knownKeys
      ⟨opId (.channelDeposit op), input.2, utxo.note⟩

/-- Applies an effect of a header. -/
def applyHeaderOp (knownKeys : Map ZkPublicKey KeyId) (n : WalletNotes) : HeaderOp → WalletNotes
  | .unlock noteId => { n with serviceNotes := n.serviceNotes.erase noteId }
  | .sdpReward utxo => (n.insertUtxoIfOwned knownKeys utxo).1

/-- Applies the effect of an operation. -/
def applyOp (knownKeys : Map ZkPublicKey KeyId) (n : WalletNotes) : WalletOp → WalletNotes
  | .transfer op => (n.removeSpent op.inputs.ids).insertOwned knownKeys op.newUtxos
  | .channelDeposit op => op.inputs.ids.zipIdx.foldl (depositInput knownKeys op) n
  | .channelTransfer op =>
    let released := op.inputs.ids.foldl (fun n id =>
      { n.removeSpentUtxo id with channelNotes := n.channelNotes.erase id }) n
    op.newUtxos.foldl (insertIntoChannel knownKeys) released
  | .channelWithdraw op =>
    op.inputs.ids.foldl (fun n id => { n with channelNotes := n.channelNotes.erase id }) n
  | .lock noteId =>
    if (n.utxos.lookup noteId).isSome then
      { n with serviceNotes := insert noteId n.serviceNotes }
    else n
  | .leaderClaim utxo => (n.insertUtxoIfOwned knownKeys utxo).1
  | .claimPoW utxo => (n.insertUtxoIfOwned knownKeys utxo).1

/-- The effects of the header, then those of the transactions. -/
def applyEffects (knownKeys : Map ZkPublicKey KeyId) (n : WalletNotes) (block : WalletBlock) :
    WalletNotes :=
  block.txs.foldl (fun n tx => tx.ops.foldl (applyOp knownKeys) n)
    (block.headerOps.foldl (applyHeaderOp knownKeys) n)

/-- The next note of `from_ledger`. -/
def insertLedgerNote (knownKeys : Map ZkPublicKey KeyId) (ledger : LedgerState) (n : WalletNotes)
    (utxo : Utxo) : WalletNotes :=
  if (knownKeys.lookup utxo.note.pk).isSome then
    { utxos := n.utxos.insert utxo.id utxo
      pkIndex := Map.groupInsert n.pkIndex utxo.note.pk utxo.id
      serviceNotes := if ledger.serviceNotes.contains utxo.id then insert utxo.id n.serviceNotes
        else n.serviceNotes
      channelNotes := if ledger.channels.isChannelNote utxo.id then insert utxo.id n.channelNotes
        else n.channelNotes }
  else n

end WalletNotes

namespace WalletState

/-- The wallet at a state of the ledger. -/
def fromLedger (knownKeys : Map ZkPublicKey KeyId) (ledger : LedgerState)
    (order : Map.Iteration ledger.utxos.items) : WalletState where
  toWalletNotes := (order.entries.map (·.2.1)).foldl
    (WalletNotes.insertLedgerNote knownKeys ledger) .empty
  epoch := ledger.cryptarchiaLedger.epochState.epoch
  vouchers := ledger.mantleLedger.leaders.vouchers
  voucherPaths := ∅
  voucherPathsSnapshot := ∅

/-- Adds a voucher: the vouchers, the paths and the snapshot. -/
def applyVoucher (w : WalletState) (knownVouchers : Vouchers VoucherId)
    (order : Map.Iteration w.voucherPaths) (block : WalletBlock) :
    Except Failure (MerkleMountainRange VoucherCm × VoucherPaths × VoucherPaths) := do
  let snapshot := if w.epoch < block.epoch then w.voucherPaths else w.voucherPathsSnapshot
  let tracked := order.entries.filter fun e => (knownVouchers.get e.1).isSome
  let (pushed, paths) := Mmr.pushWithPaths compress 0 MerkleMountainRange.maxHeight
    w.vouchers block.voucherCm (tracked.map (·.2))
  let (vouchers, newPath) ← pushed.mapError fun
    | .panic p => .panic (.mmr p)
    | .error .mmrFull => .error .voucherMmrFull
    | .error (.invalidTrackedPath e) => .error (.invalidVoucherPath e)
  let voucherPaths := ((tracked.map (·.1)).zip paths).foldl (fun m e => m.insert e.1 e.2)
    (∅ : VoucherPaths)
  let voucherPaths := if (knownVouchers.get block.voucherCm).isSome
    then voucherPaths.insert block.voucherCm newPath else voucherPaths
  return (vouchers, voucherPaths, snapshot)

/-- Applies a block. -/
def applyBlock (w : WalletState) (knownKeys : Map ZkPublicKey KeyId)
    (knownVouchers : Vouchers VoucherId) (order : Map.Iteration w.voucherPaths)
    (block : WalletBlock) : Except Failure WalletState := do
  let notes := w.toWalletNotes.applyEffects knownKeys block
  let (vouchers, voucherPaths, voucherPathsSnapshot) ← w.applyVoucher knownVouchers order block
  return ⟨notes, block.epoch, vouchers, voucherPaths, voucherPathsSnapshot⟩

theorem applyBlock_ok {w w' : WalletState} {knownKeys : Map ZkPublicKey KeyId}
    {knownVouchers : Vouchers VoucherId} {order : Map.Iteration w.voucherPaths}
    {block : WalletBlock} (h : w.applyBlock knownKeys knownVouchers order block = .ok w') :
    w'.toWalletNotes = w.toWalletNotes.applyEffects knownKeys block := by
  obtain ⟨_, -, h1⟩ := bind_ok h
  cases h1
  rfl

end WalletState

omit [Primitives] in
def oneKey : Map ZkPublicKey Unit := (∅ : Map ZkPublicKey Unit).insert 7 ()

end Logos.Wallet
