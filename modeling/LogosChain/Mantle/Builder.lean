import LogosChain.Mantle.Estimate

/-!
# Building a transaction (`core/src/mantle/transactions/builder.rs`, `utils/src/bounded`)

The fees of a transaction depend on its size and so on the transfer that pays for it. A builder can
be read from a request, so its fields need not fit together: only what its methods make does
(`MantleTxBuilder.Made`).
-/

namespace Logos.Mantle

open Base

/-! ## Bounded collections -/

/-- `BoundedError`, as far as a push reports it. -/
inductive BoundedError where
  | tooManyItems (count max : Nat)
  | duplicateItem (index : Nat)
deriving DecidableEq, Repr

/-- A list of a bounded length. -/
structure UpperBoundedVec (α : Type) (max : Nat) where
  items : List α
  bounded : items.length ≤ max
deriving DecidableEq

namespace UpperBoundedVec

variable {α : Type} {max : Nat}

def empty : UpperBoundedVec α max := ⟨[], Nat.zero_le _⟩

/-- Adds an item, unless the list is full. -/
def tryPush (v : UpperBoundedVec α max) (item : α) : Except BoundedError (UpperBoundedVec α max) :=
  if h : v.items.length < max then .ok ⟨v.items ++ [item], by rw [List.length_append]; exact h⟩
  else .error (.tooManyItems (v.items.length + 1) max)

theorem tryPush_ok {v v' : UpperBoundedVec α max} {item : α} (h : v.tryPush item = .ok v') :
    v'.items = v.items ++ [item] := by grind [tryPush]

end UpperBoundedVec

/-- Adds a new input (`UpperBoundedOrderedSet::try_push`). -/
def Inputs.tryPush (i : Inputs) (id : NoteId) : Except BoundedError Inputs :=
  if hlength : maxTransactionInputs ≤ i.ids.length then
    .error (.tooManyItems (i.ids.length + 1) maxTransactionInputs)
  else if hmem : id ∈ i.ids then .error (.duplicateItem i.ids.length)
  else .ok ⟨i.ids ++ [id],
    List.nodup_append.mpr ⟨i.nodup, List.nodup_singleton id, fun a ha b hb he =>
      hmem (List.mem_singleton.mp hb ▸ he ▸ ha)⟩,
    by rw [List.length_append]; exact Nat.lt_of_not_le hlength⟩

theorem Inputs.tryPush_ok {i i' : Inputs} {id : NoteId} (h : i.tryPush id = .ok i') :
    i'.ids = i.ids ++ [id] := by grind [tryPush]

def Outputs.tryPush (o : Outputs) (note : Note) : Except BoundedError Outputs :=
  if h : o.notes.length < maxTransactionInputs then
    .ok ⟨o.notes ++ [note], by rw [List.length_append]; exact h⟩
  else .error (.tooManyItems (o.notes.length + 1) maxTransactionInputs)

theorem Outputs.tryPush_ok {o o' : Outputs} {note : Note} (h : o.tryPush note = .ok o') :
    o'.notes = o.notes ++ [note] := by grind [tryPush]

/-! ## The builder -/

/-- Why a transaction cannot be built. -/
inductive TxBuilderError where
  | invalidOpsBounds (source : BoundedError)
  | invalidInputsBounds (source : BoundedError)
  | invalidOutputsBounds (source : BoundedError)
  | gasOverflow
  | missingTransferThreshold (channelId : ChannelId)
deriving DecidableEq, Repr

/-- The assertions of the builder. -/
inductive BuilderPanic where
  /-- The pending transfer has as many inputs as the builder has notes. -/
  | ledgerInputs
  /-- "change must fit in u64" -/
  | change
deriving DecidableEq, Repr

/-- An error or a panic. -/
inductive BuilderFailure where
  | error (e : TxBuilderError)
  | panic (p : BuilderPanic)
deriving DecidableEq, Repr

/-- A transaction under construction, with its transfer. -/
structure MantleTxBuilder where
  ops : UpperBoundedVec Op maxOpsPerTx
  ledgerInputs : UpperBoundedVec Utxo maxTransactionInputs
  pendingTransfer : TransferOp
deriving DecidableEq

def TransferOp.isEmpty (op : TransferOp) : Bool := op.inputs.ids.isEmpty && op.outputs.notes.isEmpty

namespace MantleTxBuilder

def new : MantleTxBuilder := ⟨.empty, .empty, ⟨.empty, .empty⟩⟩

/-- Adds operations. -/
def extendOps (b : MantleTxBuilder) (ops : List Op) : Except BuilderFailure MantleTxBuilder :=
  ops.foldlM (fun b op => do
    let ops ← (b.ops.tryPush op).mapError fun e => .error (.invalidOpsBounds e)
    return { b with ops := ops }) b

def pushOp (b : MantleTxBuilder) (op : Op) : Except BuilderFailure MantleTxBuilder :=
  b.extendOps [op]

/-- The next output of `extend_ledger_outputs`. -/
def pushOutput (b : MantleTxBuilder) (note : Note) : Except BuilderFailure MantleTxBuilder := do
  let outputs ← (b.pendingTransfer.outputs.tryPush note).mapError fun e =>
    .error (.invalidOutputsBounds e)
  return { b with pendingTransfer := { b.pendingTransfer with outputs := outputs } }

def extendLedgerOutputs (b : MantleTxBuilder) (notes : List Note) :
    Except BuilderFailure MantleTxBuilder :=
  notes.foldlM pushOutput b

def addLedgerOutput (b : MantleTxBuilder) (note : Note) : Except BuilderFailure MantleTxBuilder :=
  b.extendLedgerOutputs [note]

/-- The builder with a change note of no value. -/
def withDummyChangeNote (b : MantleTxBuilder) : Except BuilderFailure MantleTxBuilder :=
  b.addLedgerOutput ⟨0, 0⟩

/-- What the known inputs leave after the outputs. -/
def netBalance (b : MantleTxBuilder) : Int :=
  ((b.ledgerInputs.items.map (·.note.value)).sum : Nat) -
    ((b.pendingTransfer.outputs.notes.map (·.value)).sum : Nat)

/-- The operations, with the transfer unless it is empty. -/
def build (b : MantleTxBuilder) (forkDigest : ForkDigest) : Except BuilderFailure Ops := do
  let ops ← if b.pendingTransfer.isEmpty then .ok b.ops
    else (b.ops.tryPush (.transfer b.pendingTransfer)).mapError fun e =>
      .error (.invalidOpsBounds e)
  return ⟨forkDigest, ops.items⟩

/-- A percentage of the mandatory fee, rounded up. -/
def priorityFeeAmount (mandatoryFee priorityFeePercent : Nat) : Except TxBuilderError Nat := do
  let numerator ← okOr ((checkedMul 128 mandatoryFee priorityFeePercent).bind
    fun value => checkedAdd 128 value 99) .gasOverflow
  failIf (2 ^ 64 ≤ numerator / 100) .gasOverflow
  return numerator / 100

/-- The mandatory fee and the percentage of it. -/
def requiredFee (mandatoryFee priorityFeePercent : Nat) : Except TxBuilderError Nat := do
  let priorityFeeAmount ← priorityFeeAmount mandatoryFee priorityFeePercent
  okOr (checkedAdd 64 mandatoryFee priorityFeeAmount) .gasOverflow

/-- The channel whose keys sign for the notes of an operation. -/
def signingChannel : Op → Option ChannelId
  | .channelWithdraw op => some op.channelId
  | .channelTransfer op => some op.channelId
  | _ => none

/-- The notes that the builder sees an operation spend or lock. -/
def opNotes : Op → List NoteId
  | .transfer op => op.inputs.ids
  | .channelDeposit op => op.inputs.ids
  | .sdpDeclare op => [op.serviceNoteId]
  | _ => []

section

variable [Primitives] {b b' : MantleTxBuilder} {context : OpsContext} {priorityFeePercent : Nat}

/-- The next input of `extend_ledger_inputs`. -/
def pushInput (b : MantleTxBuilder) (utxo : Utxo) : Except BuilderFailure MantleTxBuilder := do
  failIf (b.pendingTransfer.inputs.ids.length ≠ b.ledgerInputs.items.length) (.panic .ledgerInputs)
  let inputs ← (b.pendingTransfer.inputs.tryPush utxo.id).mapError fun e =>
    .error (.invalidInputsBounds e)
  let ledgerInputs ← (b.ledgerInputs.tryPush utxo).mapError fun e =>
    .error (.invalidInputsBounds e)
  return { b with
    pendingTransfer := { b.pendingTransfer with inputs := inputs }
    ledgerInputs := ledgerInputs }

def extendLedgerInputs (b : MantleTxBuilder) (utxos : List Utxo) :
    Except BuilderFailure MantleTxBuilder :=
  utxos.foldlM pushInput b

def addLedgerInput (b : MantleTxBuilder) (utxo : Utxo) : Except BuilderFailure MantleTxBuilder :=
  b.extendLedgerInputs [utxo]

/-- The least cost of the transaction once it is signed. -/
def minimumGasCost (b : MantleTxBuilder) (context : OpsContext) : Except BuilderFailure Nat := do
  b.ops.items.forM fun op =>
    match signingChannel op with
    | none => .ok ()
    | some channelId => failIf (context.gasContext.transferThresholds.lookup channelId = none)
        (.error (.missingTransferThreshold channelId))
  let tx ← b.build 0
  (tx.totalGasCost context.gasContext).mapError fun _ => .error .gasOverflow

/-- What is left after the fee and the reserve for the priority fee. -/
def fundingDeltaWithPriorityFee (b : MantleTxBuilder) (context : OpsContext)
    (priorityFeePercent : Nat) : Except BuilderFailure Int := do
  let mandatoryFee ← b.minimumGasCost context
  let requiredFee ← (requiredFee mandatoryFee priorityFeePercent).mapError .error
  return b.netBalance - requiredFee

/-- Gives back the surplus over the cost of the change note. -/
def returnChange (b : MantleTxBuilder) (context : OpsContext) (changePk : ZkPublicKey)
    (priorityFeePercent : Nat) : Except BuilderFailure (Option MantleTxBuilder) := do
  let candidate ← b.withDummyChangeNote
  let availableChange ← candidate.fundingDeltaWithPriorityFee context priorityFeePercent
  if availableChange < 1 then return none
  else
    failIf (2 ^ 64 ≤ availableChange) (.panic .change)
    let txWithChange ← b.addLedgerOutput ⟨availableChange.toNat, changePk⟩
    return some txWithChange

/-- The notes that are spent or locked, and those that pay. -/
def notesConsumedOrUsedInService (b : MantleTxBuilder) : List NoteId :=
  b.ops.items.flatMap opNotes ++ b.ledgerInputs.items.map Utxo.id

/-- The builders that the methods make. -/
inductive Made : MantleTxBuilder → Prop where
  | new : Made new
  | extendOps {b b' : MantleTxBuilder} (hb : Made b) (ops : List Op)
      (h : b.extendOps ops = .ok b') : Made b'
  | extendLedgerInputs {b b' : MantleTxBuilder} (hb : Made b) (utxos : List Utxo)
      (h : b.extendLedgerInputs utxos = .ok b') : Made b'
  | extendLedgerOutputs {b b' : MantleTxBuilder} (hb : Made b) (notes : List Note)
      (h : b.extendLedgerOutputs notes = .ok b') : Made b'
  | returnChange {b b' : MantleTxBuilder} (hb : Made b) (context : OpsContext)
      (changePk : ZkPublicKey) (priorityFeePercent : Nat)
      (h : b.returnChange context changePk priorityFeePercent = .ok (some b')) : Made b'

/-! ### What the methods do -/

theorem pushInput_ok {utxo : Utxo} (h : b.pushInput utxo = .ok b') :
    b'.ops = b.ops ∧ b'.ledgerInputs.items = b.ledgerInputs.items ++ [utxo] ∧
      b'.pendingTransfer.inputs.ids = b.pendingTransfer.inputs.ids ++ [utxo.id] ∧
      b'.pendingTransfer.outputs = b.pendingTransfer.outputs := by
  obtain ⟨_, -, h1⟩ := bind_ok h
  obtain ⟨inputs, h2, h3⟩ := bind_ok h1
  obtain ⟨ledgerInputs, h4, h5⟩ := bind_ok h3
  cases h5
  grind [UpperBoundedVec.tryPush_ok, Inputs.tryPush_ok, mapError_ok]

theorem extendLedgerInputs_ok {utxos : List Utxo} (h : b.extendLedgerInputs utxos = .ok b') :
    b'.ops = b.ops ∧ b'.ledgerInputs.items = b.ledgerInputs.items ++ utxos ∧
      b'.pendingTransfer.inputs.ids = b.pendingTransfer.inputs.ids ++ utxos.map Utxo.id ∧
      b'.pendingTransfer.outputs = b.pendingTransfer.outputs := by
  unfold extendLedgerInputs at h
  induction utxos generalizing b with
  | nil =>
    rw [foldlM_nil_ok h]
    simp
  | cons utxo utxos ih =>
    obtain ⟨b1, h1, h2⟩ := foldlM_cons_ok h
    obtain ⟨hops, hledger, hids, houts⟩ := pushInput_ok h1
    grind

omit [Primitives] in
theorem addLedgerOutput_ok {note : Note} (h : b.addLedgerOutput note = .ok b') :
    b'.ops = b.ops ∧ b'.ledgerInputs = b.ledgerInputs ∧
      b'.pendingTransfer.inputs = b.pendingTransfer.inputs ∧
      b'.pendingTransfer.outputs.notes = b.pendingTransfer.outputs.notes ++ [note] := by
  obtain ⟨b1, h1, h2⟩ := foldlM_cons_ok h
  cases foldlM_nil_ok h2
  obtain ⟨outputs, h3, h4⟩ := bind_ok h1
  cases h4
  exact ⟨rfl, rfl, rfl, Outputs.tryPush_ok (mapError_ok.mp h3)⟩

theorem returnChange_frame {changePk : ZkPublicKey}
    (h : b.returnChange context changePk priorityFeePercent = .ok (some b')) :
    b'.ops = b.ops ∧ b'.ledgerInputs = b.ledgerInputs ∧
      b'.pendingTransfer.inputs = b.pendingTransfer.inputs ∧
      ∃ note, b'.pendingTransfer.outputs.notes = b.pendingTransfer.outputs.notes ++ [note] := by
  obtain ⟨_, -, h1⟩ := bind_ok h
  obtain ⟨_, -, h2⟩ := bind_ok h1
  split at h2
  · cases h2
  · obtain ⟨_, -, h3⟩ := bind_ok h2
    obtain ⟨tx, h4, h5⟩ := bind_ok h3
    cases h5
    obtain ⟨hops, hledger, hin, hout⟩ := addLedgerOutput_ok h4
    exact ⟨hops, hledger, hin, _, hout⟩

/-! ### Builders that the methods make -/

omit [Primitives] in
theorem extendOps_ok {ops : List Op} (h : b.extendOps ops = .ok b') :
    b'.ledgerInputs = b.ledgerInputs ∧ b'.pendingTransfer = b.pendingTransfer := by
  unfold extendOps at h
  induction ops generalizing b with
  | nil =>
    rw [foldlM_nil_ok h]
    exact ⟨rfl, rfl⟩
  | cons op ops ih =>
    obtain ⟨b1, h1, h2⟩ := foldlM_cons_ok h
    obtain ⟨_, -, h3⟩ := bind_ok h1
    grind

omit [Primitives] in
theorem extendLedgerOutputs_ok {notes : List Note} (h : b.extendLedgerOutputs notes = .ok b') :
    b'.ledgerInputs = b.ledgerInputs ∧ b'.pendingTransfer.inputs = b.pendingTransfer.inputs := by
  unfold extendLedgerOutputs at h
  induction notes generalizing b with
  | nil =>
    rw [foldlM_nil_ok h]
    exact ⟨rfl, rfl⟩
  | cons note notes ih =>
    obtain ⟨b1, h1, h2⟩ := foldlM_cons_ok h
    obtain ⟨_, -, h3⟩ := bind_ok h1
    grind

/-- The inputs of the transfer are the known notes. -/
theorem Made.inputs (h : Made b) : b.pendingTransfer.inputs.ids =
    b.ledgerInputs.items.map Utxo.id := by
  induction h with
  | new => rfl
  | extendOps _ ops h ih =>
    grind [extendOps_ok]
  | extendLedgerInputs _ utxos h ih =>
    obtain ⟨-, hledger, hids, -⟩ := extendLedgerInputs_ok h
    rw [hledger, hids, ih, List.map_append]
  | extendLedgerOutputs _ notes h ih =>
    grind [extendLedgerOutputs_ok]
  | returnChange _ context changePk priorityFeePercent h ih =>
    obtain ⟨-, hledger, hin, -⟩ := returnChange_frame h
    rw [hledger, hin, ih]

end

/-! ### Prices -/

section

variable [Primitives] [Leaves] {b b' : MantleTxBuilder} {context : OpsContext}
  {priorityFeePercent cost cost' : Nat} {digest : ForkDigest} {tx : Ops} {c : OpsGasContext}
  {delta : Int}

/-- The size of a transfer depends on the number of its notes only. -/
theorem payloadLength_transfer (t : TransferOp) : (Op.transfer t).payloadLength =
    (1 + t.inputs.ids.length * 32) + (1 + t.outputs.notes.length * 40) := by
  rw [← Inputs.codec_encodedLength, ← Outputs.codec_encodedLength]
  rfl

/-- A transfer takes its code and its payload. -/
theorem opsEncodedLength_transfer (hlen : EncodingLengths) (digest : ForkDigest) (ops : List Op)
    (t : TransferOp) : Primitives.opsEncodedLength digest (ops ++ [.transfer t]) =
      Primitives.opsEncodedLength digest ops + (1 + (Op.transfer t).payloadLength) := by
  have hcodec : ∀ ops, (Ops.codec maxOpData).encodedLength ⟨digest, ops⟩ =
      32 + (1 + (ops.map fun op => 1 + op.payloadLength).sum) := fun _ => rfl
  grind [List.map_singleton, EncodingLengths.ops]

theorem minimumSignedTransactionSize_transfer (hlen : EncodingLengths) (digest : ForkDigest)
    (ops : List Op) (t : TransferOp) (c : OpsGasContext) :
    Ops.minimumSignedTransactionSize ⟨digest, ops ++ [.transfer t]⟩ c =
      Ops.minimumSignedTransactionSize ⟨digest, ops⟩ c + (1 + (Op.transfer t).payloadLength) +
        Primitives.compressedProofSize := by
  have hproofs : ((ops ++ [Op.transfer t]).foldl Ops.sizeStep (.new c, 0)).2 =
      (ops.foldl Ops.sizeStep (.new c, 0)).2 + Primitives.compressedProofSize := by
    rw [List.foldl_append]
    rfl
  grind [Ops.minimumSignedTransactionSize, opsEncodedLength_transfer]

omit [Primitives] [Leaves] in
theorem executionGasConsumption_transfer (digest : ForkDigest) (ops : List Op) (t : TransferOp)
    (c : OpsGasContext) : Ops.executionGasConsumption ⟨digest, ops ++ [.transfer t]⟩ c =
      Ops.executionGasConsumption ⟨digest, ops⟩ c >>= fun gas =>
        okOr (checkedAdd 64 gas c.gasProfile.transfer) ⟨⟩ := by
  unfold Ops.executionGasConsumption
  rw [List.foldlM_append]
  cases ops.foldlM (Ops.gasStep c.gasProfile) (.new c, 0) with
  | error e => rfl
  | ok acc =>
    show ((okOr (checkedAdd 64 acc.2 c.gasProfile.transfer) ⟨⟩ >>= fun total =>
      (pure (acc.1, total) : Except GasOverflow _)) >>= fun acc => pure acc) >>=
        (fun acc => pure acc.2) = okOr (checkedAdd 64 acc.2 c.gasProfile.transfer) ⟨⟩
    cases checkedAdd 64 acc.2 c.gasProfile.transfer <;> rfl

/-- The price depends on the notes of the last transfer only by their number. -/
theorem totalGasCost_transfer (hlen : EncodingLengths) {ops : List Op} {t t' : TransferOp}
    (hin : t.inputs = t'.inputs) (hout : t.outputs.notes.length = t'.outputs.notes.length)
    (c : OpsGasContext) :
    Ops.totalGasCost ⟨digest, ops ++ [.transfer t]⟩ c =
      Ops.totalGasCost ⟨digest, ops ++ [.transfer t']⟩ c := by
  grind [Ops.totalGasCost, Ops.storageGasCost, Ops.storageGasConsumption,
    executionGasConsumption_transfer, minimumSignedTransactionSize_transfer, payloadLength_transfer]

omit [Leaves] in
theorem totalGasCost_ok_iff :
    tx.totalGasCost c = .ok cost ↔ ∃ gas, tx.executionGasConsumption c = .ok gas ∧
      cost = gas * c.gasPrices.executionBaseGasPrice +
        tx.minimumSignedTransactionSize c * c.gasPrices.storageGasPrice ∧ cost < 2 ^ 64 := by
  constructor
  · intro h
    obtain ⟨gas, hgas, h1⟩ := bind_ok h
    obtain ⟨execution, h2, h3⟩ := bind_ok h1
    obtain ⟨storage, h4, h5⟩ := bind_ok h3
    obtain ⟨size, h6, h7⟩ := bind_ok h4
    cases h6
    grind [checkedAdd_eq_some, okOr_ok, checkedMul_eq_some]
  · rintro ⟨gas, hgas, rfl, hlt⟩
    have hexecution := okOr_ok (e := GasOverflow.mk) |>.mpr
      (checkedMul_eq_some.mpr ⟨rfl, (Nat.le_add_right _ _).trans_lt hlt⟩)
    have hstorage := okOr_ok (e := GasOverflow.mk) |>.mpr
      (checkedMul_eq_some.mpr ⟨rfl, (Nat.le_add_left _ _).trans_lt hlt⟩)
    exact ok_bind hgas (ok_bind hexecution (ok_bind (ok_bind rfl hstorage)
      (okOr_ok.mpr (checkedAdd_eq_some.mpr ⟨rfl, hlt⟩))))

omit [Leaves] in
/-- Less gas and fewer bytes cost no more. -/
theorem totalGasCost_mono {tx' : Ops} (hgas : ∀ gas', tx'.executionGasConsumption c = .ok gas' →
      ∃ gas ≤ gas', tx.executionGasConsumption c = .ok gas)
    (hsize : tx.minimumSignedTransactionSize c ≤ tx'.minimumSignedTransactionSize c)
    (h' : tx'.totalGasCost c = .ok cost') : ∃ cost ≤ cost', tx.totalGasCost c = .ok cost := by
  obtain ⟨gas', hgas', rfl, hlt⟩ := totalGasCost_ok_iff.mp h'
  obtain ⟨gas, hle, hok⟩ := hgas gas' hgas'
  have hcost := Nat.add_le_add (Nat.mul_le_mul_right c.gasPrices.executionBaseGasPrice hle)
    (Nat.mul_le_mul_right c.gasPrices.storageGasPrice hsize)
  exact ⟨_, hcost, totalGasCost_ok_iff.mpr ⟨gas, hok, rfl, hcost.trans_lt hlt⟩⟩

/-- The operations that are built. -/
def built (b : MantleTxBuilder) : List Op :=
  if b.pendingTransfer.isEmpty then b.ops.items else b.ops.items ++ [.transfer b.pendingTransfer]

omit [Primitives] [Leaves] in
theorem build_ok_iff :
    b.build digest = .ok tx ↔ b.built.length ≤ maxOpsPerTx ∧ ⟨digest, b.built⟩ = tx := by
  have hbound := b.ops.bounded
  unfold build built
  by_cases he : b.pendingTransfer.isEmpty = true
  · rw [if_pos he, if_pos he]
    exact ⟨fun h => ⟨hbound, Except.ok.inj h⟩, fun h => congrArg _ h.2⟩
  · rw [if_neg he, if_neg he, List.length_append, List.length_singleton]
    unfold UpperBoundedVec.tryPush
    by_cases hroom : b.ops.items.length < maxOpsPerTx
    · rw [dif_pos hroom]
      exact ⟨fun h => ⟨hroom, Except.ok.inj h⟩, fun h => congrArg _ h.2⟩
    · rw [dif_neg hroom]
      exact ⟨fun h => (nomatch h), fun h => absurd h.1 hroom⟩

omit [Leaves] in
/-- A builder is priced if it finds every threshold. -/
theorem minimumGasCost_ok_iff : b.minimumGasCost context = .ok cost ↔
    (∀ op ∈ b.ops.items, ∀ k, signingChannel op = some k →
      context.gasContext.transferThresholds.lookup k ≠ none) ∧
      b.built.length ≤ maxOpsPerTx ∧
      Ops.totalGasCost ⟨0, b.built⟩ context.gasContext = .ok cost := by
  constructor
  · intro h
    obtain ⟨u, h1, h2⟩ := bind_ok h
    obtain ⟨tx, h3, h4⟩ := bind_ok h2
    obtain ⟨hlength, rfl⟩ := build_ok_iff.mp h3
    refine ⟨fun op hop k hk => ?_, hlength, mapError_ok.mp h4⟩
    have hop := forM_ok.mp h1 op hop
    rw [hk] at hop
    exact failIf_ok.mp hop
  · rintro ⟨hknown, hlength, hcost⟩
    refine ok_bind (forM_ok (u := ()) |>.mpr fun op hop => ?_)
      (ok_bind (build_ok_iff.mpr ⟨hlength, rfl⟩) (mapError_ok.mpr hcost))
    split
    · rfl
    · next k hk => exact failIf_ok.mpr (hknown op hop k hk)

/-- The cost of a transaction depends on the notes that the builder makes only by their number. -/
theorem minimumGasCost_congr (hlen : EncodingLengths) (hops : b.ops = b'.ops)
    (hin : b.pendingTransfer.inputs = b'.pendingTransfer.inputs)
    (hout : b.pendingTransfer.outputs.notes.length = b'.pendingTransfer.outputs.notes.length) :
    b.minimumGasCost context = b'.minimumGasCost context := by
  have hempty : b.pendingTransfer.isEmpty = b'.pendingTransfer.isEmpty := by
    grind [TransferOp.isEmpty]
  unfold minimumGasCost
  rw [hops]
  refine bind_congr fun _ => ?_
  unfold build
  rw [hempty, hops]
  by_cases he : b'.pendingTransfer.isEmpty = true
  · rw [if_pos he, if_pos he]
  · rw [if_neg he, if_neg he]
    unfold UpperBoundedVec.tryPush
    by_cases hroom : b'.ops.items.length < maxOpsPerTx
    · simp only [dif_pos hroom]
      exact congrArg (Except.mapError _) (totalGasCost_transfer hlen hin hout _)
    · simp only [dif_neg hroom]

omit [Primitives] [Leaves] in
/-- The fee with its percentage, rounded up. -/
theorem requiredFee_ok {mandatoryFee fee : Nat}
    (h : requiredFee mandatoryFee priorityFeePercent = .ok fee) :
    fee = mandatoryFee + (mandatoryFee * priorityFeePercent + 99) / 100 := by
  obtain ⟨priority, h1, h2⟩ := bind_ok h
  obtain ⟨numerator, h3, h4⟩ := bind_ok h1
  obtain ⟨_, -, h5⟩ := bind_ok h4
  cases h5
  grind [Option.bind_eq_some_iff, okOr_ok, checkedAdd_eq_some, checkedMul_eq_some]

omit [Leaves] in
theorem fundingDelta_ok (h : b.fundingDeltaWithPriorityFee context priorityFeePercent = .ok delta) :
    ∃ cost fee, b.minimumGasCost context = .ok cost ∧
      requiredFee cost priorityFeePercent = .ok fee ∧ delta = b.netBalance - fee := by
  obtain ⟨cost, h1, h2⟩ := bind_ok h
  obtain ⟨fee, h3, h4⟩ := bind_ok h2
  cases h4
  exact ⟨cost, fee, h1, mapError_ok.mp h3, rfl⟩

section

variable (hlen : EncodingLengths) (hops : b'.ops = b.ops)
  (hin : b.pendingTransfer.inputs.ids.length ≤ b'.pendingTransfer.inputs.ids.length)
  (hout : b.pendingTransfer.outputs.notes.length ≤ b'.pendingTransfer.outputs.notes.length)
include hlen hops hin hout

/-- A builder with fewer notes costs no more. -/
theorem built_mono (digest : ForkDigest) (c : OpsGasContext) :
    b.built.length ≤ b'.built.length ∧ ∀ cost', Ops.totalGasCost ⟨digest, b'.built⟩ c = .ok cost' →
      ∃ cost ≤ cost', Ops.totalGasCost ⟨digest, b.built⟩ c = .ok cost := by
  have hempty : b'.pendingTransfer.isEmpty = true → b.pendingTransfer.isEmpty = true := by
    grind [TransferOp.isEmpty, List.length_eq_zero_iff]
  unfold built
  rw [hops]
  by_cases he' : b'.pendingTransfer.isEmpty = true
  · rw [if_pos he', if_pos (hempty he')]
    exact ⟨le_rfl, fun cost' h => ⟨cost', le_rfl, h⟩⟩
  · rw [if_neg he']
    by_cases he : b.pendingTransfer.isEmpty = true
    · -- The transfer is new.
      rw [if_pos he]
      refine ⟨by simp, fun cost' => totalGasCost_mono (fun gas' hgas' => ?_) ?_⟩
      · rw [executionGasConsumption_transfer] at hgas'
        obtain ⟨gas, hgas, hadd⟩ := bind_ok hgas'
        obtain ⟨rfl, -⟩ := checkedAdd_eq_some.mp (okOr_ok.mp hadd)
        exact ⟨gas, Nat.le_add_right _ _, hgas⟩
      · rw [minimumSignedTransactionSize_transfer hlen]
        omega
    · rw [if_neg he]
      refine ⟨by simp, fun cost' => totalGasCost_mono (fun gas' hgas' => ?_) ?_⟩
      · rw [executionGasConsumption_transfer] at hgas' ⊢
        exact ⟨gas', le_rfl, hgas'⟩
      · rw [minimumSignedTransactionSize_transfer hlen, minimumSignedTransactionSize_transfer hlen,
          payloadLength_transfer, payloadLength_transfer]
        omega

theorem minimumGasCost_mono (h : b.minimumGasCost context = .ok cost)
    (h' : b'.minimumGasCost context = .ok cost') : cost ≤ cost' := by
  obtain ⟨-, -, hcost⟩ := minimumGasCost_ok_iff.mp h
  obtain ⟨-, -, hcost'⟩ := minimumGasCost_ok_iff.mp h'
  obtain ⟨cost₁, hle, h₁⟩ := (built_mono hlen hops hin hout 0 context.gasContext).2 cost' hcost'
  cases h₁.symm.trans hcost
  exact hle

/-- What is left shrinks with the size. -/
theorem fundingDelta_mono {delta' : Int}
    (h : b.fundingDeltaWithPriorityFee context priorityFeePercent = .ok delta)
    (h' : b'.fundingDeltaWithPriorityFee context priorityFeePercent = .ok delta') :
    delta' - b'.netBalance ≤ delta - b.netBalance := by
  obtain ⟨cost, fee, hcost, hfee, rfl⟩ := fundingDelta_ok h
  obtain ⟨cost', fee', hcost', hfee', rfl⟩ := fundingDelta_ok h'
  have hle : cost ≤ cost' := minimumGasCost_mono hlen hops hin hout hcost hcost'
  have hfees : fee ≤ fee' := by
    rw [requiredFee_ok hfee, requiredFee_ok hfee']
    have := Nat.div_le_div_right (c := 100)
      (Nat.add_le_add_right (Nat.mul_le_mul_right priorityFeePercent hle) 99)
    omega
  omega

end

omit [Primitives] [Leaves] in
theorem withDummyChangeNote_ok (h : b.withDummyChangeNote = .ok b') :
    b'.ops = b.ops ∧ b'.pendingTransfer.inputs = b.pendingTransfer.inputs ∧
      b'.pendingTransfer.outputs.notes.length = b.pendingTransfer.outputs.notes.length + 1 ∧
      b'.netBalance = b.netBalance := by
  obtain ⟨hops, hledger, hin, hout⟩ := addLedgerOutput_ok h
  grind [netBalance]

/-- The change is what is left after the cost of a transaction with a change note. -/
theorem returnChange_ok (hlen : EncodingLengths) {changePk : ZkPublicKey}
    (h : b.returnChange context changePk priorityFeePercent = .ok (some b')) :
    ∃ value, value ≠ 0 ∧ b'.ops = b.ops ∧ b'.ledgerInputs = b.ledgerInputs ∧
      b'.pendingTransfer.inputs = b.pendingTransfer.inputs ∧
      b'.pendingTransfer.outputs.notes = b.pendingTransfer.outputs.notes ++ [⟨value, changePk⟩] ∧
      b'.fundingDeltaWithPriorityFee context priorityFeePercent = .ok 0 := by
  obtain ⟨candidate, h1, h2⟩ := bind_ok h
  obtain ⟨change, h3, h4⟩ := bind_ok h2
  obtain ⟨hops, hin, hout, h0⟩ := withDummyChangeNote_ok h1
  split at h4
  · cases h4
  · rename_i hpos
    obtain ⟨_, -, h5⟩ := bind_ok h4
    obtain ⟨tx, h6, h7⟩ := bind_ok h5
    cases h7
    obtain ⟨hops', hledger', hin', hout'⟩ := addLedgerOutput_ok h6
    obtain ⟨cost, fee, hcost, hfee, hdelta⟩ := fundingDelta_ok h3
    have hsame : b'.minimumGasCost context = candidate.minimumGasCost context :=
      minimumGasCost_congr hlen (hops'.trans hops.symm) (hin'.trans hin.symm) (by
        rw [hout, hout']
        exact List.length_append)
    have hbalance : b'.netBalance = fee := by grind [netBalance]
    refine ⟨change.toNat, by omega, hops', hledger', hin', hout', ?_⟩
    refine ok_bind (hsame.trans hcost) (ok_bind (mapError_ok.mpr hfee) ?_)
    rw [hbalance, Int.sub_self]
    rfl

end

end MantleTxBuilder

end Logos.Mantle
