import LogosChain.Ledger.Ownership
import LogosChain.Wallet.Notes

/-!
# Funding a transaction (`wallet/src/lib.rs`)

The wallet tries the transaction as it is, then with its largest note, with its two largest notes
and so on, until the notes pay the fees exactly or leave enough for a change note. Every attempt
prices the transaction anew.
-/

namespace Logos.Wallet

open Base Mantle Ledger MantleTxBuilder

variable [Primitives]

omit [Primitives] in
/-- The notes of some keys, in some order. -/
def WalletNotes.utxosOwnedByPks (n : WalletNotes) (listing : Map.Listing NoteId)
    (pks : List ZkPublicKey) : Except WalletPanic (List Utxo) :=
  ((pks.filterMap n.pkIndex.lookup).flatMap listing.toList).mapM fun id =>
    okOr (n.utxos.lookup id) .utxo

/-- A transaction with its change; none if it is not paid for. -/
def settle (b : MantleTxBuilder) (context : OpsContext) (changePk : ZkPublicKey)
    (priorityFeePercent : Nat) : Except BuilderFailure (Option MantleTxBuilder) := do
  let fundingDelta ← b.fundingDeltaWithPriorityFee context priorityFeePercent
  if fundingDelta = 0 then return some b
  else if 0 < fundingDelta then b.returnChange context changePk priorityFeePercent
  else return none

/-- The transaction with the first notes of a list. -/
def attempt (b : MantleTxBuilder) (utxos : List Utxo) (context : OpsContext)
    (changePk : ZkPublicKey) (priorityFeePercent : Nat) (count : Nat) :
    Except BuilderFailure (Option MantleTxBuilder) := do
  let funded ← b.extendLedgerInputs (utxos.take count)
  settle funded context changePk priorityFeePercent

def ofBuilder : BuilderFailure → Failure
  | .error e => .error (.txBuilder e)
  | .panic p => .panic (.builder p)

/-- The notes that may pay, the largest first. -/
def WalletNotes.candidates (n : WalletNotes) (b : MantleTxBuilder) (owned : List Utxo)
    (excludedNotes : Finset NoteId) : List Utxo :=
  let excludedNotes := b.notesConsumedOrUsedInService.toFinset ∪ n.serviceNotes ∪ n.channelNotes ∪
    excludedNotes
  (owned.filter fun u => decide (u.id ∉ excludedNotes)).insertionSort
    fun u v => v.note.value ≤ u.note.value

/-- Funds a transaction. The first attempt adds no note. -/
def WalletNotes.fundTx (n : WalletNotes) (listing : Map.Listing NoteId) (b : MantleTxBuilder)
    (changePk : ZkPublicKey) (pks : List ZkPublicKey) (context : OpsContext)
    (excludedNotes : Finset NoteId) (priorityFeePercent : Nat) :
    Except Failure MantleTxBuilder := do
  let owned ← (n.utxosOwnedByPks listing pks).mapError .panic
  let utxos := n.candidates b owned excludedNotes
  let funded ← ((List.range (utxos.length + 1)).findSomeM?
    (attempt b utxos context changePk priorityFeePercent)).mapError ofBuilder
  match funded with
  | some b => return b
  | none => .error (.error (.insufficientFunds ((utxos.map (·.note.value)).sum % 2 ^ 64)))

/-- The fewest notes that pay, with the transaction. -/
def Fewest (b : MantleTxBuilder) (utxos : List Utxo) (context : OpsContext)
    (changePk : ZkPublicKey) (priorityFeePercent count : Nat) (b' : MantleTxBuilder) : Prop :=
  count ≤ utxos.length ∧
    attempt b utxos context changePk priorityFeePercent count = .ok (some b') ∧
    ∀ k < count, attempt b utxos context changePk priorityFeePercent k = .ok none

section

variable {n : WalletNotes} {listing : Map.Listing NoteId} {b b' : MantleTxBuilder}
  {changePk : ZkPublicKey} {pks : List ZkPublicKey} {context : OpsContext}
  {excludedNotes : Finset NoteId} {priorityFeePercent count : Nat} {utxos : List Utxo}

/-- A transaction is funded with the fewest notes that pay. -/
theorem fundTx_ok_iff :
    n.fundTx listing b changePk pks context excludedNotes priorityFeePercent = .ok b' ↔
      ∃ owned count, n.utxosOwnedByPks listing pks = .ok owned ∧
        Fewest b (n.candidates b owned excludedNotes) context changePk priorityFeePercent count
          b' := by
  constructor
  · intro h
    obtain ⟨owned, h1, h2⟩ := bind_ok h
    obtain ⟨funded, h3, h4⟩ := bind_ok h2
    cases funded with
    | none => cases h4
    | some funded =>
      cases h4
      obtain ⟨count, hlt, hok, hnone⟩ := (findSomeM?_range (by simp)).mp (mapError_ok.mp h3)
      exact ⟨owned, count, mapError_ok.mp h1, Nat.lt_succ_iff.mp hlt, hok, hnone⟩
  · rintro ⟨owned, count, hown, hle, hok, hnone⟩
    have hsearch := (findSomeM?_range (r := .ok (some b')) (by simp)).mpr
      ⟨count, Nat.lt_succ_iff.mpr hle, hok, hnone⟩
    exact ok_bind (mapError_ok.mpr hown) (ok_bind (mapError_ok.mpr hsearch) rfl)

theorem settle_inputs (h : settle b context changePk priorityFeePercent = .ok (some b')) :
    b'.ledgerInputs = b.ledgerInputs ∧ b'.pendingTransfer.inputs = b.pendingTransfer.inputs := by
  obtain ⟨delta, -, h1⟩ := bind_ok h
  split at h1
  · cases h1
    exact ⟨rfl, rfl⟩
  · split at h1
    · obtain ⟨-, hledger, hin, -⟩ := returnChange_frame h1
      exact ⟨hledger, hin⟩
    · cases h1

theorem attempt_inputs
    (h : attempt b utxos context changePk priorityFeePercent count = .ok (some b')) :
    b'.ledgerInputs.items = b.ledgerInputs.items ++ utxos.take count ∧
      b'.pendingTransfer.inputs.ids =
        b.pendingTransfer.inputs.ids ++ (utxos.take count).map Utxo.id := by
  obtain ⟨funded, h1, h2⟩ := bind_ok h
  obtain ⟨-, hledger, hids, -⟩ := extendLedgerInputs_ok h1
  grind [settle_inputs]

/-- An attempt adds its notes and at most the change. -/
theorem attempt_ok [Leaves] (hlen : EncodingLengths)
    (h : attempt b utxos context changePk priorityFeePercent count = .ok (some b')) :
    b'.ops = b.ops ∧ b'.ledgerInputs.items = b.ledgerInputs.items ++ utxos.take count ∧
      b'.pendingTransfer.inputs.ids =
        b.pendingTransfer.inputs.ids ++ (utxos.take count).map Utxo.id ∧
      (∃ change : Option Note,
        b'.pendingTransfer.outputs.notes = b.pendingTransfer.outputs.notes ++ change.toList ∧
        ∀ note ∈ change, note.value ≠ 0 ∧ note.pk = changePk) ∧
      b'.fundingDeltaWithPriorityFee context priorityFeePercent = .ok 0 := by
  obtain ⟨funded, h1, h2⟩ := bind_ok h
  obtain ⟨hops, hledger, hids, houts⟩ := extendLedgerInputs_ok h1
  obtain ⟨delta, h3, h4⟩ := bind_ok h2
  split at h4
  · rename_i hzero
    cases h4
    simp_all
  · split at h4
    · obtain ⟨value, hvalue, hops', hledger', hin', hout', hdelta⟩ :=
        returnChange_ok hlen h4
      refine ⟨hops'.trans hops, by rw [hledger', hledger], by rw [hin', hids],
        ⟨some ⟨value, changePk⟩, by rw [hout', houts]; rfl, ?_⟩, hdelta⟩
      simp [hvalue]
    · cases h4

/-- A funded transaction leaves its own mandatory fee and the percentage of it, rounded up, and has
at most one more output, a change note that is worth something. -/
theorem funding_exact [Leaves] (hlen : EncodingLengths) {w : WalletState}
    (h : w.fundTx listing b changePk pks context excludedNotes priorityFeePercent = .ok b') :
    (∃ cost priority, b'.minimumGasCost context = .ok cost ∧
      b'.netBalance = ((cost + priority : Nat) : Int) ∧
      cost * priorityFeePercent ≤ priority * 100 ∧
      priority * 100 < cost * priorityFeePercent + 100) ∧
    b'.ops = b.ops ∧
    (∃ added, b'.ledgerInputs.items = b.ledgerInputs.items ++ added ∧
      b'.pendingTransfer.inputs.ids = b.pendingTransfer.inputs.ids ++ added.map Utxo.id) ∧
    ∃ change : Option Note,
      b'.pendingTransfer.outputs.notes = b.pendingTransfer.outputs.notes ++ change.toList ∧
      ∀ note ∈ change, note.value ≠ 0 ∧ note.pk = changePk := by
  obtain ⟨owned, count, -, -, hattempt, -⟩ := fundTx_ok_iff.mp h
  obtain ⟨hops, hledger, hids, hchange, hdelta⟩ := attempt_ok hlen hattempt
  refine ⟨?_, hops, ⟨_, hledger, hids⟩, hchange⟩
  obtain ⟨cost, fee, hcost, hfee, hzero⟩ := fundingDelta_ok hdelta
  have hbalance : b'.netBalance = fee := by omega
  rw [requiredFee_ok hfee] at hbalance
  exact ⟨cost, _, hcost, hbalance, by omega, by omega⟩

end

/-- Storage costs one unit a byte and execution nothing. -/
def bytePriced : OpsContext :=
  ⟨⟨(∅ : Map ChannelId Nat).insert 3 1, ∅, ⟨0, 1⟩, ⟨0, 0, 0, 0, 0, 0, 0, 0, 0, 0, 0⟩⟩, 0⟩

def genesisWithNotes : GenesisTx :=
  { genesisWithService with
    transfer := ⟨.empty, ⟨[⟨100, 7⟩, ⟨5000, 7⟩, ⟨60, 7⟩], by decide⟩⟩
    declarations := [] }

def walletAtGenesis : Except Unit WalletState := do
  let s ← (LedgerState.fromGenesisTx genesisWithNotes .small).mapError fun _ => ()
  return .fromLedger oneKey s (.ascending _)

omit [Primitives] in
theorem funding_exact_change :
    letI := Primitives.sized
    ∃ (w : WalletState) (b' : MantleTxBuilder),
      w.fundTx .ascending .new 7 [7] bytePriced ∅ 10 = .ok b' ∧
      (∃ cost priority, b'.minimumGasCost bytePriced = .ok cost ∧
        b'.netBalance = ((cost + priority : Nat) : Int) ∧ cost * 10 ≤ priority * 100 ∧
        priority * 100 < cost * 10 + 100) ∧
      b'.ledgerInputs.items.map (·.note.value) = [5000] ∧
      b'.pendingTransfer.outputs.notes.map (·.value) = [4740] := by
  let _ := Primitives.sized
  let _ := Leaves.plain
  obtain ⟨⟨w, b'⟩, h, hin, hout⟩ := exists_ok (x := do
      let w ← walletAtGenesis
      let b' ← (w.fundTx .ascending .new 7 [7] bytePriced ∅ 10).mapError fun _ => ()
      return (w, b'))
    (fun r => r.2.ledgerInputs.items.map (·.note.value) = [5000] ∧
      r.2.pendingTransfer.outputs.notes.map (·.value) = [4740]) (by decide +kernel)
  obtain ⟨w0, -, h1⟩ := bind_ok h
  obtain ⟨b0, h2, h3⟩ := bind_ok h1
  cases h3
  have hfund := mapError_ok.mp h2
  exact ⟨w, b', hfund, (funding_exact encodingLengths_sized hfund).1, hin, hout⟩

end Logos.Wallet
