import LogosChain.Base.Run
import LogosChain.Ledger.Block

/-!
# Selecting transactions (`services/chain/chain-leader/src/{tx_selection,lib}.rs`)

A leader tries the pending transactions on the state after the header of its block, in rounds: one
that fails may succeed after another one it depends on, so failures are tried again as long as a
round has added a transaction.
-/

namespace Logos.Chain

open Base Mantle Ledger

/-- How a round went. -/
inductive AssemblyState where
  | progress
  | noProgress
  | gasCapacityReached
deriving DecidableEq, Repr

/-- State, gas and fees of a proposal under construction. -/
structure BlockBuilder where
  ledgerState : LedgerState
  gasAndFees : GasAndFees

/-- What is selected, and what is reported as invalid. -/
structure TransactionSelection where
  ledgerState : LedgerState
  selectedTxs : List SignedOps
  invalidTxHashes : List TxHash

/-- A selection under way. -/
structure Assembly where
  blockBuilder : BlockBuilder
  selectedTxs : List SignedOps
  invalidTxHashes : List TxHash
  assemblyState : AssemblyState
  /-- What is left for the next round. -/
  pending : List SignedOps

/-- The transactions of a block, at most as many as allowed. -/
structure BlockTransactions (maxTransactions : Nat) where
  txs : List SignedOps
  bounded : txs.length ≤ maxTransactions

/-- The transactions, unless there are too many. -/
def BlockTransactions.tryNew (txs : List SignedOps) (maxTransactions : Nat) :
    Option (BlockTransactions maxTransactions) :=
  if h : txs.length ≤ maxTransactions then some ⟨txs, h⟩ else none

section

variable [Primitives]

namespace BlockBuilder

def new (s : LedgerState) : BlockBuilder := ⟨s, ⟨0, 0, 0, 0⟩⟩

/-- Applies a transaction if the block has the gas for it. -/
def tryAddTransaction (b : BlockBuilder) (tx : SignedOps) (eras : EraScheduledConfig) :
    Result LedgerError (BlockBuilder × DeferredProofs) := do
  let maxGasPerBlock := (configForSlot eras b.ledgerState.slot).executionMarket.maxGasPerBlock
  let (ledgerState, txGasAndFees, _, deferred) ← b.ledgerState.tryApplyTransaction eras tx
  let gasAndFees ← lift id (b.gasAndFees.checkedAdd txGasAndFees maxGasPerBlock)
  return (⟨ledgerState, gasAndFees⟩, deferred)

/-- Applies transactions one after the other. -/
def tryAddTransactions (b : BlockBuilder) (txs : List SignedOps) (eras : EraScheduledConfig) :
    Result LedgerError BlockBuilder :=
  txs.foldlM (fun b tx => do return (← b.tryAddTransaction tx eras).1) b

end BlockBuilder

namespace Assembly

/-- Tries a transaction; the round stops when the gas is used up. -/
def consider (eras : EraScheduledConfig) (maxTransactionsSize : Nat) (a : Assembly)
    (tx : SignedOps) : Except Mantle.Panic (ForInStep Assembly) :=
  if maxTransactionsSize < tx.storageSize then
    .ok (.yield { a with invalidTxHashes := a.invalidTxHashes ++ [tx.hash] })
  else
    match a.blockBuilder.tryAddTransaction tx eras with
    | .ok (next, deferred) =>
      match deferred.verify with
      | .ok () => .ok (.yield { a with
          blockBuilder := next
          selectedTxs := a.selectedTxs ++ [tx]
          assemblyState := .progress })
      | .error _ => .ok (.yield { a with pending := a.pending ++ [tx] })
    | .error (.error (.tooMuchExecutionGas _ _)) =>
      .ok (.done { a with assemblyState := .gasCapacityReached })
    | .error (.error (.tooMuchTransactionExecutionGas _ _)) =>
      .ok (.yield { a with invalidTxHashes := a.invalidTxHashes ++ [tx.hash] })
    | .error (.error _) => .ok (.yield { a with pending := a.pending ++ [tx] })
    | .error (.panic p) => .error p

/-- Tries all that is pending. -/
def round (eras : EraScheduledConfig) (maxTransactionsSize : Nat) :
    Assembly → List SignedOps → Except Mantle.Panic Assembly
  | a, [] => .ok a
  | a, tx :: txs => do
    match ← a.consider eras maxTransactionsSize tx with
    | .yield a => round eras maxTransactionsSize a txs
    | .done a => return a

/-- Rounds, as long as the last one made progress and there is `fuel`. -/
def rounds (eras : EraScheduledConfig) (maxTransactionsSize : Nat) :
    Nat → Assembly → Except Mantle.Panic Assembly
  | 0, a => .ok a
  | fuel + 1, a =>
    match a.assemblyState with
    | .progress => do
      let next ← round eras maxTransactionsSize
        { a with assemblyState := .noProgress, pending := [] } a.pending
      rounds eras maxTransactionsSize fuel next
    | _ => .ok a

/-- Nothing is selected yet. -/
def start (s : LedgerState) (pending : List SignedOps) : Assembly :=
  ⟨.new s, [], [], .progress, pending⟩

end Assembly

/-- Every round with progress leaves fewer transactions. -/
def assemble (s : LedgerState) (pending : List SignedOps) (eras : EraScheduledConfig) :
    Except Mantle.Panic Assembly :=
  (Assembly.start s pending).rounds eras (configForSlot eras s.slot).maxTransactionsSize
    (pending.length + 1)

/-- What is pending at the end is reported, unless the gas was used up. -/
def selectTransactions (s : LedgerState) (pending : List SignedOps) (eras : EraScheduledConfig) :
    Except Mantle.Panic TransactionSelection := do
  let a ← assemble s pending eras
  let invalid := if a.assemblyState = .gasCapacityReached then a.invalidTxHashes
    else a.invalidTxHashes ++ a.pending.map SignedOps.hash
  return ⟨a.blockBuilder.ledgerState, a.selectedTxs, invalid⟩

/-- The loop of `txs_for_block`, with the number and size so far. -/
def takeForBlock (maxTransactions maxTransactionsSize : Nat) :
    Nat → Nat → List SignedOps → List SignedOps
  | _, _, [] => []
  | count, size, tx :: txs =>
    if count < maxTransactions then
      match checkedAdd 64 size tx.storageSize with
      | none => []
      | some next =>
        if maxTransactionsSize < next then []
        else tx :: takeForBlock maxTransactions maxTransactionsSize (count + 1) next txs
    else []

/-- Takes transactions up to the first one that trips a limit. -/
def txsForBlock (txs : List SignedOps) (maxTransactions maxTransactionsSize : Nat) :
    Except Mantle.Panic (BlockTransactions maxTransactions) :=
  okOr (BlockTransactions.tryNew (takeForBlock maxTransactions maxTransactionsSize 0 0 txs) _)
    .blockTransactions

/-- `propose_block`: the state, the selection and the block. -/
def proposeBlock (s : LedgerState) (h : Header) (pending : List SignedOps)
    (eras : EraScheduledConfig) : Result LedgerError (LedgerState × TransactionSelection ×
      BlockTransactions (configForSlot eras h.slot).maxTransactions) := do
  let (s, _) ← s.tryApplyHeader h eras
  let sel ← (selectTransactions s pending eras).mapError .panic
  let txs ← (txsForBlock sel.selectedTxs _ (configForSlot eras h.slot).maxTransactionsSize).mapError
    .panic
  return (s, sel, txs)

/-! ## What is selected -/

/-- A transaction is added, and its proofs are valid. -/
def BlockBuilder.Adds (eras : EraScheduledConfig) (b : BlockBuilder) (tx : SignedOps)
    (b' : BlockBuilder) : Prop :=
  ∃ deferred, b.tryAddTransaction tx eras = .ok (b', deferred) ∧ deferred.verify = .ok ()

/-- The transaction can be added, and a block may be that large. -/
def BlockBuilder.Takes (eras : EraScheduledConfig) (maxTransactionsSize : Nat) (b : BlockBuilder)
    (tx : SignedOps) (b' : BlockBuilder) : Prop :=
  tx.storageSize ≤ maxTransactionsSize ∧ b.Adds eras tx b'

/-- The transaction needs more gas than a block has. -/
def BlockBuilder.ExceedsGas (eras : EraScheduledConfig) (b : BlockBuilder) (tx : SignedOps) : Prop :=
  ∃ gas limit, b.tryAddTransaction tx eras =
    .error (.error (.tooMuchTransactionExecutionGas gas limit))

/-- The transaction is too large for any block. -/
def BlockBuilder.Drops (eras : EraScheduledConfig) (maxTransactionsSize : Nat) (b : BlockBuilder)
    (tx : SignedOps) : Prop :=
  maxTransactionsSize < tx.storageSize ∨ b.ExceedsGas eras tx

/-- The transaction cannot be added, and not for its size or gas. -/
def BlockBuilder.Refuses (eras : EraScheduledConfig) (maxTransactionsSize : Nat) (b : BlockBuilder)
    (tx : SignedOps) : Prop :=
  tx.storageSize ≤ maxTransactionsSize ∧
    match b.tryAddTransaction tx eras with
    | .ok (_, deferred) => deferred.verify ≠ .ok ()
    | .error (.error (.tooMuchExecutionGas _ _)) => False
    | .error (.error (.tooMuchTransactionExecutionGas _ _)) => False
    | .error (.error _) => True
    | .error (.panic _) => False

theorem BlockBuilder.tryAddTransactions_of_run {eras : EraScheduledConfig} {b b' : BlockBuilder}
    {txs : List SignedOps} (h : Run (Adds eras) b txs b') :
    b.tryAddTransactions txs eras = .ok b' := by
  induction h with
  | nil => rfl
  | snoc _ hadd ih =>
    obtain ⟨deferred, h1, -⟩ := hadd
    rw [tryAddTransactions, List.foldlM_append]
    refine ok_bind ih ?_
    rw [List.foldlM_cons]
    exact ok_bind (ok_bind h1 rfl) rfl

namespace Assembly

variable {eras : EraScheduledConfig} {maxTransactionsSize fuel : Nat} {a a' : Assembly}
  {tx : SignedOps} {txs pool : List SignedOps} {b : BlockBuilder}

theorem consider_cases {r : ForInStep Assembly}
    (h : a.consider eras maxTransactionsSize tx = .ok r) :
    (∃ next, a.blockBuilder.Takes eras maxTransactionsSize tx next ∧ r = .yield { a with
        blockBuilder := next
        selectedTxs := a.selectedTxs ++ [tx]
        assemblyState := .progress }) ∨
      (a.blockBuilder.Refuses eras maxTransactionsSize tx ∧
        r = .yield { a with pending := a.pending ++ [tx] }) ∨
      (a.blockBuilder.Drops eras maxTransactionsSize tx ∧
        r = .yield { a with invalidTxHashes := a.invalidTxHashes ++ [tx.hash] }) ∨
      r = .done { a with assemblyState := .gasCapacityReached } := by
  unfold consider at h
  split at h
  · rename_i hsize
    cases h
    exact .inr (.inr (.inl ⟨.inl hsize, rfl⟩))
  · rename_i hsize
    have hsize := not_lt.mp hsize
    split at h
    · rename_i next deferred hadd
      split at h
      · rename_i hv
        cases h
        exact .inl ⟨next, ⟨hsize, deferred, hadd, hv⟩, rfl⟩
      · rename_i hv
        cases h
        refine .inr (.inl ⟨⟨hsize, ?_⟩, rfl⟩)
        rw [hadd]
        simp [hv]
    · cases h
      exact .inr (.inr (.inr rfl))
    · rename_i gas limit hadd
      cases h
      exact .inr (.inr (.inl ⟨.inr ⟨gas, limit, hadd⟩, rfl⟩))
    · rename_i e hgas htxgas hadd
      cases h
      refine .inr (.inl ⟨⟨hsize, ?_⟩, rfl⟩)
      grind
    · cases h

theorem round_cons_ok (h : a.round eras maxTransactionsSize (tx :: txs) = .ok a') :
    (∃ next, a.blockBuilder.Takes eras maxTransactionsSize tx next ∧
      Assembly.round eras maxTransactionsSize { a with
        blockBuilder := next
        selectedTxs := a.selectedTxs ++ [tx]
        assemblyState := .progress } txs = .ok a') ∨
      (a.blockBuilder.Refuses eras maxTransactionsSize tx ∧
        Assembly.round eras maxTransactionsSize { a with pending := a.pending ++ [tx] } txs =
          .ok a') ∨
      (a.blockBuilder.Drops eras maxTransactionsSize tx ∧
        Assembly.round eras maxTransactionsSize
          { a with invalidTxHashes := a.invalidTxHashes ++ [tx.hash] } txs = .ok a') ∨
      a' = { a with assemblyState := .gasCapacityReached } := by
  obtain ⟨r, h1, h2⟩ := bind_ok h
  rcases consider_cases h1 with ⟨next, htakes, rfl⟩ | ⟨hrefuses, rfl⟩ | ⟨hdrops, rfl⟩ | rfl
  · exact .inl ⟨next, htakes, h2⟩
  · exact .inr (.inl ⟨hrefuses, h2⟩)
  · exact .inr (.inr (.inl ⟨hdrops, h2⟩))
  · cases h2
    exact .inr (.inr (.inr rfl))

/-- What is selected can be added; reports go back to points of that sequence. -/
structure Traced (eras : EraScheduledConfig) (maxTransactionsSize : Nat) (b : BlockBuilder)
    (pool todo : List SignedOps) (a : Assembly) : Prop where
  run : Run (BlockBuilder.Takes eras maxTransactionsSize) b a.selectedTxs a.blockBuilder
  /-- No transaction is selected or left more often than the pool has it. -/
  within : (a.selectedTxs ++ a.pending ++ todo).Subperm pool
  dropped : ∀ hash ∈ a.invalidTxHashes, ∃ tx ∈ pool, tx.hash = hash ∧ ∃ l m b1,
    a.selectedTxs = l ++ m ∧ Run (BlockBuilder.Takes eras maxTransactionsSize) b l b1 ∧
    b1.Drops eras maxTransactionsSize tx
  /-- In a round without progress the builder has stayed the same. -/
  refused : a.assemblyState = .noProgress →
    ∀ tx ∈ a.pending, a.blockBuilder.Refuses eras maxTransactionsSize tx

theorem Traced.round (ht : Traced eras maxTransactionsSize b pool txs a)
    (h : a.round eras maxTransactionsSize txs = .ok a') :
    Traced eras maxTransactionsSize b pool [] a' := by
  induction txs generalizing a with
  | nil => cases h; exact ht
  | cons tx txs ih =>
    have htx : tx ∈ pool := ht.within.subset (by simp)
    have hrest : (a.selectedTxs ++ a.pending ++ txs).Subperm pool :=
      ((List.sublist_cons_self tx txs).append_left _).subperm.trans ht.within
    rcases round_cons_ok h with ⟨next, htakes, h1⟩ | ⟨hrefuses, h1⟩ | ⟨hdrops, h1⟩ | rfl
    · refine ih ?_ h1
      refine ⟨.snoc ht.run htakes, ?_, fun hash hhash => ?_, nofun⟩
      · have hmiddle : (a.pending ++ tx :: txs).Perm (tx :: (a.pending ++ txs)) := List.perm_middle
        have hmove := hmiddle.append_left a.selectedTxs
        exact List.Perm.subperm (by simpa using hmove.symm) |>.trans ht.within
      · obtain ⟨tx', htx', rfl, l, m, b1, hsel, hl, hdrops⟩ := ht.dropped hash hhash
        exact ⟨tx', htx', rfl, l, m ++ [tx], b1, by simp [hsel], hl, hdrops⟩
    · refine ih ?_ h1
      refine ⟨ht.run, by simpa using ht.within, ht.dropped, fun hst tx' htx' => ?_⟩
      grind [refused]
    · refine ih ?_ h1
      refine ⟨ht.run, hrest, fun hash hhash => ?_, ht.refused⟩
      rcases List.mem_append.mp hhash with hhash | hhash
      · exact ht.dropped hash hhash
      · rw [List.mem_singleton.mp hhash]
        exact ⟨tx, htx, rfl, a.selectedTxs, [], a.blockBuilder, by simp, ht.run, hdrops⟩
    · exact ⟨ht.run, ((List.nil_sublist _).append_left _).subperm.trans ht.within, ht.dropped, nofun⟩

theorem Traced.rounds (ht : Traced eras maxTransactionsSize b pool [] a)
    (h : a.rounds eras maxTransactionsSize fuel = .ok a') :
    Traced eras maxTransactionsSize b pool [] a' := by
  induction fuel generalizing a with
  | zero => cases h; exact ht
  | succ fuel ih =>
    rw [Assembly.rounds] at h
    split at h
    · obtain ⟨next, h1, h2⟩ := bind_ok h
      have hstart : Traced eras maxTransactionsSize b pool a.pending
          { a with assemblyState := .noProgress, pending := [] } :=
        ⟨ht.run, by simpa using ht.within, ht.dropped, nofun⟩
      exact ih (hstart.round h1) h2
    · cases h
      exact ht

end Assembly

variable {s : LedgerState} {pending : List SignedOps} {eras : EraScheduledConfig}
  {maxTransactions maxTransactionsSize : Nat}

theorem assemble_traced {a : Assembly} (h : assemble s pending eras = .ok a) :
    a.Traced eras (configForSlot eras s.slot).maxTransactionsSize (.new s) pending [] := by
  have hstart : Assembly.Traced eras (configForSlot eras s.slot).maxTransactionsSize (.new s) pending
      [] (.start s pending) :=
    ⟨.nil _, by simp [Assembly.start, List.Subperm.refl], nofun, nofun⟩
  exact hstart.rounds h

/-- The selected transactions are pending ones and can be added one after the other. -/
theorem selectTransactions_run {sel : TransactionSelection}
    (h : selectTransactions s pending eras = .ok sel) : sel.selectedTxs.Subperm pending ∧
      ∃ b, Run (BlockBuilder.Adds eras) (.new s) sel.selectedTxs b ∧
        b.ledgerState = sel.ledgerState := by
  obtain ⟨a, h1, h2⟩ := bind_ok h
  cases h2
  have ht := assemble_traced h1
  refine ⟨?_, a.blockBuilder, ht.run.mono fun _ _ _ htakes => htakes.2, rfl⟩
  have hwithin := ht.within
  rw [List.append_nil] at hwithin
  exact (List.sublist_append_left _ _).subperm.trans hwithin

theorem takeForBlock_isPrefix (txs : List SignedOps) (count size : Nat) :
    takeForBlock maxTransactions maxTransactionsSize count size txs <+: txs := by
  induction txs generalizing count size with
  | nil => exact List.prefix_rfl
  | cons tx txs ih =>
    grind [takeForBlock]

theorem takeForBlock_bounds (txs : List SignedOps) (count size : Nat)
    (hcount : count ≤ maxTransactions) (hsize : size ≤ maxTransactionsSize) :
    count + (takeForBlock maxTransactions maxTransactionsSize count size txs).length ≤
        maxTransactions ∧
      size + ((takeForBlock maxTransactions maxTransactionsSize count size txs).map
        SignedOps.storageSize).sum ≤ maxTransactionsSize := by
  induction txs generalizing count size with
  | nil => simpa [takeForBlock] using ⟨hcount, hsize⟩
  | cons tx txs ih =>
    unfold takeForBlock
    split
    · split
      · simpa using ⟨hcount, hsize⟩
      · rename_i hlt _ next hnext
        have hsum := (checkedAdd_eq_some.mp hnext).1
        split
        · simpa using ⟨hcount, hsize⟩
        · grind
    · simpa using ⟨hcount, hsize⟩

/-- The block takes the first of the transactions, within both limits; the `expect` holds. -/
theorem txsForBlock_spec (txs : List SignedOps) :
    ∃ block, txsForBlock txs maxTransactions maxTransactionsSize = .ok block ∧
      block.txs <+: txs ∧ (block.txs.map SignedOps.storageSize).sum ≤ maxTransactionsSize := by
  obtain ⟨hcount, hsize⟩ := takeForBlock_bounds txs 0 0 (Nat.zero_le maxTransactions)
    (Nat.zero_le maxTransactionsSize)
  rw [Nat.zero_add] at hcount hsize
  refine ⟨⟨_, hcount⟩, ?_, takeForBlock_isPrefix txs 0 0, hsize⟩
  rw [txsForBlock, BlockTransactions.tryNew, dif_pos hcount]
  rfl

end

end Logos.Chain
