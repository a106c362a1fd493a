import LogosChain.Ledger.Effect

/-!
# Value is conserved

The value that the ledger holds is in notes, in the rewards that leaders may claim and in the pool of
the puzzles. A transaction moves value between them and pays its fees; nothing else is lost or made.
-/

namespace Logos.Ledger

open Base Mantle

/-- The value that the ledger holds. -/
def LedgerState.supply (s : LedgerState) : Nat := s.utxos.value + s.pools

section

variable [Primitives]

namespace TxRun

variable {eras : EraScheduledConfig} {config : Config} {txHash : TxHash} {r r' : TxRun}
  {op : SignedOp × Nat}

/-- The notes that the next operation makes are new. -/
def NextFresh (r : TxRun) (op : SignedOp × Nat) : Prop :=
  r.state.utxos.Fresh (r.state.created op.1)

instance (r : TxRun) (op : SignedOp × Nat) : Decidable (r.NextFresh op) :=
  inferInstanceAs (Decidable (Utxos.Fresh _ _))

/-- A step moves value between the ledger and the balance of the transaction. -/
theorem step_supply (hf : r.NextFresh op) (hb : r.state.mantleLedger.leaders.claimableRewards < 2 ^ 64)
    (h : step eras config txHash r op = .ok r') :
    (r'.state.supply : Int) + r'.balance = r.state.supply + r.balance := by
  have he := step_effect h
  have hx := (he.exchange hf).value
  have hp := he.paid hb
  unfold LedgerState.supply
  omega

theorem step_prices (h : step eras config txHash r op = .ok r') :
    r'.state.getGasPrices = r.state.getGasPrices := by
  unfold LedgerState.getGasPrices
  rw [(step_effect h).cryptarchia]

end TxRun

namespace LedgerState

/-- The notes that the operations of a transaction make are new. -/
def TxFresh (s : LedgerState) (eras : EraScheduledConfig) (tx : SignedOps) : Prop :=
  Along (TxRun.step eras (configForSlot eras s.slot) tx.hash) TxRun.NextFresh (.start s)
    tx.ops.zipIdx

instance (s : LedgerState) (eras : EraScheduledConfig) (tx : SignedOps) :
    Decidable (s.TxFresh eras tx) :=
  inferInstanceAs (Decidable (Along _ _ _ _))

variable {s s' : LedgerState} {eras : EraScheduledConfig} {tx : SignedOps} {r : TxRun}
  {g : GasAndFees} {events : List TxEvent} {deferred : DeferredProofs}

theorem tryApplyTxOperations_supply (hb : s.mantleLedger.leaders.claimableRewards < 2 ^ 64)
    (hf : s.TxFresh eras tx) (h : s.tryApplyTxOperations eras tx = .ok r) :
    (r.state.supply : Int) + r.balance = s.supply ∧ r.state.getGasPrices = s.getGasPrices := by
  obtain ⟨_, -, h1⟩ := bind_ok h
  let I := fun r : TxRun => (r.state.supply : Int) + r.balance = s.supply ∧
    r.state.getGasPrices = s.getGasPrices ∧ r.state.mantleLedger.leaders.claimableRewards < 2 ^ 64
  have hI : I r := by
    refine foldlM_along (I := I) h1 hf ⟨by simp [TxRun.start], rfl, hb⟩ ?_
    intro op _ r r' hr hfresh hstep
    obtain ⟨h1, h2, h3⟩ := hr
    have hs := TxRun.step_supply hfresh h3 hstep
    have hc := (TxRun.step_effect hstep).claimable h3
    grind [TxRun.step_prices]
  exact ⟨hI.1, hI.2.1⟩

/-- A transaction conserves value: what the ledger holds less is what the transaction pays. -/
theorem tryApplyTransaction_conserves (hb : s.supply < 2 ^ 64) (hf : s.TxFresh eras tx)
    (h : s.tryApplyTransaction eras tx = .ok (s', g, events, deferred)) :
    s.supply = s'.supply + g.feeBurned + g.feeTip ∧
      g.feeBurned = g.executionGas * s.getGasPrices.executionBaseGasPrice +
        g.storageGas * s.getGasPrices.storageGasPrice := by
  obtain ⟨r, h1, rfl, -, hfee, hle, htrunc, -⟩ := tryApplyTransaction_ok.mp h
  have hclaimable : s.mantleLedger.leaders.claimableRewards < 2 ^ 64 := by
    unfold supply pools at hb
    omega
  obtain ⟨hsupply, hprices⟩ := tryApplyTxOperations_supply hclaimable hf h1
  -- The balance is worth no more than the ledger held, so the cast keeps it.
  grind [truncate_of_lt]

end LedgerState

end

namespace LedgerState

/-- A state with a note, rewards for one voucher and a pool. -/
def withRewards [Primitives] (claimableRewards : Nat) : LedgerState :=
  (fromUtxos [⟨0, 0, ⟨1001, 7⟩⟩] .small 50 []).withLeaders
    { LeaderState.new with claimableRewards := claimableRewards, vouchersSnapshot := ⟨0, 1⟩ }

def claimThenSpend : SignedOps :=
  ⟨0, [.leaderClaim ⟨0, 5, 7⟩ 0, .transfer ⟨.single 0, .empty⟩ 0]⟩

theorem tryApplyTransaction_conserves_claimThenSpend :
    letI := Primitives.plain
    ∃ s' g events deferred, (withRewards 10).tryApplyTransaction (.single .small) claimThenSpend =
        .ok (s', g, events, deferred) ∧
      (withRewards 10).supply = s'.supply + g.feeBurned + g.feeTip ∧ g = ⟨2, 2, 4, 997⟩ := by
  let _ := Primitives.plain
  obtain ⟨⟨s', g, events, deferred⟩, h, hg⟩ :=
    exists_ok (x := (withRewards 10).tryApplyTransaction (.single .small) claimThenSpend)
      (·.2.1 = ⟨2, 2, 4, 997⟩) (by decide +kernel)
  have hc := tryApplyTransaction_conserves (by decide +kernel) (by decide +kernel) h
  exact ⟨s', g, events, deferred, h, hc.1, hg⟩

def claimThenSpendAll : SignedOps :=
  ⟨0, [.leaderClaim ⟨0, 5, 7⟩ 0, .transfer ⟨.single 88000, .empty⟩ 0,
    .transfer ⟨.single 0, .empty⟩ 0]⟩

/-- A bound on the notes is not enough: a claim may leave a balance that the cast cuts off. -/
theorem tryApplyTransaction_loses_cut_balance :
    letI := Primitives.plain
    (withRewards (2 ^ 64 - 1)).utxos.value < 2 ^ 64 ∧
      (withRewards (2 ^ 64 - 1)).TxFresh (.single .small) claimThenSpendAll ∧
      ∃ s' g events deferred,
        (withRewards (2 ^ 64 - 1)).tryApplyTransaction (.single .small) claimThenSpendAll =
          .ok (s', g, events, deferred) ∧
        (withRewards (2 ^ 64 - 1)).supply = s'.supply + g.feeBurned + g.feeTip + 2 ^ 64 := by
  let _ := Primitives.plain
  refine ⟨by decide +kernel, by decide +kernel, ?_⟩
  obtain ⟨⟨s', g, events, deferred⟩, h, hlost⟩ :=
    exists_ok (x := (withRewards (2 ^ 64 - 1)).tryApplyTransaction (.single .small)
      claimThenSpendAll) (fun r => (withRewards (2 ^ 64 - 1)).supply =
        r.1.supply + r.2.1.feeBurned + r.2.1.feeTip + 2 ^ 64) (by decide +kernel)
  exact ⟨s', g, events, deferred, h, hlost⟩

end LedgerState

end Logos.Ledger
