import LogosChain.Ledger.Config
import LogosChain.Merkle.Mmr

/-!
# The rewards of the leaders (`ledger/src/mantle/leader.rs`)

At the start of an epoch the vouchers so far become claimable, and the rewards that the epoch before
has collected are added to the pool. A claim takes an equal share of the pool for each voucher that
is not claimed.
-/

namespace Logos.Ledger

open Base Mantle

/-- Why the leaders cannot enter an epoch. -/
inductive LeaderError where
  | invalidEpoch (current incoming : Nat)
deriving DecidableEq, Repr

/-- The root and the number of the vouchers that may be claimed. -/
structure VouchersSnapshot where
  root : RewardsRoot
  count : Nat
deriving DecidableEq, Repr

/-- The vouchers of the leaders and their rewards. -/
structure LeaderState where
  epoch : Nat
  vouchersSnapshot : VouchersSnapshot
  /-- The nullifiers of the claimed vouchers. -/
  nfs : Finset VoucherNullifier
  claimableRewards : Nat
  pendingRewards : Nat
  vouchers : MerkleMountainRange Fr

namespace LeaderState

def new : LeaderState := ⟨0, ⟨0, 0⟩, ∅, 0, 0, .empty⟩

variable [Primitives]

def addPendingRewards (s : LeaderState) (rewards : Nat) : LeaderState :=
  { s with pendingRewards := wrappingAdd 64 s.pendingRewards rewards }

/-- Adds the voucher of a block. -/
def addVoucher {ε : Type} (s : LeaderState) (voucherCm : VoucherCm) : Result ε LeaderState := do
  let vouchers ← expect (s.vouchers.push Primitives.compress voucherCm) .vouchersFull
  return { s with vouchers := vouchers }

/-- All vouchers so far may be claimed. -/
def snapshotVouchers (s : LeaderState) : LeaderState :=
  { s with vouchersSnapshot :=
      ⟨s.vouchers.frontierRoot Primitives.compress 0, s.vouchers.len⟩ }

/-- Adds the rewards of the last epoch to the pool. -/
def updateClaimableRewards (s : LeaderState) : LeaderState :=
  { s with
    claimableRewards := wrappingAdd 64 s.claimableRewards s.pendingRewards
    pendingRewards := 0 }

/-- Enters an epoch. -/
def updateEpochState (s : LeaderState) (epoch : Nat) : Except LeaderError LeaderState :=
  if epoch = s.epoch then .ok s
  else if epoch < s.epoch then .error (.invalidEpoch s.epoch epoch)
  else .ok { s.snapshotVouchers.updateClaimableRewards with epoch := epoch }

/-- Enters the epoch of a header and adds its voucher. -/
def tryApplyHeader (s : LeaderState) (epoch : Nat) (voucherCm : VoucherCm) :
    Result LeaderError LeaderState := do
  let s ← lift id (s.updateEpochState epoch)
  s.addVoucher voucherCm

/-- The reward of one voucher. -/
def rewardAmount (s : LeaderState) : Nat :=
  (checkedDiv s.claimableRewards (s.vouchersSnapshot.count - s.nfs.card)).getD 0

omit [Primitives] in
theorem rewardAmount_le (s : LeaderState) : s.rewardAmount ≤ s.claimableRewards := by
  unfold rewardAmount checkedDiv
  split
  · exact Nat.zero_le _
  · exact Nat.div_le_self _ _

end LeaderState

end Logos.Ledger
