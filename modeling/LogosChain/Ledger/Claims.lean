import LogosChain.Base.Shares
import LogosChain.Ledger.Clocks
import Mathlib.Data.List.ReduceOption

/-!
# What the leaders share in an epoch

In an epoch the pool of the leaders and the vouchers that may be claimed are fixed. Only claims of
leaders take from the pool, so the claims of an epoch are the shares of a pool (`Base.shares`).
-/

namespace Logos.Ledger

open Base Mantle LeaderState LedgerState

/-- How many vouchers are left to claim. -/
def LeaderState.unclaimed (l : LeaderState) : Nat := l.vouchersSnapshot.count - l.nfs.card

theorem LeaderState.rewardAmount_eq {l : LeaderState} (h : 0 < l.unclaimed) :
    l.rewardAmount = l.claimableRewards / l.unclaimed := by
  have hne : l.vouchersSnapshot.count - l.nfs.card ≠ 0 := Nat.pos_iff_ne_zero.mp h
  unfold rewardAmount checkedDiv
  rw [if_neg hne]
  rfl

/-- Nothing of what the leaders share changes. -/
structure LeaderState.SameShares (l l' : LeaderState) : Prop where
  snapshot : l'.vouchersSnapshot = l.vouchersSnapshot
  nfs : l'.nfs = l.nfs
  claimable : l'.claimableRewards = l.claimableRewards

theorem LeaderState.SameShares.unclaimed {l l' : LeaderState} (h : l.SameShares l') :
    l'.unclaimed = l.unclaimed := by
  unfold LeaderState.unclaimed
  rw [h.snapshot, h.nfs]

variable [Primitives] {eras : EraScheduledConfig} {s s' : LedgerState}

theorem LeaderState.tryApplyHeader_sameShares {l l' : LeaderState} {epoch : Nat}
    {voucher : VoucherCm} (h : l.tryApplyHeader epoch voucher = .ok l') (he : l'.epoch = l.epoch) :
    l.SameShares l' := by
  have hepoch := (tryApplyHeader_epoch h).2
  obtain ⟨moved, h1, h2⟩ := bind_ok h
  obtain ⟨_, -, h3⟩ := bind_ok h2
  cases h3
  have hmoved := lift_ok.mp h1
  unfold updateEpochState at hmoved
  rw [if_pos (hepoch.symm.trans he)] at hmoved
  cases hmoved
  exact ⟨rfl, rfl, rfl⟩

theorem LedgerState.tryApplyHeader_sameShares {h : Header} {events : List HeaderEvent}
    (hh : s.tryApplyHeader h eras = .ok (s', events))
    (he : s'.mantleLedger.leaders.epoch = s.mantleLedger.leaders.epoch) :
    s.mantleLedger.leaders.SameShares s'.mantleLedger.leaders := by
  obtain ⟨l, effect, hp, -⟩ := tryApplyHeader_ok hh
  exact LeaderState.tryApplyHeader_sameShares hp.leaders he

theorem LedgerState.tryApplyOp_leaders {op : SignedOp} {config : Config} {txHash : TxHash}
    {balance balance' : Int} {events : List TxEvent}
    (hop : ∀ claim proof, op ≠ .leaderClaim claim proof)
    (h : s.tryApplyOp op config txHash balance = .ok (s', balance', events)) :
    s'.mantleLedger.leaders = s.mantleLedger.leaders := by
  cases tryApplyOp_ok h with
  | leaderClaim op proof => exact absurd rfl (hop op proof)
  | _ => rfl

/-- What the leaders share stays the same in an epoch, except by their claims. -/
theorem Step.sameShares {a : Action} (hs : Step eras s a s')
    (ha : ∀ claim proof, a ≠ .operation (.leaderClaim claim proof))
    (he : s'.mantleLedger.leaders.epoch = s.mantleLedger.leaders.epoch) :
    s.mantleLedger.leaders.SameShares s'.mantleLedger.leaders := by
  cases hs with
  | header hh => exact tryApplyHeader_sameShares hh he
  | seen => exact ⟨rfl, rfl, rfl⟩
  | operation hv happly =>
    rw [tryApplyOp_leaders (fun claim proof heq => ha claim proof (heq ▸ rfl)) happly]
    exact ⟨rfl, rfl, rfl⟩
  | settled hs =>
    obtain ⟨pooled, consumed, leaderReward, blendReward, refill, rfl⟩ :=
      settleBlock_ok hs
    exact ⟨rfl, rfl, rfl⟩
  | counted hr =>
    obtain ⟨_, -, h1⟩ := bind_ok hr
    cases h1
    exact ⟨rfl, rfl, rfl⟩

/-- A step in an epoch, with what it pays to a leader. -/
inductive EpochStep (eras : EraScheduledConfig) :
    LedgerState → Option Nat → LedgerState → Prop where
  | claim {s s' : LedgerState} {op : LeaderClaimOp} {proof : LeaderClaimProof} {opIndex : Nat}
      {txHash : TxHash} {opId : Hash} {deferred : DeferredProofs} {balance balance' : Int}
      {nf : VoucherNullifier} {utxo : Utxo}
      (hv : (SignedOp.leaderClaim op proof).verify opIndex txHash (s.helper eras) = .ok deferred)
      (ha : s.tryApplyOp (.leaderClaim op proof) (configForSlot eras s.slot) txHash balance =
        .ok (s', balance', [⟨txHash, opId, .leaderRewardClaimed nf utxo⟩]))
      (hvoucher : 0 < s.mantleLedger.leaders.unclaimed) : EpochStep eras s (some utxo.note.value) s'
  | other {s s' : LedgerState} {a : Action} (hs : Step eras s a s')
      (ha : ∀ claim proof, a ≠ .operation (.leaderClaim claim proof))
      (he : s'.mantleLedger.leaders.epoch = s.mantleLedger.leaders.epoch) :
      EpochStep eras s none s'

theorem EpochStep.paid {v : Nat} (h : EpochStep eras s (some v) s')
    (hb : s.mantleLedger.leaders.claimableRewards < 2 ^ 64) :
    v = s.mantleLedger.leaders.claimableRewards / s.mantleLedger.leaders.unclaimed ∧
      v ≤ s.mantleLedger.leaders.claimableRewards ∧
      s'.mantleLedger.leaders.claimableRewards = s.mantleLedger.leaders.claimableRewards - v ∧
      s'.mantleLedger.leaders.unclaimed + 1 = s.mantleLedger.leaders.unclaimed := by
  cases h with
  | @claim _ op _ _ _ _ _ _ _ _ _ hv ha hvoucher =>
    obtain ⟨_, hverify, -⟩ := bind_ok hv
    obtain ⟨_, hfresh, -⟩ := bind_ok (lift_ok.mp hverify)
    have hnew : op.voucherNullifier ∉ s.mantleLedger.leaders.nfs := failIf_ok.mp hfresh
    cases ha
    have hle := s.mantleLedger.leaders.rewardAmount_le
    refine ⟨rewardAmount_eq hvoucher, hle, wrappingSub_of_le hle hb, ?_⟩
    show s.mantleLedger.leaders.vouchersSnapshot.count -
      (insert op.voucherNullifier s.mantleLedger.leaders.nfs).card + 1 = _
    grind [unclaimed]

theorem EpochStep.shares {paid : List (Option Nat)} (h : Run (EpochStep eras) s paid s')
    (hb : s.mantleLedger.leaders.claimableRewards < 2 ^ 64) :
    paid.reduceOption = Base.shares s.mantleLedger.leaders.claimableRewards
        s.mantleLedger.leaders.unclaimed paid.reduceOption.length ∧
      paid.reduceOption.sum + s'.mantleLedger.leaders.claimableRewards =
        s.mantleLedger.leaders.claimableRewards ∧
      paid.reduceOption.length + s'.mantleLedger.leaders.unclaimed =
        s.mantleLedger.leaders.unclaimed := by
  refine h.history (I := fun paid t =>
    paid.reduceOption = Base.shares s.mantleLedger.leaders.claimableRewards
        s.mantleLedger.leaders.unclaimed paid.reduceOption.length ∧
      paid.reduceOption.sum + t.mantleLedger.leaders.claimableRewards =
        s.mantleLedger.leaders.claimableRewards ∧
      paid.reduceOption.length + t.mantleLedger.leaders.unclaimed =
        s.mantleLedger.leaders.unclaimed) ⟨rfl, Nat.zero_add _, Nat.zero_add _⟩ ?_
  rintro paid t (_ | v) t' ⟨hshares, hsum, hlength⟩ hstep
  · cases hstep with
    | other hs ha he =>
      grind [List.reduceOption_append, List.reduceOption_singleton, Step.sameShares,
        LeaderState.SameShares.claimable, LeaderState.SameShares.unclaimed]
  · obtain ⟨hv, hle, hleft, hcount⟩ := hstep.paid (by omega)
    simp only [List.reduceOption_append, List.reduceOption_singleton, Option.toList_some,
      List.length_append, List.length_singleton, List.sum_append, List.sum_singleton]
    grind [shares_succ]

end Logos.Ledger
