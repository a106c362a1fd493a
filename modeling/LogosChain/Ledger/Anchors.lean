import LogosChain.Ledger.Effect

/-!
# States that differ in what puzzles are anchored to

The leader that builds a block applies its transactions to a state that does not know the block yet,
and every other node to one that has recorded it and has forgotten old blocks. The two differ in
what puzzles read (`Twin`). Along a relation between such states (`Simulates`) what the first
accepts the second accepts, with the same gas, fees, events and proofs.
-/

namespace Logos

open Base

/-- The block that an operation is anchored to. -/
def Mantle.SignedOp.anchor : Mantle.SignedOp → Option Hash
  | .claimPowReward op => some op.blockHash
  | _ => none

namespace Ledger

open Mantle

namespace LedgerState

def blockSlots (s : LedgerState) : Map Hash Nat := s.mantleLedger.pow.reward.blockSlots

def powNullifiers (s : LedgerState) : Map PowNullifier Nat := s.mantleLedger.pow.reward.nullifiers

def withAnchors (s : LedgerState) (blockSlots : Map Hash Nat)
    (powNullifiers : Map PowNullifier Nat) : LedgerState :=
  let reward :=
    { s.mantleLedger.pow.reward with nullifiers := powNullifiers, blockSlots := blockSlots }
  s.withPow { s.mantleLedger.pow with reward := reward }

/-- Two states that agree but for what puzzles read. -/
def Twin (s t : LedgerState) : Prop := t = s.withAnchors t.blockSlots t.powNullifiers

namespace Twin

variable {s t : LedgerState}

theorem cryptarchiaLedger (h : s.Twin t) : t.cryptarchiaLedger = s.cryptarchiaLedger := by
  rw [h]
  rfl

theorem slot (h : s.Twin t) : t.slot = s.slot := by
  rw [LedgerState.slot, h.cryptarchiaLedger]
  rfl

theorem channels (h : s.Twin t) : t.channels = s.channels := by
  rw [h]
  rfl

theorem getGasPrices (h : s.Twin t) : t.getGasPrices = s.getGasPrices := by
  rw [LedgerState.getGasPrices, h.cryptarchiaLedger]
  rfl

end Twin

/-- Agrees but for what puzzles read, and accepts claims on all but `id`. -/
structure Covers (id : Hash) (eras : EraScheduledConfig) (s t : LedgerState) : Prop where
  same : t = s.withAnchors t.blockSlots t.powNullifiers
  anchors : ∀ h slot, h ≠ id → s.blockSlots.lookup h = some slot → slot ≤ s.slot →
    s.slot - slot ≤ ((powSlotWindows eras).atSlot slot).parameters →
    t.blockSlots.lookup h = some slot
  nullifiers : ∀ n, s.powNullifiers.lookup n = none → t.powNullifiers.lookup n = none

variable (s : LedgerState) (id : Hash)
include s id

theorem blockSlots_addSeenBlock (slot : Nat)
    (eras : EraScheduledConfig) : (s.addSeenBlock id slot eras).blockSlots =
      Map.filter (fun _ anchor => isWithinSlotWindow anchor slot (powSlotWindows eras))
        (s.blockSlots.insert id slot) :=
  rfl

theorem powNullifiers_addSeenBlock (slot : Nat)
    (eras : EraScheduledConfig) : (s.addSeenBlock id slot eras).powNullifiers =
      Map.filter (fun _ anchor => isWithinSlotWindow anchor slot (powSlotWindows eras))
        s.powNullifiers :=
  rfl

theorem covers_addSeenBlock (eras : EraScheduledConfig) :
    s.Covers id eras (s.addSeenBlock id s.slot eras) := by
  refine ⟨rfl, fun h slot hne hs _ hw => ?_, fun n hn => ?_⟩
  · rw [blockSlots_addSeenBlock, Map.lookup_filter_some, Map.lookup_insert_ite, if_neg hne]
    exact ⟨hs, decide_eq_true hw⟩
  · rw [powNullifiers_addSeenBlock, Option.eq_none_iff_forall_ne_some]
    grind [Map.lookup_filter_some]

end LedgerState

variable [Primitives]

namespace LedgerState

variable {s s' t : LedgerState} {id : Hash} {eras : EraScheduledConfig} {op : SignedOp}
  {opIndex : Nat} {config : Config} {txHash : TxHash} {balance balance' : Int}
  {deferred : DeferredProofs} {events : List TxEvent} {blockSlots : Map Hash Nat}
  {powNullifiers : Map PowNullifier Nat}

/-! ## Operations -/

/-- Only a claim of a puzzle reads the recent blocks and the solved puzzles. -/
theorem verify_withAnchors (hop : op.anchor = none) :
    op.verify opIndex txHash ((s.withAnchors blockSlots powNullifiers).helper eras) =
      op.verify opIndex txHash (s.helper eras) := by
  cases op with
  | claimPowReward op => cases hop
  | _ => rfl

/-- An operation without an anchor is executed alike, whatever puzzles read. -/
theorem tryApplyOp_withAnchors (hop : op.anchor = none)
    (h : s.tryApplyOp op config txHash balance = .ok (s', balance', events)) :
    (s.withAnchors blockSlots powNullifiers).tryApplyOp op config txHash balance =
        .ok (s'.withAnchors blockSlots powNullifiers, balance', events) ∧
      s'.mantleLedger.pow = s.mantleLedger.pow := by
  cases op with
  | claimPowReward op => cases hop
  | channelDeposit op proof =>
    obtain ⟨_, h1, h2⟩ := bind_ok h
    obtain ⟨_, h3, h4⟩ := bind_ok h2
    cases h4
    exact ⟨ok_bind h1 (ok_bind h3 rfl), rfl⟩
  | channelInscribe op proof | channelWithdraw op proof | channelTransfer op proof
  | sdpDeclare op proof | sdpWithdraw op proof | sdpActive op proof =>
    obtain ⟨_, h1, h2⟩ := bind_ok h
    cases h2
    exact ⟨ok_bind h1 rfl, rfl⟩
  | channelConfig op proof | leaderClaim op proof =>
    cases h
    exact ⟨rfl, rfl⟩
  | transfer op proof =>
    obtain ⟨_, h1, h2⟩ := bind_ok h
    obtain ⟨_, h3, h4⟩ := bind_ok h2
    obtain ⟨_, h5, h6⟩ := bind_ok h4
    cases h6
    exact ⟨ok_bind h1 (ok_bind h3 (ok_bind h5 rfl)), rfl⟩

/-- A claim is executed alike where its block has one slot. -/
theorem applyClaimPow_withAnchors {op : ClaimPowRewardOp} {slot : Nat}
    (h : s.applyClaimPow op txHash = .ok (s', events))
    (hs : s.blockSlots.lookup op.blockHash = some slot)
    (ht : blockSlots.lookup op.blockHash = some slot) :
    (s.withAnchors blockSlots powNullifiers).applyClaimPow op txHash =
        .ok (s'.withAnchors blockSlots (powNullifiers.insert op.getPuzzleTicket slot), events) ∧
      s'.blockSlots = s.blockSlots ∧
      s'.powNullifiers = s.powNullifiers.insert op.getPuzzleTicket slot := by
  obtain ⟨⟨c, _⟩, h1, h2⟩ := bind_ok h
  cases h2
  obtain ⟨slot', h3, h4⟩ := bind_ok (wrap_ok.mp h1)
  obtain ⟨pool, h5, h6⟩ := bind_ok h4
  cases h6
  have hslot : some slot = some slot' := hs.symm.trans (expect_ok.mp h3)
  cases hslot
  refine ⟨ok_bind (wrap_ok.mpr (ok_bind (expect_ok.mpr ht) (ok_bind h5 rfl))) rfl, rfl, rfl⟩

/-- What a state accepts is accepted by a state that covers it, which covers the state after it. -/
theorem Covers.apply_op (hc : s.Covers id eras t) (hid : op.anchor ≠ some id)
    (hv : op.verify opIndex txHash (s.helper eras) = .ok deferred)
    (h : s.tryApplyOp op config txHash balance = .ok (s', balance', events)) :
    op.verify opIndex txHash (t.helper eras) = .ok deferred ∧
      ∃ t', t.tryApplyOp op config txHash balance = .ok (t', balance', events) ∧
        s'.Covers id eras t' := by
  obtain ⟨blockSlots, powNullifiers, rfl⟩ : ∃ b n, t = s.withAnchors b n := ⟨_, _, hc.same⟩
  have hslot : s'.slot = s.slot := by
    rw [LedgerState.slot, (OpEffect.of_apply hv h).cryptarchia]
    rfl
  cases hop : op.anchor with
  | none =>
    obtain ⟨ht, hpow⟩ := tryApplyOp_withAnchors hop h
    refine ⟨(verify_withAnchors hop).trans hv, _, ht, rfl, ?_, ?_⟩
    · rw [LedgerState.blockSlots, hpow, hslot]
      exact hc.anchors
    · rw [LedgerState.powNullifiers, hpow]
      exact hc.nullifiers
  | some anchor =>
    cases op with
    | claimPowReward op =>
      obtain ⟨_, hv1, hv2⟩ := bind_ok hv
      obtain ⟨⟨_, _⟩, h1, h2⟩ := bind_ok h
      cases hv2
      cases h2
      have hv3 := lift_ok.mp hv1
      -- The claim was accepted, so its block is in the window, where both states have its slot.
      obtain ⟨slot, hs, hle, hw⟩ := ClaimPowRewardOp.verify_anchor hv3
      have hanchor := fun slot => hc.anchors op.blockHash slot fun he => hid (congrArg some he)
      have ht := hanchor slot hs hle hw
      obtain ⟨h3, hb, hn⟩ := applyClaimPow_withAnchors h1 hs ht
      refine ⟨ok_bind (lift_ok.mpr (ClaimPowRewardOp.verify_of hv3 (hc.nullifiers _) hanchor)) rfl,
        _, ok_bind h3 rfl, rfl, ?_, fun n hno => ?_⟩
      · rw [hb, hslot]
        exact hc.anchors
      · rw [hn, Map.lookup_insert_ite] at hno
        show (powNullifiers.insert _ slot).lookup n = none
        rw [Map.lookup_insert_ite]
        split at hno
        · cases hno
        · rename_i hne
          rw [if_neg hne]
          exact hc.nullifiers n hno
    | _ => cases hop

/-- Operations of a kind are executed alike, given those so far. -/
structure Simulates (eras : EraScheduledConfig) (P : SignedOp → Prop)
    (R : List SignedOp → LedgerState → LedgerState → Prop) : Prop where
  twin : ∀ {past : List SignedOp} {s t : LedgerState}, R past s t → s.Twin t
  apply_op : ∀ {past : List SignedOp} {s s' t : LedgerState} {op : SignedOp} {opIndex : Nat}
    {config : Config} {txHash : TxHash} {balance balance' : Int} {deferred : DeferredProofs}
    {events : List TxEvent},
    R past s t → P op → op.verify opIndex txHash (s.helper eras) = .ok deferred →
    s.tryApplyOp op config txHash balance = .ok (s', balance', events) →
    op.verify opIndex txHash (t.helper eras) = .ok deferred ∧
      ∃ t', t.tryApplyOp op config txHash balance = .ok (t', balance', events) ∧
        R (past ++ [op]) s' t'

theorem Covers.simulates (id : Hash) (eras : EraScheduledConfig) :
    Simulates eras (fun op => op.anchor ≠ some id) fun _ => Covers id eras :=
  ⟨Covers.same, Covers.apply_op⟩

end LedgerState

/-! ## Transactions -/

namespace TxRun

/-- Two runs of a transaction that agree but for their states. -/
structure Related (R : LedgerState → LedgerState → Prop) (r q : TxRun) : Prop where
  same : q = { r with state := q.state }
  state : R r.state q.state

end TxRun

namespace LedgerState.Simulates

variable {eras : EraScheduledConfig} {P : SignedOp → Prop} {p : List SignedOp}
  {R : List SignedOp → LedgerState → LedgerState → Prop}
  {s s' t : LedgerState} {config : Config} {txHash : TxHash} {r r' q : TxRun} {tx : SignedOps}
  {g : GasAndFees} {events : List TxEvent} {deferred : DeferredProofs}

variable (hsim : Simulates eras P R)
include hsim

theorem step {op : SignedOp × Nat} (hR : r.Related (R p) q) (hop : P op.1)
    (h : TxRun.step eras config txHash r op = .ok r') :
    ∃ q', TxRun.step eras config txHash q op = .ok q' ∧ r'.Related (R (p ++ [op.1])) q' := by
  obtain ⟨t, rfl⟩ : ∃ t, q = { r with state := t } := ⟨_, hR.same⟩
  obtain ⟨deferred, gas, events, hverify, hgas, hsum, happly, hevents, hdeferred⟩ :=
    TxRun.step_ok h
  obtain ⟨hv, t', ht, hR'⟩ := hsim.apply_op hR.state hop hverify happly
  rw [← (hsim.twin hR.state).channels] at hgas
  refine ⟨_, ok_bind (wrap_ok.mpr hv) (ok_bind (okOr_ok.mpr hgas) (ok_bind (okOr_ok.mpr hsum)
    (ok_bind ht rfl))), ?_, hR'⟩
  rw [← hevents, ← hdeferred]

theorem apply_ops {ops : List SignedOp} (hR : R p s t) (hops : ∀ op ∈ ops, P op)
    (h : ops.zipIdx.foldlM (TxRun.step eras config txHash) (.start s) = .ok r) :
    ∃ q, ops.zipIdx.foldlM (TxRun.step eras config txHash) (.start t) = .ok q ∧
      r.Related (R (p ++ ops)) q := by
  have hstart : (TxRun.start s).Related (R (p ++ [])) (.start t) :=
    ⟨rfl, (List.append_nil p).symm ▸ hR⟩
  have hrun := foldlM_simulates h (p := [])
    (R := fun ops => TxRun.Related (R (p ++ ops.map (·.1)))) hstart
    fun ops op hop r q r' hR hstep => by
      rw [List.map_append, ← List.append_assoc]
      exact hsim.step hR (hops op.1 (List.fst_mem_of_mem_zipIdx hop)) hstep
  rwa [List.nil_append, List.zipIdx_map_fst] at hrun

/-- A transaction is accepted by a related state with the same outcome. -/
theorem apply_transaction (hR : R p s t) (hops : ∀ op ∈ tx.ops, P op)
    (h : s.tryApplyTransaction eras tx = .ok (s', g, events, deferred)) :
    ∃ t', t.tryApplyTransaction eras tx = .ok (t', g, events, deferred) ∧
      R (p ++ tx.ops) s' t' := by
  obtain ⟨r, h1, rfl, rfl, hfee, hle, htrunc, hgas, hsize, rfl⟩ := tryApplyTransaction_ok.mp h
  obtain ⟨_, h2, h3⟩ := bind_ok h1
  obtain ⟨q, hq, hR'⟩ := hsim.apply_ops hR hops h3
  have hrun : t.tryApplyTxOperations eras tx = .ok q := by
    rw [tryApplyTxOperations, (hsim.twin hR).slot]
    exact ok_bind h2 hq
  rw [hR'.same] at hrun
  rw [← (hsim.twin hR'.state).getGasPrices] at hfee
  exact ⟨q.state, tryApplyTransaction_ok.mpr
    ⟨_, hrun, rfl, rfl, hfee, hle, htrunc, hgas, hsize, rfl⟩, hR'.state⟩

end LedgerState.Simulates

/-- Two blocks applied so far that agree but for their states. -/
structure BlockRun.Related (R : LedgerState → LedgerState → Prop) (b q : BlockRun) : Prop where
  same : q = { b with state := q.state }
  state : R b.state q.state

/-- The transactions of a block are accepted by a related state. -/
theorem LedgerState.Simulates.apply_transactions {eras : EraScheduledConfig} {P : SignedOp → Prop}
    {R : List SignedOp → LedgerState → LedgerState → Prop} {p : List SignedOp} {s t : LedgerState}
    {config : Config} {b : BlockRun} {txs : List SignedOps} (hsim : Simulates eras P R)
    (hR : R p s t) (htxs : ∀ tx ∈ txs, ∀ op ∈ tx.ops, P op)
    (h : txs.zipIdx.foldlM (BlockRun.step eras config) (.start s) = .ok b) :
    ∃ q, txs.zipIdx.foldlM (BlockRun.step eras config) (.start t) = .ok q ∧
      b.Related (R (p ++ txs.flatMap (·.ops))) q := by
  have hstart : (BlockRun.start s).Related (R (p ++ [])) (.start t) :=
    ⟨rfl, (List.append_nil p).symm ▸ hR⟩
  have hops : txs.flatMap (·.ops) = (txs.zipIdx.map (·.1)).flatMap (·.ops) := by
    rw [List.zipIdx_map_fst]
  rw [hops]
  refine foldlM_simulates h (p := [])
    (R := fun txs => BlockRun.Related (R (p ++ (txs.map (·.1)).flatMap (·.ops)))) hstart ?_
  intro txs tx htx b q b' hR hstep
  rw [List.map_append, List.flatMap_append, List.map_singleton, List.flatMap_singleton,
    ← List.append_assoc]
  obtain ⟨t, rfl⟩ : ∃ t, q = { b with state := t } := ⟨_, hR.same⟩
  obtain ⟨_, h1, h2⟩ := bind_ok hstep
  obtain ⟨_, h3, h4⟩ := bind_ok h2
  obtain ⟨⟨state, g, events, deferred⟩, h5, h6⟩ := bind_ok h4
  obtain ⟨gasAndFees, h7, h8⟩ := bind_ok h6
  cases h8
  obtain ⟨t', ht, hR'⟩ := hsim.apply_transaction hR.state
    (htxs tx.1 (List.fst_mem_of_mem_zipIdx htx)) h5
  exact ⟨_, ok_bind h1 (ok_bind h3 (ok_bind ht (ok_bind h7 rfl))), rfl, hR'⟩

/-- A transaction is accepted by a state that covers. -/
theorem LedgerState.Covers.apply_transaction {s s' t : LedgerState} {id : Hash}
    {eras : EraScheduledConfig} {tx : SignedOps} {g : GasAndFees} {events : List TxEvent}
    {deferred : DeferredProofs} (hc : s.Covers id eras t) (hid : ∀ op ∈ tx.ops, op.anchor ≠ some id)
    (h : s.tryApplyTransaction eras tx = .ok (s', g, events, deferred)) :
    ∃ t', t.tryApplyTransaction eras tx = .ok (t', g, events, deferred) ∧ s'.Covers id eras t' :=
  (Covers.simulates id eras).apply_transaction (p := []) hc hid h

end Ledger

end Logos
