import LogosChain.Base.Retain
import LogosChain.Ledger.Anchors
import LogosChain.Ledger.Registry
import Mathlib.Logic.Equiv.List

/-!
# Solved puzzles pay once (`ledger/src/mantle/pow`, `core/src/mantle/ops/pow.rs`)

The ledger remembers a solved puzzle, and the block it is anchored to, only for the window of the
block. Here it runs beside one that never forgets (`keepSeenBlock`), which has the same blocks and
puzzles in their windows (`Unpruned`). So both judge every claim alike, but for the reason they give
when its block is too old.
-/

namespace Logos

open Base

namespace Ledger

open Mantle

/-! ## What the ledger does without anchors -/

def PowState.withAnchors (p : PowState) (blockSlots : Map Hash Nat)
    (powNullifiers : Map PowNullifier Nat) : PowState :=
  { p with reward := { p.reward with nullifiers := powNullifiers, blockSlots := blockSlots } }

section

variable {s s' : LedgerState} {eras : EraScheduledConfig} {config : Config}
  (blockSlots : Map Hash Nat) (powNullifiers : Map PowNullifier Nat)

theorem PowState.tryApplyHeader_withAnchors {p p' : PowState} {previousEpoch nextEpoch : Nat}
    (h : p.tryApplyHeader previousEpoch nextEpoch config = .ok p') :
    (p.withAnchors blockSlots powNullifiers).tryApplyHeader previousEpoch nextEpoch config =
        .ok (p'.withAnchors blockSlots powNullifiers) ∧
      p'.reward.blockSlots = p.reward.blockSlots ∧ p'.reward.nullifiers = p.reward.nullifiers := by
  unfold PowState.tryApplyHeader at h ⊢
  split at h
  · grind
  · rename_i hlt
    obtain ⟨p1, h1, h2⟩ := bind_ok h
    cases h2
    obtain ⟨pool, h3, h4⟩ := bind_ok h1
    cases h4
    rw [if_neg hlt]
    exact ⟨ok_bind (ok_bind h3 rfl) rfl, rfl, rfl⟩

namespace LedgerState

/-- A header is applied alike whatever the puzzles are. -/
theorem tryApplyHeader_withAnchors [Primitives] {h : Header} {events : List HeaderEvent}
    (hh : s.tryApplyHeader h eras = .ok (s', events)) :
    (s.withAnchors blockSlots powNullifiers).tryApplyHeader h eras =
        .ok (s'.withAnchors blockSlots powNullifiers, events) ∧
      s'.blockSlots = s.blockSlots ∧ s'.powNullifiers = s.powNullifiers := by
  obtain ⟨l, h1, h2⟩ := bind_ok hh
  obtain ⟨⟨m, effect⟩, h3, h4⟩ := bind_ok h2
  obtain ⟨_, h5, h6⟩ := bind_ok h4
  cases h6
  obtain ⟨leaders, h7, h8⟩ := bind_ok (wrap_ok.mp h3)
  obtain ⟨⟨sdp, _⟩, h9, h10⟩ := bind_ok h8
  obtain ⟨pow, h11, h12⟩ := bind_ok h10
  cases h12
  obtain ⟨hpow, hb, hn⟩ :=
    PowState.tryApplyHeader_withAnchors blockSlots powNullifiers (lift_ok.mp h11)
  exact ⟨ok_bind h1 (ok_bind (wrap_ok.mpr (ok_bind h7 (ok_bind h9 (ok_bind (lift_ok.mpr hpow) rfl))))
    (ok_bind h5 rfl)), hb, hn⟩

theorem settleBlock_withAnchors {g : GasAndFees} (h : s.settleBlock g config = .ok s') :
    (s.withAnchors blockSlots powNullifiers).settleBlock g config =
        .ok (s'.withAnchors blockSlots powNullifiers) ∧
      s'.blockSlots = s.blockSlots ∧ s'.powNullifiers = s.powNullifiers := by
  obtain ⟨s1, h1, h2⟩ := bind_ok h
  obtain ⟨l, h3, h4⟩ := bind_ok h2
  cases h4
  obtain ⟨pooled, h5, h6⟩ := bind_ok h1
  obtain ⟨reward, h7, h8⟩ := bind_ok h6
  obtain ⟨pow, h9, h10⟩ := bind_ok h8
  cases h10
  obtain ⟨refill, h11, h12⟩ := bind_ok (lift_ok.mp h9)
  cases h12
  exact ⟨ok_bind (ok_bind h5 (ok_bind h7 (ok_bind (lift_ok.mpr (ok_bind h11 rfl)) rfl)))
    (ok_bind h3 rfl), rfl, rfl⟩

theorem recordBlock_withAnchors {numTxs claims : Nat}
    (h : s.recordBlock numTxs claims config = .ok s') :
    (s.withAnchors blockSlots powNullifiers).recordBlock numTxs claims config =
        .ok (s'.withAnchors blockSlots powNullifiers) ∧
      s'.blockSlots = s.blockSlots ∧ s'.powNullifiers = s.powNullifiers := by
  obtain ⟨pow, h1, h2⟩ := bind_ok h
  cases h2
  obtain ⟨density, h3, h4⟩ := bind_ok h1
  cases h4
  exact ⟨ok_bind (ok_bind h3 rfl) rfl, rfl, rfl⟩

end LedgerState

end

/-! ## A ledger that never forgets -/

namespace LedgerState

/-- How a ledger records a block that it applies. -/
abbrev Recording := LedgerState → Hash → Nat → LedgerState

/-- Records a block and forgets what is too old, as the ledger does. -/
def pruning (eras : EraScheduledConfig) : Recording := fun s id slot => s.addSeenBlock id slot eras

/-- Records a block: `add_seen_block` without its pruning. -/
def keepSeenBlock : Recording := fun s id slot =>
  s.withPow (s.mantleLedger.pow.addSeenBlockSlots id slot)

variable [Primitives]

/-- `try_update` with a way of recording the block. -/
def tryUpdateWith (record : Recording) (s : LedgerState) (blockId : Hash) (h : Header)
    (txs : List SignedOps) (eras : EraScheduledConfig) :
    Result LedgerError (LedgerState × List Event × DeferredProofs) := do
  let (s, headerEvents) ← s.tryApplyHeader h eras
  let s := record s blockId h.slot
  let (s, txEvents, deferred) ← s.tryApplyBlockContents eras txs
  let s ← s.recordBlock txs.length (txEvents.countP isPowRewardClaimed)
    (configForSlot eras h.slot)
  return (s, headerEvents.map .header ++ txEvents.map .tx, deferred)

theorem tryUpdateWith_pruning (s : LedgerState) (id : Hash) (h : Header) (txs : List SignedOps)
    (eras : EraScheduledConfig) :
    tryUpdateWith (pruning eras) s id h txs eras = s.tryUpdate id h txs eras := rfl

/-- Blocks, with another way to record them. -/
def applyBlocksWith (record : Recording) (eras : EraScheduledConfig) (s : LedgerState)
    (bs : List Block) : Result LedgerError LedgerState :=
  bs.foldlM (fun s b => do
    let (s, _, _) ← tryUpdateWith record s b.id b.header b.txs eras
    return s) s

/-- The state that an operation of a block is checked against. -/
def checkedAgainst (record : Recording) (eras : EraScheduledConfig) (s : LedgerState) (blockId : Hash)
    (h : Header) (txs : List SignedOps) (txHash : TxHash) (ops : List SignedOp) :
    Result LedgerError LedgerState := do
  let (s, _) ← s.tryApplyHeader h eras
  let s := record s blockId h.slot
  let config := configForSlot eras s.slot
  let b ← txs.zipIdx.foldlM (BlockRun.step eras config) (.start s)
  let r ← ops.zipIdx.foldlM (TxRun.step eras config txHash) (.start b.state)
  return r.state

end LedgerState

end Ledger

/-! ## Tickets -/

namespace Mantle

variable [Primitives]

/-- The ticket that an operation claims. -/
def SignedOp.ticket? : SignedOp → Option PowNullifier
  | .claimPowReward op => some op.getPuzzleTicket
  | _ => none

/-- Of some claims, those with one ticket have one block in the field. -/
def TicketsApart (used : Set ClaimPowRewardOp) : Prop :=
  ∀ op ∈ used, ∀ op' ∈ used, op.getPuzzleTicket = op'.getPuzzleTicket →
    frFromModBytes op.blockHash = frFromModBytes op'.blockHash

/-- If an operation is a claim, it is one of some claims. -/
def SignedOp.ClaimsIn (used : Set ClaimPowRewardOp) : SignedOp → Prop
  | .claimPowReward op => op ∈ used
  | _ => True

end Mantle

namespace Ledger

open Mantle

section

variable [Primitives]

/-- The tickets that the blocks of a chain claim. -/
def tickets (bs : List Block) : List PowNullifier :=
  bs.flatMap fun b => b.txs.flatMap fun tx => tx.ops.filterMap SignedOp.ticket?

/-! ## The two ledgers -/

/-- A block at a slot is in the window of its era. -/
abbrev InWindow (eras : EraScheduledConfig) (current slot : Nat) : Prop :=
  isWithinSlotWindow slot current (powSlotWindows eras) = true

omit [Primitives] in
theorem InWindow.mono {eras : EraScheduledConfig} {current current' slot : Nat}
    (h : InWindow eras current' slot) (hle : current ≤ current') : InWindow eras current slot := by
  have h' := of_decide_eq_true h
  exact decide_eq_true (by omega)

/-- A ledger and the one that never forgets, after `ids` and the tickets `log`. -/
structure Unpruned (used : Set ClaimPowRewardOp) (eras : EraScheduledConfig) (ids : List Hash)
    (log : List PowNullifier) (s u : LedgerState) : Prop where
  twin : s.Twin u
  blockSlots : Retains (InWindow eras s.slot) u.blockSlots s.blockSlots
  nullifiers : Retains (InWindow eras s.slot) u.powNullifiers s.powNullifiers
  recorded : ∀ id slot, u.blockSlots.lookup id = some slot → id ∈ ids
  /-- A solved puzzle has the slot of the block that it is anchored to. -/
  anchored : ∀ n slot, u.powNullifiers.lookup n = some slot → ∃ op ∈ used,
    op.getPuzzleTicket = n ∧ u.blockSlots.lookup op.blockHash = some slot
  solved : ∀ n ∈ log, u.powNullifiers.lookup n ≠ none
  nodup : log.Nodup

namespace Unpruned

variable {used : Set ClaimPowRewardOp} {eras : EraScheduledConfig} {ids : List Hash}
  {log : List PowNullifier} {s s' u : LedgerState} {op : ClaimPowRewardOp}

/-- A step that changes nothing that puzzles read. -/
theorem of_same (h : Unpruned used eras ids log s u) (hslot : s.slot ≤ s'.slot)
    (hb : s'.blockSlots = s.blockSlots) (hn : s'.powNullifiers = s.powNullifiers) :
    Unpruned used eras ids log s' (s'.withAnchors u.blockSlots u.powNullifiers) where
  twin := rfl
  blockSlots := by
    rw [hb]
    exact h.blockSlots.mono fun _ hw => hw.mono hslot
  nullifiers := by
    rw [hn]
    exact h.nullifiers.mono fun _ hw => hw.mono hslot
  recorded := h.recorded
  anchored := h.anchored
  solved := h.solved
  nodup := h.nodup

/-- If the block of a claim is in its window, both ledgers know whether its puzzle is solved. -/
theorem nullifiers_eq (h : Unpruned used eras ids log s u) (hhash : TicketsApart used)
    (hids : (ids.map frFromModBytes).Nodup) (hop : op ∈ used) {slot : Nat}
    (hs : s.blockSlots.lookup op.blockHash = some slot) (hw : InWindow eras s.slot slot) :
    s.powNullifiers.lookup op.getPuzzleTicket = u.powNullifiers.lookup op.getPuzzleTicket := by
  apply h.nullifiers.lookup_eq
  intro slot' hn
  obtain ⟨op', hop', hticket, hs'⟩ := h.anchored _ _ hn
  have hu := h.blockSlots.sub _ _ hs
  have hblock := List.inj_on_of_nodup_map hids (h.recorded _ _ hs') (h.recorded _ _ hu)
    (hhash op' hop' op hop hticket)
  grind

omit [Primitives] in
/-- The window of the check is the window of the pruning. -/
theorem inWindow_of_accept (h : (s.helper eras).claimContext.acceptClaim op.blockHash = .ok ()) :
    ∃ slot, s.blockSlots.lookup op.blockHash = some slot ∧ InWindow eras s.slot slot := by
  obtain ⟨slot, hs, -, hw⟩ := ClaimPowRewardOp.VerificationContext.acceptClaim_ok.mp h
  exact ⟨slot, hs, decide_eq_true hw⟩

section

variable (h : Unpruned used eras ids log s u) (hhash : TicketsApart used)
  (hids : (ids.map frFromModBytes).Nodup)
include h hhash hids

/-- A claim on a block that both ledgers know, or that none of them knows, is judged alike. -/
theorem verify_eq (hop : op ∈ used)
    (hb : u.blockSlots.lookup op.blockHash = s.blockSlots.lookup op.blockHash) :
    op.verify (u.helper eras).claimContext = op.verify (s.helper eras).claimContext := by
  obtain ⟨b, n, rfl⟩ : ∃ b n, u = s.withAnchors b n := ⟨_, _, h.twin⟩
  refine ClaimPowRewardOp.verify_congr (c := (s.helper eras).claimContext) hb fun haccept => ?_
  obtain ⟨slot, hs, hw⟩ := inWindow_of_accept haccept
  exact (h.nullifiers_eq hhash hids hop hs hw).symm

/-- Both accept the same claims, and refuse alike unless the block is out of its window. -/
theorem verify_claim (hop : op ∈ used) :
    op.verify (s.helper eras).claimContext = op.verify (u.helper eras).claimContext ∨
      ∃ slot, ((powSlotWindows eras).atSlot slot).parameters < s.slot - slot ∧
        op.verify (s.helper eras).claimContext = .error (.missingBlock op.blockHash) ∧
        op.verify (u.helper eras).claimContext = .error (.outOfWindowSlot slot s.slot) := by
  by_cases hb : u.blockSlots.lookup op.blockHash = s.blockSlots.lookup op.blockHash
  · exact .inl (h.verify_eq hhash hids hop hb).symm
  · have hnone : s.blockSlots.lookup op.blockHash = none := by
      cases hs : s.blockSlots.lookup op.blockHash with
      | none => rfl
      | some slot =>
        rw [hs] at hb
        exact absurd (h.blockSlots.sub _ _ hs) hb
    obtain ⟨slot, hu⟩ : ∃ slot, u.blockSlots.lookup op.blockHash = some slot := by
      rw [hnone] at hb
      exact Option.ne_none_iff_exists'.mp hb
    have hold : ((powSlotWindows eras).atSlot slot).parameters < s.slot - slot := by
      by_contra hw
      have hkept := h.blockSlots.of_live _ _ hu (decide_eq_true (not_lt.mp hw))
      rw [hnone] at hkept
      cases hkept
    have hmissing : (s.helper eras).claimContext.acceptClaim op.blockHash =
        .error (.missingBlock op.blockHash) :=
      ClaimPowRewardOp.VerificationContext.acceptClaim_missing hnone
    have htooOld : (u.helper eras).claimContext.acceptClaim op.blockHash =
        .error (.outOfWindowSlot slot s.slot) := by
      rw [← h.twin.slot]
      refine ClaimPowRewardOp.VerificationContext.acceptClaim_outOfWindow hu fun _ => ?_
      show _ < u.slot - slot
      rw [h.twin.slot]
      exact hold
    -- The checks before that of the block read neither map.
    have hs := ClaimPowRewardOp.verify_of_refused hmissing
    have hu' : op.verify (u.helper eras).claimContext = (do
        (s.helper eras).claimContext.arePowRewardEnabled
        (s.helper eras).claimContext.validateEpochNonce op.epochNonce
        .error (.outOfWindowSlot slot s.slot)) := by
      rw [ClaimPowRewardOp.verify_of_refused htooOld, h.twin]
      rfl
    rw [hs, hu']
    cases (s.helper eras).claimContext.arePowRewardEnabled with
    | error e => exact .inl rfl
    | ok =>
      cases (s.helper eras).claimContext.validateEpochNonce op.epochNonce with
      | error e => exact .inl rfl
      | ok => exact .inr ⟨slot, hold, rfl, rfl⟩

end

/-! ## Steps of both ledgers -/

section

variable {id : Hash} {h : Header} {op : SignedOp} {opIndex : Nat} {config : Config} {txHash : TxHash}
  {balance balance' : Int} {deferred : DeferredProofs} {events : List TxEvent}

theorem header {events : List HeaderEvent} (hr : Unpruned used eras ids log s u)
    (hh : s.tryApplyHeader h eras = .ok (s', events)) :
    ∃ u', u.tryApplyHeader h eras = .ok (u', events) ∧ Unpruned used eras ids log s' u' := by
  have hslot := (Step.header hh).slot
  obtain ⟨hu, hb, hn⟩ :=
    LedgerState.tryApplyHeader_withAnchors u.blockSlots u.powNullifiers hh
  refine ⟨_, ?_, hr.of_same (hslot.1.le.trans hslot.2.ge) hb hn⟩
  rw [hr.twin]
  exact hu

/-- A new block is recorded, and one of the ledgers forgets. -/
theorem seen (hr : Unpruned used eras ids log s u) (hid : id ∉ ids) :
    Unpruned used eras (ids ++ [id]) log (s.addSeenBlock id s.slot eras) (u.keepSeenBlock id s.slot) where
  twin := by
    obtain ⟨b, n, rfl⟩ : ∃ b n, u = s.withAnchors b n := ⟨_, _, hr.twin⟩
    rfl
  blockSlots := (hr.blockSlots.insert id s.slot).filter fun _ _ hw => hw
  nullifiers := hr.nullifiers.filter fun _ _ hw => hw
  recorded := by
    intro id' slot hs
    rcases Map.lookup_insert_some.mp hs with ⟨rfl, -⟩ | ⟨-, hs⟩
    · exact List.mem_append_right _ List.mem_cons_self
    · exact List.mem_append_left _ (hr.recorded id' slot hs)
  anchored := by
    intro n slot hn
    obtain ⟨op, hop, hticket, hs⟩ := hr.anchored n slot hn
    have hne : op.blockHash ≠ id := fun he => hid (he ▸ hr.recorded _ _ hs)
    exact ⟨op, hop, hticket, Map.lookup_insert_some.mpr (.inr ⟨hne, hs⟩)⟩
  solved := hr.solved
  nodup := hr.nodup

variable (hhash : TicketsApart used) (hids : (ids.map frFromModBytes).Nodup)
include hhash hids

/-- Both ledgers accept the claim, and its ticket is new. -/
theorem apply_claim {op : ClaimPowRewardOp} (hr : Unpruned used eras ids log s u) (hop : op ∈ used)
    (hv : op.verify (s.helper eras).claimContext = .ok ())
    (ha : s.applyClaimPow op txHash = .ok (s', events)) (hslot : s'.slot = s.slot) :
    op.verify (u.helper eras).claimContext = .ok () ∧
      ∃ u', u.applyClaimPow op txHash = .ok (u', events) ∧
        Unpruned used eras ids (log ++ [op.getPuzzleTicket]) s' u' := by
  obtain ⟨slot, hs, -, hw⟩ := ClaimPowRewardOp.verify_anchor hv
  have hb := hr.blockSlots.sub _ _ hs
  have hvu := (hr.verify_eq hhash hids hop (hb.trans hs.symm)).trans hv
  have hnew : u.powNullifiers.lookup op.getPuzzleTicket = none :=
    (hr.nullifiers_eq hhash hids hop hs (decide_eq_true hw)).symm.trans
      (ClaimPowRewardOp.verify_new hv)
  obtain ⟨b, n, rfl⟩ : ∃ b n, u = s.withAnchors b n := ⟨_, _, hr.twin⟩
  obtain ⟨hu, hblocks, hnullifiers⟩ := LedgerState.applyClaimPow_withAnchors ha hs hb
  refine ⟨hvu, _, hu, rfl, ?_, ?_, hr.recorded, ?_, ?_, ?_⟩
  · rw [hblocks, hslot]
    exact hr.blockSlots
  · rw [hnullifiers, hslot]
    exact hr.nullifiers.insert _ _
  · intro m slot' hm
    rcases Map.lookup_insert_some.mp hm with ⟨rfl, rfl⟩ | ⟨-, hm⟩
    · exact ⟨op, hop, rfl, hb⟩
    · exact hr.anchored m slot' hm
  · intro m hm
    show (n.insert op.getPuzzleTicket slot).lookup m ≠ none
    rw [Map.lookup_insert_ite]
    split
    · exact Option.some_ne_none slot
    · rename_i hne
      rcases List.mem_append.mp hm with hm | hm
      · exact hr.solved m hm
      · exact absurd (List.mem_singleton.mp hm) hne
  · grind [nodup, solved]

/-- Both ledgers accept an operation. -/
theorem apply_op (hr : Unpruned used eras ids log s u) (hclaim : op.ClaimsIn used)
    (hv : op.verify opIndex txHash (s.helper eras) = .ok deferred)
    (ha : s.tryApplyOp op config txHash balance = .ok (s', balance', events)) :
    op.verify opIndex txHash (u.helper eras) = .ok deferred ∧
      ∃ u', u.tryApplyOp op config txHash balance = .ok (u', balance', events) ∧
        Unpruned used eras ids (log ++ op.ticket?.toList) s' u' := by
  have hslot : s'.slot = s.slot := by
    rw [LedgerState.slot, (OpEffect.of_apply hv ha).cryptarchia]
    rfl
  cases hop : op.anchor with
  | none =>
    have hticket : op.ticket? = none := by
      cases op with
      | claimPowReward => cases hop
      | _ => rfl
    obtain ⟨b, n, rfl⟩ : ∃ b n, u = s.withAnchors b n := ⟨_, _, hr.twin⟩
    obtain ⟨hu, hpow⟩ := LedgerState.tryApplyOp_withAnchors hop ha
    refine ⟨(LedgerState.verify_withAnchors hop).trans hv, _, hu, ?_⟩
    rw [hticket, Option.toList_none, List.append_nil]
    refine hr.of_same hslot.ge ?_ ?_
    · rw [LedgerState.blockSlots, hpow]
      rfl
    · rw [LedgerState.powNullifiers, hpow]
      rfl
  | some anchor =>
    cases op with
    | claimPowReward op =>
      obtain ⟨_, hv1, hv2⟩ := bind_ok hv
      obtain ⟨⟨_, _⟩, h1, h2⟩ := bind_ok ha
      cases hv2
      cases h2
      obtain ⟨hvu, u', hu, hr'⟩ := hr.apply_claim hhash hids hclaim (lift_ok.mp hv1) h1 hslot
      exact ⟨ok_bind (lift_ok.mpr hvu) rfl, u', ok_bind hu rfl, hr'⟩
    | _ => cases hop

theorem simulates : LedgerState.Simulates eras (SignedOp.ClaimsIn used)
    fun past => Unpruned used eras ids (log ++ past.filterMap SignedOp.ticket?) where
  twin := twin
  apply_op {past s s' u op} _ _ _ _ _ _ _ hr hclaim hv ha := by
    have hlast : [op].filterMap SignedOp.ticket? = op.ticket?.toList := by
      rw [List.filterMap_cons]
      cases op.ticket? <;> rfl
    rw [List.filterMap_append, ← List.append_assoc, hlast]
    exact hr.apply_op hhash hids hclaim hv ha

end

/-! ## Blocks -/

section

variable {id : Hash} {h : Header} {txs : List SignedOps}

omit [Primitives] in
theorem nodup_snoc (hid : ((ids ++ [id]).map frFromModBytes).Nodup) :
    (ids.map frFromModBytes).Nodup ∧ id ∉ ids := by grind

theorem begin_block {events : List HeaderEvent} (hr : Unpruned used eras ids log s u) (hid : id ∉ ids)
    (hh : s.tryApplyHeader h eras = .ok (s', events)) :
    ∃ u', u.tryApplyHeader h eras = .ok (u', events) ∧
      Unpruned used eras (ids ++ [id]) log (s'.addSeenBlock id h.slot eras)
        (u'.keepSeenBlock id h.slot) := by
  obtain ⟨u', hu, hr'⟩ := hr.header hh
  refine ⟨u', hu, ?_⟩
  rw [← (Step.header hh).slot.2]
  exact hr'.seen hid

variable (hhash : TicketsApart used)
include hhash

/-- Both ledgers accept a block. -/
theorem tryUpdate {events : List Event} {deferred : DeferredProofs}
    (hids : ((ids ++ [id]).map frFromModBytes).Nodup)
    (hclaims : ∀ tx ∈ txs, ∀ op ∈ tx.ops, op.ClaimsIn used) (hr : Unpruned used eras ids log s u)
    (hs : s.tryUpdate id h txs eras = .ok (s', events, deferred)) :
    ∃ u', LedgerState.tryUpdateWith LedgerState.keepSeenBlock u id h txs eras =
        .ok (u', events, deferred) ∧ Unpruned used eras (ids ++ [id])
          (log ++ txs.flatMap fun tx => tx.ops.filterMap SignedOp.ticket?) s' u' := by
  obtain ⟨⟨s1, headerEvents⟩, h1, h2⟩ := bind_ok hs
  obtain ⟨⟨s2, txEvents, _⟩, h3, h4⟩ := bind_ok h2
  obtain ⟨s3, h5, h6⟩ := bind_ok h4
  cases h6
  obtain ⟨u1, hu1, hr1⟩ := hr.begin_block (nodup_snoc hids).2 h1
  obtain ⟨b, h7, h8⟩ := bind_ok h3
  obtain ⟨_, h9, h10⟩ := bind_ok h8
  cases h10
  obtain ⟨q, hq, hrelated⟩ := (simulates hhash hids).apply_transactions (p := [])
    ((List.append_nil log).symm ▸ hr1) hclaims h7
  obtain ⟨v, rfl⟩ : ∃ v, q = { b with state := v } := ⟨_, hrelated.same⟩
  have hr2 : Unpruned used eras (ids ++ [id]) _ b.state v := hrelated.state
  rw [List.nil_append, List.filterMap_flatMap] at hr2
  obtain ⟨hsettle, hb, hn⟩ :=
    LedgerState.settleBlock_withAnchors v.blockSlots v.powNullifiers h9
  obtain ⟨hrecord, hb', hn'⟩ :=
    LedgerState.recordBlock_withAnchors v.blockSlots v.powNullifiers h5
  have hr3 := hr2.of_same (LedgerState.settleBlock_sameNotes h9).slot.ge hb hn
  have hr4 := hr3.of_same (LedgerState.recordBlock_sameNotes h5).slot.ge hb' hn'
  have hcontents : (u1.keepSeenBlock id h.slot).tryApplyBlockContents eras txs =
      .ok (s2.withAnchors v.blockSlots v.powNullifiers, b.events, b.deferredProofs) := by
    unfold LedgerState.tryApplyBlockContents
    rw [hr1.twin.slot]
    refine ok_bind hq (ok_bind ?_ rfl)
    show v.settleBlock _ _ = _
    rw [hr2.twin]
    exact hsettle
  exact ⟨_, ok_bind hu1 (ok_bind hcontents (ok_bind hrecord rfl)), hr4⟩

/-- A chain of blocks that a ledger accepts is accepted by the one that forgets nothing. -/
theorem applyBlocks {bs : List Block} (hids : ((ids ++ bs.map (·.id)).map frFromModBytes).Nodup)
    (hclaims : ∀ b ∈ bs, ∀ tx ∈ b.txs, ∀ op ∈ tx.ops, op.ClaimsIn used)
    (hr : Unpruned used eras ids log s u) (hs : s.applyBlocks eras bs = .ok s') :
    ∃ u', LedgerState.applyBlocksWith LedgerState.keepSeenBlock eras u bs = .ok u' ∧
      Unpruned used eras (ids ++ bs.map (·.id)) (log ++ tickets bs) s' u' := by
  induction bs generalizing s u ids log with
  | nil =>
    rw [foldlM_nil_ok hs]
    exact ⟨u, rfl, by simpa [tickets] using hr⟩
  | cons b bs ih =>
    obtain ⟨s1, h1, h2⟩ := foldlM_cons_ok hs
    obtain ⟨⟨_, events, deferred⟩, h3, h4⟩ := bind_ok h1
    cases h4
    rw [List.map_cons, List.append_cons] at hids ⊢
    rw [tickets, List.flatMap_cons, ← List.append_assoc]
    have hfirst : ((ids ++ [b.id]).map frFromModBytes).Nodup := by grind
    obtain ⟨hclaim, hrest⟩ := List.forall_mem_cons.mp hclaims
    obtain ⟨u1, hu1, hr1⟩ := hr.tryUpdate hhash hfirst hclaim h3
    obtain ⟨u', hu', hr'⟩ := ih hids hrest hr1 h2
    exact ⟨u', ok_bind (ok_bind hu1 rfl) hu', hr'⟩

theorem checkedAgainst {txHash : TxHash} {ops : List SignedOp}
    (hids : ((ids ++ [id]).map frFromModBytes).Nodup)
    (hclaims : ∀ tx ∈ txs, ∀ op ∈ tx.ops, op.ClaimsIn used) (hops : ∀ op ∈ ops, op.ClaimsIn used)
    (hr : Unpruned used eras ids log s u)
    (hs : s.checkedAgainst (.pruning eras) eras id h txs txHash ops = .ok s') :
    ∃ u' log', u.checkedAgainst .keepSeenBlock eras id h txs txHash ops = .ok u' ∧
      Unpruned used eras (ids ++ [id]) log' s' u' := by
  obtain ⟨⟨s1, events⟩, h1, h2⟩ := bind_ok hs
  obtain ⟨b, h3, h4⟩ := bind_ok h2
  obtain ⟨r, h5, h6⟩ := bind_ok h4
  cases h6
  obtain ⟨u1, hu1, hr1⟩ := hr.begin_block (nodup_snoc hids).2 h1
  obtain ⟨q, hq, hrelated⟩ := (simulates hhash hids).apply_transactions (p := [])
    ((List.append_nil log).symm ▸ hr1) hclaims h3
  obtain ⟨p, hp, hrelated'⟩ := (simulates hhash hids).apply_ops hrelated.state hops h5
  have hslot : (u1.keepSeenBlock id h.slot).slot = (LedgerState.pruning eras s1 id h.slot).slot :=
    hr1.twin.slot
  rw [← hslot] at hq hp
  exact ⟨p.state, _, ok_bind hu1 (ok_bind hq (ok_bind hp rfl)), hrelated'.state⟩

end

theorem of_genesis {tx : GenesisTx} {config : Config} {g : LedgerState}
    (hg : LedgerState.fromGenesisTx tx config = .ok g) (first : Hash) :
    Unpruned used eras [first] [] (g.addSeenBlock first g.slot eras) (g.keepSeenBlock first g.slot) := by
  obtain ⟨l, h1, h2⟩ := bind_ok hg
  obtain ⟨sdp, h3, h4⟩ := bind_ok h2
  cases h4
  have hempty : ∀ s : LedgerState, s.blockSlots = ∅ → s.powNullifiers = ∅ →
      Unpruned used eras [] [] s s := by
    intro s hb hn
    refine ⟨rfl, .refl _ _, .refl _ _, fun id slot hs => ?_, fun n slot hs => ?_, nofun,
      List.nodup_nil⟩
    · rw [hb] at hs
      cases hs
    · rw [hn] at hs
      cases hs
  exact (hempty _ rfl rfl).seen List.not_mem_nil

end Unpruned

section

variable {eras : EraScheduledConfig} {tx : GenesisTx} {config : Config} {g s : LedgerState}
  {first : Hash} {bs : List Block}

/-- **A solved puzzle pays once, and pruning shows only in a reason to refuse.** No ticket is
claimed twice, and a ledger that never forgets accepts the same claims and refuses the others for
the same reason, but for blocks that are forgotten. -/
theorem puzzles_pay_once {used : Set ClaimPowRewardOp} (hhash : TicketsApart used)
    (hused : ∀ b ∈ bs, ∀ tx ∈ b.txs, ∀ op ∈ tx.ops, op.ClaimsIn used)
    (hg : LedgerState.fromGenesisTx tx config = .ok g)
    (hids : ((first :: bs.map (·.id)).map frFromModBytes).Nodup)
    (hs : (g.addSeenBlock first g.slot eras).applyBlocks eras bs = .ok s) :
    (tickets bs).Nodup ∧
    ∃ u, (g.keepSeenBlock first g.slot).applyBlocksWith .keepSeenBlock eras bs = .ok u ∧
      ∀ id h txs txHash ops t, frFromModBytes id ∉ (first :: bs.map (·.id)).map frFromModBytes →
        (∀ tx ∈ txs, ∀ op ∈ tx.ops, op.ClaimsIn used) → (∀ op ∈ ops, op.ClaimsIn used) →
        s.checkedAgainst (.pruning eras) eras id h txs txHash ops = .ok t →
        ∃ v, u.checkedAgainst .keepSeenBlock eras id h txs txHash ops = .ok v ∧
          ∀ op ∈ used, (op.verify (t.helper eras).claimContext = .ok () ↔
              op.verify (v.helper eras).claimContext = .ok ()) ∧
            (op.verify (t.helper eras).claimContext ≠ op.verify (v.helper eras).claimContext →
              ∃ slot, ((powSlotWindows eras).atSlot slot).parameters < t.slot - slot ∧
                op.verify (t.helper eras).claimContext = .error (.missingBlock op.blockHash) ∧
                op.verify (v.helper eras).claimContext =
                  .error (.outOfWindowSlot slot t.slot)) := by
  have hstart : Unpruned used eras [first] [] (g.addSeenBlock first g.slot eras)
      (g.keepSeenBlock first g.slot) := .of_genesis hg first
  obtain ⟨u, hu, hr⟩ := hstart.applyBlocks hhash hids hused hs
  refine ⟨hr.nodup, u, hu, fun id h txs txHash ops t hid hclaims hops ht => ?_⟩
  have hall : (([first] ++ bs.map (·.id) ++ [id]).map frFromModBytes).Nodup := by
    rw [List.map_append]
    exact hids.append (List.nodup_singleton _) (by simpa using hid)
  obtain ⟨v, log', hv, hr'⟩ := hr.checkedAgainst hhash hall hclaims hops ht
  refine ⟨v, hv, fun op hop => ?_⟩
  rcases hr'.verify_claim hhash hall hop with heq | ⟨slot, hold, hmissing, htooOld⟩
  · rw [heq]
    exact ⟨Iff.rfl, fun hne => absurd rfl hne⟩
  · grind

end

end

/-! ## An anchor that is forgotten -/

/-- Primitives with a collision-free hash of field elements. -/
@[reducible]
def collisionFree : Primitives := { Primitives.plain with zkHash := Encodable.encode }

def genesisWithPool : GenesisTx := { genesisWithService with powRewardPool := 50 }

def claimOnFirst : ClaimPowRewardOp := ⟨0, 0, 7⟩

def claimBlock : Block :=
  ⟨1, headerAt 1, [⟨0, [.claimPowReward claimOnFirst, .transfer ⟨.single 9002, .empty⟩ 0]⟩]⟩

/-- Both ledgers after the claim, and after the window of its anchor. -/
def afterWindow [Primitives] : Result LedgerError
    (LedgerState × LedgerState × LedgerState × LedgerState × LedgerState) := do
  let eras : EraScheduledConfig := .single .small
  let g ← LedgerState.fromGenesisTx genesisWithPool .small
  let s ← (g.addSeenBlock 0 g.slot eras).applyBlocks eras [claimBlock]
  let u ← (g.keepSeenBlock 0 g.slot).applyBlocksWith .keepSeenBlock eras [claimBlock]
  let t ← s.checkedAgainst (.pruning eras) eras 2 (headerAt 7) [] 0 []
  let v ← u.checkedAgainst .keepSeenBlock eras 2 (headerAt 7) [] 0 []
  return (g, s, u, t, v)

theorem afterWindow_ok [Primitives] {g s u t v : LedgerState}
    (h : afterWindow = .ok (g, s, u, t, v)) :
    LedgerState.fromGenesisTx genesisWithPool .small = .ok g ∧
      (g.addSeenBlock 0 g.slot (.single .small)).applyBlocks (.single .small) [claimBlock] = .ok s ∧
      (g.keepSeenBlock 0 g.slot).applyBlocksWith .keepSeenBlock (.single .small) [claimBlock] =
        .ok u ∧
      s.checkedAgainst (.pruning (.single .small)) (.single .small) 2 (headerAt 7) [] 0 [] = .ok t ∧
      u.checkedAgainst .keepSeenBlock (.single .small) 2 (headerAt 7) [] 0 [] = .ok v := by
  obtain ⟨_, h1, h2⟩ := bind_ok h
  obtain ⟨_, h3, h4⟩ := bind_ok h2
  obtain ⟨_, h5, h6⟩ := bind_ok h4
  obtain ⟨_, h7, h8⟩ := bind_ok h6
  obtain ⟨_, h9, h10⟩ := bind_ok h8
  cases h10
  exact ⟨h1, h3, h5, h7, h9⟩

theorem puzzles_pay_once_afterWindow :
    letI := collisionFree
    ∃ g s t, LedgerState.fromGenesisTx genesisWithPool .small = .ok g ∧
      (g.addSeenBlock 0 g.slot (.single .small)).applyBlocks (.single .small) [claimBlock] = .ok s ∧
      s.checkedAgainst (.pruning (.single .small)) (.single .small) 2 (headerAt 7) [] 0 [] = .ok t ∧
      tickets [claimBlock] = [claimOnFirst.getPuzzleTicket] ∧ (tickets [claimBlock]).Nodup ∧
      claimOnFirst.verify (t.helper (.single .small)).claimContext = .error (.missingBlock 0) := by
  let _ := collisionFree
  obtain ⟨⟨g, s, u, t, v⟩, h, hv⟩ := exists_ok (x := afterWindow)
    (fun r => claimOnFirst.verify (r.2.2.2.1.helper (.single .small)).claimContext ≠
      claimOnFirst.verify (r.2.2.2.2.helper (.single .small)).claimContext) (by decide +kernel)
  obtain ⟨h1, h2, h3, h4, h5⟩ := afterWindow_ok h
  have hhash : TicketsApart {claimOnFirst} := by simp [TicketsApart]
  have hused : ∀ b ∈ [claimBlock], ∀ tx ∈ b.txs, ∀ op ∈ tx.ops, op.ClaimsIn {claimOnFirst} := by
    simp [claimBlock, SignedOp.ClaimsIn]
  obtain ⟨hnodup, u', hu', hsame⟩ := puzzles_pay_once hhash hused h1 (by decide +kernel) h2
  cases hu'.symm.trans h3
  obtain ⟨v', hv', hop⟩ := hsame 2 (headerAt 7) [] 0 [] t (by decide +kernel) nofun nofun h4
  cases hv'.symm.trans h5
  obtain ⟨slot, -, hmissing, -⟩ := (hop claimOnFirst rfl).2 hv
  exact ⟨g, s, t, h1, h2, h4, rfl, hnodup, hmissing⟩

/-- The two ledgers do not give the same reason. -/
theorem pruning_shows_in_reason :
    letI := collisionFree
    Function.Injective Primitives.zkHash ∧ ([0, 1, 2].map frFromModBytes).Nodup ∧
      ∃ g s u t v, LedgerState.fromGenesisTx genesisWithPool .small = .ok g ∧
        (g.addSeenBlock 0 g.slot (.single .small)).applyBlocks (.single .small) [claimBlock] =
          .ok s ∧
        (g.keepSeenBlock 0 g.slot).applyBlocksWith .keepSeenBlock (.single .small) [claimBlock] =
          .ok u ∧
        s.checkedAgainst (.pruning (.single .small)) (.single .small) 2 (headerAt 7) [] 0 [] =
          .ok t ∧
        u.checkedAgainst .keepSeenBlock (.single .small) 2 (headerAt 7) [] 0 [] = .ok v ∧
        claimOnFirst.verify (t.helper (.single .small)).claimContext =
          .error (.missingBlock 0) ∧
        claimOnFirst.verify (v.helper (.single .small)).claimContext =
          .error (.outOfWindowSlot 0 7) := by
  let _ := collisionFree
  obtain ⟨⟨g, s, u, t, v⟩, h, ht, hv⟩ := exists_ok (x := afterWindow)
    (fun r => claimOnFirst.verify (r.2.2.2.1.helper (.single .small)).claimContext =
        .error (.missingBlock 0) ∧
      claimOnFirst.verify (r.2.2.2.2.helper (.single .small)).claimContext =
        .error (.outOfWindowSlot 0 7)) (by decide +kernel)
  obtain ⟨h1, h2, h3, h4, h5⟩ := afterWindow_ok h
  exact ⟨Encodable.encode_injective, by decide +kernel, g, s, u, t, v, h1, h2, h3, h4, h5, ht, hv⟩

end Ledger

end Logos
