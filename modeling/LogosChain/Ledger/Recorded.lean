import LogosChain.Ledger.Puzzles

/-!
# States that have recorded their block

A node that starts from a saved state records the block of the state a second time. That changes
nothing: the state has the block at its own slot, and the recent blocks and the solved puzzles are
all in the window.
-/

namespace Logos.Ledger

open Base Mantle

/-- A state that has recorded the block `id` at its slot. -/
structure LedgerState.Recorded (eras : EraScheduledConfig) (id : Hash) (s : LedgerState) : Prop where
  seen : s.blockSlots.lookup id = some s.slot
  blockSlots : ∀ h slot, s.blockSlots.lookup h = some slot → InWindow eras s.slot slot
  nullifiers : ∀ n slot, s.powNullifiers.lookup n = some slot → InWindow eras s.slot slot

namespace LedgerState

variable {eras : EraScheduledConfig} {id : Hash} {s s' : LedgerState}

theorem recorded_addSeenBlock (s : LedgerState) (id : Hash) (eras : EraScheduledConfig) :
    (s.addSeenBlock id s.slot eras).Recorded eras id where
  seen := by
    rw [blockSlots_addSeenBlock, Map.lookup_filter_some, Map.lookup_insert_ite, if_pos rfl]
    exact ⟨rfl, decide_eq_true ((Nat.sub_self s.slot).trans_le (Nat.zero_le _))⟩
  blockSlots h slot hs := by
    rw [blockSlots_addSeenBlock, Map.lookup_filter_some] at hs
    exact hs.2
  nullifiers n slot hs := by
    rw [powNullifiers_addSeenBlock, Map.lookup_filter_some] at hs
    exact hs.2

theorem Recorded.addSeenBlock_eq (h : s.Recorded eras id) : s.addSeenBlock id s.slot eras = s := by
  have hblocks : (s.addSeenBlock id s.slot eras).blockSlots = s.blockSlots := by
    refine Finmap.ext_lookup fun k => Option.ext fun slot => ?_
    grind [blockSlots_addSeenBlock, Map.lookup_filter_some, Map.lookup_insert_ite, blockSlots, seen]
  have hnullifiers : (s.addSeenBlock id s.slot eras).powNullifiers = s.powNullifiers := by
    refine Finmap.ext_lookup fun n => Option.ext fun slot => ?_
    grind [powNullifiers_addSeenBlock, Map.lookup_filter_some, nullifiers]
  calc s.addSeenBlock id s.slot eras = s.withAnchors (s.addSeenBlock id s.slot eras).blockSlots
          (s.addSeenBlock id s.slot eras).powNullifiers := rfl
    _ = s.withAnchors s.blockSlots s.powNullifiers := by rw [hblocks, hnullifiers]
    _ = s := rfl

theorem Recorded.of_same (h : s.Recorded eras id) (hslot : s'.slot = s.slot)
    (hb : s'.blockSlots = s.blockSlots) (hn : s'.powNullifiers = s.powNullifiers) :
    s'.Recorded eras id := by
  refine ⟨?_, ?_, ?_⟩
  · rw [hb, hslot]
    exact h.seen
  · rw [hb, hslot]
    exact h.blockSlots
  · rw [hn, hslot]
    exact h.nullifiers

variable [Primitives]

/-- A claim of a puzzle is anchored to a block in the window. -/
theorem Recorded.apply_claim {op : ClaimPowRewardOp} {txHash : TxHash} {events : List TxEvent}
    (h : s.Recorded eras id) (hv : op.verify (s.helper eras).claimContext = .ok ())
    (ha : s.applyClaimPow op txHash = .ok (s', events)) (hslot : s'.slot = s.slot) :
    s'.Recorded eras id := by
  obtain ⟨slot, hs, -, -⟩ := ClaimPowRewardOp.verify_anchor hv
  obtain ⟨-, hblocks, hnullifiers⟩ :
      (s.withAnchors s.blockSlots s.powNullifiers).applyClaimPow op txHash = _ ∧ _ :=
    applyClaimPow_withAnchors ha hs hs
  refine ⟨?_, ?_, fun n slot' hn => ?_⟩
  · rw [hblocks, hslot]
    exact h.seen
  · rw [hblocks, hslot]
    exact h.blockSlots
  · rw [hnullifiers] at hn
    rw [hslot]
    rcases Map.lookup_insert_some.mp hn with ⟨-, rfl⟩ | ⟨-, hn⟩
    · exact h.blockSlots _ _ hs
    · exact h.nullifiers n slot' hn

theorem Recorded.step {a : Action} (h : s.Recorded eras id) (hs : Step eras s a s')
    (hheader : ∀ header, a ≠ .header header) (hseen : ∀ i, a ≠ .seen i) : s'.Recorded eras id := by
  cases hs with
  | @header _ header _ _ => exact absurd rfl (hheader header)
  | seen i => exact absurd rfl (hseen i)
  | @operation _ op _ _ _ _ _ _ hv ha =>
    have hslot : s'.slot = s.slot := (Step.operation hv ha).slot
    cases hop : op.anchor with
    | none =>
      obtain ⟨-, hpow⟩ :
          (s.withAnchors s.blockSlots s.powNullifiers).tryApplyOp op _ _ _ = _ ∧ _ :=
        tryApplyOp_withAnchors hop ha
      grind [LedgerState.blockSlots, powNullifiers, of_same]
    | some anchor =>
      cases op with
      | claimPowReward op =>
        obtain ⟨_, hv1, -⟩ := bind_ok hv
        obtain ⟨⟨_, _⟩, h1, h2⟩ := bind_ok ha
        cases h2
        exact h.apply_claim (lift_ok.mp hv1) h1 hslot
      | _ => cases hop
  | settled hs =>
    obtain ⟨-, hb, hn⟩ := settleBlock_withAnchors s.blockSlots s.powNullifiers hs
    exact h.of_same (settleBlock_sameNotes hs).slot hb hn
  | counted hc =>
    obtain ⟨-, hb, hn⟩ := recordBlock_withAnchors s.blockSlots s.powNullifiers hc
    exact h.of_same (recordBlock_sameNotes hc).slot hb hn

theorem recorded_of_tryUpdate {header : Header} {txs : List SignedOps} {events : List Event}
    {deferred : DeferredProofs} (h : s.tryUpdate id header txs eras = .ok (s', events, deferred)) :
    s'.Recorded eras id := by
  obtain ⟨s1, hheader, hrun⟩ := (tryUpdate_run h).of_cons
  obtain ⟨s2, hseen, hrest⟩ := hrun.of_cons
  cases hseen
  -- the rest of the block neither moves the slot nor records a block
  have hwithin : ∀ a ∈ txs.flatMap (fun tx => tx.ops.map Action.operation) ++ [.settled, .counted],
      (∀ header, a ≠ .header header) ∧ ∀ i, a ≠ .seen i := by grind
  refine hrest.history (I := fun ls s =>
    (∀ a ∈ ls, (∀ header, a ≠ .header header) ∧ ∀ i, a ≠ .seen i) → s.Recorded eras id)
    (fun _ => recorded_addSeenBlock s1 id eras) ?_ hwithin
  intro ls t a t' ih hs hls
  obtain ⟨hheader, hseen⟩ := hls a (List.mem_append_right _ (List.mem_singleton_self a))
  exact (ih fun a ha => hls a (List.mem_append_left _ ha)).step hs hheader hseen

end LedgerState

end Logos.Ledger
