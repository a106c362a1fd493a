import LogosChain.Ledger.BlockRewards
import LogosChain.Ledger.Conservation
import LogosChain.Ledger.Events
import LogosChain.Ledger.Values
import Mathlib.Algebra.Order.BigOperators.Group.List
import Mathlib.Algebra.Order.Group.Nat

/-!
# What a chain of blocks pays

Besides notes and pools the ledger has rewards that are in no pool yet. With each block all of it
together grows by at most the emission of a block. A leader is paid for a voucher once, and a note
is spent at most as often as it was made.
-/

namespace Logos.Ledger

open Base Mantle LedgerState

/-! ## Values -/

/-- The income that is not paid out yet. -/
def Rewards.unpaid (r : Rewards) : Nat := r.epochIncome + (r.target.map (·.1.epochIncome)).getD 0

/-- The income of the Blend network that is not paid. -/
def SdpLedger.unpaid (s : SdpLedger) : Nat :=
  ((s.services.lookup .blendNetwork).map (·.rewards.unpaid)).getD 0

/-- The value in the ledger, with the rewards in no pool yet. -/
def LedgerState.wealth (s : LedgerState) : Nat :=
  s.supply + s.mantleLedger.leaders.pendingRewards + s.mantleLedger.pow.reward.refillRewards +
    s.mantleLedger.sdp.unpaid

/-- The pool of the leaders fits its word. -/
def LedgerState.PoolFits (s : LedgerState) : Prop :=
  s.mantleLedger.leaders.claimableRewards < 2 ^ 64

/-- The emission of a block in full. -/
def BlockRewardsConfig.emission (c : BlockRewardsConfig) : Nat :=
  c.maxEmissionPerBlock.numerator / c.maxEmissionPerBlock.denominator

variable [Primitives] {s s' : LedgerState} {eras : EraScheduledConfig} {config : Config}

/-! ## Operations -/

section

variable {op : SignedOp} {txHash : TxHash} {balance balance' : Int} {events : List TxEvent}

omit [Primitives] in
theorem SdpLedger.unpaid_insert {s : SdpLedger} {t : ServiceType} {service service' : ServiceState}
    {notes : ServiceNotes} (hs : s.services.lookup t = some service)
    (hr : service'.rewards.unpaid = service.rewards.unpaid) :
    ({ s with services := s.services.insert t service', serviceNotes := notes } : SdpLedger).unpaid =
      s.unpaid := by
  cases t
  simp [unpaid, hs, hr]

theorem Rewards.updateActive_unpaid {r r' : Rewards} {p : ProviderId} {m : ActivityMetadata}
    (h : r.updateActive p m = .ok r') : r'.unpaid = r.unpaid := by
  unfold updateActive at h
  split at h
  · cases h
  · rename_i ht
    obtain ⟨_, -, h1⟩ := bind_ok h
    obtain ⟨_, -, h2⟩ := bind_ok h1
    cases h2
    simp [unpaid, ht]

/-- An operation takes its inputs out of the notes and adds those that it makes. -/
theorem Applied.notes (h : Applied s config txHash balance op s' balance' events) :
    (∃ (i : Inputs) (rest : Utxos), i.ids = op.spent ∧ i.execute s.utxos = .ok rest ∧
        s'.utxos = rest.insertAll (s.created op)) ∧
      s'.mantleLedger.leaders.pendingRewards = s.mantleLedger.leaders.pendingRewards ∧
      s'.mantleLedger.pow.reward.refillRewards = s.mantleLedger.pow.reward.refillRewards ∧
      s'.mantleLedger.sdp.unpaid = s.mantleLedger.sdp.unpaid := by
  cases h with
  | channelInscribe | channelConfig | channelWithdraw | leaderClaim =>
    exact ⟨⟨.empty, _, rfl, rfl, rfl⟩, rfl, rfl, rfl⟩
  | channelDeposit proof h =>
    obtain ⟨notes, spent, hnotes, hspent, -, rfl⟩ := DepositOp.execute_ok h
    refine ⟨⟨_, spent, rfl, hspent, ?_⟩, rfl, rfl, rfl⟩
    simp only [created, hnotes, Except.toOption, Option.getD_some]
    rfl
  | channelTransfer proof h =>
    obtain ⟨spent, released, hspent, -, -, rfl⟩ := ChannelTransferOp.execute_ok h
    exact ⟨⟨_, spent, rfl, hspent, rfl⟩, rfl, rfl, rfl⟩
  | transfer proof hb h =>
    obtain ⟨spent, hspent, rfl⟩ := TransferOp.execute_ok h
    exact ⟨⟨_, spent, rfl, hspent, rfl⟩, rfl, rfl, rfl⟩
  | sdpDeclare proof h =>
    obtain ⟨service, h1, h2⟩ := bind_ok h
    obtain ⟨_, -, h3⟩ := bind_ok h2
    cases h3
    exact ⟨⟨.empty, _, rfl, rfl, rfl⟩, rfl, rfl, SdpLedger.unpaid_insert (okOr_ok.mp h1) rfl⟩
  | sdpActive proof h =>
    obtain ⟨_, -, h1⟩ := bind_ok h
    obtain ⟨service, h2, h3⟩ := bind_ok h1
    obtain ⟨_, -, h4⟩ := bind_ok h3
    obtain ⟨_, -, h5⟩ := bind_ok h4
    obtain ⟨rewards, h6, h7⟩ := bind_ok h5
    cases h7
    exact ⟨⟨.empty, _, rfl, rfl, rfl⟩, rfl, rfl, SdpLedger.unpaid_insert (okOr_ok.mp h2)
      (Rewards.updateActive_unpaid (wrap_ok.mp h6))⟩
  | sdpWithdraw proof h =>
    obtain ⟨_, -, h1⟩ := bind_ok h
    obtain ⟨service, h2, h3⟩ := bind_ok h1
    obtain ⟨_, -, h4⟩ := bind_ok h3
    cases h4
    exact ⟨⟨.empty, _, rfl, rfl, rfl⟩, rfl, rfl, SdpLedger.unpaid_insert (okOr_ok.mp h2) rfl⟩
  | claimPowReward h => exact ⟨⟨.empty, _, rfl, rfl, (ClaimPowRewardOp.execute_ok h).2⟩, rfl, rfl, rfl⟩

theorem TxRun.step_wealth {r r' : TxRun} {o : SignedOp × Nat} (hb : r.state.PoolFits)
    (h : TxRun.step eras config txHash r o = .ok r') :
    (r'.state.wealth : Int) + r'.balance ≤ r.state.wealth + r.balance ∧ r'.state.PoolFits := by
  obtain ⟨_, _, _, hv, -, -, ha, -⟩ := TxRun.step_ok h
  have he := OpEffect.of_apply hv ha
  obtain ⟨⟨i, rest, hids, hspend, hutxos⟩, hpending, hrefill, hunpaid⟩ := (tryApplyOp_ok ha).notes
  have hspent := (Inputs.execute_ok hspend).2.2
  have hmade := rest.value_insertAll_le (r.state.created o.1)
  have hpaid := he.paid hb
  refine ⟨?_, (he.claimable hb).trans_lt hb⟩
  rw [hids] at hspent
  rw [← hutxos] at hmade
  unfold wealth supply
  omega

end

/-! ## Blocks -/

section

variable {g : GasAndFees} {events : List TxEvent} {deferred : DeferredProofs}

theorem LedgerState.tryApplyTransaction_wealth {tx : SignedOps} (hb : s.PoolFits)
    (h : s.tryApplyTransaction eras tx = .ok (s', g, events, deferred)) :
    s'.wealth + g.feeBurned + g.feeTip ≤ s.wealth ∧ s'.PoolFits := by
  obtain ⟨r, h1, rfl, -, -, hle, htrunc, -⟩ := tryApplyTransaction_ok.mp h
  obtain ⟨_, -, h2⟩ := bind_ok h1
  obtain ⟨hr, hfits⟩ := foldlM_invariant (I := fun r : TxRun =>
    (r.state.wealth : Int) + r.balance ≤ s.wealth ∧ r.state.PoolFits) h2
    ⟨by simp [TxRun.start], hb⟩ fun o _ r r' hr hstep =>
      ⟨(TxRun.step_wealth hr.2 hstep).1.trans hr.1, (TxRun.step_wealth hr.2 hstep).2⟩
  -- the tip is what is left, cut to a word
  have hcut : (truncate 64 r.balance : Int) ≤ r.balance := by
    unfold truncate
    omega
  exact ⟨by omega, hfits⟩

theorem BlockRun.step_wealth {b b' : BlockRun} {o : SignedOps × Nat} (hb : b.state.PoolFits)
    (h : BlockRun.step eras config b o = .ok b') :
    b'.state.wealth + b'.gasAndFees.feeBurned + b'.gasAndFees.feeTip ≤
        b.state.wealth + b.gasAndFees.feeBurned + b.gasAndFees.feeTip ∧ b'.state.PoolFits := by
  obtain ⟨g, events, deferred, ha, hg, -⟩ := BlockRun.step_ok h
  obtain ⟨hle, hfits⟩ := tryApplyTransaction_wealth hb ha
  obtain ⟨_, -, h1⟩ := bind_ok hg
  obtain ⟨_, -, h2⟩ := bind_ok h1
  obtain ⟨_, -, h3⟩ := bind_ok h2
  obtain ⟨_, -, h4⟩ := bind_ok h3
  obtain ⟨burned, h5, h6⟩ := bind_ok h4
  obtain ⟨tip, h7, h8⟩ := bind_ok h6
  have hburned := (checkedAdd_eq_some.mp (okOr_ok.mp h5)).1
  have htip := (checkedAdd_eq_some.mp (okOr_ok.mp h7)).1
  rw [← Except.ok.inj h8]
  exact ⟨by dsimp only; omega, hfits⟩

omit [Primitives] in
theorem BlockRewardsConfig.rewards_le (c : BlockRewardsConfig) (pooledFees blockFee stake : Nat) :
    (c.rewards pooledFees blockFee stake).1 + (c.rewards pooledFees blockFee stake).2 ≤
      c.emission + blockFee := by
  have hden := c.maxEmissionPerBlock.denominator_pos
  have hscale := c.emissionFactorScale_pos
  have hparts := div_add_div_parts c.blendShare (c.rewardNumerator pooledFees blockFee stake)
    (Nat.mul_pos hden hscale)
  have htotal : c.rewardNumerator pooledFees blockFee stake /
      (c.maxEmissionPerBlock.denominator * c.emissionFactorScale) ≤ c.emission + blockFee := by
    refine (Nat.div_le_div_right (mix_le (c.emissionWeight_le pooledFees stake))).trans ?_
    rw [Nat.mul_div_mul_right _ _ hscale, emission, ← Nat.add_mul_div_left _ _ hden]
    exact Nat.div_le_div_right (by omega)
  show c.rewardNumerator pooledFees blockFee stake * _ / _ +
    c.rewardNumerator pooledFees blockFee stake * _ / _ ≤ _
  omega

omit [Primitives] in
theorem SdpLedger.addBlendIncome_unpaid (s : SdpLedger) (income : Nat) :
    (s.addBlendIncome income).unpaid ≤ s.unpaid + income := by
  unfold addBlendIncome
  split
  · omega
  · rename_i service hs
    have := Nat.mod_le (service.rewards.epochIncome + income) (2 ^ 64)
    simp only [unpaid, hs, Rewards.addIncome, Rewards.unpaid, wrappingAdd, Finmap.lookup_insert,
      Option.map_some, Option.getD_some]
    omega

omit [Primitives] in
/-- The rewards of a block share its fees and the emission. -/
theorem LedgerState.computeBlockRewards_wealth {burned tip : Nat}
    (h : s.computeBlockRewards burned tip config = .ok s') :
    s'.wealth ≤ s.wealth + burned + tip + config.blockRewards.emission := by
  obtain ⟨pooled, h1, h2⟩ := bind_ok h
  have hpooled := checkedSub_eq_some.mp (okOr_ok.mp h1)
  generalize hl : s.cryptarchiaLedger.updateFeeWindow _ pooled = l at h2
  -- the fee of the block is read back from where it was written
  have hfee : l.feeWindow.get (CryptarchiaLedger.windowIndex s.blockNumber) = pooled := by
    rw [← hl]
    exact Vector.getElem_set_self _
  have hutxos : l.utxos = s.utxos := hl ▸ rfl
  have hle := config.blockRewards.rewards_le l.feeWindow.toList.sum pooled l.epochState.totalStake
  dsimp only at h2
  rw [hfee] at h2
  generalize config.blockRewards.rewards _ pooled _ = rewards at h2 hle
  obtain ⟨leaderReward, h3, h4⟩ := bind_ok h2
  have hleader := (checkedAdd_eq_some.mp (okOr_ok.mp h3)).1
  obtain ⟨pow, h5, h6⟩ := bind_ok h4
  cases h6
  obtain ⟨refill, h7, h8⟩ := bind_ok (lift_ok.mp h5)
  cases h8
  have hrefill := (checkedAdd_eq_some.mp (okOr_ok.mp h7)).1
  have hincome := s.mantleLedger.sdp.addBlendIncome_unpaid rewards.1
  have hpending := Nat.mod_le (s.mantleLedger.leaders.pendingRewards + leaderReward) (2 ^ 64)
  show l.utxos.value + s.pools + (s.mantleLedger.leaders.pendingRewards + leaderReward) % 2 ^ 64 +
    refill + (s.mantleLedger.sdp.addBlendIncome rewards.1).unpaid ≤ s.wealth + burned + tip + _
  rw [hutxos]
  unfold wealth supply
  omega

theorem LedgerState.tryApplyBlockContents_wealth {txs : List SignedOps} (hb : s.PoolFits)
    (h : s.tryApplyBlockContents eras txs = .ok (s', events, deferred)) :
    s'.wealth ≤ s.wealth + (configForSlot eras s.slot).blockRewards.emission ∧ s'.PoolFits := by
  obtain ⟨b, h1, h2, -⟩ := tryApplyBlockContents_ok h
  obtain ⟨hle, hfits⟩ := foldlM_invariant (I := fun b : BlockRun =>
    b.state.wealth + b.gasAndFees.feeBurned + b.gasAndFees.feeTip ≤ s.wealth ∧ b.state.PoolFits) h1
    ⟨le_rfl, hb⟩ fun o _ b b' hb hstep =>
      ⟨(BlockRun.step_wealth hb.2 hstep).1.trans hb.1, (BlockRun.step_wealth hb.2 hstep).2⟩
  constructor
  · obtain ⟨s1, h3, h4⟩ := bind_ok h2
    obtain ⟨l, h5, h6⟩ := bind_ok h4
    cases h6
    obtain ⟨_, -, h7⟩ := Option.bind_eq_some_iff.mp (okOr_ok.mp h5)
    cases h7
    have hrewards := computeBlockRewards_wealth h3
    show s1.wealth ≤ _
    omega
  · obtain ⟨_, _, _, _, _, rfl⟩ := settleBlock_ok h2
    exact hfits

end

/-! ## Headers -/

section

omit [Primitives]

/-- A part for each entry and one more for each that is marked. -/
theorem sum_parts_le {K V : Type} [LinearOrder K] (m : Map K V) (marked : Finset K) (b : Nat) :
    ((Map.toList m).map fun e => if e.1 ∈ marked then b * 2 else b).sum ≤
      b * (m.keys.card + marked.card) := by
  have hsplit : ∀ l : List (K × V), (l.map fun e => if e.1 ∈ marked then b * 2 else b).sum =
      b * (l.length + (l.filter (·.1 ∈ marked)).length) := by
    intro l
    induction l with
    | nil => rfl
    | cons e l ih => grind
  have hmarked : (((Map.toList m).filter (·.1 ∈ marked)).map (·.1)).toFinset ⊆ marked := by
    intro k hk
    simp only [List.mem_toFinset, List.mem_map, List.mem_filter, decide_eq_true_eq] at hk
    obtain ⟨e, he, rfl⟩ := hk
    exact he.2
  have hcard := Finset.card_le_card hmarked
  rw [List.toFinset_card_of_nodup ((Map.nodup_toList m).sublist (List.filter_sublist.map _)),
    List.length_map] at hcard
  rw [hsplit, Map.length_toList]
  exact Nat.mul_le_mul_left b (Nat.add_le_add_left hcard _)

end

/-- The rewards of an epoch are at most its income. -/
theorem TargetEpochTracker.finalize_le (t : TargetEpochTracker) (target : TargetEpochState) :
    ((t.finalize target).map (·.note.value)).sum ≤ target.epochIncome := by
  unfold finalize
  split
  · exact Nat.zero_le _
  have hnotes : (distributeRewards (t.rewards target.epochIncome) target.epoch
      .blendNetwork).map (·.note.value) =
      ((Map.toList (t.rewards target.epochIncome)).filter (0 < ·.2)).map (·.2) := by
    apply List.ext_getElem <;> simp [distributeRewards]
  -- every reward is one of a proof, and each key has one reward
  generalize hb : target.epochIncome / (t.submittedProofs.keys.card + t.closest.card) = b
  have hsub : (Map.toList (t.rewards target.epochIncome)).Subperm
      ((Map.toList t.submittedProofs).map fun e =>
        (e.2.1, if e.1 ∈ t.closest then b * 2 else b)) := by
    refine List.subperm_of_subset (Map.nodup_toList _).of_map fun e he => ?_
    refine Map.mem_of_lookup_foldl _ ?_
    rw [List.foldl_map, ← hb]
    exact Map.mem_toList.mp he
  have hpaid : ((Map.toList (t.rewards target.epochIncome)).filter (0 < ·.2)).Subperm _ :=
    List.filter_sublist.subperm.trans hsub
  obtain ⟨l, hperm, hsublist⟩ := hpaid
  rw [hnotes, ← (hperm.map (·.2)).sum_eq]
  refine ((hsublist.map (·.2)).sum_le_sum fun _ _ => Nat.zero_le _).trans ?_
  rw [List.map_map]
  exact (sum_parts_le _ _ _).trans (hb ▸ Nat.div_mul_le_self _ _)

theorem Rewards.updateEpoch_unpaid {ε : Type} {r r' : Rewards} {last next : EpochState}
    {lastParams params : RewardsParameters} {notes : List Utxo}
    (h : r.updateEpoch (ε := ε) last next lastParams params = .ok (r', notes)) :
    (notes.map (·.note.value)).sum + r'.unpaid ≤ r.unpaid := by
  obtain ⟨target, h1, h2⟩ := bind_ok h
  cases h2
  have hpaid : ((((r.target.map fun t => t.2.finalize t.1).getD [])).map (·.note.value)).sum ≤
      (r.target.map (·.1.epochIncome)).getD 0 := by
    cases r.target with
    | none => exact le_rfl
    | some t => exact t.2.finalize_le t.1
  have hnew : (target.map (·.epochIncome)).getD 0 ≤ r.epochIncome := by
    obtain ⟨_, -, h3⟩ := bind_ok h1
    obtain ⟨_, -, h4⟩ := bind_ok h3
    split at h4
    · cases h4
      exact Nat.zero_le _
    dsimp only at h4
    split at h4
    · cases h4
      exact Nat.zero_le _
    · obtain ⟨_, -, h5⟩ := bind_ok h4
      cases h5
      exact le_rfl
  simp only [unpaid, Option.map_map, Function.comp_def]
  omega

theorem SdpLedger.tryApplyHeader_unpaid {s s' : SdpLedger} {lastConfig config : SdpConfig}
    {last next : EpochState} {effect : HeaderEffect}
    (h : s.tryApplyHeader lastConfig config last next = .ok (s', effect)) :
    (effect.rewardUtxos.map (·.note.value)).sum + s'.unpaid ≤ s.unpaid := by
  obtain ⟨⟨s1, _⟩, h1, h2⟩ := bind_ok h
  cases h2
  refine foldlM_invariant (I := fun acc : SdpLedger × HeaderEffect =>
    (acc.2.rewardUtxos.map (·.note.value)).sum + acc.1.unpaid ≤ s.unpaid) h1 (by simp)
    fun t _ acc acc' hacc hstep => ?_
  unfold applyHeaderStep at hstep
  split at hstep
  · cases hstep
    exact hacc
  · rename_i service hs
    obtain ⟨_, -, h3⟩ := bind_ok hstep
    obtain ⟨⟨service', serviceNotes, effect'⟩, h4, h5⟩ := bind_ok h3
    cases h5
    have hservice : (effect'.rewardUtxos.map (·.note.value)).sum + service'.rewards.unpaid ≤
        service.rewards.unpaid := by
      unfold applyHeaderToService at h4
      split at h4
      · obtain ⟨⟨rewards, utxos⟩, h6, h7⟩ := bind_ok h4
        obtain ⟨_, -, h8⟩ := bind_ok h7
        cases h8
        exact Rewards.updateEpoch_unpaid h6
      · cases h4
        simp
    cases t
    simp only [unpaid, hs, List.map_append, List.sum_append, Finmap.lookup_insert, Option.map_some,
      Option.getD_some] at hacc ⊢
    omega

theorem LeaderState.tryApplyHeader_rewards {l l' : LeaderState} {epoch : Nat} {voucher : VoucherCm}
    (h : l.tryApplyHeader epoch voucher = .ok l') :
    l'.nfs = l.nfs ∧
      l'.claimableRewards + l'.pendingRewards ≤ l.claimableRewards + l.pendingRewards ∧
      (l.claimableRewards < 2 ^ 64 → l'.claimableRewards < 2 ^ 64) := by
  obtain ⟨l1, h1, h2⟩ := bind_ok h
  obtain ⟨_, -, h3⟩ := bind_ok h2
  cases h3
  have h4 := lift_ok.mp h1
  unfold updateEpochState at h4
  split at h4
  · cases h4
    exact ⟨rfl, le_rfl, id⟩
  split at h4
  · cases h4
  · cases h4
    exact ⟨rfl, Nat.mod_le _ _, fun _ => Nat.mod_lt _ (by decide)⟩

omit [Primitives] in
theorem PowState.tryApplyHeader_rewards {p p' : PowState} {last next : Nat}
    (h : p.tryApplyHeader last next config = .ok p') :
    p'.reward.rewardPool + p'.reward.refillRewards =
      p.reward.rewardPool + p.reward.refillRewards := by
  unfold tryApplyHeader at h
  split at h
  · cases h
    rfl
  · obtain ⟨_, h1, h2⟩ := bind_ok h
    obtain ⟨pool, h3, h4⟩ := bind_ok h1
    cases h4
    cases h2
    exact (checkedAdd_eq_some.mp (okOr_ok.mp h3)).1.symm

theorem LedgerState.tryApplyHeader_wealth {h : Header} {events : List HeaderEvent}
    (hb : s.PoolFits) (hh : s.tryApplyHeader h eras = .ok (s', events)) :
    s'.wealth ≤ s.wealth ∧ s'.PoolFits := by
  obtain ⟨l, effect, hp, -⟩ := tryApplyHeader_ok hh
  have hsdp := SdpLedger.tryApplyHeader_unpaid hp.sdp
  have hutxos := s.utxos.value_insertAll_le effect.rewardUtxos
  obtain ⟨-, hleaders, hfits⟩ := LeaderState.tryApplyHeader_rewards hp.leaders
  have hpow := PowState.tryApplyHeader_rewards hp.pow
  refine ⟨?_, hfits hb⟩
  unfold wealth supply pools
  rw [hp.utxos]
  omega

/-! ## Chains -/

theorem LedgerState.applyBlock_wealth {b : Block} (hb : s.PoolFits)
    (h : s.applyBlock eras b = .ok s') :
    s'.wealth ≤ s.wealth + (configForSlot eras b.header.slot).blockRewards.emission ∧
      s'.PoolFits := by
  obtain ⟨⟨_, events, deferred⟩, h0, h1⟩ := bind_ok h
  cases h1
  obtain ⟨s1, _, s2, _, h2, h3, h4, -⟩ := tryUpdate_ok h0
  obtain ⟨hheader, hfits⟩ := tryApplyHeader_wealth hb h2
  obtain ⟨hcontents, hfits'⟩ := tryApplyBlockContents_wealth (s := s1.addSeenBlock _ _ eras) hfits h3
  obtain ⟨l, effect, hp, -⟩ := tryApplyHeader_ok h2
  have hslot : (s1.addSeenBlock b.id b.header.slot eras).slot = b.header.slot := hp.slot.2
  rw [hslot] at hcontents
  obtain ⟨pow, h5, h6⟩ := bind_ok h4
  cases h6
  obtain ⟨_, -, h7⟩ := bind_ok h5
  cases h7
  exact ⟨hcontents.trans (Nat.add_le_add_right hheader _), hfits'⟩

/-- No inflation: along every chain of blocks the value of the ledger grows by at most the emission.
-/
theorem wealth_bounded {bs : List Block} (hb : s.PoolFits) (h : s.applyBlocks eras bs = .ok s') :
    s'.wealth ≤ s.wealth +
      (bs.map fun b => (configForSlot eras b.header.slot).blockRewards.emission).sum := by
  induction bs generalizing s with
  | nil =>
    rw [foldlM_nil_ok h]
    exact le_rfl
  | cons b bs ih =>
    obtain ⟨s1, h1, h2⟩ := foldlM_cons_ok h
    obtain ⟨hle, hfits⟩ := applyBlock_wealth hb h1
    rw [List.map_cons, List.sum_cons, ← Nat.add_assoc]
    exact (ih hfits h2).trans (Nat.add_le_add_right hle _)

/-- An emission of a hundred and a high target for the stake. -/
def Config.emitting : Config where
  __ := Config.small
  blockRewards := ⟨2000, 2, 0, ⟨100, 1, Nat.one_pos⟩, .half, Nat.two_pos, by decide⟩

omit [Primitives] in
theorem wealth_bounded_emitting :
    letI := Primitives.plain
    ∃ s', (withRewards 10).applyBlocks (.single .emitting) [⟨1, headerAt 1, [claimThenSpend]⟩] =
        .ok s' ∧ (withRewards 10).wealth < s'.wealth ∧
      s'.wealth ≤ (withRewards 10).wealth + 100 := by
  let _ := Primitives.plain
  obtain ⟨s', h, hmore⟩ := exists_ok (x := (withRewards 10).applyBlocks (.single .emitting)
    [⟨1, headerAt 1, [claimThenSpend]⟩]) ((withRewards 10).wealth < ·.wealth) (by decide +kernel)
  exact ⟨s', h, hmore, wealth_bounded (show _ < _ by decide) h⟩

/-! ## Spends -/

variable {n : NoteId}

theorem TxRun.step_held {txHash : TxHash} {r r' : TxRun} {o : SignedOp × Nat}
    (h : TxRun.step eras config txHash r o = .ok r') :
    o.1.spent.count n + r'.state.utxos.held n ≤
      r.state.utxos.held n + ((r.state.created o.1).map Utxo.id).count n := by
  obtain ⟨_, _, _, -, -, -, ha, -⟩ := TxRun.step_ok h
  obtain ⟨⟨i, rest, hids, hspend, hutxos⟩, -⟩ := (tryApplyOp_ok ha).notes
  have hspent := Inputs.execute_held hspend n
  have hmade := rest.held_insertAll_le (r.state.created o.1) n
  rw [← hids, hutxos]
  omega

/-- The notes that the transactions of a block spend. -/
def Block.spends (b : Block) : List NoteId := b.txs.flatMap fun tx => tx.ops.flatMap SignedOp.spent

/-- The notes that a block makes: rewards, and those of operations. -/
def LedgerState.blockMade (s : LedgerState) (eras : EraScheduledConfig) (b : Block) : List NoteId :=
  (s.headerUtxos b.header eras ++
    (s.blockExecuted eras b).flatMap fun v => v.1.created v.2).map Utxo.id

theorem LedgerState.tryApplyTransaction_held {tx : SignedOps} {g : GasAndFees}
    {events : List TxEvent} {deferred : DeferredProofs}
    (h : s.tryApplyTransaction eras tx = .ok (s', g, events, deferred)) :
    (tx.ops.flatMap SignedOp.spent).count n + s'.utxos.held n ≤ s.utxos.held n +
      (((s.txExecuted eras tx).flatMap fun v => v.1.created v.2).map Utxo.id).count n := by
  obtain ⟨r, h1, rfl, -⟩ := tryApplyTransaction_ok.mp h
  obtain ⟨_, -, h2⟩ := bind_ok h1
  have hops := foldlM_account (fun o => o.1.spent) (fun v => (v.1.state.created v.2.1).map Utxo.id)
    (fun r => r.state.utxos.held n) h2 fun _ _ _ _ hstep => TxRun.step_held hstep
  rw [← List.zipIdx_map_fst 0 tx.ops, List.flatMap_map, txExecuted, List.flatMap_map, List.map_flatMap]
  exact hops

theorem LedgerState.applyBlock_held {b : Block} (h : s.applyBlock eras b = .ok s') :
    b.spends.count n + s'.utxos.held n ≤
      s.utxos.held n + (s.blockMade eras b).count n := by
  obtain ⟨⟨_, _, _⟩, h0, h1⟩ := bind_ok h
  cases h1
  obtain ⟨s1, _, s2, _, h2, h3, h4, -⟩ := tryUpdate_ok h0
  obtain ⟨l, effect, hp, -⟩ := tryApplyHeader_ok h2
  obtain ⟨run, h5, h6, -⟩ := tryApplyBlockContents_ok h3
  have hslot : (s1.addSeenBlock b.id b.header.slot eras).slot = b.header.slot := hp.slot.2
  have hheader := s.utxos.held_insertAll_le effect.rewardUtxos n
  have htxs := foldlM_account (fun o => o.1.ops.flatMap SignedOp.spent)
    (fun v => ((v.1.state.txExecuted eras v.2.1).flatMap fun e => e.1.created e.2).map Utxo.id)
    (fun b => b.state.utxos.held n) h5 fun o _ b b' hstep => by
      obtain ⟨g, events, deferred, ha, -⟩ := BlockRun.step_ok hstep
      exact tryApplyTransaction_held ha
  have hsame : s'.utxos = run.state.utxos :=
    (recordBlock_sameNotes h4).utxos.trans (settleBlock_sameNotes h6).utxos
  rw [hslot] at htxs
  rw [Block.spends, ← List.zipIdx_map_fst 0 b.txs, List.flatMap_map, blockMade, blockExecuted, h2,
    hp.headerUtxos_eq, List.map_append, List.count_append, hsame, List.flatMap_assoc,
    List.map_flatMap]
  rw [← hp.utxos] at hheader
  have hstart : (BlockRun.start (s1.addSeenBlock b.id b.header.slot eras)).state.utxos.held n =
    s1.utxos.held n := rfl
  omega

/-- No note is spent twice: it is spent at most as often as it was there or is made. -/
theorem spends_backed {bs : List Block} (h : s.applyBlocks eras bs = .ok s') (n : NoteId) :
    (bs.flatMap Block.spends).count n + s'.utxos.held n ≤
      s.utxos.held n +
        ((visited (applyBlock eras) s bs).flatMap fun v => v.1.blockMade eras v.2).count n :=
  foldlM_account Block.spends (fun v => v.1.blockMade eras v.2) (fun s => s.utxos.held n) h
    fun _ _ _ _ hb => applyBlock_held hb

omit [Primitives] in
/-- The second note of genesis is spent, and not made again. -/
theorem spends_backed_claimed :
    letI := Primitives.plain
    ∃ g s, afterClaim [tippingTx] = .ok (g, s) ∧ g.utxos.held 9001 = 1 ∧ s.utxos.held 9001 = 0 := by
  let _ := Primitives.plain
  obtain ⟨⟨g, s⟩, h, hthere, hmade⟩ := exists_ok (x := afterClaim [tippingTx])
    (fun r => r.1.utxos.held 9001 = 1 ∧
      ((visited (applyBlock (.single .small)) r.1 (claimedIn [tippingTx])).flatMap fun v =>
        v.1.blockMade (.single .small) v.2).count 9001 = 0) (by decide +kernel)
  obtain ⟨_, -, h1⟩ := bind_ok h
  obtain ⟨_, h2, h3⟩ := bind_ok h1
  cases h3
  dsimp only at hthere hmade
  have hbacked := spends_backed h2 9001
  have hspent : ((claimedIn [tippingTx]).flatMap Block.spends).count 9001 = 1 := by decide
  exact ⟨g, s, h, hthere, by omega⟩

/-! ## Vouchers -/

/-- The vouchers that a block claims. -/
def Block.claims (b : Block) : List VoucherNullifier :=
  b.txs.flatMap fun tx => tx.ops.filterMap SignedOp.claimed

theorem LedgerState.applyBlock_claimedOnce {b : Block} (h : s.applyBlock eras b = .ok s') :
    ClaimedOnce s.mantleLedger.leaders.nfs b.claims s'.mantleLedger.leaders.nfs := by
  obtain ⟨⟨_, _, _⟩, h0, h1⟩ := bind_ok h
  cases h1
  obtain ⟨s1, _, s2, _, h2, h3, h4, -⟩ := tryUpdate_ok h0
  obtain ⟨l, effect, hp, -⟩ := tryApplyHeader_ok h2
  obtain ⟨run, h5, h6, -⟩ := tryApplyBlockContents_ok h3
  obtain ⟨_, -, -, hclaims, honce⟩ := BlockRun.foldlM_shown h5
  rw [hclaims, List.zipIdx_map_fst] at honce
  obtain ⟨_, _, _, _, _, rfl⟩ := settleBlock_ok h6
  obtain ⟨_, -, h7⟩ := bind_ok h4
  cases h7
  rw [← (LeaderState.tryApplyHeader_rewards hp.leaders).1]
  exact honce

/-- A voucher pays once: the claims of a chain are of different vouchers, none claimed before. -/
theorem vouchers_pay_once {bs : List Block} (h : s.applyBlocks eras bs = .ok s') :
    ClaimedOnce s.mantleLedger.leaders.nfs (bs.flatMap Block.claims)
      s'.mantleLedger.leaders.nfs := by
  induction bs generalizing s with
  | nil =>
    rw [foldlM_nil_ok h]
    exact .nil _
  | cons b bs ih =>
    obtain ⟨s1, h1, h2⟩ := foldlM_cons_ok h
    exact (applyBlock_claimedOnce h1).append (ih h2)

omit [Primitives] in
theorem vouchers_pay_once_claimed :
    letI := Primitives.plain
    ∃ g s, afterClaim [tippingTx] = .ok (g, s) ∧ s.mantleLedger.leaders.nfs = {5} := by
  let _ := Primitives.plain
  obtain ⟨⟨g, s⟩, h, hnone⟩ := exists_ok (x := afterClaim [tippingTx])
    (·.1.mantleLedger.leaders.nfs = ∅) (by decide +kernel)
  obtain ⟨_, -, h1⟩ := bind_ok h
  obtain ⟨_, h2, h3⟩ := bind_ok h1
  cases h3
  refine ⟨g, s, h, ?_⟩
  rw [(vouchers_pay_once h2).nfs, hnone]
  decide

end Logos.Ledger
