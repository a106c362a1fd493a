import LogosChain.Ledger.Registry
import LogosChain.Time.Schedule

/-!
# The clocks of the epochs (`ledger/src/cryptarchia/mod.rs`, `ledger/src/mantle/{leader,sdp}`)

The leader election, the next epoch, the leaders, the services and the rewards of each service all
count the epochs, and each is moved by another call. In every state that genesis leads to they agree
(`Clocks`), and the target epoch of the rewards has as many providers as there were declarations
(`NetworkSize`).
-/

namespace Logos.Ledger

open Base Mantle LedgerState Map CryptarchiaLedger NoPanic

/-! ## Moving to a slot -/

section

variable {ε : Type} {l l' : CryptarchiaLedger} {slot : Nat} {sdp : SdpLedger} {pow : PowState}
  {eras : EraScheduledConfig}

/-- What the state of the next epoch takes from the ledger. -/
structure EpochState.Followed (eras : EraScheduledConfig) (l : CryptarchiaLedger) (sdp : SdpLedger)
    (s s' : EpochState) : Prop where
  epoch : s'.epoch = s.epoch
  nonce : s'.nonce = if l.slot < nonceSnapshot eras s.epoch then l.nonce else s.nonce
  utxos : s'.utxos = if l.slot < stakeDistributionSnapshot eras s.epoch then l.utxos else s.utxos
  activeDeclarations : s'.activeDeclarations =
    if l.slot < stakeDistributionSnapshot eras s.epoch then
      declarationsAt sdp eras s.epoch
    else s.activeDeclarations

theorem EpochState.updateFromLedger_ok {s s' : EpochState}
    (h : s.updateFromLedger (ε := ε) l sdp pow eras = .ok s') : s.Followed eras l sdp s' := by
  obtain ⟨_, -, h0⟩ := bind_ok h
  obtain ⟨_, -, h1⟩ := bind_ok h0
  by_cases hn : l.slot < nonceSnapshot eras s.epoch <;>
    by_cases hs : l.slot < stakeDistributionSnapshot eras s.epoch <;>
    simp only [hn, hs, if_true, if_false] at h1 <;> cases h1 <;>
    exact ⟨rfl, by simp [hn], by simp [hs], by simp [hs, declarationsAt]⟩

namespace CryptarchiaLedger

/-- How a ledger gets to a slot: inside the epoch, at the next one, or after a jump. -/
inductive Moved (eras : EraScheduledConfig) (l : CryptarchiaLedger) (sdp : SdpLedger) (slot : Nat)
    (next : EpochState) (l' : CryptarchiaLedger) : Prop where
  | within (he : eras.epochForSlot slot = eras.epochForSlot l.slot)
      (hepoch : l'.epochState = l.epochState) (hnext : l'.nextEpochState = next)
  | next (he : eras.epochForSlot slot = eras.epochForSlot l.slot + 1)
      (hperiod : (configForEpoch eras (eras.epochForSlot l.slot)).nonceContributionPeriod < 2 ^ 64)
      (stake : Nat) (lottery : Fr × Fr) (difficulty : Fr)
      (hepoch : l'.epochState =
        { next with totalStake := stake, lottery0 := lottery.1, lottery1 := lottery.2 })
      (hnext : l'.nextEpochState =
        l.freshEpochState sdp eras (eras.epochForSlot slot + 1) stake lottery difficulty)
  | later (he : eras.epochForSlot slot ≠ eras.epochForSlot l.slot)
      (he' : eras.epochForSlot slot ≠ eras.epochForSlot l.slot + 1)
      (hperiod : ∀ epoch, next.epoch ≤ epoch → epoch < eras.epochForSlot slot →
        (configForEpoch eras epoch).nonceContributionPeriod < 2 ^ 64)
      (stake : Nat) (lottery : Fr × Fr) (difficulty : Fr)
      (hepoch : l'.epochState =
        l.freshEpochState sdp eras (eras.epochForSlot slot) stake lottery difficulty)
      (hnext : l'.nextEpochState =
        l.freshEpochState sdp eras (eras.epochForSlot slot + 1) stake lottery difficulty)

theorem inferTotalStake_period {epoch stake density stake' : Nat}
    (h : inferTotalStake (ε := ε) eras epoch stake density = .ok stake') :
    (configForEpoch eras epoch).nonceContributionPeriod < 2 ^ 64 := by
  obtain ⟨_, h1, -⟩ := bind_ok h
  exact not_le.mp (failIf_ok.mp h1)

theorem updateEpochState_moved (h : l.updateEpochState slot sdp pow eras = .ok l') :
    l'.nonce = l.nonce ∧ ∃ next, l.nextEpochState.Followed eras l sdp next ∧
      Moved eras l sdp slot next l' := by
  obtain ⟨_, -, h1⟩ := bind_ok h
  obtain ⟨next, h2, h3⟩ := bind_ok h1
  have hnext := EpochState.updateFromLedger_ok h2
  split at h3
  · rename_i he
    cases h3
    exact ⟨rfl, next, hnext, .within he.symm rfl rfl⟩
  · rename_i he
    split at h3
    · rename_i he'
      obtain ⟨stake, hstake, h4⟩ := bind_ok h3
      obtain ⟨_, -, h5⟩ := bind_ok h4
      cases h5
      exact ⟨rfl, next, hnext, .next he' (inferTotalStake_period hstake) stake _ _ rfl rfl⟩
    · rename_i he'
      obtain ⟨_, -, h4⟩ := bind_ok h3
      obtain ⟨stake, hstake, h5⟩ := bind_ok h4
      obtain ⟨_, -, h6⟩ := bind_ok h5
      cases h6
      refine ⟨rfl, next, hnext, .later (Ne.symm he) he' (fun epoch hle hlt => ?_) stake _ _ rfl rfl⟩
      have hmem : epoch ∈ List.range' next.epoch (eras.epochForSlot slot - next.epoch) := by
        rw [List.mem_range'_1]
        omega
      obtain ⟨_, _, hstep⟩ := foldlM_mem hstake hmem
      exact inferTotalStake_period hstep

variable {next : EpochState}

/-- States in step are in step after the ledger has moved. -/
theorem Moved.epochs (h : Moved eras l sdp slot next l')
    (hf : l.nextEpochState.Followed eras l sdp next)
    (hepoch : l.epochState.epoch = eras.epochForSlot l.slot)
    (hnext : l.nextEpochState.epoch = eras.epochForSlot l.slot + 1) :
    l'.epochState.epoch = eras.epochForSlot slot ∧
      l'.nextEpochState.epoch = eras.epochForSlot slot + 1 := by
  cases h with
  | within he h1 h2 =>
    rw [h1, h2, hf.epoch, hepoch, hnext, he]
    exact ⟨rfl, rfl⟩
  | next he _ _ _ _ h1 h2 =>
    rw [h1, h2]
    exact ⟨hf.epoch.trans (hnext.trans he.symm), rfl⟩
  | later _ _ _ _ _ _ h1 h2 =>
    rw [h1, h2]
    exact ⟨rfl, rfl⟩

end CryptarchiaLedger

end

/-! ## The invariant -/

variable {eras : EraScheduledConfig}

/-- Every clock of the epochs shows the epoch of the slot. -/
structure Clocks (eras : EraScheduledConfig) (s : LedgerState) : Prop where
  epoch : s.cryptarchiaLedger.epochState.epoch = eras.epochForSlot s.slot
  next : s.cryptarchiaLedger.nextEpochState.epoch = eras.epochForSlot s.slot + 1
  leaders : s.mantleLedger.leaders.epoch = eras.epochForSlot s.slot
  sdp : s.mantleLedger.sdp.epoch = eras.epochForSlot s.slot
  rewards : ∀ t service, s.mantleLedger.sdp.services.lookup t = some service →
    service.rewards.current.epoch = eras.epochForSlot s.slot

section

variable [Primitives] {s s' : LedgerState} {h : Header} {events : List HeaderEvent}
  {config : Config} {a : Action} {tx : GenesisTx}

/-! ## Headers keep it -/

theorem LeaderState.tryApplyHeader_epoch {leaders leaders' : LeaderState} {epoch : Nat}
    {voucher : VoucherCm} (h : leaders.tryApplyHeader epoch voucher = .ok leaders') :
    leaders.epoch ≤ epoch ∧ leaders'.epoch = epoch := by
  obtain ⟨moved, h1, h2⟩ := bind_ok h
  obtain ⟨_, -, h3⟩ := bind_ok h2
  cases h3
  grind [updateEpochState, lift_ok]

/-- What a header does to the epochs and the leaders. -/
theorem LedgerState.tryApplyHeader_moved (hh : s.tryApplyHeader h eras = .ok (s', events)) :
    ∃ l, s.cryptarchiaLedger.updateEpochState h.slot s.mantleLedger.sdp s.mantleLedger.pow eras =
        .ok l ∧ s'.cryptarchiaLedger.epochState = l.epochState ∧
      s'.cryptarchiaLedger.nextEpochState = l.nextEpochState ∧
      s'.cryptarchiaLedger.nonce =
        Primitives.epochNonce l.nonce h.proof.entropyContribution h.slot ∧
      s.mantleLedger.leaders.epoch ≤ l.epochState.epoch ∧
      s'.mantleLedger.leaders.epoch = l.epochState.epoch := by
  obtain ⟨l, effect, hp, -⟩ := tryApplyHeader_ok hh
  obtain ⟨l1, h1, h2⟩ := bind_ok hp.cryptarchia
  obtain ⟨l2, h3, h4⟩ := bind_ok h1
  obtain ⟨_, -, h5⟩ := bind_ok h4
  cases h5
  cases h2
  rw [hp.ledger]
  exact ⟨l1, h3, rfl, rfl, rfl, LeaderState.tryApplyHeader_epoch hp.leaders⟩

theorem Clocks.header (hr : eras.Resolved) (hc : Clocks eras s)
    (hcons : s.mantleLedger.sdp.Consistent)
    (hh : s.tryApplyHeader h eras = .ok (s', events)) : Clocks eras s' := by
  obtain ⟨hlt, hslot⟩ := (Step.header hh).slot
  have hmono := hr.epochForSlot_mono hlt.le
  obtain ⟨_, _, hheaded⟩ := headed hcons hh
  obtain ⟨l, hl, hepoch', hnext', -, -, hleaders⟩ := tryApplyHeader_moved hh
  obtain ⟨-, next, hfollowed, hmoved⟩ := updateEpochState_moved hl
  obtain ⟨hepoch, hnext⟩ := hmoved.epochs hfollowed hc.epoch hc.next
  rw [hepoch'] at hheaded
  refine ⟨?_, ?_, ?_, ?_, fun t service' hs' => ?_⟩ <;> rw [hslot]
  · rw [hepoch', hepoch]
  · rw [hnext', hnext]
  · rw [hleaders, hepoch]
  · rw [hheaded.epoch, hepoch]
  · obtain ⟨service, hs, hadvanced⟩ := hheaded.services t service' hs'
    have hrewards := hadvanced.rewards
    rw [hc.epoch, hepoch] at hrewards
    split at hrewards
    · -- The epoch ends: the rewards start the next one.
      obtain ⟨notes, hup⟩ := hrewards
      obtain ⟨target, -, h1⟩ := bind_ok hup
      obtain ⟨h2, -⟩ := Prod.mk.inj (Except.ok.inj h1)
      rw [← h2]
      exact hepoch
    · grind [rewards]

/-! ## The other steps keep it -/

/-- Two states with the same slot, epochs and nonce. -/
structure LedgerState.SameEpoch (s s' : LedgerState) : Prop where
  slot : s'.slot = s.slot
  epochState : s'.cryptarchiaLedger.epochState = s.cryptarchiaLedger.epochState
  nextEpochState : s'.cryptarchiaLedger.nextEpochState = s.cryptarchiaLedger.nextEpochState
  nonce : s'.cryptarchiaLedger.nonce = s.cryptarchiaLedger.nonce
  leaders : s'.mantleLedger.leaders.epoch = s.mantleLedger.leaders.epoch

omit [Primitives] in
theorem LedgerState.settleBlock_sameEpoch {g : GasAndFees}
    (hs : s.settleBlock g config = .ok s') : s.SameEpoch s' := by
  obtain ⟨pooled, consumed, leaderReward, blendReward, refill, rfl⟩ := settleBlock_ok hs
  exact ⟨rfl, rfl, rfl, rfl, rfl⟩

theorem Step.sameEpoch (hs : Step eras s a s') (ha : ∀ h, a ≠ .header h) : s.SameEpoch s' := by
  cases hs with
  | header => exact absurd rfl (ha _)
  | seen => exact ⟨rfl, rfl, rfl, rfl, rfl⟩
  | operation hv happly =>
    have hl := (OpEffect.of_apply hv happly).cryptarchia
    have hleaders := (OpFrame.of_apply hv happly).leaders
    exact ⟨by rw [LedgerState.slot, hl]; rfl, by rw [hl], by rw [hl], by rw [hl], by rw [hleaders]⟩
  | settled hs => exact LedgerState.settleBlock_sameEpoch hs
  | counted hr =>
    obtain ⟨_, -, h1⟩ := bind_ok hr
    cases h1
    exact ⟨rfl, rfl, rfl, rfl, rfl⟩

theorem SdpLedger.Change.sameEpochs {s s' : SdpLedger} {m : Option (DeclarationId × Nonce)}
    (hs : SdpLedger.Change s m s') :
    s'.epoch = s.epoch ∧ ∀ t service', s'.services.lookup t = some service' →
      ∃ service, s.services.lookup t = some service ∧
        service.rewards.SameEpochs service'.rewards := by
  cases hs with
  | same => exact ⟨rfl, fun t service hs => ⟨service, hs, .refl _⟩⟩
  | income amount =>
    grind [addBlendIncome, lookup_insert_some, Rewards.addIncome_sameEpochs]
  | declare hs hv hx =>
    grind [lookup_insert_some, Rewards.SameEpochs.refl]
  | message hs hd _ _ hd' hr =>
    grind [lookup_insert_some]

theorem Clocks.step (hr : eras.Resolved) (hc : Clocks eras s)
    (hcons : s.mantleLedger.sdp.Consistent) (hs : Step eras s a s') : Clocks eras s' := by
  rcases hs.header_or with ⟨h, events, rfl, hh⟩ | ha
  · exact hc.header hr hcons hh
  · have hsame := hs.sameEpoch ha
    obtain ⟨hepoch, hservices⟩ := (hs.change ha).sameEpochs
    refine ⟨?_, ?_, ?_, ?_, fun t service' hs' => ?_⟩ <;> rw [hsame.slot]
    · rw [hsame.epochState, hc.epoch]
    · rw [hsame.nextEpochState, hc.next]
    · rw [hsame.leaders, hc.leaders]
    · rw [hepoch, hc.sdp]
    · grind [Rewards.SameEpochs.current, rewards]

theorem LedgerState.epochs_of_genesis (hg : fromGenesisTx tx config = .ok s) :
    s.slot = 0 ∧ s.cryptarchiaLedger.epochState.epoch = 0 ∧
      s.cryptarchiaLedger.nextEpochState.epoch = 1 ∧ s.mantleLedger.leaders.epoch = 0 ∧
      s.mantleLedger.sdp.epoch = 0 ∧
      ∀ t service, s.mantleLedger.sdp.services.lookup t = some service →
        service.rewards.current.epoch = 0 := by
  obtain ⟨l, hl, hsdp, heq⟩ := fromGenesisTx_ok hg
  obtain ⟨new, rfl⟩ : ∃ new, l = CryptarchiaLedger.fromUtxos new config tx.consensusExcludedKeys
      tx.epochNonce := by grind [CryptarchiaLedger.fromGenesisTx]
  refine ⟨by rw [heq]; rfl, by rw [heq]; rfl, by rw [heq]; rfl, by rw [heq]; rfl, ?_⟩
  refine SdpLedger.fromGenesis_invariant (I := fun s => s.epoch = 0 ∧ ∀ t service,
    s.services.lookup t = some service → service.rewards.current.epoch = 0) hsdp ?_ ?_
  · refine ⟨rfl, fun t service hs => ?_⟩
    rcases lookup_insert_some.mp hs with ⟨-, rfl⟩ | ⟨-, hs⟩
    · rfl
    · cases hs
  · grind [SdpLedger.Change.sameEpochs, Rewards.SameEpochs.current]

theorem Clocks.of_genesis (hr : eras.Resolved)
    (hg : fromGenesisTx tx config = .ok s) : Clocks eras s := by
  obtain ⟨hslot, hepoch, hnext, hleaders, hsdp, hrewards⟩ := epochs_of_genesis hg
  have hzero : eras.epochForSlot s.slot = 0 := by rw [hslot, hr.epochForSlot_zero]
  exact ⟨by rw [hepoch, hzero], by rw [hnext, hzero], by rw [hleaders, hzero], by rw [hsdp, hzero],
    fun t service hs => by rw [hrewards t service hs, hzero]⟩

/-! ## The size of the network -/

def ServiceDeclarations.Distinct (m : ServiceDeclarations) : Prop :=
  ∀ t declarations, m.lookup t = some declarations → ∀ i j d e,
    declarations.lookup i = some d → declarations.lookup j = some e →
      d.providerId = e.providerId → i = j

theorem SdpLedger.Consistent.distinct {s : SdpLedger} (h : s.Consistent) (epoch : Nat)
    (params : Map ServiceType ServiceParameters) :
    ServiceDeclarations.Distinct (s.activeDeclarations epoch params) := by
  unfold SdpLedger.activeDeclarations
  have hempty : ServiceDeclarations.Distinct ∅ := by
    intro t declarations ht
    simp at ht
  generalize hacc : (∅ : ServiceDeclarations) = acc at hempty
  clear hacc
  induction ServiceType.all generalizing acc with
  | nil => exact hempty
  | cons t all ih =>
    refine ih _ ?_
    dsimp only
    split
    · rename_i service p hs hp
      split
      · exact hempty
      · intro t' declarations ht' i j d e hi hj
        rcases lookup_insert_some.mp ht' with ⟨rfl, rfl⟩ | ⟨-, ht'⟩
        · exact (h.services t' service hs).providers.unique (lookup_filter_some.mp hi).1
            (lookup_filter_some.mp hj).1
        · exact hempty t' declarations ht' i j d e hi hj
    · exact hempty

/-- As many providers as declarations, if they differ. -/
theorem card_providersAndZkRoot {declarations : Declarations}
    (h : ∀ i j d e, declarations.lookup i = some d → declarations.lookup j = some e →
      d.providerId = e.providerId → i = j) :
    (providersAndZkRoot declarations).1.keys.card = declarations.keys.card := by
  let providers := ((toList declarations).map fun e => (e.2.providerId, e.2.zkId)).insertionSort
    (·.2 ≤ ·.2)
  have hperm : (providers.map (·.1)).Perm ((toList declarations).map (·.2.providerId)) := by
    grind [Function.comp_def, List.perm_insertionSort]
  have hnodup : (providers.map (·.1)).Nodup := by
    rw [hperm.nodup_iff]
    refine List.Nodup.map_on (fun a ha b hb hab => ?_) (List.Nodup.of_map _ (nodup_toList _))
    grind [mem_toList]
  have hkeys : (providersAndZkRoot declarations).1.keys = (providers.map (·.1)).toFinset := by
    show (providers.zipIdx.foldl (fun m e => m.insert e.1.1 (e.1.2, e.2))
      (∅ : Map ProviderId (ZkPublicKey × Nat))).keys = _
    rw [keys_foldl_insert (fun e : (ProviderId × ZkPublicKey) × Nat => e.1.1) fun e => (e.1.2, e.2)]
    grind [map_zipIdx_fst, Finmap.keys_empty]
  rw [hkeys, List.toFinset_card_of_nodup hnodup, hperm.length_eq, List.length_map, length_toList]

/-- The providers of an epoch differ, and the target has enough of them. -/
structure NetworkSize (s : LedgerState) : Prop where
  epoch : s.cryptarchiaLedger.epochState.activeDeclarations.Distinct
  next : s.cryptarchiaLedger.nextEpochState.activeDeclarations.Distinct
  target : ∀ t service, s.mantleLedger.sdp.services.lookup t = some service →
    ∀ target ∈ service.rewards.target.map (·.1),
      target.minimumNetworkSize ≤ target.providers.keys.card

theorem Rewards.newTarget_networkSize {ε : Type} {r : Rewards} {last next : EpochState}
    {settings : RewardsParameters} {target : TargetEpochState}
    (hd : last.activeDeclarations.Distinct)
    (h : r.newTarget (ε := ε) last next settings = .ok (some target)) :
    target.minimumNetworkSize ≤ target.providers.keys.card := by
  obtain ⟨_, -, h1⟩ := bind_ok h
  obtain ⟨_, -, h2⟩ := bind_ok h1
  split at h2
  · cases h2
  dsimp only at h2
  split at h2
  · cases h2
  · rename_i hsize
    obtain ⟨⟨coreQuota, evaluation⟩, -, h3⟩ := bind_ok h2
    cases h3
    refine (not_lt.mp hsize).trans (le_of_eq (card_providersAndZkRoot ?_).symm)
    cases hl : last.activeDeclarations.lookup .blendNetwork with
    | none => simp
    | some declarations => exact hd _ declarations hl

theorem NetworkSize.header (hn : NetworkSize s) (hcons : s.mantleLedger.sdp.Consistent)
    (hh : s.tryApplyHeader h eras = .ok (s', events)) : NetworkSize s' := by
  obtain ⟨_, _, hheaded⟩ := headed hcons hh
  obtain ⟨l, hl, hepoch', hnext', -⟩ := tryApplyHeader_moved hh
  obtain ⟨-, next, hfollowed, hmoved⟩ := updateEpochState_moved hl
  have hnext : next.activeDeclarations.Distinct := by
    rw [hfollowed.activeDeclarations]
    split
    · exact hcons.distinct _ _
    · exact hn.next
  refine ⟨?_, ?_, fun t service' hs' target ht => ?_⟩
  · rw [hepoch']
    cases hmoved with
    | within _ h1 _ => rw [h1]; exact hn.epoch
    | next _ _ _ _ _ h1 _ => rw [h1]; exact hnext
    | later _ _ _ _ _ _ h1 _ => rw [h1]; exact hcons.distinct _ _
  · rw [hnext']
    cases hmoved with
    | within _ _ h2 => rw [h2]; exact hnext
    | next _ _ _ _ _ _ h2 => rw [h2]; exact hcons.distinct _ _
    | later _ _ _ _ _ _ _ h2 => rw [h2]; exact hcons.distinct _ _
  · obtain ⟨service, hs, hadvanced⟩ := hheaded.services t service' hs'
    have hrewards := hadvanced.rewards
    split at hrewards
    · obtain ⟨notes, hup⟩ := hrewards
      obtain ⟨target', h1, h2⟩ := bind_ok hup
      obtain ⟨h3, -⟩ := Prod.mk.inj (Except.ok.inj h2)
      rw [← h3] at ht
      cases target' with
      | none => cases ht
      | some target' =>
        cases ht
        exact Rewards.newTarget_networkSize hn.epoch h1
    · grind [target]

theorem NetworkSize.step (hn : NetworkSize s) (hcons : s.mantleLedger.sdp.Consistent)
    (hs : Step eras s a s') : NetworkSize s' := by
  rcases hs.header_or with ⟨h, events, rfl, hh⟩ | ha
  · exact hn.header hcons hh
  · have hsame := hs.sameEpoch ha
    obtain ⟨-, hservices⟩ := (hs.change ha).sameEpochs
    refine ⟨by rw [hsame.epochState]; exact hn.epoch,
      by rw [hsame.nextEpochState]; exact hn.next, fun t service' hs' target ht => ?_⟩
    grind [target, Rewards.SameEpochs.target]

theorem NetworkSize.of_genesis (hg : fromGenesisTx tx config = .ok s) : NetworkSize s := by
  have hcons := consistent_of_genesis hg
  obtain ⟨l, -, hsdp, heq⟩ := fromGenesisTx_ok hg
  have htarget : ∀ t service, s.mantleLedger.sdp.services.lookup t = some service →
      service.rewards.target.map (·.1) = none := by
    refine SdpLedger.fromGenesis_invariant (I := fun s => ∀ t service,
      s.services.lookup t = some service → service.rewards.target.map (·.1) = none) hsdp ?_ ?_
    · intro t service hs
      rcases lookup_insert_some.mp hs with ⟨-, rfl⟩ | ⟨-, hs⟩
      · rfl
      · cases hs
    · intro s s' hI hchange t service' hs'
      obtain ⟨service, hs, hsame⟩ := hchange.sameEpochs.2 t service' hs'
      rw [hsame.target, hI t service hs]
  refine ⟨?_, ?_, fun t service hs target ht => ?_⟩
  · rw [heq]
    exact hcons.distinct _ _
  · rw [heq]
    exact hcons.distinct _ _
  · rw [htarget t service hs] at ht
    cases ht

/-! ## Panics of an operation -/

theorem Rewards.updateActive_noPanic {ps : List Panic} {r : Rewards} {provider : ProviderId}
    {metadata : ActivityMetadata} (hsize : .networkSize ∈ ps →
      ∀ target ∈ r.target.map (·.1), target.minimumNetworkSize ≤ target.providers.keys.card) :
    NoPanic ps (r.updateActive provider metadata) := by
  unfold Rewards.updateActive
  split
  · intro e he
    cases he
    exact id
  · rename_i target tracker proof ht
    refine .bind ?_ fun _ _ => .bind (lift _ _) fun _ _ => .ok _
    refine .bind (failIf _ _) fun _ _ => .bind (Avoids.failIf fun hlt hp => ?_) fun _ _ => ?_
    · exact absurd (hsize hp target (by rw [ht]; rfl)) (not_le.mpr hlt)
    · exact .bind (okOr _ _) fun _ _ => .bind (failIf _ _) fun _ _ =>
        .bind (failIf _ _) fun _ _ => .ok _

theorem LedgerState.tryApplyOp_noPanic (hn : NetworkSize s) (op : SignedOp) (config : Config)
    (txHash : TxHash) (balance : Int) :
    NoPanic [.networkSize] (s.tryApplyOp op config txHash balance) := by
  cases op with
  | channelInscribe op proof => exact .bind (failIf _ _) fun _ _ => .ok _
  | channelConfig op proof => exact .ok _
  | channelDeposit op proof =>
    exact .bind (failIf _ _) fun _ _ => .bind (lift _ _) fun _ _ => .ok _
  | channelWithdraw op proof => exact .bind (lift _ _) fun _ _ => .ok _
  | channelTransfer op proof => exact .bind (lift _ _) fun _ _ => .ok _
  | sdpDeclare op proof =>
    refine .bind (wrap ?_) fun _ _ => .ok _
    refine .bind (okOr _ _) fun _ _ => .bind (wrap ?_) fun _ _ => .ok _
    exact .bind (expect (by decide)) fun _ _ => .bind (lift _ _) fun _ _ => .ok _
  | sdpActive op proof =>
    refine .bind (wrap ?_) fun _ _ => .ok _
    refine .bind (lift _ _) fun t _ => .bind (okOr _ _) fun service hs => ?_
    refine .bind (wrap (.bind (expect (by decide)) fun _ _ => .ok _)) fun _ _ => ?_
    refine .bind (expect (by decide)) fun _ _ => .bind (wrap ?_) fun _ _ => .ok _
    exact Rewards.updateActive_noPanic fun _ => hn.target t service (okOr_ok.mp hs)
  | sdpWithdraw op proof =>
    refine .bind (wrap ?_) fun _ _ => .ok _
    refine .bind (lift _ _) fun _ _ => .bind (okOr _ _) fun _ _ => ?_
    exact .bind (wrap (.bind (expect (by decide)) fun _ _ => .ok _)) fun _ _ => .ok _
  | leaderClaim op proof => exact .ok _
  | transfer op proof =>
    exact .bind (lift _ _) fun _ _ => .bind (lift _ _) fun _ _ =>
      .bind (okOr _ _) fun _ _ => .ok _
  | claimPowReward op =>
    refine .bind (.bind (wrap ?_) fun _ _ => .ok _) fun _ _ => .ok _
    exact .bind (expect (by decide)) fun _ _ => .bind (expect (by decide)) fun _ _ => .ok _

/-! ## Every reachable state -/

variable {tx : GenesisTx} {config : Config} {g : LedgerState} {ls : List Action}

theorem Clocks.of_run (hr : eras.Resolved) (hg : fromGenesisTx tx config = .ok g)
    (hrun : Run (Step eras) g ls s) : Clocks eras s := by
  refine (hrun.invariant (I := fun s => Clocks eras s ∧ s.mantleLedger.sdp.Consistent)
    ⟨.of_genesis hr hg, consistent_of_genesis hg⟩ ?_).1
  grind [consistent_of_step, step]

theorem NetworkSize.of_run (hg : fromGenesisTx tx config = .ok g)
    (hrun : Run (Step eras) g ls s) : NetworkSize s := by
  refine (hrun.invariant (I := fun s => NetworkSize s ∧ s.mantleLedger.sdp.Consistent)
    ⟨.of_genesis hg, consistent_of_genesis hg⟩ ?_).1
  grind [consistent_of_step, step]

/-- **All clocks of the epochs agree in every state that genesis leads to.** -/
theorem clocks_agree (hr : eras.Resolved) (hg : fromGenesisTx tx config = .ok g)
    (hrun : Run (Step eras) g ls s) :
    Clocks eras s ∧
    (∀ h, ∀ p ∈ [Panic.proofEpoch, .rewardsEpoch, .genesisEpoch],
      s.tryApplyHeader h eras ≠ .error (.panic p)) ∧
    (∀ slot proof, ∀ p ∈ [Panic.proofEpoch, .genesisEpoch],
      s.verifyProofOfLeadership slot proof eras ≠ .error (.panic p)) ∧
    (∀ slot, s.epochStateForSlot slot eras ≠ .error (.panic .genesisEpoch)) ∧
    (∀ op config txHash balance,
      s.tryApplyOp op config txHash balance ≠ .error (.panic .networkSize)) := by
  have hc := Clocks.of_run hr hg hrun
  have hcons := consistent_of_run hg hrun
  have hnext : s.cryptarchiaLedger.nextEpochState.epoch ≠ 0 := by
    rw [hc.next]
    exact Nat.succ_ne_zero _
  have hepoch : ∀ slot l, s.cryptarchiaLedger.updateEpochState slot s.mantleLedger.sdp
      s.mantleLedger.pow eras = .ok l → eras.epochForSlot slot = l.epochState.epoch := by
    intro slot l hl
    obtain ⟨-, next, hfollowed, hmoved⟩ := updateEpochState_moved hl
    exact (hmoved.epochs hfollowed hc.epoch hc.next).1.symm
  refine ⟨hc, fun h p hp => ?_, fun slot proof p hp => ?_, fun slot => ?_,
    fun op config txHash balance => ?_⟩
  · refine ne (tryApplyHeader_noPanic (fun _ => hnext) (fun _ => hepoch h.slot)
      (fun _ _ _ => hcons.header_noPanic (fun _ t service hs => ?_) (by decide)) (by decide)) hp
    rw [hc.epoch, hc.rewards t service hs]
  · have hmoved : NoPanic [.proofEpoch, .genesisEpoch] (s.verifyProofOfLeadership slot proof eras) := by
      refine .bind (.bind ?_ fun l hl => ?_) fun _ _ => .ok _
      · exact updateEpochState_noPanic (fun _ => hnext) (by decide)
      · exact .bind (.bind (Avoids.failIf fun hne _ => hne (hepoch slot l hl)) fun _ _ =>
          failIf _ _) fun _ _ => .ok _
    exact hmoved.ne hp
  · have hmoved : NoPanic [.genesisEpoch] (s.epochStateForSlot slot eras) :=
      .bind (updateEpochState_noPanic (fun _ => hnext) (by decide)) fun _ _ => .ok _
    exact hmoved.ne List.mem_cons_self
  · grind [tryApplyOp_noPanic, ne, NetworkSize.of_run]

end

def Config.longer : Config := { Config.small with epochConfig := ⟨4, 4, 4, Nat.succ_pos 3⟩ }

def twoEras : EraScheduledConfig :=
  ⟨⟨0, 0, .small⟩, [(2, ⟨20, 0, .longer⟩)], rfl, by simp, by simp⟩

theorem twoEras_resolved : twoEras.Resolved where
  chain := by
    refine List.isChain_pair.mpr ⟨?_, ?_⟩ <;> decide +kernel
  length_pos := fun e _ => Config.epochLength_pos e.parameters

def acrossEras [Primitives] : Result LedgerError (LedgerState × LedgerState) := do
  let g ← fromGenesisTx genesisWithService .small
  let s ← g.applyBlocks twoEras [⟨1, headerAt 1, []⟩, ⟨2, headerAt 35, []⟩]
  return (g, s)

theorem clocks_agree_acrossEras :
    letI := Primitives.plain
    ∃ g ls s, fromGenesisTx genesisWithService .small = .ok g ∧
      Run (Step twoEras) g ls s ∧ s.slot = 35 ∧ s.mantleLedger.leaders.epoch = 3 ∧
      s.mantleLedger.sdp.epoch = 3 ∧ s.cryptarchiaLedger.nextEpochState.epoch = 4 := by
  let _ := Primitives.plain
  obtain ⟨⟨g, s⟩, h, hslot⟩ := exists_ok (x := acrossEras) (fun r => r.2.slot = 35)
    (by decide +kernel)
  obtain ⟨_, h1, h2⟩ := bind_ok h
  obtain ⟨_, h3, h4⟩ := bind_ok h2
  cases h4
  have hrun := applyBlocks_run h3
  obtain ⟨hc, -⟩ := clocks_agree twoEras_resolved h1 hrun
  have hepoch : twoEras.epochForSlot s.slot = 3 := by
    rw [hslot]
    decide +kernel
  grind [Clocks.leaders, Clocks.sdp, Clocks.next]

end Logos.Ledger
