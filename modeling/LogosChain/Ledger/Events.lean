import LogosChain.Ledger.Registry

/-!
# What the ledger shows of its operations

Somebody who follows the ledger without its state sees the operations of a block and its events.
`OpShown` says once what these tell. A block claims no voucher twice, so the event of a claim can be
told from all others by its keys.
-/

namespace Logos

open Base List

namespace Mantle.SignedOp

/-- The voucher that an operation claims. -/
def claimed : SignedOp → Option VoucherNullifier
  | .leaderClaim op _ => some op.voucherNullifier
  | _ => none

/-- The notes that an operation takes out of a channel. -/
def leaving : SignedOp → List NoteId
  | .channelWithdraw op _ => op.inputs.ids
  | .channelTransfer op _ => op.inputs.ids
  | _ => []

/-- The notes that an operation makes serve. -/
def locked : SignedOp → List NoteId
  | .sdpDeclare op _ => [op.serviceNoteId]
  | _ => []

end Mantle.SignedOp

/-- The voucher whose reward an event reports. -/
def Mantle.TxEvent.claimed (e : TxEvent) : Option VoucherNullifier :=
  match e.payload with
  | .leaderRewardClaimed voucherNullifier _ => some voucherNullifier
  | _ => none

/-- The note of the reward that an event of a header reports. -/
def Mantle.HeaderEvent.reward : HeaderEvent → Option Utxo
  | .sdpRewardDistributed _ utxo => some utxo
  | .sdpNoteUnlocked _ _ _ => none

/-- The note that an event of a header reports to serve no more. -/
def Mantle.HeaderEvent.unlocked : HeaderEvent → Option NoteId
  | .sdpRewardDistributed _ _ => none
  | .sdpNoteUnlocked noteId _ _ => some noteId

namespace Ledger

open Mantle

variable [Primitives]

/-- The notes that an operation makes in a channel. -/
def LedgerState.entering (s : LedgerState) (op : SignedOp) : List NoteId :=
  match op with
  | .channelDeposit _ _ => (s.created op).map Utxo.id
  | .channelTransfer _ _ => (s.created op).map Utxo.id
  | _ => []

/-! ## Operations -/

/-- What an accepted operation shows of its effect. -/
structure OpShown (s : LedgerState) (op : SignedOp) (txHash : TxHash) (s' : LedgerState)
    (events : List TxEvent) : Prop where
  channel : ∀ n, s'.channels.isChannelNote n = true ↔
    n ∈ s.entering op ∨ (n ∉ op.leaving ∧ s.channels.isChannelNote n = true)
  service : ∀ n, s'.serviceNotes.contains n = true ↔
    n ∈ op.locked ∨ s.serviceNotes.contains n = true
  /-- A voucher is claimed once. -/
  unclaimed : ∀ nf, op.claimed = some nf → nf ∉ s.mantleLedger.leaders.nfs
  nfs : s'.mantleLedger.leaders.nfs = s.mantleLedger.leaders.nfs ∪ op.claimed.toFinset
  keys : ∀ e ∈ events, e.txHash = txHash ∧ e.opId = Primitives.opId op.operation ∧
    e.claimed = op.claimed
  claims : events.filterMap TxEvent.claimed = op.claimed.toList
  reward : ∀ claim proof, op = .leaderClaim claim proof →
    ⟨txHash, Primitives.opId (.leaderClaim claim), .leaderRewardClaimed claim.voucherNullifier
      (claim.utxo s.mantleLedger.leaders.rewardAmount)⟩ ∈ events

namespace OpShown

variable {s s' : LedgerState} {op : SignedOp} {txHash : TxHash} {events : List TxEvent} {n : NoteId}
  {channels : Channels} {utxos : Utxos} {proof : ChannelMultiSigProof}

omit [Primitives] in
theorem isChannelNote_iff {c : Channels} :
    c.isChannelNote n = true ↔ ∃ k, c.channelNotes.lookup n = some k := by
  simp [Channels.isChannelNote, ChannelNotes.contains, Option.isSome_iff_exists]

/-- An operation that moves notes into channels or out of them. -/
theorem of_moving (hclaim : op.claimed = none)
    (hs : ∀ n, s'.serviceNotes.contains n = true ↔
      n ∈ op.locked ∨ s.serviceNotes.contains n = true)
    (hn : s'.mantleLedger.leaders.nfs = s.mantleLedger.leaders.nfs)
    (hc : ∀ n, s'.channels.isChannelNote n = true ↔
      n ∈ s.entering op ∨ (n ∉ op.leaving ∧ s.channels.isChannelNote n = true))
    (hkeys : ∀ e ∈ events, e.txHash = txHash ∧ e.opId = Primitives.opId op.operation ∧
      e.claimed = none) : OpShown s op txHash s' events where
  channel := hc
  service := hs
  unclaimed nf h := by rw [hclaim] at h; cases h
  nfs := by simp [hclaim, hn]
  keys := hclaim ▸ hkeys
  claims := by grind [filterMap_eq_nil_iff]
  reward claim proof h := by rw [h] at hclaim; cases hclaim

/-- An operation that moves no note and claims no voucher. -/
theorem of_still (hent : s.entering op = []) (hleave : op.leaving = []) (hclaim : op.claimed = none)
    (hc : s'.channels.channelNotes = s.channels.channelNotes)
    (hs : ∀ n, s'.serviceNotes.contains n = true ↔
      n ∈ op.locked ∨ s.serviceNotes.contains n = true)
    (hn : s'.mantleLedger.leaders.nfs = s.mantleLedger.leaders.nfs)
    (hkeys : ∀ e ∈ events, e.txHash = txHash ∧ e.opId = Primitives.opId op.operation ∧
      e.claimed = none) : OpShown s op txHash s' events :=
  of_moving hclaim hs hn (fun n => by grind [isChannelNote_iff]) hkeys

theorem of_unlocking (hlock : op.locked = []) (hent : s.entering op = []) (hleave : op.leaving = [])
    (hclaim : op.claimed = none) (hc : s'.channels.channelNotes = s.channels.channelNotes)
    (hs : s'.serviceNotes = s.serviceNotes)
    (hn : s'.mantleLedger.leaders.nfs = s.mantleLedger.leaders.nfs)
    (hkeys : ∀ e ∈ events, e.txHash = txHash ∧ e.opId = Primitives.opId op.operation ∧
      e.claimed = none) : OpShown s op txHash s' events :=
  of_still hent hleave hclaim hc (fun n => by rw [hs, hlock]; simp) hn hkeys

theorem of_deposit {op : DepositOp} {proof : ZkSignature}
    (h : op.execute s.channels s.utxos txHash = .ok (channels, utxos, events)) :
    OpShown s (.channelDeposit op proof) txHash ((s.withChannels channels).withUtxos utxos)
      events := by
  obtain ⟨_, -, h1⟩ := bind_ok h
  obtain ⟨notes, h2, h3⟩ := bind_ok h1
  obtain ⟨_, -, h4⟩ := bind_ok h3
  obtain ⟨_, h5, h6⟩ := bind_ok h4
  cases h6
  obtain ⟨-, -, hlookup⟩ := Channels.registerAll_ok (mapError_ok.mp h5)
  have hent : s.entering (.channelDeposit op proof) = (op.newUtxos notes).map Utxo.id := by
    simp [LedgerState.entering, LedgerState.created, mapError_ok.mp h2, Except.toOption]
  refine of_moving rfl (fun _ => (or_iff_right not_mem_nil).symm) rfl (fun n => ?_)
    (forall_mem_singleton.mpr ⟨rfl, rfl, rfl⟩)
  show channels.isChannelNote n = true ↔ _
  grind [isChannelNote_iff, SignedOp.leaving]

theorem of_channelWithdraw {op : ChannelWithdrawOp} (h : op.execute s.channels = .ok channels) :
    OpShown s (.channelWithdraw op proof) txHash (s.withChannels channels) [] := by
  obtain ⟨-, -, hlookup⟩ := Channels.unregisterAll_ok (mapError_ok.mp h)
  refine of_moving rfl (fun _ => (or_iff_right not_mem_nil).symm) rfl (fun n => ?_) (by simp)
  show channels.isChannelNote n = true ↔ _
  grind [isChannelNote_iff, SignedOp.leaving, LedgerState.entering]

theorem of_channelTransfer {op : ChannelTransferOp}
    (h : op.execute s.channels s.utxos = .ok (channels, utxos)) :
    OpShown s (.channelTransfer op proof) txHash ((s.withChannels channels).withUtxos utxos) [] := by
  obtain ⟨_, released, -, hrel, hreg, -⟩ := ChannelTransferOp.execute_ok h
  obtain ⟨-, -, hlookup⟩ := Channels.unregisterAll_ok hrel
  obtain ⟨-, -, hlookup'⟩ := Channels.registerAll_ok hreg
  refine of_moving rfl (fun _ => (or_iff_right not_mem_nil).symm) rfl (fun n => ?_) (by simp)
  show channels.isChannelNote n = true ↔ n ∈ op.newUtxos.map Utxo.id ∨ _
  grind [isChannelNote_iff, SignedOp.leaving]

omit [Primitives] in
theorem contains_lock {notes notes' : ServiceNotes} {m : MinStake} {t : ServiceType}
    {d : DeclarationId} {note : Note} (h : notes.lock m t d note n = .ok notes')
    (k : NoteId) : notes'.contains k = true ↔ k = n ∨ notes.contains k = true := by
  obtain ⟨-, -, e, -, -, rfl⟩ := ServiceNotes.lock_ok h
  grind [ServiceNotes.contains, Map.lookup_insert_ite]

theorem of_leaderClaim {claim : LeaderClaimOp} {proof : LeaderClaimProof}
    (hv : claim.voucherNullifier ∉ s.mantleLedger.leaders.nfs) :
    OpShown s (.leaderClaim claim proof) txHash (s.applyLeaderClaim claim txHash).1
      (s.applyLeaderClaim claim txHash).2 where
  channel n := by simp [LedgerState.entering, SignedOp.leaving, LedgerState.applyLeaderClaim,
    LedgerState.channels, LedgerState.withUtxos, LedgerState.withLeaders]
  service n := by simp [SignedOp.locked, LedgerState.applyLeaderClaim, LedgerState.serviceNotes,
    LedgerState.withUtxos, LedgerState.withLeaders]
  unclaimed nf h := by
    cases h
    exact hv
  nfs := by
    show insert claim.voucherNullifier s.mantleLedger.leaders.nfs = _ ∪ {claim.voucherNullifier}
    rw [Finset.union_singleton]
  keys := forall_mem_singleton.mpr ⟨rfl, rfl, rfl⟩
  claims := rfl
  reward claim' proof' h := by
    cases h
    exact mem_singleton_self _

theorem of_apply {eras : EraScheduledConfig} {config : Config} {opIndex : Nat}
    {deferred : DeferredProofs} {balance balance' : Int}
    (hv : op.verify opIndex txHash (s.helper eras) = .ok deferred)
    (h : s.tryApplyOp op config txHash balance = .ok (s', balance', events)) :
    OpShown s op txHash s' events := by
  cases LedgerState.tryApplyOp_ok h with
  | channelInscribe | channelConfig | transfer =>
    exact of_unlocking rfl rfl rfl rfl rfl rfl rfl (by simp)
  | channelDeposit _ hx => exact of_deposit hx
  | channelWithdraw _ hx => exact of_channelWithdraw hx
  | channelTransfer _ hx => exact of_channelTransfer hx
  | sdpDeclare _ hx =>
    obtain ⟨_, -, hlock⟩ := SdpLedger.tryApplySdpDeclaration_ok hx
    refine of_still rfl rfl rfl rfl (fun n => ?_) rfl (by simp)
    exact (contains_lock hlock n).trans (or_congr_left mem_singleton.symm)
  | sdpWithdraw _ hx =>
    exact of_unlocking rfl rfl rfl rfl rfl (SdpLedger.applyWithdrawnMsg_ok hx) rfl (by simp)
  | sdpActive _ hx =>
    exact of_unlocking rfl rfl rfl rfl rfl (SdpLedger.applyActiveMsg_ok hx) rfl (by simp)
  | leaderClaim =>
    obtain ⟨_, hv1, -⟩ := bind_ok hv
    obtain ⟨_, hv2, -⟩ := bind_ok (lift_ok.mp hv1)
    exact of_leaderClaim (failIf_ok.mp hv2)
  | claimPowReward hx =>
    obtain ⟨_, -, h1⟩ := bind_ok hx
    obtain ⟨_, -, h2⟩ := bind_ok h1
    cases h2
    exact of_unlocking rfl rfl rfl rfl rfl rfl rfl (forall_mem_singleton.mpr ⟨rfl, rfl, rfl⟩)

end OpShown

/-! ## Transactions and blocks -/

/-- Vouchers that are claimed once each, and none claimed before. -/
structure ClaimedOnce (nfs : Finset VoucherNullifier) (claims : List VoucherNullifier)
    (nfs' : Finset VoucherNullifier) : Prop where
  nodup : claims.Nodup
  unclaimed : ∀ nf ∈ claims, nf ∉ nfs
  nfs : nfs' = nfs ∪ claims.toFinset

omit [Primitives] in
theorem ClaimedOnce.nil (nfs : Finset VoucherNullifier) : ClaimedOnce nfs [] nfs :=
  ⟨nodup_nil, by simp, by simp⟩

omit [Primitives] in
theorem ClaimedOnce.append {a b c : Finset VoucherNullifier} {l l' : List VoucherNullifier}
    (h : ClaimedOnce a l b) (h' : ClaimedOnce b l' c) : ClaimedOnce a (l ++ l') c where
  nodup := by
    refine nodup_append.mpr ⟨h.nodup, h'.nodup, fun x hx y hy hxy => ?_⟩
    refine h'.unclaimed y hy ?_
    rw [h.nfs, ← hxy]
    exact Finset.mem_union_right _ (mem_toFinset.mpr hx)
  unclaimed nf hnf ha := by
    rcases mem_append.mp hnf with hl | hl'
    · exact h.unclaimed nf hl ha
    · exact h'.unclaimed nf hl' (by rw [h.nfs]; exact Finset.mem_union_left _ ha)
  nfs := by rw [h'.nfs, h.nfs, toFinset_append, Finset.union_assoc]

variable {txHash : TxHash} {eras : EraScheduledConfig} {config : Config}

theorem OpShown.claimedOnce {s s' : LedgerState} {op : SignedOp} {events : List TxEvent}
    (h : OpShown s op txHash s' events) :
    ClaimedOnce s.mantleLedger.leaders.nfs op.claimed.toList s'.mantleLedger.leaders.nfs where
  nodup := by cases op.claimed <;> simp
  unclaimed nf hnf := h.unclaimed nf (by simpa using hnf)
  nfs := by
    rw [h.nfs]
    cases op.claimed <;> rfl

/-- An event of an operation of a transaction. -/
def EventOf (tx : SignedOps) (e : TxEvent) : Prop :=
  ∃ op ∈ tx.ops, e.txHash = tx.hash ∧ e.opId = Primitives.opId op.operation ∧
    e.claimed = op.claimed

/-- The next operation, with its effect and its events. -/
theorem TxRun.step_shown {r r' : TxRun} {op : SignedOp × Nat}
    (h : step eras config txHash r op = .ok r') :
    ∃ events, r'.events = r.events ++ events ∧ OpShown r.state op.1 txHash r'.state events := by
  obtain ⟨_, _, events, hv, -, -, ha, hevents, -⟩ := step_ok h
  exact ⟨events, hevents, .of_apply hv ha⟩

theorem TxRun.foldlM_shown {tx : SignedOps} {ops : List (SignedOp × Nat)} {r r' : TxRun}
    (hops : ∀ op ∈ ops, op.1 ∈ tx.ops) (h : ops.foldlM (step eras config tx.hash) r = .ok r') :
    ∃ events, r'.events = r.events ++ events ∧ (∀ e ∈ events, EventOf tx e) ∧
      events.filterMap TxEvent.claimed = (ops.map (·.1)).filterMap SignedOp.claimed ∧
      ClaimedOnce r.state.mantleLedger.leaders.nfs (events.filterMap TxEvent.claimed)
        r'.state.mantleLedger.leaders.nfs := by
  induction ops generalizing r with
  | nil =>
    rw [foldlM_nil_ok h]
    exact ⟨[], by simp, by simp, rfl, .nil _⟩
  | cons op ops ih =>
    obtain ⟨r1, h1, h2⟩ := foldlM_cons_ok h
    obtain ⟨first, hfirst, hshown⟩ := step_shown h1
    obtain ⟨rest, hrest, hof, hclaims, honce⟩ :=
      ih (fun op' hop' => hops op' (mem_cons_of_mem _ hop')) h2
    refine ⟨first ++ rest, by rw [hrest, hfirst, append_assoc], fun e he => ?_, ?_, ?_⟩
    · rcases mem_append.mp he with he | he
      · exact ⟨op.1, hops op mem_cons_self, hshown.keys e he⟩
      · exact hof e he
    · grind [OpShown.claims]
    · rw [filterMap_append, hshown.claims]
      exact hshown.claimedOnce.append honce

/-- What a block shows of its transactions. -/
structure BlockShown (txs : List SignedOps) (events : List TxEvent) : Prop where
  emitted : ∀ e ∈ events, ∃ tx ∈ txs, EventOf tx e
  claims : events.filterMap TxEvent.claimed =
    txs.flatMap fun tx => tx.ops.filterMap SignedOp.claimed
  nodup : (events.filterMap TxEvent.claimed).Nodup

namespace LedgerState

variable {s s' : LedgerState} {eras : EraScheduledConfig}

theorem tryApplyTransaction_shown {tx : SignedOps} {g : GasAndFees} {events : List TxEvent}
    {deferred : DeferredProofs}
    (h : s.tryApplyTransaction eras tx = .ok (s', g, events, deferred)) :
    (∀ e ∈ events, EventOf tx e) ∧
      events.filterMap TxEvent.claimed = tx.ops.filterMap SignedOp.claimed ∧
      ClaimedOnce s.mantleLedger.leaders.nfs (events.filterMap TxEvent.claimed)
        s'.mantleLedger.leaders.nfs := by
  obtain ⟨r, h1, rfl, rfl, -⟩ := tryApplyTransaction_ok.mp h
  obtain ⟨_, -, h2⟩ := bind_ok h1
  grind [TxRun.foldlM_shown, zipIdx_map_fst, TxRun.start]

end LedgerState

variable {eras : EraScheduledConfig} {config : Config} {s s' : LedgerState} {txs : List SignedOps}
  {events : List TxEvent} {op : SignedOp} {tx : SignedOps} {nf : VoucherNullifier} {utxos : Utxos}

theorem BlockRun.foldlM_shown {txs : List (SignedOps × Nat)} {b b' : BlockRun}
    (h : txs.foldlM (BlockRun.step eras config) b = .ok b') :
    ∃ events, b'.events = b.events ++ events ∧
      (∀ e ∈ events, ∃ tx ∈ txs.map (·.1), EventOf tx e) ∧
      events.filterMap TxEvent.claimed =
        (txs.map (·.1)).flatMap (fun tx => tx.ops.filterMap SignedOp.claimed) ∧
      ClaimedOnce b.state.mantleLedger.leaders.nfs (events.filterMap TxEvent.claimed)
        b'.state.mantleLedger.leaders.nfs := by
  induction txs generalizing b with
  | nil =>
    rw [foldlM_nil_ok h]
    exact ⟨[], by simp, by simp, rfl, .nil _⟩
  | cons tx txs ih =>
    obtain ⟨b1, h1, h2⟩ := foldlM_cons_ok h
    obtain ⟨g, first, deferred, ha, -, hfirst, -⟩ := step_ok h1
    obtain ⟨hof, hclaims, honce⟩ := LedgerState.tryApplyTransaction_shown ha
    grind [ClaimedOnce.append]

theorem LedgerState.tryApplyBlockContents_shown {deferred : DeferredProofs}
    (h : s.tryApplyBlockContents eras txs = .ok (s', events, deferred)) : BlockShown txs events := by
  obtain ⟨b, h1, -, hevents, -⟩ := tryApplyBlockContents_ok h
  obtain ⟨shown, heq, hof, hclaims, honce⟩ := BlockRun.foldlM_shown h1
  rw [zipIdx_map_fst] at hof hclaims
  have hsame : events = shown := by simpa [BlockRun.start, hevents] using heq
  rw [hsame]
  exact ⟨hof, hclaims, honce.nodup⟩

/-! ## Headers -/

omit [Primitives] in
theorem rewards_removeWithdrawnDeclarations {ε : Type} {r r' : Registrations} {epoch : Nat}
    {events : List HeaderEvent}
    (h : (removeWithdrawnDeclarations r epoch : Result ε _) = .ok (r', events)) :
    events.filterMap HeaderEvent.reward = [] := by
  refine foldlM_invariant (I := fun p : Registrations × List HeaderEvent =>
    p.2.filterMap HeaderEvent.reward = []) h rfl ?_
  intro e _ p p' hp hstep
  obtain ⟨⟨serviceNotes, _⟩, -, h1⟩ := bind_ok hstep
  cases h1
  rw [filterMap_append, hp, nil_append]
  split <;> rfl

/-- The rewards of a header are those of its events. -/
theorem SdpLedger.rewards_tryApplyHeader {s s' : SdpLedger} {lastConfig config : SdpConfig}
    {last next : EpochState} {effect : HeaderEffect}
    (h : s.tryApplyHeader lastConfig config last next = .ok (s', effect)) :
    effect.events.filterMap HeaderEvent.reward = effect.rewardUtxos := by
  refine tryApplyHeader_invariant h (I := fun _ effect =>
    effect.events.filterMap HeaderEvent.reward = effect.rewardUtxos) rfl ?_
  intro service t notes effect rewards utxos r events hsofar _ hremoved
  rw [filterMap_append, hsofar, filterMap_append,
    rewards_removeWithdrawnDeclarations hremoved, filterMap_map, append_nil]
  congr 1
  exact filterMap_some

/-- What a header does to the notes, as its events show it. -/
structure HeaderShown (s : LedgerState) (h : Header) (eras : EraScheduledConfig) (s' : LedgerState)
    (events : List HeaderEvent) : Prop where
  utxos : s'.utxos = s.utxos.insertAll (events.filterMap HeaderEvent.reward)
  made : s.headerUtxos h eras = events.filterMap HeaderEvent.reward
  channels : s'.channels = s.channels
  releases : s.serviceNotes.Releases s'.serviceNotes events
  slot : s'.slot = h.slot

theorem HeaderShown.of_apply {h : Header} {events : List HeaderEvent}
    (hc : s.mantleLedger.sdp.Consistent)
    (hh : s.tryApplyHeader h eras = .ok (s', events)) : HeaderShown s h eras s' events := by
  obtain ⟨l, effect, hp, rfl⟩ := LedgerState.tryApplyHeader_ok hh
  have hrewards := SdpLedger.rewards_tryApplyHeader hp.sdp
  refine ⟨?_, hp.headerUtxos_eq.trans hrewards.symm, hp.channels, (hc.header hp.sdp).releases,
    hp.slot.2⟩
  rw [hrewards]
  exact hp.utxos

/-! ## Telling events apart -/

/-- Hashes tell transactions apart, and ids tell claims from the rest. -/
structure DistinctIds (txs : List SignedOps) : Prop where
  hashes : ∀ tx ∈ txs, ∀ tx' ∈ txs, tx.hash = tx'.hash →
    tx.ops.map SignedOp.operation = tx'.ops.map SignedOp.operation
  claimIds : ∀ tx ∈ txs, ∀ op ∈ tx.ops, ∀ claim ∈ tx.ops, claim.claimed.isSome = true →
    Primitives.opId op.operation = Primitives.opId claim.operation →
      op.operation = claim.operation

instance (txs : List SignedOps) : Decidable (DistinctIds txs) :=
  decidable_of_iff (_ ∧ _) ⟨fun h => ⟨h.1, h.2⟩, fun h => ⟨h.hashes, h.claimIds⟩⟩

omit [Primitives] in
theorem SignedOp.claimed_congr {op' : SignedOp} (h : op.operation = op'.operation) :
    op.claimed = op'.claimed := by
  cases op <;> cases op' <;> first | rfl | cases h <;> rfl

theorem BlockShown.claim_event (h : BlockShown txs events) (hd : DistinctIds txs) (htx : tx ∈ txs)
    (hop : op ∈ tx.ops) (hnf : op.claimed = some nf) {e e' : TxEvent} (he : e ∈ events)
    (he' : e' ∈ events) (hkey : e.txHash = tx.hash ∧ e.opId = Primitives.opId op.operation)
    (hkey' : e'.txHash = tx.hash ∧ e'.opId = Primitives.opId op.operation) : e = e' := by
  -- An event with the keys is of the same operation, so it reports the same claim.
  have hclaim : ∀ e ∈ events, e.txHash = tx.hash ∧ e.opId = Primitives.opId op.operation →
      e.claimed = some nf := by
    rintro e he ⟨h1, h2⟩
    obtain ⟨tx', htx', op', hop', h3, h4, h5⟩ := h.emitted e he
    have hmem : op.operation ∈ tx'.ops.map SignedOp.operation := by grind [DistinctIds.hashes]
    grind [SignedOp.claimed_congr, DistinctIds.claimIds]
  exact eq_of_nodup_filterMap h.nodup he he' (hclaim e he hkey) (hclaim e' he' hkey')

theorem BlockShown.claim_reported (h : BlockShown txs events) (htx : tx ∈ txs) (hop : op ∈ tx.ops)
    (hnf : op.claimed = some nf) :
    ∃ e ∈ events, e.txHash = tx.hash ∧ e.opId = Primitives.opId op.operation ∧
      e.claimed = some nf := by
  have hmem : nf ∈ events.filterMap TxEvent.claimed := by
    rw [h.claims]
    grind
  obtain ⟨e, he, hclaimed⟩ := mem_filterMap.mp hmem
  obtain ⟨tx', htx', op', hop', h1, h2, h3⟩ := h.emitted e he
  have hnodup := h.nodup
  rw [h.claims, nodup_flatMap] at hnodup
  -- The event is of an operation that claims the voucher, and only one does.
  have hsame : tx' = tx := by
    by_contra hne
    have : Std.Symm (Function.onFun List.Disjoint fun tx : SignedOps =>
        tx.ops.filterMap SignedOp.claimed) := ⟨fun _ _ hdis => hdis.symm⟩
    exact hnodup.2.forall htx' htx hne (mem_filterMap.mpr ⟨op', hop', h3 ▸ hclaimed⟩)
      (mem_filterMap.mpr ⟨op, hop, hnf⟩)
  grind [eq_of_nodup_filterMap]

/-! ## Notes under their ids -/

/-- The unspent notes are stored under their ids. -/
def KeyedNotes (utxos : Utxos) : Prop := ∀ n u, utxos.get n = some u → u.id = n

theorem KeyedNotes.insertAll (h : KeyedNotes utxos) (new : List Utxo) :
    KeyedNotes (utxos.insertAll new) := by
  induction new generalizing utxos with
  | nil => exact h
  | cons u new ih =>
    refine ih fun n v hv => ?_
    rw [FlatTree.get_insert] at hv
    split at hv
    · rename_i hn
      cases hv
      exact hn.symm
    · exact h n v hv

theorem KeyedNotes.exchange {utxos' : Utxos} {spent : List NoteId} {new : List Utxo}
    (h : KeyedNotes utxos) (hx : Exchange utxos utxos' spent new) : KeyedNotes utxos' := by
  intro n u hu
  by_cases hn : n ∈ new.map Utxo.id
  · grind [Exchange.made]
  · rw [hx.other n hn] at hu
    split at hu
    · cases hu
    · exact h n u hu

/-- The notes that an operation makes have fresh ids. -/
def LedgerState.OpFresh (s : LedgerState) (op : SignedOp) : Prop := s.utxos.Fresh (s.created op)

theorem KeyedNotes.step {a : Action} (h : KeyedNotes s.utxos)
    (hstep : GuardedStep eras LedgerState.OpFresh s a s') : KeyedNotes s'.utxos := by
  obtain ⟨hstep, hfresh⟩ := hstep
  cases hstep with
  | header hh =>
    obtain ⟨l, effect, hp, -⟩ := LedgerState.tryApplyHeader_ok hh
    rw [hp.utxos]
    exact h.insertAll _
  | seen => exact h
  | operation hv ha => exact h.exchange ((OpEffect.of_apply hv ha).exchange (hfresh _ rfl))
  | settled hs => exact (LedgerState.settleBlock_sameNotes hs).utxos ▸ h
  | counted hr => exact (LedgerState.recordBlock_sameNotes hr).utxos ▸ h

theorem KeyedNotes.genesis {tx : GenesisTx}
    (h : LedgerState.fromGenesisTx tx config = .ok s) : KeyedNotes s.utxos := by
  obtain ⟨l, h1, -, h2⟩ := LedgerState.fromGenesisTx_ok h
  unfold CryptarchiaLedger.fromGenesisTx at h1
  split at h1
  · cases h1
  · cases h1
    have hempty : KeyedNotes (FlatTree.empty : Utxos) := fun n u hu => by
      simp [FlatTree.get, FlatTree.empty] at hu
    rw [h2]
    exact hempty.insertAll _

/-- Reachable states store notes under their ids. -/
theorem Reachable.keyed (h : Reachable eras s) :
    KeyedNotes s.utxos ∧ s.mantleLedger.sdp.Consistent := by
  induction h with
  | genesis h => exact ⟨.genesis h, LedgerState.consistent_of_genesis h⟩
  | ledger _ id ih => exact ih
  | @block s s' id header txs events deferred _ hf hu ih =>
    have hrun := LedgerState.tryUpdate_guarded (b := ⟨id, header, txs⟩) (P := LedgerState.OpFresh)
      hu hf.2
    exact hrun.invariant (I := fun s => KeyedNotes s.utxos ∧ s.mantleLedger.sdp.Consistent) ih
      fun _ _ _ hI hstep => ⟨hI.1.step hstep, LedgerState.consistent_of_step hstep.1 hI.2⟩

/-! ## The operations of a chain -/

namespace LedgerState

/-- The operations of a transaction with the states they are applied to. -/
def txExecuted (s : LedgerState) (eras : EraScheduledConfig) (tx : SignedOps) :
    List (LedgerState × SignedOp) :=
  (visited (TxRun.step eras (configForSlot eras s.slot) tx.hash) (.start s) tx.ops.zipIdx).map
    fun v => (v.1.state, v.2.1)

/-- The operations of a block, each with its state. -/
def blockExecuted (s : LedgerState) (eras : EraScheduledConfig) (b : Block) :
    List (LedgerState × SignedOp) :=
  match s.tryApplyHeader b.header eras with
  | .error _ => []
  | .ok (s1, _) =>
    (visited (BlockRun.step eras (configForSlot eras b.header.slot))
      (.start (s1.addSeenBlock b.id b.header.slot eras)) b.txs.zipIdx).flatMap
      fun v => v.1.state.txExecuted eras v.2.1

/-- The operations of a chain, each with its state. -/
def executed (s : LedgerState) (eras : EraScheduledConfig) (bs : List Block) :
    List (LedgerState × SignedOp) :=
  (visited (applyBlock eras) s bs).flatMap fun v => v.1.blockExecuted eras v.2

end LedgerState

end Ledger

end Logos
