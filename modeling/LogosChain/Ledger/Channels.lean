import LogosChain.Base.MessageChain
import LogosChain.Ledger.Registry

/-!
# The channels along a run (`core/src/mantle/channel.rs`, `core/src/mantle/ops/channel`)

Only inscriptions and configurations change the state of a channel; other operations change who owns
notes (`ChannelStep`). So along every run the turn of a channel is that of one of its keys, and its
messages are one chain from the root to its tip, as are its configurations.
-/

namespace Logos

namespace Mantle

open Base

/-! ## Turns -/

namespace ChannelState

/-- What holds of the state of a channel in a ledger at a slot. -/
structure WellFormed (slot : Nat) (c : ChannelState) : Prop where
  keys : 1 ≤ c.accreditedKeys.keys.length
  tipSequencer : c.tipSequencer < c.accreditedKeys.keys.length
  configurationThreshold_pos : 1 ≤ c.configurationThreshold
  configurationThreshold_le : c.configurationThreshold ≤ c.accreditedKeys.keys.length
  transferThreshold : 1 ≤ c.transferThreshold
  startingSlot : c.tipSequencerStartingSlot ≤ c.tipSlot
  tipSlot : c.tipSlot ≤ slot

variable {c : ChannelState} {slot slot' : Nat}

theorem WellFormed.mono (h : c.WellFormed slot) (hle : slot ≤ slot') : c.WellFormed slot' :=
  { h with tipSlot := h.tipSlot.trans hle }

theorem roundRobin_lt (h : c.tipSequencer < c.accreditedKeys.keys.length) (blockSlot : Nat) :
    (c.roundRobin blockSlot).1 < c.accreditedKeys.keys.length := by
  unfold roundRobin
  simp only
  generalize Option.or _ _ = turns
  cases turns with
  | none => exact h
  | some turns => exact Nat.mod_lt _ (by omega)

/-- A turn starts at the latest at the slot it is asked for. -/
theorem roundRobin_le (h : c.tipSequencerStartingSlot ≤ c.tipSlot) (hslot : c.tipSlot ≤ slot) :
    (c.roundRobin slot).2 ≤ slot := by
  have htimeout : (slot - c.tipSlot) / c.postingTimeout * c.postingTimeout ≤ slot - c.tipSlot :=
    Nat.div_mul_le_self _ _
  have htimeframe : (slot - c.tipSequencerStartingSlot) / c.postingTimeframe * c.postingTimeframe ≤
      slot - c.tipSequencerStartingSlot := Nat.div_mul_le_self _ _
  unfold roundRobin checkedDiv
  grind

end ChannelState

/-- Every channel is well-formed at a slot. -/
def Channels.WellFormed (slot : Nat) (c : Channels) : Prop :=
  ∀ k state, c.channelState k = some state → state.WellFormed slot

namespace Channels.WellFormed

variable {c : Channels} {slot slot' : Nat}

theorem mono (h : c.WellFormed slot) (hle : slot ≤ slot') : c.WellFormed slot' :=
  fun k state hk => (h k state hk).mono hle

theorem setChannel (h : c.WellFormed slot) (k : ChannelId) {state : ChannelState}
    (hs : state.WellFormed slot) : (c.setChannel k state).WellFormed slot := by
  intro k' state' hk'
  rw [channelState_setChannel] at hk'
  split at hk'
  · cases hk'
    exact hs
  · exact h k' state' hk'

end Channels.WellFormed

namespace InscriptionOp

variable {op : InscriptionOp} {c : Channels} {slot : Nat}

theorem verify_parent (h : op.verify c slot = .ok ()) :
    op.parent = ((c.channelState op.channelId).map (·.tipMessage)).getD MsgId.root := by
  unfold verify at h
  split at h
  · rename_i channel hk
    obtain ⟨_, h1, -⟩ := bind_ok h
    rw [hk]
    exact not_not.mp (failIf_ok.mp h1)
  · rename_i hk
    rw [hk]
    exact not_not.mp (failIf_ok.mp h)

theorem newChannel_wellFormed (op : InscriptionOp) (slot : Nat) :
    (op.newChannel slot).WellFormed slot :=
  ⟨le_rfl, Nat.one_pos, le_rfl, le_rfl, le_rfl, le_rfl, le_rfl⟩

theorem execute_wellFormed [Primitives] (h : c.WellFormed slot) :
    (op.execute c slot).WellFormed slot := by
  have hchannel : ((c.channelState op.channelId).getD (op.newChannel slot)).WellFormed slot := by
    cases hk : c.channelState op.channelId with
    | none => exact op.newChannel_wellFormed slot
    | some channel => exact h _ _ hk
  refine h.setChannel _ { hchannel with tipSequencer := ?_, startingSlot := ?_, tipSlot := le_rfl }
  · exact ChannelState.roundRobin_lt hchannel.tipSequencer slot
  · exact ChannelState.roundRobin_le hchannel.startingSlot hchannel.tipSlot

/-- On well-formed channels the key of the turn is found. -/
theorem verify_noPanic (h : c.WellFormed slot) (op : InscriptionOp) (blockSlot : Nat) (p : Panic) :
    op.verify c blockSlot ≠ .error (.panic p) := by
  refine (?_ : NoPanic [p] (op.verify c blockSlot)).ne List.mem_cons_self
  unfold verify
  split
  · rename_i channel hk
    have hturn := ChannelState.roundRobin_lt (h _ _ hk).tipSequencer blockSlot
    refine .bind (NoPanic.failIf _ _) fun _ _ => .bind (Avoids.okOr fun hnone => ?_) fun _ _ =>
      NoPanic.failIf _ _
    rw [List.getElem?_eq_none_iff] at hnone
    omega
  · exact NoPanic.failIf _ _

end InscriptionOp

namespace ChannelConfigOp

variable {op : ChannelConfigOp} {proof : ChannelMultiSigProof} {c : Channels} {slot : Nat}

theorem verify_parent [Primitives] {txHash : TxHash} (h : op.verify proof c txHash = .ok ()) :
    op.parent = ((c.channelState op.channel).map (·.configTipHash)).getD MsgId.root := by
  unfold verify at h
  split at h <;> rename_i hk <;> obtain ⟨_, h1, -⟩ := bind_ok h <;> rw [hk] <;>
    exact not_not.mp (failIf_ok.mp h1)

theorem execute_wellFormed [Primitives] (h : c.WellFormed slot) :
    (op.execute c slot).WellFormed slot := by
  have hpos := op.configurationThreshold_pos
  have hle := op.configurationThreshold_le
  refine h.setChannel _ ⟨?_, ?_, hpos, hle, op.transferThreshold_pos, le_rfl, le_rfl⟩
  · exact Nat.le_trans hpos hle
  · exact hpos.trans_le hle

end ChannelConfigOp

/-! ## Messages -/

def SignedOp.inscription? : SignedOp → Option InscriptionOp
  | .channelInscribe op _ => some op
  | _ => none

def SignedOp.configuration? : SignedOp → Option ChannelConfigOp
  | .channelConfig op _ => some op
  | _ => none

/-- The messages of some operations to a channel. -/
def inscriptionsOn (k : ChannelId) (ops : List SignedOp) : List InscriptionOp :=
  (ops.filterMap SignedOp.inscription?).filter (·.channelId = k)

/-- The configurations of a channel among some operations. -/
def configurationsOn (k : ChannelId) (ops : List SignedOp) : List ChannelConfigOp :=
  (ops.filterMap SignedOp.configuration?).filter (·.channel = k)

section

variable (k : ChannelId)

@[simp] theorem inscriptionsOn_append (ops ops' : List SignedOp) :
    inscriptionsOn k (ops ++ ops') = inscriptionsOn k ops ++ inscriptionsOn k ops' := by
  simp [inscriptionsOn]

@[simp] theorem configurationsOn_append (ops ops' : List SignedOp) :
    configurationsOn k (ops ++ ops') = configurationsOn k ops ++ configurationsOn k ops' := by
  simp [configurationsOn]

@[simp] theorem inscriptionsOn_singleton (op : SignedOp) :
    inscriptionsOn k [op] = op.inscription?.toList.filter (·.channelId = k) := by
  cases h : op.inscription? <;> simp [inscriptionsOn, h]

@[simp] theorem configurationsOn_singleton (op : SignedOp) :
    configurationsOn k [op] = op.configuration?.toList.filter (·.channel = k) := by
  cases h : op.configuration? <;> simp [configurationsOn, h]

end

end Mantle

namespace Ledger

open Base Mantle

/-! ## What a step does to the channels -/

/-- The operation of a step. -/
def Action.operation? : Action → Option SignedOp
  | .operation op => some op
  | _ => none

section

variable [Primitives] {eras : EraScheduledConfig} {s s' : LedgerState}

/-- What a step does to the states of the channels at a slot. -/
inductive ChannelStep (slot : Nat) (c : Channels) : Option SignedOp → Channels → Prop where
  | inscribed {op : InscriptionOp} {proof : Ed25519Signature} (hv : op.verify c slot = .ok ()) :
      ChannelStep slot c (some (.channelInscribe op proof)) (op.execute c slot)
  | configured {op : ChannelConfigOp} {proof : ChannelMultiSigProof} {txHash : TxHash}
      (hv : op.verify proof c txHash = .ok ()) :
      ChannelStep slot c (some (.channelConfig op proof)) (op.execute c slot)
  | kept {op : Option SignedOp} {c' : Channels} (hi : op.bind SignedOp.inscription? = none)
      (hc : op.bind SignedOp.configuration? = none) (h : c'.channels = c.channels) :
      ChannelStep slot c op c'

theorem ChannelStep.of_apply {op : SignedOp} {opIndex : Nat} {txHash : TxHash} {config : Config}
    {deferred : DeferredProofs} {balance balance' : Int} {events : List TxEvent}
    (hv : op.verify opIndex txHash (s.helper eras) = .ok deferred)
    (ha : s.tryApplyOp op config txHash balance = .ok (s', balance', events)) :
    ChannelStep s.slot s.channels (some op) s'.channels := by
  cases LedgerState.tryApplyOp_ok ha with
  | channelInscribe =>
    obtain ⟨_, hv1, -⟩ := bind_ok hv
    exact .inscribed (wrap_ok.mp hv1)
  | channelConfig =>
    obtain ⟨_, hv1, -⟩ := bind_ok hv
    exact .configured (lift_ok.mp hv1)
  | channelDeposit _ hx =>
    obtain ⟨notes, spent, -, -, hregister, -⟩ := DepositOp.execute_ok hx
    exact .kept rfl rfl (Channels.registerAll_ok hregister).1
  | channelWithdraw _ hx =>
    exact .kept rfl rfl (Channels.unregisterAll_ok (mapError_ok.mp hx)).1
  | channelTransfer _ hx =>
    obtain ⟨spent, released, -, hrelease, hregister, -⟩ := ChannelTransferOp.execute_ok hx
    have hkept := (Channels.registerAll_ok hregister).1
    exact .kept rfl rfl (hkept.trans (Channels.unregisterAll_ok hrelease).1)
  | _ => exact .kept rfl rfl rfl

theorem Step.channels {a : Action} (h : Step eras s a s') :
    ChannelStep s.slot s.channels a.operation? s'.channels := by
  cases h with
  | header hh =>
    obtain ⟨l, effect, hp, -⟩ := LedgerState.tryApplyHeader_ok hh
    exact .kept rfl rfl (by rw [hp.channels])
  | seen => exact .kept rfl rfl rfl
  | operation hv ha => exact .of_apply hv ha
  | settled hs =>
    obtain ⟨_, _, _, _, _, rfl⟩ := LedgerState.settleBlock_ok hs
    exact .kept rfl rfl rfl
  | counted hr =>
    obtain ⟨_, -, h1⟩ := bind_ok hr
    cases h1
    exact .kept rfl rfl rfl

/-! ## Well-formed channels -/

theorem ChannelStep.wellFormed {slot : Nat} {c c' : Channels} {op : Option SignedOp}
    (h : ChannelStep slot c op c') (hc : c.WellFormed slot) : c'.WellFormed slot := by
  cases h with
  | inscribed => exact InscriptionOp.execute_wellFormed hc
  | configured => exact ChannelConfigOp.execute_wellFormed hc
  | kept _ _ h =>
    intro k state hk
    rw [Channels.channelState, h] at hk
    exact hc k state hk

theorem Step.slot_le {a : Action} (h : Step eras s a s') : s.slot ≤ s'.slot := by
  have hslot := h.slot
  cases a with
  | header => exact hslot.2 ▸ hslot.1.le
  | seen | operation | settled | counted => exact hslot.ge

variable {tx : GenesisTx} {config : Config} {g : LedgerState} {ls : List Action}

theorem LedgerState.channels_of_genesis (hg : LedgerState.fromGenesisTx tx config = .ok g) :
    g.channels = tx.inscription.execute .new 0 := by
  obtain ⟨l, -, -, heq⟩ := fromGenesisTx_ok hg
  rw [heq]
  rfl

/-- **Channels are well-formed.** In every state that genesis leads to, the turn is that of a key,
the thresholds are positive, and the turn started no later than the last message. -/
theorem channels_wellFormed (hg : LedgerState.fromGenesisTx tx config = .ok g)
    (hrun : Run (Step eras) g ls s) :
    (∀ k c, s.channels.channelState k = some c → c.WellFormed s.slot) ∧
      ∀ (op : InscriptionOp) (blockSlot : Nat) (p : Panic),
        op.verify s.channels blockSlot ≠ .error (.panic p) := by
  have hempty : Channels.new.WellFormed 0 := by
    intro k state hk
    cases hk
  have hwf : s.channels.WellFormed s.slot := by
    refine hrun.invariant (I := fun s => s.channels.WellFormed s.slot) ?_ ?_
    · rw [LedgerState.channels_of_genesis hg]
      exact (InscriptionOp.execute_wellFormed hempty).mono (Nat.zero_le _)
    · intro s a s' hwf hstep
      exact (hstep.channels.wellFormed hwf).mono hstep.slot_le
  exact ⟨hwf, InscriptionOp.verify_noPanic hwf⟩

/-! ## Histories -/

/-- The messages and configurations so far are chains to the tips. -/
structure ChannelHistory (c : Channels) (k : ChannelId) (inscriptions : List InscriptionOp)
    (configurations : List ChannelConfigOp) : Prop where
  message_chain : Follows InscriptionOp.parent InscriptionOp.id MsgId.root inscriptions
  config_chain : Follows ChannelConfigOp.parent ChannelConfigOp.id MsgId.root configurations
  tipMessage : ((c.channelState k).map (·.tipMessage)).getD MsgId.root =
    tipFrom InscriptionOp.id MsgId.root inscriptions
  configTipHash : ((c.channelState k).map (·.configTipHash)).getD MsgId.root =
    tipFrom ChannelConfigOp.id MsgId.root configurations

namespace ChannelHistory

variable {c c' : Channels} {k : ChannelId} {inscriptions : List InscriptionOp}
  {configurations : List ChannelConfigOp} {slot : Nat}

theorem inscribe {op : InscriptionOp} (h : ChannelHistory c op.channelId inscriptions configurations)
    (hv : op.verify c slot = .ok ()) :
    ChannelHistory (op.execute c slot) op.channelId (inscriptions ++ [op]) configurations := by
  refine ⟨h.message_chain.snoc ?_, h.config_chain, ?_, ?_⟩
  · rw [← h.tipMessage]
    exact InscriptionOp.verify_parent hv
  · simp [InscriptionOp.execute, Channels.channelState_setChannel, tipFrom_append, tipFrom]
  · rw [← h.configTipHash]
    cases hk : c.channelState op.channelId <;>
      simp [InscriptionOp.execute, Channels.channelState_setChannel, hk, InscriptionOp.newChannel]

theorem configure {op : ChannelConfigOp} {proof : ChannelMultiSigProof} {txHash : TxHash}
    (h : ChannelHistory c op.channel inscriptions configurations)
    (hv : op.verify proof c txHash = .ok ()) :
    ChannelHistory (op.execute c slot) op.channel inscriptions (configurations ++ [op]) := by
  refine ⟨h.message_chain, h.config_chain.snoc ?_, ?_, ?_⟩
  · rw [← h.configTipHash]
    exact ChannelConfigOp.verify_parent hv
  · rw [← h.tipMessage]
    simp [ChannelConfigOp.execute, Channels.channelState_setChannel, ChannelConfigOp.configured]
  · simp [ChannelConfigOp.execute, Channels.channelState_setChannel, ChannelConfigOp.configured,
      tipFrom_append, tipFrom]

theorem of_channelState (h : ChannelHistory c k inscriptions configurations)
    (heq : c'.channelState k = c.channelState k) :
    ChannelHistory c' k inscriptions configurations :=
  ⟨h.message_chain, h.config_chain, by rw [heq]; exact h.tipMessage,
    by rw [heq]; exact h.configTipHash⟩

/-- A step adds its message to the history of the channel that it is for. -/
theorem step {first : List InscriptionOp} {ops : List SignedOp} {op : Option SignedOp}
    (h : ChannelHistory c k (first ++ inscriptionsOn k ops) (configurationsOn k ops))
    (hstep : ChannelStep slot c op c') :
    ChannelHistory c' k (first ++ inscriptionsOn k (ops ++ op.toList))
      (configurationsOn k (ops ++ op.toList)) := by
  cases hstep with
  | @inscribed op proof hv =>
    by_cases hk : op.channelId = k
    · subst hk
      have := h.inscribe hv
      simpa [SignedOp.inscription?, SignedOp.configuration?] using this
    · have hother : (op.execute c slot).channelState k = c.channelState k := by
        rw [InscriptionOp.execute, Channels.channelState_setChannel, if_neg (Ne.symm hk)]
      have := h.of_channelState hother
      simpa [SignedOp.inscription?, SignedOp.configuration?, hk] using this
  | @configured op proof txHash hv =>
    by_cases hk : op.channel = k
    · subst hk
      have : ChannelHistory (op.execute c slot) op.channel _ _ := h.configure hv
      simpa [SignedOp.inscription?, SignedOp.configuration?] using this
    · have hother : (op.execute c slot).channelState k = c.channelState k := by
        rw [ChannelConfigOp.execute, Channels.channelState_setChannel, if_neg (Ne.symm hk)]
      have := h.of_channelState hother
      simpa [SignedOp.inscription?, SignedOp.configuration?, hk] using this
  | kept hi hc hkept =>
    have hother : c'.channelState k = c.channelState k := by
      rw [Channels.channelState, hkept, Channels.channelState]
    have := h.of_channelState hother
    cases op with
    | none => simpa using this
    | some op =>
      simp_all

theorem of_genesis (hroot : tx.inscription.parent = MsgId.root) (k : ChannelId) :
    ChannelHistory (tx.inscription.execute .new 0) k
      ([tx.inscription].filter (·.channelId = k)) [] := by
  have hempty : ChannelHistory .new tx.inscription.channelId [] [] := ⟨trivial, trivial, rfl, rfl⟩
  have hverify : tx.inscription.verify .new 0 = .ok () := failIf_of_not (not_not.mpr hroot)
  by_cases hk : tx.inscription.channelId = k
  · subst hk
    simpa using hempty.inscribe hverify
  · have hnone : (tx.inscription.execute .new 0).channelState k = none := by
      rw [InscriptionOp.execute, Channels.channelState_setChannel, if_neg (Ne.symm hk)]
      rfl
    simpa [hk] using (⟨trivial, trivial, by rw [hnone]; rfl, by rw [hnone]; rfl⟩ :
      ChannelHistory (tx.inscription.execute .new 0) k [] [])

theorem of_run (hg : LedgerState.fromGenesisTx tx config = .ok g)
    (hroot : tx.inscription.parent = MsgId.root) (hrun : Run (Step eras) g ls s) (k : ChannelId) :
    ChannelHistory s.channels k ([tx.inscription].filter (·.channelId = k) ++
      inscriptionsOn k (ls.filterMap Action.operation?))
      (configurationsOn k (ls.filterMap Action.operation?)) := by
  refine hrun.history (I := fun ls s => ChannelHistory s.channels k
    ([tx.inscription].filter (·.channelId = k) ++ inscriptionsOn k (ls.filterMap Action.operation?))
    (configurationsOn k (ls.filterMap Action.operation?))) ?_ ?_
  · rw [LedgerState.channels_of_genesis hg]
    simpa [inscriptionsOn, configurationsOn] using of_genesis hroot k
  · intro ls s a s' h hstep
    have hlast : (ls ++ [a]).filterMap Action.operation? =
        ls.filterMap Action.operation? ++ a.operation?.toList := by
      cases ha : a.operation? <;> simp [ha]
    rw [hlast]
    exact h.step hstep.channels

end ChannelHistory

/-- The operations of a chain of blocks, in their order. -/
def operationsOf (bs : List Block) : List SignedOp := bs.flatMap fun b => b.txs.flatMap (·.ops)

omit [Primitives] in
theorem filterMap_operation?_blockActions (bs : List Block) :
    (bs.flatMap fun b => blockActions b.id b.header b.txs).filterMap Action.operation? =
      operationsOf bs := by
  simp [blockActions, Action.operation?, List.filterMap_cons, List.filterMap_flatMap,
    List.filterMap_map, Function.comp_def, operationsOf]

/-- The messages that were accepted on a channel, from genesis on. -/
def messagesOn (tx : GenesisTx) (k : ChannelId) (bs : List Block) : List InscriptionOp :=
  [tx.inscription].filter (·.channelId = k) ++ inscriptionsOn k (operationsOf bs)

/-- **Channels have one history.** The messages of a channel are one chain from the root, and so are
its configurations; none is accepted twice as long as ids tell them apart. -/
theorem channel_histories {id : Hash} {bs : List Block}
    (hg : LedgerState.fromGenesisTx tx config = .ok g) (hroot : tx.inscription.parent = MsgId.root)
    (hb : (g.addSeenBlock id g.slot eras).applyBlocks eras bs = .ok s) (k : ChannelId) :
    Follows InscriptionOp.parent InscriptionOp.id MsgId.root (messagesOn tx k bs) ∧
      Follows ChannelConfigOp.parent ChannelConfigOp.id MsgId.root
        (configurationsOn k (operationsOf bs)) ∧
      (∀ c, s.channels.channelState k = some c →
        c.tipMessage = tipFrom InscriptionOp.id MsgId.root (messagesOn tx k bs) ∧
        c.configTipHash =
          tipFrom ChannelConfigOp.id MsgId.root (configurationsOn k (operationsOf bs))) ∧
      ((∀ x ∈ messagesOn tx k bs, x.id ≠ MsgId.root) →
        (∀ x ∈ messagesOn tx k bs, ∀ y ∈ messagesOn tx k bs, x.id = y.id → x = y) →
          (messagesOn tx k bs).Nodup) ∧
      ((∀ x ∈ configurationsOn k (operationsOf bs), x.id ≠ MsgId.root) →
        (∀ x ∈ configurationsOn k (operationsOf bs), ∀ y ∈ configurationsOn k (operationsOf bs),
          x.id = y.id → x = y) → (configurationsOn k (operationsOf bs)).Nodup) := by
  have hrun : Run (Step eras) g (.seen id :: bs.flatMap fun b => blockActions b.id b.header b.txs)
      s := (Run.snoc (.nil g) (.seen g id)).append (LedgerState.applyBlocks_run hb)
  have hhistory := ChannelHistory.of_run hg hroot hrun k
  rw [List.filterMap_cons_none rfl, filterMap_operation?_blockActions] at hhistory
  refine ⟨hhistory.message_chain, hhistory.config_chain, fun c hk => ?_,
    fun hne hid => hhistory.message_chain.nodup hne hid,
    fun hne hid => hhistory.config_chain.nodup hne hid⟩
  have htip := hhistory.tipMessage
  have hconfig := hhistory.configTipHash
  rw [hk] at htip hconfig
  exact ⟨htip, hconfig⟩

end

/-- Gives the channel two keys with turns, and writes a message. -/
def configureAndWriteTx : SignedOps :=
  ⟨0, [.channelConfig ⟨3, 0, ⟨[4, 5], by simp, by simp [channelMaxKeys]⟩, 2, 0, 1, 1, Nat.one_pos,
      Nat.one_pos, by decide⟩ ⟨[(0, 0)], List.pairwise_singleton _ _⟩,
    .channelInscribe ⟨3, [2], 1, 4⟩ 0, .transfer ⟨.single 9001, .empty⟩ 0]⟩

def writeTx : SignedOps :=
  ⟨0, [.channelInscribe ⟨3, [3], 2, 5⟩ 0, .transfer ⟨.single 9002, .empty⟩ 0]⟩

def twoTurns : List Block :=
  [⟨1, headerAt 1, [configureAndWriteTx]⟩, ⟨2, headerAt 4, [writeTx]⟩]

def afterTwoTurns [Primitives] : Result LedgerError (LedgerState × LedgerState) := do
  let g ← LedgerState.fromGenesisTx genesisWithService .small
  let s ← (g.addSeenBlock 0 g.slot (.single .small)).applyBlocks (.single .small) twoTurns
  return (g, s)

theorem channels_wellFormed_twoTurns :
    letI := Primitives.plain
    ∃ g ls s c, LedgerState.fromGenesisTx genesisWithService .small = .ok g ∧
      Run (Step (.single .small)) g ls s ∧ s.channels.channelState 3 = some c ∧
      c.tipSequencer = 1 ∧ c.WellFormed 4 := by
  let _ := Primitives.plain
  obtain ⟨⟨g, s⟩, h, hslot, hturn⟩ := exists_ok (x := afterTwoTurns)
    (fun r => r.2.slot = 4 ∧ (r.2.channels.channelState 3).map (·.tipSequencer) = some 1)
    (by decide +kernel)
  obtain ⟨_, h1, h2⟩ := bind_ok h
  obtain ⟨_, h3, h4⟩ := bind_ok h2
  cases h4
  obtain ⟨c, hc, hone⟩ := Option.map_eq_some_iff.mp hturn
  have hrun := (Run.snoc (.nil g) (.seen g 0)).append (LedgerState.applyBlocks_run h3)
  refine ⟨g, _, s, c, h1, hrun, hc, hone, ?_⟩
  rw [← hslot]
  exact (channels_wellFormed h1 hrun).1 3 c hc

theorem channel_histories_twoTurns :
    letI := Primitives.plain
    ∃ g s c, LedgerState.fromGenesisTx genesisWithService .small = .ok g ∧
      (g.addSeenBlock 0 g.slot (.single .small)).applyBlocks (.single .small) twoTurns = .ok s ∧
      s.channels.channelState 3 = some c ∧
      messagesOn genesisWithService 3 twoTurns =
        [⟨3, [1], 0, 4⟩, ⟨3, [2], 1, 4⟩, ⟨3, [3], 2, 5⟩] ∧
      c.tipMessage = 3 ∧ (messagesOn genesisWithService 3 twoTurns).Nodup := by
  let _ := Primitives.plain
  obtain ⟨⟨g, s⟩, h, hsome⟩ := exists_ok (x := afterTwoTurns)
    (fun r => (r.2.channels.channelState 3).isSome) (by decide +kernel)
  obtain ⟨_, h1, h2⟩ := bind_ok h
  obtain ⟨_, h3, h4⟩ := bind_ok h2
  cases h4
  obtain ⟨c, hc⟩ := Option.isSome_iff_exists.mp hsome
  obtain ⟨-, -, htip, hnodup, -⟩ := channel_histories h1 rfl h3 3
  refine ⟨g, s, c, h1, h3, hc, by decide +kernel, ?_, hnodup (by decide +kernel) (by decide +kernel)⟩
  rw [(htip c hc).1]
  decide +kernel

end Ledger

end Logos
