import LogosChain.Ledger.Conservation

/-!
# Every note has one holder

A note is free, in a channel, or in the service of declarations. The channel notes, the service
notes and the unspent notes agree on it in every state that blocks lead to.
-/

namespace Logos.Ledger

open Base Mantle

namespace LedgerState

/-- The notes of channels and services are unspent, with one holder each. -/
structure Owned (s : LedgerState) : Prop where
  channel : ∀ n k, s.channels.channelNotes.lookup n = some k →
    (∃ u, s.utxos.get n = some u) ∧ ∃ c, s.channels.channelState k = some c
  service : ∀ n e, s.serviceNotes.lookup n = some e → ∃ u, s.utxos.get n = some u ∧ u.note = e.note
  disjoint : ∀ n k, s.channels.channelNotes.lookup n = some k → s.serviceNotes.lookup n = none

theorem SameNotes.owned {s s' : LedgerState} (h : s.SameNotes s') (ho : s.Owned) : s'.Owned := by
  obtain ⟨h1, h2, h3, -⟩ := h
  refine ⟨?_, ?_, ?_⟩
  · rw [h1, h2]; exact ho.channel
  · rw [h1, h3]; exact ho.service
  · rw [h2, h3]; exact ho.disjoint

section

variable [Primitives] {s s' : LedgerState} {eras : EraScheduledConfig} {id : Hash} {h : Header}
  {txs : List SignedOps} {deferred : DeferredProofs}

/-- New notes and fewer service notes keep every holder. -/
theorem Owned.of_released {s s' : LedgerState} {new : List Utxo} (ho : s.Owned)
    (hf : s.utxos.Fresh new) (hu : s'.utxos = s.utxos.insertAll new) (hc : s'.channels = s.channels)
    (hs : ∀ n e, s'.serviceNotes.lookup n = some e →
      ∃ e0, s.serviceNotes.lookup n = some e0 ∧ e0.note = e.note) : s'.Owned := by
  have hx := Utxos.exchange hf
  have hkeep : ∀ n u, s.utxos.get n = some u → s'.utxos.get n = some u := by
    grind [Exchange.get_of_not_spent]
  refine ⟨fun n k hn => ?_, fun n e hn => ?_, fun n k hn => ?_⟩
  · grind [channel]
  · grind [service]
  · rw [hc] at hn
    cases h : s'.serviceNotes.lookup n with
    | none => rfl
    | some e =>
      grind [disjoint]

/-- Every accepted operation leaves every note with one holder. -/
theorem Owned.of_effect {s s' : LedgerState} {op : SignedOp} {balance balance' : Int} (ho : s.Owned)
    (he : OpEffect s op balance s' balance') (hf : s.utxos.Fresh (s.created op)) : s'.Owned := by
  have hx := he.exchange hf
  have hnotIn : ∀ n u, s.utxos.get n = some u → n ∉ (s.created op).map Utxo.id := by
    intro n u hn hm
    obtain ⟨v, hv, rfl⟩ := List.mem_map.mp hm
    rw [hf.2 v hv] at hn
    cases hn
  have hunspent : ∀ n e, s.serviceNotes.lookup n = some e → n ∉ op.spent :=
    fun n e hn hs => he.not_input hn (op.spent_subset_inputs hs)
  refine ⟨fun n k hn => ?_, fun n e hn => ?_, fun n k hn => ?_⟩
  · rcases he.channelNotes n k hn with ⟨hm, hk⟩ | ⟨hs, h0⟩
    · obtain ⟨u, hu, rfl⟩ := List.mem_map.mp hm
      exact ⟨⟨u, hx.made u hu⟩, Option.isSome_iff_exists.mp (he.channelStates k hk)⟩
    · grind [channel, Exchange.get_of_not_spent, Option.isSome_iff_exists, OpEffect.channelStates]
  · rcases he.serviceNotes n e hn with ⟨e0, h0, hnote⟩ | ⟨hs, -, u, h1, h2⟩
    · grind [service, Exchange.get_of_not_spent]
    · exact ⟨u, hx.get_of_not_spent hf h1 hs, h2⟩
  · cases hsn : s'.serviceNotes.lookup n with
    | none => rfl
    | some e =>
      exfalso
      -- A service note was unspent before, so a channel can only have had it before as well.
      rcases he.serviceNotes n e hsn with ⟨e0, h0, -⟩ | ⟨-, hfree, u, h1, -⟩
      · obtain ⟨u, h1, -⟩ := ho.service n e0 h0
        rcases he.channelNotes n k hn with ⟨hm, -⟩ | ⟨-, hk⟩
        · exact hnotIn n u h1 hm
        · rw [ho.disjoint n k hk] at h0
          cases h0
      · rcases he.channelNotes n k hn with ⟨hm, -⟩ | ⟨-, hk⟩
        · exact hnotIn n u h1 hm
        · rw [hfree] at hk
          cases hk

theorem Owned.of_transaction {tx : SignedOps} {g : GasAndFees} {events : List TxEvent}
    (ho : s.Owned) (hf : s.TxFresh eras tx)
    (ha : s.tryApplyTransaction eras tx = .ok (s', g, events, deferred)) : s'.Owned := by
  obtain ⟨r, h1, rfl, -⟩ := tryApplyTransaction_ok.mp ha
  obtain ⟨_, -, h2⟩ := bind_ok h1
  exact foldlM_along (I := fun r : TxRun => r.state.Owned) h2 hf ho
    fun _ _ _ _ hr hfresh hstep => hr.of_effect (TxRun.step_effect hstep) hfresh

/-- The notes of the rewards that a header makes. -/
def headerUtxos (s : LedgerState) (h : Header) (eras : EraScheduledConfig) : List Utxo :=
  ((do
    let l ← s.cryptarchiaLedger.tryApplyHeader h.slot h.proof h.uncleSlots s.mantleLedger.sdp
      s.mantleLedger.pow eras
    let (_, effect) ← wrap .mantle (s.mantleLedger.tryApplyHeader s.cryptarchiaLedger.epochState
      l.epochState h.proof.voucherCm eras)
    return effect.rewardUtxos : Result LedgerError (List Utxo)).toOption).getD []

theorem HeaderParts.headerUtxos_eq {l : CryptarchiaLedger} {effect : HeaderEffect}
    (hp : s.HeaderParts h eras l effect s') : s.headerUtxos h eras = effect.rewardUtxos := by
  simp [headerUtxos, hp.cryptarchia, hp.mantle, wrap, Except.mapError, Except.toOption, bind,
    Except.bind, pure, Except.pure]

/-- The notes that a block makes are all new. -/
def BlockFresh (s : LedgerState) (id : Hash) (h : Header) (txs : List SignedOps)
    (eras : EraScheduledConfig) : Prop :=
  s.utxos.Fresh (s.headerUtxos h eras) ∧ ∀ r, s.tryApplyHeader h eras = .ok r →
    Along (BlockRun.step eras (configForSlot eras h.slot)) (fun b tx => b.state.TxFresh eras tx.1)
      (.start (r.1.addSeenBlock id h.slot eras)) txs.zipIdx

instance (s : LedgerState) (id : Hash) (h : Header) (txs : List SignedOps)
    (eras : EraScheduledConfig) : Decidable (s.BlockFresh id h txs eras) :=
  inferInstanceAs (Decidable (_ ∧ _))

theorem Owned.of_header {events : List HeaderEvent} (ho : s.Owned)
    (hf : s.utxos.Fresh (s.headerUtxos h eras))
    (ha : s.tryApplyHeader h eras = .ok (s', events)) : s'.Owned ∧ s'.slot = h.slot := by
  obtain ⟨l, effect, hp, -⟩ := tryApplyHeader_ok ha
  rw [hp.headerUtxos_eq] at hf
  exact ⟨ho.of_released hf hp.utxos hp.channels fun n e => SdpLedger.tryApplyHeader_ok hp.sdp,
    hp.slot.2⟩

theorem Owned.of_block {events : List Event} (ho : s.Owned) (hf : s.BlockFresh id h txs eras)
    (hu : s.tryUpdate id h txs eras = .ok (s', events, deferred)) : s'.Owned := by
  obtain ⟨s1, headerEvents, s2, txEvents, h1, h2, h3, -⟩ := tryUpdate_ok hu
  obtain ⟨b, h4, h5, -, -⟩ := tryApplyBlockContents_ok h2
  obtain ⟨ho1, hslot⟩ := ho.of_header hf.1 h1
  have hseen := (addSeenBlock_sameNotes s1 id h.slot eras).owned ho1
  have hcontents : b.state.Owned := by
    change List.foldlM (BlockRun.step eras (configForSlot eras s1.slot)) _ _ = _ at h4
    rw [hslot] at h4
    refine foldlM_along (I := fun b : BlockRun => b.state.Owned) h4 (hf.2 _ h1) hseen ?_
    grind [BlockRun.step_ok, of_transaction]
  exact (recordBlock_sameNotes h3).owned ((settleBlock_sameNotes h5).owned hcontents)

/-- Genesis declares its own notes, and its channel has none. -/
theorem Owned.of_genesis {tx : GenesisTx} {config : Config}
    (hg : fromGenesisTx tx config = .ok s) : s.Owned := by
  obtain ⟨l, -, h1⟩ := bind_ok hg
  obtain ⟨sdp, h2, h3⟩ := bind_ok h1
  cases h3
  let I := fun sdp : SdpLedger => ∀ n e, sdp.serviceNotes.lookup n = some e →
    ∃ u, l.utxos.get n = some u ∧ u.note = e.note
  have hI : I sdp := by
    refine foldlM_invariant (I := I) (wrap_ok.mp h2) (fun n e hn => ?_) ?_
    · change (∅ : ServiceNotes).lookup n = some e at hn
      simp at hn
    · intro op _ sdp sdp' hsdp hstep n e hn
      obtain ⟨_, -, h4⟩ := bind_ok hstep
      obtain ⟨_, -, h5⟩ := bind_ok h4
      grind [SdpLedger.tryApplySdpDeclaration_ok, ServiceNotes.lookup_lock]
  refine ⟨fun n k hn => ?_, hI, fun n k hn => ?_⟩ <;>
  · change (tx.inscription.execute .new 0).channelNotes.lookup n = some k at hn
    cases hn

end

end LedgerState

section

variable [Primitives]

/-- The states that blocks lead to from genesis, with restarts in between. -/
inductive Reachable (eras : EraScheduledConfig) : LedgerState → Prop where
  | genesis {tx : GenesisTx} {config : Config} {s : LedgerState}
      (h : LedgerState.fromGenesisTx tx config = .ok s) : Reachable eras s
  | ledger {s : LedgerState} (hs : Reachable eras s) (id : Hash) :
      Reachable eras (s.addSeenBlock id s.slot eras)
  | block {s s' : LedgerState} {id : Hash} {h : Header} {txs : List SignedOps} {events : List Event}
      {deferred : DeferredProofs} (hs : Reachable eras s) (hf : s.BlockFresh id h txs eras)
      (hu : s.tryUpdate id h txs eras = .ok (s', events, deferred)) : Reachable eras s'

theorem Reachable.owned {eras : EraScheduledConfig} {s : LedgerState} (h : Reachable eras s) :
    s.Owned := by
  induction h with
  | genesis h => exact .of_genesis h
  | ledger _ id ih => exact (LedgerState.addSeenBlock_sameNotes _ id _ eras).owned ih
  | block _ hf hu ih => exact ih.of_block hf hu

/-- In every reachable state the notes of channels and of services are unspent, no note has two
holders, and an accepted operation has no service note among its inputs. -/
theorem note_ownership {eras : EraScheduledConfig} {s : LedgerState} (hs : Reachable eras s) :
    s.Owned ∧ ∀ (t t' : LedgerState) (op : SignedOp) (opIndex : Nat) (txHash : TxHash)
      (config : Config) (balance balance' : Int) (deferred : DeferredProofs)
      (events : List TxEvent), op.verify opIndex txHash (t.helper eras) = .ok deferred →
      t.tryApplyOp op config txHash balance = .ok (t', balance', events) →
      t.utxos.Fresh (t.created op) →
      ∀ n e, t.serviceNotes.lookup n = some e →
        n ∉ op.inputs ∧ ∀ u, t.utxos.get n = some u → t'.utxos.get n = some u := by
  refine ⟨hs.owned, ?_⟩
  intro t t' op opIndex txHash config balance balance' deferred events hv ha hf n e hn
  have he := OpEffect.of_apply hv ha
  have hin := he.not_input hn
  exact ⟨hin, fun u hu =>
    (he.exchange hf).get_of_not_spent hf hu fun hs => hin (op.spent_subset_inputs hs)⟩

end

def genesisWithService : GenesisTx where
  transfer := ⟨.empty, ⟨[⟨100, 7⟩, ⟨500, 7⟩, ⟨50, 7⟩], by decide⟩⟩
  inscription := ⟨3, [1], 0, 4⟩
  declarations := [⟨.blendNetwork, [], 1, 9, 9000⟩]
  epochNonce := 0
  powRewardPool := 0
  consensusExcludedKeys := []

def depositTx : SignedOps :=
  ⟨0, [.channelDeposit ⟨3, .single 9001, []⟩ 0,
    .transfer ⟨.single 9002, .empty⟩ 0]⟩

def afterDeposit [Primitives] : Result LedgerError LedgerState := do
  let s ← LedgerState.fromGenesisTx genesisWithService .small
  let h : Header := ⟨1, ⟨0, 0, 0, 0⟩, []⟩
  failIf (¬ s.BlockFresh 1 h [depositTx] (.single .small)) (.error .gasOverflow)
  let (s, _, _) ← s.tryUpdate 1 h [depositTx] (.single .small)
  return s

theorem note_ownership_afterDeposit :
    letI := Primitives.plain
    ∃ s, Reachable (.single .small) s ∧ s.Owned ∧
      s.channels.channelNotes.lookup 144018000 = some 3 ∧
      (s.serviceNotes.lookup 9000).isSome := by
  let _ := Primitives.plain
  obtain ⟨s, h, hc, hs⟩ := exists_ok (x := afterDeposit) (fun s =>
    s.channels.channelNotes.lookup 144018000 = some 3 ∧ (s.serviceNotes.lookup 9000).isSome)
    (by decide +kernel)
  obtain ⟨s0, h0, h1⟩ := bind_ok h
  obtain ⟨_, hf, h2⟩ := bind_ok h1
  obtain ⟨⟨s1, events, deferred⟩, h3, h4⟩ := bind_ok h2
  cases h4
  have hr : Reachable (.single .small) s := .block (.genesis h0) (not_not.mp (failIf_ok.mp hf)) h3
  exact ⟨s, hr, (note_ownership hr).1, hc, hs⟩

end Logos.Ledger
