import LogosChain.Ledger.Registry

/-!
# Notes of value zero

Outputs of value zero are refused before a transaction reaches the ledger, and neither services nor
puzzles pay a reward of zero. The share of a leader is rounded down and may be zero. Without such a
claim no block makes a note of value zero.
-/

namespace Logos

open Base

namespace Mantle

/-- No note has the value zero. -/
def Utxos.Valued (utxos : Utxos) : Prop := ∀ n u, utxos.get n = some u → u.note.value ≠ 0

instance (utxos : Utxos) : Decidable utxos.Valued :=
  decidable_of_iff (∀ e ∈ Map.toList utxos.items, e.2.1.note.value ≠ 0) <| by
    constructor
    · intro h n u hn
      obtain ⟨e, he, rfl⟩ := Option.map_eq_some_iff.mp hn
      exact h (n, e) (Map.mem_toList.mpr he)
    · intro h e he
      exact h e.1 e.2.1 (by rw [FlatTree.get, Map.mem_toList.mp he]; rfl)

variable {u : Unit} {notes : List Note} {i : Inputs} {utxos : Utxos} {n : NoteId}

theorem Outputs.validate_ok {o : Outputs} (h : o.validate = .ok u) :
    ∀ note ∈ o.notes, note.value ≠ 0 :=
  fun note hn => failIf_ok.mp (forM_ok.mp h note hn)

/-- Notes at the places of a list have its values. -/
theorem valued_mapIdx {opId : Hash} (h : ∀ note ∈ notes, note.value ≠ 0) :
    ∀ u ∈ notes.mapIdx (fun index note => Utxo.mk opId index note), u.note.value ≠ 0 := by grind

/-- What is left after spending was there before. -/
theorem Inputs.get_of_execute {utxos' : Utxos} {u : Utxo} (h : i.execute utxos = .ok utxos')
    (hn : utxos'.get n = some u) : utxos.get n = some u := by
  rw [(execute_ok h).2.1] at hn
  split at hn
  · cases hn
  · exact hn

theorem Utxos.Valued.spend {utxos' : Utxos} (hv : utxos.Valued)
    (h : i.execute utxos = .ok utxos') : utxos'.Valued :=
  fun n u hn => hv n u (Inputs.get_of_execute h hn)

variable [Primitives] {new : List Utxo}

/-- A note is one of the added or was there before. -/
theorem Utxos.get_insertAll {u : Utxo}
    (h : (utxos.insertAll new).get n = some u) : u ∈ new ∨ utxos.get n = some u := by
  induction new generalizing utxos with
  | nil => exact .inr h
  | cons v new ih =>
    rcases @ih (utxos.insert v.id v) h with hin | hold
    · exact .inl (List.mem_cons_of_mem _ hin)
    · grind [FlatTree.get_insert]

theorem Utxos.Valued.insertAll (hv : utxos.Valued)
    (hnew : ∀ u ∈ new, u.note.value ≠ 0) : (utxos.insertAll new).Valued := by
  intro n u hn
  rcases Utxos.get_insertAll hn with hin | hold
  · exact hnew u hin
  · exact hv n u hold

omit [Primitives] in
theorem DepositOp.valued_outputs {op : DepositOp} (hv : utxos.Valued)
    (h : op.outputs utxos = .ok notes) : ∀ note ∈ notes, note.value ≠ 0 := by
  intro note hn
  obtain ⟨id, -, hid⟩ := mapM_mem h hn
  obtain ⟨u, hu, rfl⟩ := Option.map_eq_some_iff.mp (okOr_ok.mp hid)
  exact hv id u hu

/-- A claim of a puzzle is accepted only while it pays something. -/
theorem ClaimPowRewardOp.verify_reward {op : ClaimPowRewardOp} {c : VerificationContext}
    (h : op.verify c = .ok u) : c.epochPowReward ≠ 0 := by
  obtain ⟨_, h1, -⟩ := bind_ok h
  obtain ⟨_, h2, -⟩ := bind_ok h1
  exact failIf_ok.mp h2

end Mantle

namespace Ledger

open Mantle

/-- There is a voucher to claim, and a unit for each of them. -/
def LeaderState.Shares (s : LeaderState) : Prop :=
  s.nfs.card < s.vouchersSnapshot.count ∧
    s.vouchersSnapshot.count - s.nfs.card ≤ s.claimableRewards

instance (s : LeaderState) : Decidable s.Shares := inferInstanceAs (Decidable (_ ∧ _))

theorem LeaderState.rewardAmount_ne_zero {s : LeaderState} : s.rewardAmount ≠ 0 ↔ s.Shares := by
  unfold rewardAmount checkedDiv Shares
  split
  · rename_i h
    simp
    omega
  · rename_i h
    rw [Option.getD_some, Nat.div_ne_zero_iff]
    omega

section

variable [Primitives] {eras : EraScheduledConfig} {s s' g : LedgerState} {bs : List Block}

theorem valued_distributeRewards (rewards : Map ZkPublicKey Nat) (epoch : Nat)
    (serviceType : ServiceType) :
    ∀ u ∈ distributeRewards rewards epoch serviceType, u.note.value ≠ 0 := by
  intro u hu
  obtain ⟨i, hi, rfl⟩ := List.mem_mapIdx.mp hu
  have hpaid := (List.mem_filter.mp (List.getElem_mem hi)).2
  exact (of_decide_eq_true hpaid).ne'

theorem Rewards.valued_updateEpoch {ε : Type} {r r' : Rewards} {last next : EpochState}
    {lastParams params : RewardsParameters} {notes : List Utxo}
    (h : r.updateEpoch (ε := ε) last next lastParams params = .ok (r', notes)) :
    ∀ u ∈ notes, u.note.value ≠ 0 := by
  obtain ⟨_, -, h1⟩ := bind_ok h
  cases h1
  cases r.target with
  | none => exact fun u hu => absurd hu List.not_mem_nil
  | some t =>
    grind [TargetEpochTracker.finalize, valued_distributeRewards]

theorem SdpLedger.valued_tryApplyHeader {s s' : SdpLedger} {lastConfig config : SdpConfig}
    {last next : EpochState} {effect : HeaderEffect}
    (h : s.tryApplyHeader lastConfig config last next = .ok (s', effect)) :
    ∀ u ∈ effect.rewardUtxos, u.note.value ≠ 0 := by
  refine tryApplyHeader_invariant h (I := fun _ effect =>
    ∀ u ∈ effect.rewardUtxos, u.note.value ≠ 0) (fun u hu => absurd hu List.not_mem_nil) ?_
  intro service t notes effect rewards utxos r events hsofar hpaid _ u hu
  rcases List.mem_append.mp hu with hold | hnew
  · exact hsofar u hold
  · exact Rewards.valued_updateEpoch hpaid u hnew

/-- A claim of a leader is paid something. -/
def LedgerState.PaysLeader (s : LedgerState) : SignedOp → Prop
  | .leaderClaim _ _ => s.mantleLedger.leaders.Shares
  | _ => True

instance (s : LedgerState) (op : SignedOp) : Decidable (s.PaysLeader op) := by
  cases op <;> unfold LedgerState.PaysLeader <;> infer_instance

/-- An accepted operation makes no note of value zero, if it is paid when it claims for a leader. -/
theorem LedgerState.valued_tryApplyOp {op : SignedOp} {opIndex : Nat} {txHash txHash' : TxHash}
    {deferred : DeferredProofs} {config : Config} {balance balance' : Int} {events : List TxEvent}
    (hv : s.utxos.Valued) (hpre : op.preverify txHash' = .ok ()) (hpays : s.PaysLeader op)
    (hverify : op.verify opIndex txHash (s.helper eras) = .ok deferred)
    (h : s.tryApplyOp op config txHash balance = .ok (s', balance', events)) : s'.utxos.Valued := by
  cases LedgerState.tryApplyOp_ok h with
  | channelInscribe | channelConfig | channelWithdraw | sdpDeclare | sdpActive | sdpWithdraw =>
    exact hv
  | channelDeposit _ hx =>
    obtain ⟨notes, spent, hnotes, hspent, -, rfl⟩ := DepositOp.execute_ok hx
    exact (hv.spend hspent).insertAll (valued_mapIdx (DepositOp.valued_outputs hv hnotes))
  | channelTransfer _ hx =>
    obtain ⟨spent, released, hspent, -, -, rfl⟩ := ChannelTransferOp.execute_ok hx
    obtain ⟨_, -, houtputs⟩ := bind_ok (mapError_ok.mp hpre)
    exact (hv.spend hspent).insertAll
      (valued_mapIdx (Outputs.validate_ok (mapError_ok.mp houtputs)))
  | leaderClaim op =>
    refine @Utxos.Valued.insertAll _ _ [op.utxo s.mantleLedger.leaders.rewardAmount] hv
      fun u hu => ?_
    rw [List.mem_singleton.mp hu]
    exact LeaderState.rewardAmount_ne_zero.mpr hpays
  | transfer _ _ hx =>
    obtain ⟨spent, hspent, rfl⟩ := TransferOp.execute_ok hx
    obtain ⟨_, -, houtputs⟩ := bind_ok (mapError_ok.mp hpre)
    exact (hv.spend hspent).insertAll
      (valued_mapIdx (Outputs.validate_ok (mapError_ok.mp houtputs)))
  | @claimPowReward _ c _ hx =>
    obtain ⟨_, hclaim, -⟩ := bind_ok hverify
    have hreward := ClaimPowRewardOp.verify_reward (lift_ok.mp hclaim)
    show c.utxos.Valued
    rw [(ClaimPowRewardOp.execute_ok hx).2]
    refine hv.insertAll fun u hu => ?_
    rw [List.mem_singleton.mp hu]
    exact hreward

theorem LedgerState.valued_tryApplyHeader {h : Header} {events : List HeaderEvent}
    (hv : s.utxos.Valued) (hh : s.tryApplyHeader h eras = .ok (s', events)) : s'.utxos.Valued := by
  obtain ⟨l, effect, hp, -⟩ := tryApplyHeader_ok hh
  rw [hp.utxos]
  exact hv.insertAll (SdpLedger.valued_tryApplyHeader hp.sdp)

/-- The operation has passed the checks without the ledger. -/
def Action.Preverified (a : Action) : Prop :=
  ∀ op, a = .operation op → ∃ txHash, op.preverify txHash = .ok ()

theorem GuardedStep.valued {a : Action} (hv : s.utxos.Valued) (hpre : a.Preverified)
    (h : GuardedStep eras LedgerState.PaysLeader s a s') : s'.utxos.Valued := by
  obtain ⟨hstep, hpays⟩ := h
  cases hstep with
  | header hh => exact LedgerState.valued_tryApplyHeader hv hh
  | seen => exact hv
  | operation hverify ha =>
    obtain ⟨txHash, hop⟩ := hpre _ rfl
    exact LedgerState.valued_tryApplyOp hv hop (hpays _ rfl) hverify ha
  | settled hs => rw [(LedgerState.settleBlock_sameNotes hs).utxos]; exact hv
  | counted hr => rw [(LedgerState.recordBlock_sameNotes hr).utxos]; exact hv

theorem preverified_blockActions (hpre : ∀ b ∈ bs, ∀ tx ∈ b.txs, tx.preverify = .ok ()) :
    ∀ a ∈ bs.flatMap fun b => blockActions b.id b.header b.txs, a.Preverified := by
  rintro a ha op rfl
  obtain ⟨b, hb, ha⟩ := List.mem_flatMap.mp ha
  grind [blockActions, SignedOps.preverify, forM_ok]

/-- **Notes keep their value.** Blocks in which every claim of a leader is paid make no note of
value zero; a claim makes one exactly if there is no voucher, or less in the pool than vouchers. -/
theorem notes_valued (h0 : g.utxos.Valued)
    (hpre : ∀ b ∈ bs, ∀ tx ∈ b.txs, tx.preverify = .ok ())
    (hpays : g.ChainAlong LedgerState.PaysLeader eras bs) (hs : g.applyBlocks eras bs = .ok s) :
    s.utxos.Valued ∧ ∀ op txHash,
      (s.applyLeaderClaim op txHash).1.utxos.Valued ↔ s.mantleLedger.leaders.Shares := by
  have hvalued : s.utxos.Valued := by
    refine (LedgerState.applyBlocks_guarded hs hpays).history
      (I := fun ls t => (∀ a ∈ ls, a.Preverified) → t.utxos.Valued) (fun _ => h0) ?_
      (preverified_blockActions hpre)
    intro ls t a t' ih hstep hall
    have ht := ih fun a ha => hall a (List.mem_append_left _ ha)
    exact hstep.valued ht (hall a (by simp))
  refine ⟨hvalued, fun op txHash => ?_⟩
  rw [← LeaderState.rewardAmount_ne_zero]
  constructor
  · intro hafter
    have hmade : (s.applyLeaderClaim op txHash).1.utxos.get
        (op.utxo s.mantleLedger.leaders.rewardAmount).id =
          some (op.utxo s.mantleLedger.leaders.rewardAmount) := by
      show (s.utxos.insert (op.utxo s.mantleLedger.leaders.rewardAmount).id
        (op.utxo s.mantleLedger.leaders.rewardAmount)).get _ = _
      rw [FlatTree.get_insert, if_pos rfl]
    exact hafter _ _ hmade
  · intro hpaid
    refine @Utxos.Valued.insertAll _ _ [op.utxo s.mantleLedger.leaders.rewardAmount] hvalued
      fun u hu => ?_
    rw [List.mem_singleton.mp hu]
    exact hpaid

end

def claimVoucherTx : SignedOps :=
  ⟨0, [.leaderClaim ⟨0, 5, 7⟩ 0, .transfer ⟨.single 9001, .empty⟩ 0]⟩

/-- A block, and one of the next epoch that claims its voucher. -/
def claimedIn (txs : List SignedOps) : List Block :=
  [⟨1, headerAt 1, txs⟩, ⟨2, headerAt 11, [claimVoucherTx]⟩]

def afterClaim [Primitives] (txs : List SignedOps) :
    Result LedgerError (LedgerState × LedgerState) := do
  let g ← LedgerState.fromGenesisTx genesisWithService .small
  let s ← g.applyBlocks (.single .small) (claimedIn txs)
  return (g, s)

def tippingTx : SignedOps := ⟨0, [.transfer ⟨.single 9002, .empty⟩ 0]⟩

theorem notes_valued_tipped :
    letI := Primitives.plain
    ∃ g s, LedgerState.fromGenesisTx genesisWithService .small = .ok g ∧
      g.applyBlocks (.single .small) (claimedIn [tippingTx]) = .ok s ∧ s.utxos.Valued ∧
      s.utxos.valueOf 88000 = 48 := by
  let _ := Primitives.plain
  obtain ⟨⟨g, s⟩, h, h0, hpays, hnote⟩ := exists_ok (x := afterClaim [tippingTx])
    (fun r => r.1.utxos.Valued ∧
      r.1.ChainAlong LedgerState.PaysLeader (.single .small) (claimedIn [tippingTx]) ∧
      r.2.utxos.valueOf 88000 = 48) (by decide +kernel)
  obtain ⟨_, h1, h2⟩ := bind_ok h
  obtain ⟨_, h3, h4⟩ := bind_ok h2
  cases h4
  exact ⟨g, s, h1, h3, (notes_valued h0 (by decide +kernel) hpays h3).1, hnote⟩

/-- A block without transactions leaves its leader a voucher that is worth nothing. -/
theorem voucher_worth_nothing :
    letI := Primitives.plain
    ∃ g s, LedgerState.fromGenesisTx genesisWithService .small = .ok g ∧ g.utxos.Valued ∧
      (∀ b ∈ claimedIn [], ∀ tx ∈ b.txs, tx.preverify = .ok ()) ∧
      g.applyBlocks (.single .small) (claimedIn []) = .ok s ∧ ¬ s.utxos.Valued := by
  let _ := Primitives.plain
  obtain ⟨⟨g, s⟩, h, h0, hzero⟩ := exists_ok (x := afterClaim [])
    (fun r => r.1.utxos.Valued ∧ ¬ r.2.utxos.Valued) (by decide +kernel)
  obtain ⟨_, h1, h2⟩ := bind_ok h
  obtain ⟨_, h3, h4⟩ := bind_ok h2
  cases h4
  exact ⟨g, s, h1, h0, by decide +kernel, h3, hzero⟩

end Ledger

end Logos
