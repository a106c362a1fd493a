import LogosChain.Ledger.Events
import LogosChain.Wallet.State

/-!
# The wallet reads a block

An event is found by the hash of the transaction and the id of the operation, and used up then. For
a block that the ledger accepted, with ids that tell its transactions and operations apart, every
claim of a leader finds its own event, and `fromBlock` does not panic.
-/

namespace Logos.Wallet

open Base Mantle Ledger List Primitives

variable [Primitives] {op : Op} {events : Map Hash TxEventPayload}

/-- The events of a transaction, by operation. -/
def TxEvents.eventsOf (events : TxEvents) (txHash : TxHash) : Map Hash TxEventPayload :=
  (events.lookup txHash).getD ∅

omit [Primitives] in
theorem eventsOf_groupEvent (acc : List HeaderEvent × TxEvents) (e : TxEvent) (h : TxHash)
    (id : Hash) : ((groupEvent acc (.tx e)).2.eventsOf h).lookup id =
      if e.txHash = h ∧ e.opId = id then some e.payload else (acc.2.eventsOf h).lookup id := by
  grind [TxEvents.eventsOf, groupEvent, Map.lookup_insert_ite]

omit [Primitives] in
theorem groupEvents_fst (headerEvents : List HeaderEvent) (txEvents : List TxEvent) :
    (groupEvents (headerEvents.map .header ++ txEvents.map .tx)).1 = headerEvents := by
  have htx : ∀ (l : List TxEvent) (acc : List HeaderEvent × TxEvents),
      ((l.map Event.tx).foldl groupEvent acc).1 = acc.1 := by
    intro l
    induction l with
    | nil => intro acc; rfl
    | cons e l ih => intro acc; exact ih _
  have hheader : ∀ (l : List HeaderEvent) (acc : List HeaderEvent × TxEvents),
      ((l.map Event.header).foldl groupEvent acc) = (acc.1 ++ l, acc.2) := by
    intro l
    induction l with
    | nil => intro acc; simp
    | cons e l ih => grind [groupEvent]
  grind [groupEvents]

omit [Primitives] in
/-- An event that is the only one with its keys is found by them. -/
theorem lookup_groupEvents {headerEvents : List HeaderEvent} {txEvents : List TxEvent} {e : TxEvent}
    (he : e ∈ txEvents)
    (hsame : ∀ e' ∈ txEvents, e'.txHash = e.txHash ∧ e'.opId = e.opId → e' = e) :
    ((groupEvents (headerEvents.map .header ++ txEvents.map .tx)).2.eventsOf e.txHash).lookup
      e.opId = some e.payload := by
  rw [groupEvents, foldl_append]
  -- Once the event has been seen, a later one under its keys is the event again.
  have hlater : ∀ (l : List TxEvent) (acc : List HeaderEvent × TxEvents),
      (∀ e' ∈ l, e'.txHash = e.txHash ∧ e'.opId = e.opId → e' = e) →
      ((acc.2.eventsOf e.txHash).lookup e.opId = some e.payload ∨ e ∈ l) →
      (((l.map Event.tx).foldl groupEvent acc).2.eventsOf e.txHash).lookup e.opId =
        some e.payload := by
    intro l
    induction l with
    | nil => intro acc _ h; exact h.resolve_right not_mem_nil
    | cons e' l ih =>
      intro acc hl h
      refine ih _ (fun e'' he'' => hl e'' (mem_cons_of_mem _ he'')) ?_
      grind [eventsOf_groupEvent]
  exact hlater txEvents _ hsame (.inr he)

/-- The effect of an operation under its own event. -/
def followed (events : Map Hash TxEventPayload) (op : Op) : Option WalletOp :=
  match transformOp op (events.lookup (opId op)) with
  | .ok walletOp => walletOp
  | .error _ => none

/-- Every claim among some operations has its event. -/
def ClaimsHaveEvents (events : Map Hash TxEventPayload) (ops : List Op) : Prop :=
  ∀ claim, .leaderClaim claim ∈ ops → ∃ nf utxo,
    events.lookup (opId (.leaderClaim claim)) = some (.leaderRewardClaimed nf utxo)

omit [Primitives] in
theorem transformOp_of_not_claim (h : ∀ claim, op ≠ .leaderClaim claim)
    (event event' : Option TxEventPayload) : transformOp op event = transformOp op event' := by
  cases op with
  | leaderClaim claim => exact absurd rfl (h claim)
  | _ => rfl

omit [Primitives] in
theorem transformOp_ok_of_not_claim (h : ∀ claim, op ≠ .leaderClaim claim)
    (event : Option TxEventPayload) : ∃ walletOp, transformOp op event = .ok walletOp := by
  cases op with
  | leaderClaim claim => exact absurd rfl (h claim)
  | _ => exact ⟨_, rfl⟩

/-- The first operation finds its event. -/
theorem transformOp_eq_followed {events' : Map Hash TxEventPayload}
    (h : ∀ claim, op = .leaderClaim claim →
      events'.lookup (opId op) = events.lookup (opId op) ∧
        ∃ nf utxo, events.lookup (opId op) = some (.leaderRewardClaimed nf utxo)) :
    transformOp op ((opIdRef op).bind events'.lookup) = .ok (followed events op) := by
  by_cases hclaim : ∃ claim, op = .leaderClaim claim
  · obtain ⟨claim, rfl⟩ := hclaim
    obtain ⟨hsame, nf, utxo, hevent⟩ := h claim rfl
    have hfound : (opIdRef (.leaderClaim claim)).bind events'.lookup =
        some (.leaderRewardClaimed nf utxo) := hsame.trans hevent
    rw [hfound, followed, hevent]
    rfl
  · have hnot : ∀ claim, op ≠ .leaderClaim claim := fun claim heq => hclaim ⟨claim, heq⟩
    obtain ⟨walletOp, hok⟩ := transformOp_ok_of_not_claim hnot (events.lookup (opId op))
    grind [transformOp_of_not_claim, followed]

/-- No claim shares its id with an operation before it, which would have used its event up. -/
theorem transformOps_eq {ops : List Op} (events' : Map Hash TxEventPayload)
    (hclaims : ClaimsHaveEvents events ops)
    (hsame : ∀ claim, .leaderClaim claim ∈ ops →
      events'.lookup (opId (.leaderClaim claim)) =
        events.lookup (opId (.leaderClaim claim)))
    (hpair : ops.Pairwise fun a b => ∀ claim, b = .leaderClaim claim →
      opId a ≠ opId b) : transformOps ops events' = .ok (ops.filterMap (followed events)) := by
  induction ops generalizing events' with
  | nil => rfl
  | cons op ops ih =>
    obtain ⟨hfirst, hrest⟩ := pairwise_cons.mp hpair
    have hop : transformOp op ((opIdRef op).bind events'.lookup) = .ok (followed events op) :=
      transformOp_eq_followed (by
        rintro claim rfl
        exact ⟨hsame claim mem_cons_self, hclaims claim mem_cons_self⟩)
    have hleft := ih (((opIdRef op).map events'.erase).getD events')
      (fun claim hmem => hclaims claim (mem_cons_of_mem _ hmem)) (fun claim hmem => by
        rw [← hsame claim (mem_cons_of_mem _ hmem)]
        cases hid : opIdRef op with
        | none => rfl
        | some id =>
          have hidOp : id = opId op := by
            unfold opIdRef at hid
            split at hid <;> cases hid <;> rfl
          grind [Finmap.lookup_erase_ne]) hrest
    rw [transformOps, bind_of_ok hop, bind_of_ok hleft, filterMap_cons]
    cases followed events op <;> rfl

/-- The effects of a transaction under the events of a block. -/
def followedTx (events : TxEvents) (tx : SignedOps) : WalletTx :=
  ⟨(tx.ops.map SignedOp.operation).filterMap (followed (events.eventsOf tx.hash))⟩

/-- A transaction with a claim of a leader. -/
def HasClaim (tx : SignedOps) : Prop := ∃ claim, .leaderClaim claim ∈ tx.ops.map SignedOp.operation

theorem transformTxs_eq {txs : List SignedOps} {events : TxEvents} (events' : TxEvents)
    (hclaims : ∀ tx ∈ txs, ClaimsHaveEvents (events.eventsOf tx.hash)
      (tx.ops.map SignedOp.operation))
    (hsame : ∀ tx ∈ txs, HasClaim tx → events'.eventsOf tx.hash = events.eventsOf tx.hash)
    (hops : ∀ tx ∈ txs, (tx.ops.map SignedOp.operation).Pairwise fun a b =>
      ∀ claim, b = .leaderClaim claim → opId a ≠ opId b)
    (hpair : txs.Pairwise fun a b => HasClaim b → a.hash ≠ b.hash) :
    transformTxs txs events' = .ok (txs.map (followedTx events)) := by
  induction txs generalizing events' with
  | nil => rfl
  | cons tx txs ih =>
    obtain ⟨hfirst, hrest⟩ := pairwise_cons.mp hpair
    have htx := transformOps_eq (events'.eventsOf tx.hash) (hclaims tx mem_cons_self)
      (fun claim hmem => by rw [hsame tx mem_cons_self ⟨claim, hmem⟩])
      (hops tx mem_cons_self)
    have hleft := ih (events'.erase tx.hash)
      (fun t ht => hclaims t (mem_cons_of_mem _ ht)) (fun t ht hclaim => by
        grind [TxEvents.eventsOf, Finmap.lookup_erase_ne]) (fun t ht => hops t (mem_cons_of_mem _ ht)) hrest
    rw [transformTxs]
    exact ok_bind htx (ok_bind hleft rfl)

section

variable {txs : List SignedOps} {txEvents : List TxEvent}

section

variable (hshown : BlockShown txs txEvents) (hd : DistinctIds txs) {tx : SignedOps}
include hshown hd

theorem pairwise_ops (htx : tx ∈ txs) : (tx.ops.map SignedOp.operation).Pairwise fun a b =>
      ∀ claim, b = .leaderClaim claim → opId a ≠ opId b := by
  have hnodup := hshown.nodup
  rw [hshown.claims, nodup_flatMap] at hnodup
  have hclaims := pairwise_filterMap.mp (hnodup.1 tx htx)
  rw [pairwise_map]
  refine hclaims.imp_of_mem fun {a b} ha hb hne claim hclaim hid => ?_
  have hb' : b.claimed = some claim.voucherNullifier := by
    cases b <;> cases hclaim
    rfl
  grind [SignedOp.claimed_congr, DistinctIds.claimIds]

theorem pairwise_txs : txs.Pairwise fun a b => HasClaim b → a.hash ≠ b.hash := by
  have hnodup := hshown.nodup
  rw [hshown.claims, nodup_flatMap] at hnodup
  refine hnodup.2.imp_of_mem fun {a b} ha hb hdisjoint hclaim hhash => ?_
  obtain ⟨claim, hmem⟩ := hclaim
  have hclaimed : ∀ tx : SignedOps, .leaderClaim claim ∈ tx.ops.map SignedOp.operation →
      claim.voucherNullifier ∈ tx.ops.filterMap SignedOp.claimed := by
    intro tx hmem
    obtain ⟨op, hop, heq⟩ := mem_map.mp hmem
    refine mem_filterMap.mpr ⟨op, hop, ?_⟩
    cases op <;> cases heq
    rfl
  exact hdisjoint (hclaimed a (by rw [hd.hashes a ha b hb hhash]; exact hmem)) (hclaimed b hmem)

theorem lookup_claim (headerEvents : List HeaderEvent) (htx : tx ∈ txs) {op : SignedOp}
    (hop : op ∈ tx.ops) {nf : VoucherNullifier} (hnf : op.claimed = some nf) {e : TxEvent}
    (he : e ∈ txEvents) (hkey : e.txHash = tx.hash ∧ e.opId = opId op.operation) :
    ((groupEvents (headerEvents.map .header ++ txEvents.map .tx)).2.eventsOf tx.hash).lookup
      (opId op.operation) = some e.payload := by
  grind [lookup_groupEvents, BlockShown.claim_event]

theorem claimsHaveEvents (headerEvents : List HeaderEvent) (htx : tx ∈ txs) :
    ClaimsHaveEvents
      ((groupEvents (headerEvents.map .header ++ txEvents.map .tx)).2.eventsOf tx.hash)
      (tx.ops.map SignedOp.operation) := by
  intro claim hmem
  obtain ⟨op, hop, heq⟩ := mem_map.mp hmem
  have hnf : op.claimed = some claim.voucherNullifier := by
    cases op <;> cases heq
    rfl
  grind [lookup_claim, TxEvent.claimed, BlockShown.claim_reported]

end

/-- The wallet block of a block that the ledger accepted. -/
theorem WalletBlock.fromBlock_eq [Chain.HeaderPrimitives] {block : Chain.Block}
    (hshown : BlockShown block.transactions txEvents) (hd : DistinctIds block.transactions)
    (headerEvents : List HeaderEvent) (epoch : Nat) :
    WalletBlock.fromBlock block epoch (headerEvents.map .header ++ txEvents.map .tx) = .ok
      { id := block.id
        parent := block.header.parentBlock
        epoch := epoch
        voucherCm := block.header.proofOfLeadership.voucherCm
        headerOps := headerEvents.map .ofEvent
        txs := block.transactions.map (followedTx
          (groupEvents (headerEvents.map .header ++ txEvents.map .tx)).2) } := by
  have htxs := transformTxs_eq (groupEvents (headerEvents.map .header ++ txEvents.map .tx)).2
    (fun tx htx => claimsHaveEvents hshown hd headerEvents htx) (fun _ _ _ => rfl)
    (fun tx htx => pairwise_ops hshown hd htx) (pairwise_txs hshown hd)
  have hheader := groupEvents_fst headerEvents txEvents
  unfold WalletBlock.fromBlock
  simp_all

end

end Logos.Wallet
