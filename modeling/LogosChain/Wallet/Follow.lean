import LogosChain.Ledger.Puzzles
import LogosChain.Wallet.Mirror

/-!
# A wallet that follows a chain

The wallet starts at a state of the ledger and follows the blocks that the ledger accepts. It offers
no note that is not there or that it may not spend, and what it misses are exactly the unspent
rewards of puzzles that the chain paid to its keys.
-/

namespace Logos.Wallet

open Base Mantle Ledger WalletNotes LedgerState List Primitives

variable {KeyId VoucherId : Type} [Primitives] {knownKeys : Map ZkPublicKey KeyId}

/-! ## Transactions -/

/-- The claims of a transaction find their events. -/
def FindsClaims (events : Map Hash TxEventPayload) (emitted : List TxEvent) (tx : SignedOps) :
    Prop :=
  ∀ op ∈ tx.ops, ∀ nf, op.claimed = some nf → ∀ e ∈ emitted,
    e.txHash = tx.hash ∧ e.opId = opId op.operation →
      events.lookup (opId op.operation) = some e.payload

section

variable {eras : EraScheduledConfig} {config : Config} {tx : SignedOps}
  {events : Map Hash TxEventPayload} {emitted : List TxEvent} {n : WalletNotes}
  {missed : Finset NoteId} {s s' : LedgerState} {deferred : DeferredProofs}

/-- The operations of a transaction keep the wallet next to the ledger. -/
theorem Mirrors.operations {ops : List (SignedOp × Nat)} {r r' : TxRun}
    (hfinds : FindsClaims events emitted tx) (hops : ∀ op ∈ ops, op.1 ∈ tx.ops)
    (h : ops.foldlM (TxRun.step eras config tx.hash) r = .ok r') (hemitted : r'.events ⊆ emitted)
    (hf : Along (TxRun.step eras config tx.hash) TxRun.NextFresh r ops) (ho : r.state.Owned)
    (hm : Mirrors knownKeys r.state n missed) :
    Mirrors knownKeys r'.state
      (((ops.map fun op => op.1.operation).filterMap (followed events)).foldl (applyOp knownKeys) n)
      (((visited (TxRun.step eras config tx.hash) r ops).map fun v => (v.1.state, v.2.1)).foldl
        (powNotesAfter knownKeys) missed) ∧ r'.state.Owned := by
  induction ops generalizing r n missed with
  | nil =>
    rw [foldlM_nil_ok h]
    exact ⟨hm, ho⟩
  | cons op ops ih =>
    obtain ⟨r1, h1, h2⟩ := foldlM_cons_ok h
    have hrest : ∀ op' ∈ ops, op'.1 ∈ tx.ops :=
      fun op' hop' => hops op' (mem_cons_of_mem _ hop')
    obtain ⟨shown, hshown, hs⟩ := TxRun.step_shown h1
    obtain ⟨later, hlater, -⟩ := TxRun.foldlM_shown hrest h2
    have he := TxRun.step_effect h1
    have hsub : shown ⊆ emitted := by grind
    -- The event of a claim is one of the transaction, so it is found.
    have hnext : Mirrors knownKeys r1.state
        (applyFollowed knownKeys n (followed events op.1.operation)) _ :=
      hm.operation ho hf.1 he hs fun claim proof hop => by
        have hreward := hs.reward claim proof hop
        have hmem := hops op mem_cons_self
        rw [hop] at hmem
        exact hfinds _ hmem _ rfl _ (hsub hreward) ⟨rfl, rfl⟩
    have hleft := ih hrest h2 (hf.2 r1 h1) (ho.of_effect he hf.1) hnext
    rw [visited_cons h1, map_cons, filterMap_cons]
    cases hfol : followed events op.1.operation <;> rw [hfol] at hleft <;> exact hleft

theorem Mirrors.transaction {g : GasAndFees} {txEvents : List TxEvent}
    (hfinds : FindsClaims events emitted tx)
    (h : s.tryApplyTransaction eras tx = .ok (s', g, txEvents, deferred))
    (hemitted : txEvents ⊆ emitted) (hf : s.TxFresh eras tx) (ho : s.Owned)
    (hm : Mirrors knownKeys s n missed) :
    Mirrors knownKeys s' (((tx.ops.map SignedOp.operation).filterMap (followed events)).foldl
        (applyOp knownKeys) n) ((s.txExecuted eras tx).foldl (powNotesAfter knownKeys) missed)
      ∧ s'.Owned := by
  obtain ⟨r, h1, rfl, rfl, -⟩ := tryApplyTransaction_ok.mp h
  obtain ⟨_, -, h2⟩ := bind_ok h1
  have hops := Mirrors.operations (r := .start s) hfinds
    (fun op hop => (mem_zipIdx' hop).2 ▸ getElem_mem _) h2 hemitted hf ho hm
  rw [map_zipIdx_fst SignedOp.operation] at hops
  exact hops

/-! ## Blocks -/

/-- The transactions of a block keep the wallet next to the ledger. -/
theorem Mirrors.transactions {txs : List (SignedOps × Nat)} {b b' : BlockRun} (byTx : TxEvents)
    (hfinds : ∀ tx ∈ txs, FindsClaims (byTx.eventsOf tx.1.hash) emitted tx.1)
    (h : txs.foldlM (BlockRun.step eras config) b = .ok b') (hemitted : b'.events ⊆ emitted)
    (hf : Along (BlockRun.step eras config) (fun b tx => b.state.TxFresh eras tx.1) b txs)
    (ho : b.state.Owned) (hm : Mirrors knownKeys b.state n missed) :
    Mirrors knownKeys b'.state ((txs.map fun tx => followedTx byTx tx.1).foldl
        (fun n tx => tx.ops.foldl (applyOp knownKeys) n) n)
      (((visited (BlockRun.step eras config) b txs).flatMap
        fun v => v.1.state.txExecuted eras v.2.1).foldl (powNotesAfter knownKeys) missed) := by
  induction txs generalizing b n missed with
  | nil =>
    rw [foldlM_nil_ok h]
    exact hm
  | cons tx txs ih =>
    obtain ⟨b1, h1, h2⟩ := foldlM_cons_ok h
    obtain ⟨g, shown, deferred, ha, -, hshown, -⟩ := BlockRun.step_ok h1
    obtain ⟨later, hlater, -⟩ := BlockRun.foldlM_shown h2
    have hsub : shown ⊆ emitted := by grind
    obtain ⟨hnext, ho1⟩ := hm.transaction (hfinds tx mem_cons_self) ha hsub hf.1 ho
    have hleft := ih (fun t ht => hfinds t (mem_cons_of_mem _ ht)) h2 (hf.2 b1 h1) ho1 hnext
    rw [visited_cons h1, flatMap_cons, foldl_append]
    exact hleft

omit [Primitives] in
theorem Mirrors.congr (hm : Mirrors knownKeys s n missed)
    (hsame : s.SameNotes s') : Mirrors knownKeys s' n missed := by
  refine ⟨?_, ?_, hm.groups, ?_, ?_⟩
  · rw [hsame.utxos]; exact hm.utxos
  · rw [hsame.utxos]; exact hm.missed
  · rw [hsame.serviceNotes]; exact hm.service
  · rw [hsame.channels]; exact hm.channel

/-- What the ledger reads of a block. -/
def ledgerBlock [Chain.HeaderPrimitives] (b : Chain.Block) : Ledger.Block :=
  ⟨b.id, b.ledgerHeader, b.transactions⟩

theorem Mirrors.block [Chain.HeaderPrimitives] {b : Chain.Block} {blockEvents : List Event}
    {epoch : Nat} {wb : WalletBlock} (hm : Mirrors knownKeys s n missed) (hr : Reachable eras s)
    (hf : s.BlockFresh b.id b.ledgerHeader b.transactions eras) (hd : DistinctIds b.transactions)
    (hu : s.tryUpdate b.id b.ledgerHeader b.transactions eras = .ok (s', blockEvents, deferred))
    (hb : WalletBlock.fromBlock b epoch blockEvents = .ok wb) :
    Mirrors knownKeys s' (n.applyEffects knownKeys wb)
      ((s.blockExecuted eras (ledgerBlock b)).foldl (powNotesAfter knownKeys) missed) := by
  obtain ⟨s1, headerEvents, s2, txEvents, h1, h2, h5, rfl⟩ := tryUpdate_ok hu
  have hheader := HeaderShown.of_apply hr.keyed.2 h1
  have hshown := tryApplyBlockContents_shown h2
  rw [WalletBlock.fromBlock_eq hshown hd headerEvents epoch] at hb
  cases hb
  obtain ⟨run, h3, h4, hemitted, -⟩ := tryApplyBlockContents_ok h2
  obtain ⟨ho1, hslot⟩ := hr.owned.of_header hf.1 h1
  have hseen := addSeenBlock_sameNotes s1 b.id b.ledgerHeader.slot eras
  have hm1 := (hm.header hr.owned hf.1 hheader).congr hseen
  change List.foldlM (BlockRun.step eras (configForSlot eras s1.slot)) _ _ = _ at h3
  rw [hslot] at h3
  have hsub : run.events ⊆ txEvents := hemitted ▸ List.Subset.refl _
  have hm2 := Mirrors.transactions
    (groupEvents (headerEvents.map .header ++ txEvents.map .tx)).2 (fun tx htx => ?_) h3 hsub
    (hf.2 _ h1) (hseen.owned ho1) hm1
  · rw [map_zipIdx_fst (followedTx _)] at hm2
    have hexecuted : s.blockExecuted eras (ledgerBlock b) =
        (visited (BlockRun.step eras (configForSlot eras b.ledgerHeader.slot))
          (.start (s1.addSeenBlock b.id b.ledgerHeader.slot eras)) b.transactions.zipIdx).flatMap
          fun v => v.1.state.txExecuted eras v.2.1 := by
      unfold blockExecuted ledgerBlock
      rw [h1]
    rw [hexecuted]
    exact (hm2.congr (settleBlock_sameNotes h4)).congr (recordBlock_sameNotes h5)
  · have hmem : tx.1 ∈ b.transactions := (mem_zipIdx' htx).2 ▸ getElem_mem _
    exact fun op hop nf hnf e he hkey => lookup_claim hshown hd headerEvents hmem hop hnf he hkey

end

/-! ## The start -/

/-- What a note of the ledger changes in a new wallet. -/
def startChange (knownKeys : Map ZkPublicKey KeyId) (s : LedgerState) (utxo : Utxo) : Change where
  made := [utxo].filter (knows knownKeys)
  entering := (([utxo].filter (knows knownKeys)).map Utxo.id).filter s.channels.isChannelNote
  locked := (([utxo].filter (knows knownKeys)).map Utxo.id).filter s.serviceNotes.contains

variable {s : LedgerState} {utxos : Utxos} {k : NoteId}

theorem insertLedgerNote_applied {n : WalletNotes} {utxo : Utxo}
    (h : (startChange knownKeys s utxo).Fresh n) :
    (startChange knownKeys s utxo).Applied n (n.insertLedgerNote knownKeys s utxo) := by
  have hx := insertUtxoIfOwned_applied h
  unfold startChange insertLedgerNote
  by_cases hk : knows knownKeys utxo = true
  · rw [filter_knows_of_true hk] at hx ⊢
    rw [insertUtxoIfOwned_of_true hk] at hx
    rw [if_pos (show (knownKeys.lookup utxo.note.pk).isSome = true from hk)]
    refine ⟨hx.made, hx.other, hx.groups, fun k => ?_, fun k => ?_⟩
    · grind
    · grind
  · rw [filter_knows_of_false hk,
      if_neg (show ¬ (knownKeys.lookup utxo.note.pk).isSome = true from hk)]
    exact .refl n

omit [Primitives] in
theorem get_eq_some_iff (order : Map.Iteration utxos.items)
    {u : Utxo} : utxos.get k = some u ↔ ∃ i, (k, u, i) ∈ order.entries := by
  grind [FlatTree.get, Option.map_eq_some_iff, Map.Iteration.mem_iff]

/-- The notes of the ledger in some order: each of them, once, under its id. -/
theorem notes_of_iteration (hk : KeyedNotes utxos) (order : Map.Iteration utxos.items) :
    (∀ k u, utxos.get k = some u ↔ u ∈ order.entries.map (·.2.1) ∧ u.id = k) ∧
      ((order.entries.map (·.2.1)).map Utxo.id).Nodup := by
  have hkey : ∀ e ∈ order.entries, e.2.1.id = e.1 := by
    rintro ⟨k, u, i⟩ he
    exact hk k u ((get_eq_some_iff order).mpr ⟨i, he⟩)
  refine ⟨fun k u => ?_, ?_⟩
  · rw [get_eq_some_iff order, mem_map]
    grind
  · have hids : (order.entries.map (·.2.1)).map Utxo.id = order.entries.map (·.1) := by
      rw [map_map]
      exact map_congr_left hkey
    rw [hids]
    exact order.nodup

theorem mem_marked {mark : NoteId → Bool} {utxos : List Utxo} :
    (k ∈ utxos.flatMap fun u => (([u].filter (knows knownKeys)).map Utxo.id).filter mark) ↔
      (∃ u ∈ utxos, knows knownKeys u = true ∧ u.id = k) ∧ mark k = true := by grind

theorem Mirrors.start (hk : KeyedNotes s.utxos) (order : Map.Iteration s.utxos.items) :
    Mirrors knownKeys s (WalletState.fromLedger knownKeys s order).toWalletNotes ∅ := by
  obtain ⟨hget, hnodup⟩ := notes_of_iteration hk order
  generalize hutxos : order.entries.map (·.2.1) = utxos at hget hnodup
  have happlied : (Change.all (startChange knownKeys s) utxos).Applied .empty
      (WalletState.fromLedger knownKeys s order).toWalletNotes := by
    show Change.Applied _ _ (List.foldl _ _ (order.entries.map (·.2.1)))
    rw [hutxos]
    refine .foldl (fun n u _ hf _ => insertLedgerNote_applied hf) ?_ fun u _ => ?_
    · exact (pairwise_map.mp hnodup).imp fun hne =>
        independent_made fun _ _ => hne
    · exact Finmap.lookup_empty _
  have hmade : ∀ u, u ∈ (Change.all (startChange knownKeys s) utxos).made ↔
      u ∈ utxos ∧ knows knownKeys u = true := by
    intro u
    simp [Change.all, startChange]
  generalize (WalletState.fromLedger knownKeys s order).toWalletNotes = n at happlied
  -- The wallet has a note if it is one of a known key.
  have hlookup : ∀ k u, n.utxos.lookup k = some u ↔
      u ∈ utxos ∧ knows knownKeys u = true ∧ u.id = k := by
    intro k u
    constructor
    · intro hu
      by_cases hk : k ∈ (Change.all (startChange knownKeys s) utxos).made.map Utxo.id
      · grind [Change.Applied.made]
      · rw [happlied.other k hk, show WalletNotes.empty.utxos.lookup k = none from
          Finmap.lookup_empty _, ite_self] at hu
        cases hu
    · grind [Change.Applied.made]
  have hsome : ∀ k, (n.utxos.lookup k).isSome = true ↔
      ∃ u ∈ utxos, knows knownKeys u = true ∧ u.id = k := by
    intro k
    simp only [Option.isSome_iff_exists, hlookup]
  refine ⟨fun k u => ?_, by simp, happlied.groups .empty, fun k => ?_, fun k => ?_⟩
  · grind
  · rw [happlied.service, hsome, ← mem_marked]
    simp [Change.all, startChange, WalletNotes.empty]
  · rw [happlied.channel, hsome, ← mem_marked]
    simp [Change.all, startChange, WalletNotes.empty]

/-! ## Chains -/

variable [Chain.HeaderPrimitives]

/-- The ledger accepts a block, and the wallet reads it. -/
def Follows (eras : EraScheduledConfig) (knownKeys : Map ZkPublicKey KeyId) (VoucherId : Type)
    (p : LedgerState × WalletState) (b : Chain.Block) (p' : LedgerState × WalletState) : Prop :=
  p.1.BlockFresh b.id b.ledgerHeader b.transactions eras ∧ DistinctIds b.transactions ∧
    ∃ events deferred epoch block,
      p.1.tryUpdate b.id b.ledgerHeader b.transactions eras = .ok (p'.1, events, deferred) ∧
      WalletBlock.fromBlock b epoch events = .ok block ∧
      ∃ (vouchers : Vouchers VoucherId) (order : Map.Iteration p.2.voucherPaths),
        p.2.applyBlock knownKeys vouchers order block = .ok p'.2

/-- The unspent notes that puzzles paid, or deposits made of those. -/
def powNotes (knownKeys : Map ZkPublicKey KeyId) (s : LedgerState) (eras : EraScheduledConfig)
    (bs : List Chain.Block) : Finset NoteId :=
  (s.executed eras (bs.map ledgerBlock)).foldl (powNotesAfter knownKeys) ∅

section

variable {eras : EraScheduledConfig} {s s' : LedgerState} {w' : WalletState} {bs : List Chain.Block}

theorem executed_snoc {t : LedgerState} {b : Chain.Block}
    (h : s.applyBlocks eras (bs.map ledgerBlock) = .ok t) :
    s.executed eras ((bs ++ [b]).map ledgerBlock) =
      s.executed eras (bs.map ledgerBlock) ++ t.blockExecuted eras (ledgerBlock b) := by
  unfold executed
  rw [map_append, map_singleton, visited_snoc h, flatMap_append, flatMap_singleton]

/-- A wallet that follows a chain stays next to the ledger. -/
theorem Mirrors.of_run (hs : Reachable eras s) {order : Map.Iteration s.utxos.items}
    (hrun : Run (Follows eras knownKeys VoucherId) (s, .fromLedger knownKeys s order) bs (s', w')) :
    Mirrors knownKeys s' w'.toWalletNotes (powNotes knownKeys s eras bs) := by
  have h := hrun.history (I := fun bs p => Reachable eras p.1 ∧
    s.applyBlocks eras (bs.map ledgerBlock) = .ok p.1 ∧
    Mirrors knownKeys p.1 p.2.toWalletNotes (powNotes knownKeys s eras bs))
    ⟨hs, rfl, .start hs.keyed.1 order⟩ ?_
  · exact h.2.2
  · rintro bs ⟨t, w⟩ b ⟨t', w''⟩ ⟨hr, hblocks, hm⟩
      ⟨hf, hd, events, deferred, epoch, block, hu, hb, vouchers, order, ha⟩
    refine ⟨hr.block hf hu, ?_, ?_⟩
    · unfold applyBlocks at hblocks ⊢
      rw [map_append, foldlM_append]
      exact ok_bind hblocks (ok_bind (ok_bind hu rfl) rfl)
    · rw [WalletState.applyBlock_ok ha, powNotes, executed_snoc hblocks, foldl_append]
      exact hm.block hr hf hd hu hb

/-- The wallet offers no note that it cannot spend: its notes are unspent notes of known keys, and
exactly those that serve and those that a channel owns are marked. -/
theorem wallet_notes_spendable (hs : Reachable eras s) (order : Map.Iteration s.utxos.items)
    (hrun : Run (Follows eras knownKeys VoucherId) (s, .fromLedger knownKeys s order) bs (s', w')) :
    (∀ k u, w'.utxos.lookup k = some u →
      s'.utxos.get k = some u ∧ (knownKeys.lookup u.note.pk).isSome = true) ∧
    (∀ k, k ∈ w'.serviceNotes ↔
      (w'.utxos.lookup k).isSome = true ∧ s'.serviceNotes.contains k = true) ∧
    (∀ k, k ∈ w'.channelNotes ↔
      (w'.utxos.lookup k).isSome = true ∧ s'.channels.isChannelNote k = true) ∧
    (∀ pk k, k ∈ Map.groupOf w'.pkIndex pk ↔ ∃ u, w'.utxos.lookup k = some u ∧ u.note.pk = pk) ∧
    ∀ pk ids, w'.pkIndex.lookup pk = some ids → ids ≠ ∅ := by
  have hm := Mirrors.of_run hs hrun
  refine ⟨fun k u hu => ?_, hm.service, hm.channel, hm.groups.mem_iff, hm.groups.nonempty⟩
  obtain ⟨hget, hknows, -⟩ := (hm.utxos k u).mp hu
  exact ⟨hget, hknows⟩

/-- The wallet misses no note of its keys exactly if no reward of a puzzle that was paid to them is
left, nor a note that a deposit made of one. -/
theorem wallet_complete_iff (hs : Reachable eras s) (order : Map.Iteration s.utxos.items)
    (hrun : Run (Follows eras knownKeys VoucherId) (s, .fromLedger knownKeys s order) bs (s', w')) :
    (∀ k u, s'.utxos.get k = some u → (knownKeys.lookup u.note.pk).isSome = true →
      w'.utxos.lookup k = some u) ↔ powNotes knownKeys s eras bs = ∅ := by
  have hm := Mirrors.of_run hs hrun
  constructor
  · intro hall
    refine Finset.eq_empty_of_forall_notMem fun k hk => ?_
    obtain ⟨u, hu, hknows⟩ := hm.missed k hk
    exact ((hm.utxos k u).mp (hall k u hu hknows)).2.2 hk
  · intro hnone k u hu hknows
    refine (hm.utxos k u).mpr ⟨hu, hknows, ?_⟩
    rw [hnone]
    exact Finset.notMem_empty k

end

/-! ## By hand -/

/-- The next block of a chain, for following it by hand. -/
def follow (eras : EraScheduledConfig) (knownKeys : Map ZkPublicKey KeyId)
    (vouchers : Vouchers VoucherId) (p : LedgerState × WalletState) (b : Chain.Block) :
    Except Unit (LedgerState × WalletState) := do
  failIf (¬ p.1.BlockFresh b.id b.ledgerHeader b.transactions eras) ()
  failIf (¬ DistinctIds b.transactions) ()
  let (s, events, _) ← (p.1.tryUpdate b.id b.ledgerHeader b.transactions eras).mapError fun _ => ()
  let block ← (WalletBlock.fromBlock b 0 events).mapError fun _ => ()
  let w ← (p.2.applyBlock knownKeys vouchers (.ascending _) block).mapError fun _ => ()
  return (s, w)

variable {b : Chain.Block}

theorem follows_of_follow {eras : EraScheduledConfig} {vouchers : Vouchers VoucherId}
    {p p' : LedgerState × WalletState} (h : follow eras knownKeys vouchers p b = .ok p') :
    Follows eras knownKeys VoucherId p b p' := by
  obtain ⟨_, hf, h1⟩ := bind_ok h
  obtain ⟨_, hd, h2⟩ := bind_ok h1
  obtain ⟨⟨s, events, deferred⟩, hu, h3⟩ := bind_ok h2
  obtain ⟨block, hb, h4⟩ := bind_ok h3
  obtain ⟨w, ha, h5⟩ := bind_ok h4
  cases h5
  exact ⟨not_not.mp (failIf_ok.mp hf), not_not.mp (failIf_ok.mp hd), events, deferred, 0, block,
    mapError_ok.mp hu, mapError_ok.mp hb, vouchers, _, mapError_ok.mp ha⟩

/-- A ledger from genesis, and ledger and wallet after a block. -/
def afterBlock (tx : GenesisTx) (b : Chain.Block) :
    Except Unit (LedgerState × LedgerState × WalletState) := do
  let s ← (fromGenesisTx tx .small).mapError fun _ => ()
  let s := s.addSeenBlock 0 s.slot (.single .small)
  let p ← follow (.single .small) oneKey (⟨∅⟩ : Vouchers Unit)
    (s, .fromLedger oneKey s (.ascending _)) b
  return (s, p)

theorem run_of_afterBlock {tx : GenesisTx} {s s' : LedgerState} {w' : WalletState}
    (h : afterBlock tx b = .ok (s, s', w')) : Reachable (.single .small) s ∧
      Run (Follows (.single .small) oneKey Unit) (s, .fromLedger oneKey s (.ascending _)) [b]
        (s', w') := by
  obtain ⟨s0, h0, h1⟩ := bind_ok h
  obtain ⟨p, h2, h3⟩ := bind_ok h1
  cases h3
  exact ⟨.ledger (.genesis (mapError_ok.mp h0)) 0, .snoc (.nil _) (follows_of_follow h2)⟩

def blockOf (tx : SignedOps) : Chain.Block := ⟨⟨1, 0, 1, ⟨0, 0, 0, 0⟩⟩, [], [tx]⟩

def claimPowTx : SignedOps :=
  ⟨0, [.claimPowReward ⟨0, 0, 7⟩, .transfer ⟨.single 9002, .empty⟩ 0]⟩

omit [Primitives] [Chain.HeaderPrimitives] in
theorem wallet_notes_spendable_deposit :
    letI := plain
    letI := Chain.HeaderPrimitives.plain
    ∃ s s' w', Reachable (.single .small) s ∧
      Run (Follows (.single .small) oneKey Unit) (s, .fromLedger oneKey s (.ascending _))
        [blockOf depositTx] (s', w') ∧
      144018000 ∈ w'.channelNotes ∧ 9000 ∈ w'.serviceNotes ∧
      s'.channels.isChannelNote 144018000 = true ∧ s'.serviceNotes.contains 9000 = true := by
  let _ := plain
  let _ := Chain.HeaderPrimitives.plain
  obtain ⟨⟨s, s', w'⟩, h, hchannel, hservice⟩ :=
    exists_ok (x := afterBlock genesisWithPool (blockOf depositTx))
      (fun r => 144018000 ∈ r.2.2.channelNotes ∧ 9000 ∈ r.2.2.serviceNotes) (by decide +kernel)
  obtain ⟨hs, hrun⟩ := run_of_afterBlock h
  obtain ⟨-, hserves, howned, -⟩ := wallet_notes_spendable hs _ hrun
  exact ⟨s, s', w', hs, hrun, hchannel, hservice, ((howned _).mp hchannel).2,
    ((hserves _).mp hservice).2⟩

omit [Primitives] [Chain.HeaderPrimitives] in
theorem wallet_complete_iff_deposit :
    letI := plain
    letI := Chain.HeaderPrimitives.plain
    ∃ s s' w', Reachable (.single .small) s ∧
      Run (Follows (.single .small) oneKey Unit) (s, .fromLedger oneKey s (.ascending _))
        [blockOf depositTx] (s', w') ∧ (s'.utxos.get 144018000).isSome = true ∧
      ∀ k u, s'.utxos.get k = some u → (oneKey.lookup u.note.pk).isSome = true →
        w'.utxos.lookup k = some u := by
  let _ := plain
  let _ := Chain.HeaderPrimitives.plain
  obtain ⟨⟨s, s', w'⟩, h, hnone, hnote⟩ :=
    exists_ok (x := afterBlock genesisWithPool (blockOf depositTx))
      (fun r => powNotes oneKey r.1 (.single .small) [blockOf depositTx] = ∅ ∧
        (r.2.1.utxos.get 144018000).isSome = true) (by decide +kernel)
  obtain ⟨hs, hrun⟩ := run_of_afterBlock h
  exact ⟨s, s', w', hs, hrun, hnote, (wallet_complete_iff hs _ hrun).mpr hnone⟩

omit [Primitives] [Chain.HeaderPrimitives] in
/-- The wallet does not have the reward of a puzzle that a claim paid to its key. -/
theorem wallet_misses_pow_reward :
    letI := plain
    letI := Chain.HeaderPrimitives.plain
    ∃ s s' w' u, Reachable (.single .small) s ∧
      Run (Follows (.single .small) oneKey Unit) (s, .fromLedger oneKey s (.ascending _))
        [blockOf claimPowTx] (s', w') ∧
      s'.utxos.get 122000 = some u ∧ (oneKey.lookup u.note.pk).isSome = true ∧
      w'.utxos.lookup 122000 = none := by
  let _ := plain
  let _ := Chain.HeaderPrimitives.plain
  obtain ⟨⟨s, s', w'⟩, h, hu, hnone⟩ :=
    exists_ok (x := afterBlock genesisWithPool (blockOf claimPowTx))
      (fun r => ((r.2.1.utxos.get 122000).map (·.note.pk) = some 7) ∧
        r.2.2.utxos.lookup 122000 = none) (by decide +kernel)
  obtain ⟨hs, hrun⟩ := run_of_afterBlock h
  obtain ⟨u, hget, hpk⟩ := Option.map_eq_some_iff.mp hu
  exact ⟨s, s', w', u, hs, hrun, hget, by rw [hpk]; decide, hnone⟩

end Logos.Wallet
