import LogosChain.Wallet.Funding

/-!
# The notes that fund a transaction

The index of a wallet is exact (`WalletNotes.Indexed`). So the inputs that funding adds are notes of
the given keys that it may spend, as far as it looks for the notes that the transaction itself uses.
It does not look at the transfers of channels.
-/

namespace Logos.Wallet

open Base Mantle Ledger WalletNotes

variable {KeyId VoucherId : Type} [Primitives]

/-! ## The index of a wallet -/

/-- Of some notes, those with the same id have the same key. -/
def KeyedById (notes : Set Utxo) : Prop :=
  ∀ u ∈ notes, ∀ v ∈ notes, u.id = v.id → u.note.pk = v.note.pk

/-- The wallet keeps some of the notes by id, and its index is exact. -/
structure WalletNotes.Indexed (notes : Set Utxo) (n : WalletNotes) : Prop where
  ids : ∀ k u, n.utxos.lookup k = some u → u.id = k
  groups : Map.Groups (·.note.pk) n.utxos n.pkIndex
  known : ∀ k u, n.utxos.lookup k = some u → u ∈ notes

/-- The notes that an operation makes; a deposit one for each it spends. -/
def WalletOp.made (notes : Set Utxo) : WalletOp → Set Utxo
  | .transfer op => {u | u ∈ op.newUtxos}
  | .channelTransfer op => {u | u ∈ op.newUtxos}
  | .leaderClaim utxo => {utxo}
  | .claimPoW utxo => {utxo}
  | .channelDeposit op => {u | ∃ v ∈ notes, ∃ i, (v.id, i) ∈ op.inputs.ids.zipIdx ∧
      u = ⟨Primitives.opId (.channelDeposit op), i, v.note⟩}
  | .lock _ => ∅
  | .channelWithdraw _ => ∅

/-- The notes that a block makes for a wallet. -/
def WalletBlock.made (notes : Set Utxo) (block : WalletBlock) : Set Utxo :=
  {u | .sdpReward u ∈ block.headerOps ∨ ∃ tx ∈ block.txs, ∃ op ∈ tx.ops, u ∈ op.made notes}

namespace WalletNotes.Indexed

variable {n : WalletNotes} {knownKeys : Map ZkPublicKey KeyId} {notes : Set Utxo}

theorem empty : WalletNotes.empty.Indexed notes :=
  ⟨by simp [WalletNotes.empty], .empty, by simp [WalletNotes.empty]⟩

theorem congr {n' : WalletNotes} (h : n.Indexed notes) (hu : n'.utxos = n.utxos)
    (hi : n'.pkIndex = n.pkIndex) : n'.Indexed notes :=
  ⟨hu ▸ h.ids, hu ▸ hi ▸ h.groups, hu ▸ h.known⟩

theorem removeSpentUtxo (h : n.Indexed notes) (id : NoteId) :
    (n.removeSpentUtxo id).Indexed notes := by
  have happlied := removeSpentUtxo_applied n id
  have hkept : ∀ k u, (n.removeSpentUtxo id).utxos.lookup k = some u →
      n.utxos.lookup k = some u := by
    intro k u hu
    rw [happlied.other k (by simp)] at hu
    split at hu
    · cases hu
    · exact hu
  exact ⟨fun k u hu => h.ids k u (hkept k u hu), happlied.groups h.groups,
    fun k u hu => h.known k u (hkept k u hu)⟩

theorem foldl {α : Type} {f : WalletNotes → α → WalletNotes} (l : List α)
    (hf : ∀ m, ∀ a ∈ l, m.Indexed notes → (f m a).Indexed notes) (h : n.Indexed notes) :
    (l.foldl f n).Indexed notes :=
  List.foldlRecOn l f h fun m hm a ha => hf m a ha hm

variable (hkeys : KeyedById notes) (h : n.Indexed notes)
include hkeys h

/-- A note that replaces one with its id has the same key. -/
theorem insert {utxo : Utxo} (hu : utxo ∈ notes) :
    WalletNotes.Indexed notes { n with
      utxos := n.utxos.insert utxo.id utxo
      pkIndex := Map.groupInsert n.pkIndex utxo.note.pk utxo.id } where
  ids k u hu := by grind [Map.lookup_insert_some, ids]
  groups := h.groups.insert fun v hv => hkeys v (h.known _ v hv) utxo hu (h.ids _ v hv)
  known k u hu := by grind [Map.lookup_insert_some, known]

theorem insertUtxoIfOwned {utxo : Utxo} (hu : utxo ∈ notes) :
    (n.insertUtxoIfOwned knownKeys utxo).1.Indexed notes := by
  grind [insertUtxoIfOwned, insert]

theorem insertIntoChannel {utxo : Utxo} (hu : utxo ∈ notes) :
    (n.insertIntoChannel knownKeys utxo).Indexed notes := by
  have hinserted : (n.insertUtxoIfOwned knownKeys utxo).1.Indexed notes :=
    h.insertUtxoIfOwned hkeys hu
  grind [insertIntoChannel, congr]

theorem depositInput {op : DepositOp} (hop : (WalletOp.channelDeposit op).made notes ⊆ notes)
    {input : NoteId × Nat} (hinput : input ∈ op.inputs.ids.zipIdx) :
    (n.depositInput knownKeys op input).Indexed notes := by
  unfold WalletNotes.depositInput
  cases hlookup : n.utxos.lookup input.1 with
  | none => exact h.removeSpentUtxo input.1
  | some utxo =>
    refine (h.removeSpentUtxo input.1).insertIntoChannel hkeys (hop ?_)
    exact ⟨utxo, h.known _ utxo hlookup, input.2, by rw [h.ids _ utxo hlookup]; exact hinput, rfl⟩

theorem applyOp {op : WalletOp} (hop : op.made notes ⊆ notes) :
    (n.applyOp knownKeys op).Indexed notes := by
  cases op with
  | transfer op =>
    exact .foldl _ (fun m u hu hm => hm.insertUtxoIfOwned hkeys (hop hu))
      (.foldl _ (fun m id _ hm => hm.removeSpentUtxo id) h)
  | lock noteId =>
    show WalletNotes.Indexed notes (if (n.utxos.lookup noteId).isSome then
      { n with serviceNotes := Insert.insert noteId n.serviceNotes } else n)
    split
    · exact h.congr rfl rfl
    · exact h
  | leaderClaim utxo | claimPoW utxo => exact h.insertUtxoIfOwned hkeys (hop rfl)
  | channelDeposit op => exact .foldl _ (fun m i hi hm => hm.depositInput hkeys hop hi) h
  | channelTransfer op =>
    refine foldl _ (fun m u hu hm => hm.insertIntoChannel hkeys (hop hu)) (foldl _ ?_ h)
    intro m id _ hm
    exact (hm.removeSpentUtxo id).congr rfl rfl
  | channelWithdraw op => exact foldl _ (fun m id _ hm => hm.congr rfl rfl) h

theorem applyEffects {block : WalletBlock} (hblock : block.made notes ⊆ notes) :
    (n.applyEffects knownKeys block).Indexed notes := by
  refine .foldl _ (fun m tx htx hm => .foldl _ (fun m op hop hm => hm.applyOp hkeys fun u hu =>
    hblock (.inr ⟨tx, htx, op, hop, hu⟩)) hm) (.foldl _ (fun m op hop hm => ?_) h)
  cases op with
  | unlock noteId => exact hm.congr rfl rfl
  | sdpReward utxo => exact hm.insertUtxoIfOwned hkeys (hblock (.inl hop))

omit h in
theorem fromLedger {ledger : LedgerState} (order : Map.Iteration ledger.utxos.items)
    (hledger : ∀ id entry, ledger.utxos.items.lookup id = some entry → entry.1 ∈ notes) :
    (WalletState.fromLedger knownKeys ledger order).Indexed notes := by
  refine .foldl _ (fun m u hu hm => ?_) .empty
  obtain ⟨⟨id, entry⟩, hentry, rfl⟩ := List.mem_map.mp hu
  have hnote := hledger id entry ((order.mem_iff id entry).mp hentry)
  unfold insertLedgerNote
  split
  · exact (hm.insert hkeys hnote).congr rfl rfl
  · exact hm

end WalletNotes.Indexed

/-- The states of a wallet whose ledger and blocks have given notes. -/
inductive WalletState.ReachableWith (KeyId VoucherId : Type) (notes : Set Utxo) :
    WalletState → Prop where
  | fromLedger (knownKeys : Map ZkPublicKey KeyId) (ledger : LedgerState)
      (order : Map.Iteration ledger.utxos.items)
      (hledger : ∀ id entry, ledger.utxos.items.lookup id = some entry → entry.1 ∈ notes) :
      ReachableWith KeyId VoucherId notes (.fromLedger knownKeys ledger order)
  | applyBlock {w w' : WalletState} (hw : ReachableWith KeyId VoucherId notes w)
      (knownKeys : Map ZkPublicKey KeyId) (knownVouchers : Vouchers VoucherId)
      (order : Map.Iteration w.voucherPaths) (block : WalletBlock)
      (hblock : block.made notes ⊆ notes)
      (h : w.applyBlock knownKeys knownVouchers order block = .ok w') :
      ReachableWith KeyId VoucherId notes w'

/-- The states of a wallet with any ledger and blocks. -/
def WalletState.Reachable (KeyId VoucherId : Type) (w : WalletState) : Prop :=
  w.ReachableWith KeyId VoucherId Set.univ

theorem WalletState.ReachableWith.indexed {notes : Set Utxo} (hkeys : KeyedById notes)
    {w : WalletState} (h : w.ReachableWith KeyId VoucherId notes) : w.Indexed notes := by
  induction h with
  | fromLedger knownKeys ledger order hledger => exact .fromLedger hkeys order hledger
  | applyBlock hw knownKeys knownVouchers order block hblock h ih =>
    rw [WalletState.applyBlock_ok h]
    exact ih.applyEffects hkeys hblock

/-- What is found by the keys are notes of the wallet with one of the keys. -/
theorem WalletNotes.Indexed.owned {n : WalletNotes} {notes : Set Utxo}
    {listing : Map.Listing NoteId} {pks : List ZkPublicKey} (h : n.Indexed notes)
    {utxos : List Utxo} (hok : n.utxosOwnedByPks listing pks = .ok utxos) {u : Utxo}
    (hu : u ∈ utxos) : n.utxos.lookup u.id = some u ∧ u.note.pk ∈ pks := by
  obtain ⟨id, hid, hget⟩ := mapM_mem hok hu
  obtain ⟨ids, hids, hid⟩ := List.mem_flatMap.mp hid
  obtain ⟨pk, hpk, hlookup⟩ := List.mem_filterMap.mp hids
  have hmem : id ∈ Map.groupOf n.pkIndex pk := by
    rw [Map.groupOf, hlookup]
    exact (listing.mem_iff ids id).mp hid
  obtain ⟨v, hv, rfl⟩ := (h.groups.mem_iff pk id).mp hmem
  grind [okOr_ok, ids]

/-! ## Usable inputs -/

/-- The notes that an operation spends or locks. -/
def consumedBy : Op → List NoteId
  | .transfer op => op.inputs.ids
  | .channelDeposit op => op.inputs.ids
  | .channelTransfer op => op.inputs.ids
  | .sdpDeclare op => [op.serviceNoteId]
  | _ => []

/-- The notes that a transaction spends or locks. -/
def consumed (b : MantleTxBuilder) : List NoteId :=
  b.ops.items.flatMap consumedBy ++ b.pendingTransfer.inputs.ids

/-- Notes that may be added to a transaction as inputs. -/
structure Usable (n : WalletNotes) (b : MantleTxBuilder) (pks : List ZkPublicKey)
    (excludedNotes : Finset NoteId) (added : List Utxo) : Prop where
  nodup : (added.map Utxo.id).Nodup
  owned : ∀ u ∈ added, u.note.pk ∈ pks
  service : ∀ u ∈ added, u.id ∉ n.serviceNotes
  channel : ∀ u ∈ added, u.id ∉ n.channelNotes
  excluded : ∀ u ∈ added, u.id ∉ excludedNotes
  unused : ∀ u ∈ added, u.id ∉ consumed b

/-- A note of the keys that is not marked, excluded, or reported as used. -/
structure WalletNotes.Candidate (n : WalletNotes) (b : MantleTxBuilder) (pks : List ZkPublicKey)
    (excludedNotes : Finset NoteId) (u : Utxo) : Prop where
  held : n.utxos.lookup u.id = some u
  owned : u.note.pk ∈ pks
  unused : u.id ∉ b.notesConsumedOrUsedInService
  service : u.id ∉ n.serviceNotes
  channel : u.id ∉ n.channelNotes
  excluded : u.id ∉ excludedNotes

section

variable {n : WalletNotes} {listing : Map.Listing NoteId} {b b' : MantleTxBuilder}
  {changePk : ZkPublicKey} {pks : List ZkPublicKey} {context : OpsContext}
  {excludedNotes : Finset NoteId} {priorityFeePercent : Nat} {id : NoteId} {notes : Set Utxo}

theorem mem_candidates {owned : List Utxo} {u : Utxo} :
    u ∈ n.candidates b owned excludedNotes ↔ u ∈ owned ∧
      u.id ∉ b.notesConsumedOrUsedInService ∧ u.id ∉ n.serviceNotes ∧ u.id ∉ n.channelNotes ∧
      u.id ∉ excludedNotes := by
  simp only [candidates, List.mem_insertionSort, List.mem_filter, decide_eq_true_eq,
    Finset.mem_union, List.mem_toFinset, not_or, and_assoc]

theorem candidate_of_mem (hn : n.Indexed notes) {owned : List Utxo}
    (howned : n.utxosOwnedByPks listing pks = .ok owned) {u : Utxo}
    (hu : u ∈ n.candidates b owned excludedNotes) : n.Candidate b pks excludedNotes u := by
  obtain ⟨hmem, hunused, hservice, hchannel, hexcluded⟩ := mem_candidates.mp hu
  obtain ⟨hheld, hpk⟩ := hn.owned howned hmem
  exact ⟨hheld, hpk, hunused, hservice, hchannel, hexcluded⟩

omit [Primitives] in
theorem mem_consumedBy {op : Op} : id ∈ consumedBy op ↔
    id ∈ MantleTxBuilder.opNotes op ∨ ∃ t, op = .channelTransfer t ∧ id ∈ t.inputs.ids := by
  cases op <;> simp [consumedBy, MantleTxBuilder.opNotes]

/-- The builder reports all that is spent or locked but the inputs of channel transfers. -/
theorem mem_consumed (hb : b.Made) : id ∈ consumed b ↔
    id ∈ b.notesConsumedOrUsedInService ∨
      ∃ t, Op.channelTransfer t ∈ b.ops.items ∧ id ∈ t.inputs.ids := by
  grind [consumed, MantleTxBuilder.notesConsumedOrUsedInService, mem_consumedBy,
    MantleTxBuilder.Made.inputs]

/-- **Funding inputs** may be spent, if no candidate is an input of a transfer of a channel in the
transaction. -/
theorem funding_inputs_usable (hkeys : KeyedById notes) {w : WalletState}
    (hw : w.ReachableWith KeyId VoucherId notes) (hb : b.Made)
    (htransfers : ∀ u, w.Candidate b pks excludedNotes u →
      ∀ t, Op.channelTransfer t ∈ b.ops.items → u.id ∉ t.inputs.ids)
    (hfund : w.fundTx listing b changePk pks context excludedNotes priorityFeePercent = .ok b') :
    ∃ added, b'.ledgerInputs.items = b.ledgerInputs.items ++ added ∧
      Usable w.toWalletNotes b pks excludedNotes added := by
  obtain ⟨owned, count, howned, hfewest⟩ := fundTx_ok_iff.mp hfund
  obtain ⟨hledger, hids⟩ := attempt_inputs hfewest.2.1
  refine ⟨_, hledger, ?_⟩
  have hcandidate : ∀ u ∈ (w.candidates b owned excludedNotes).take count,
      w.Candidate b pks excludedNotes u := fun u hu =>
    candidate_of_mem (hw.indexed hkeys) howned (List.mem_of_mem_take hu)
  refine ⟨?_, fun u hu => (hcandidate u hu).owned, fun u hu => (hcandidate u hu).service,
    fun u hu => (hcandidate u hu).channel, fun u hu => (hcandidate u hu).excluded,
    fun u hu hused => ?_⟩
  · grind [Inputs.nodup]
  · rcases (mem_consumed hb).mp hused with hseen | ⟨t, ht, hid⟩
    · exact (hcandidate u hu).unused hseen
    · exact htransfers u (hcandidate u hu) t ht hid

end

/-! ## By hand -/

/-- Plain primitives with different ids for different notes. -/
@[reducible]
def distinctNotes : Primitives :=
  { Primitives.plain with
    noteId := fun u =>
      Nat.pair (Nat.pair u.opId u.outputIndex) (Nat.pair u.note.value u.note.pk) }

omit [Primitives] in
theorem distinctNotes_injective : @Function.Injective Utxo NoteId (@Utxo.id distinctNotes) := by
  rintro ⟨opId, index, value, pk⟩ ⟨opId', index', value', pk'⟩ h
  obtain ⟨h1, h2⟩ := Nat.pair_eq_pair.mp h
  grind [Nat.pair_eq_pair]

variable {w : WalletState}

theorem walletAtGenesis_reachable (h : walletAtGenesis = .ok w) : w.Reachable Unit Unit := by
  obtain ⟨s, -, h1⟩ := bind_ok h
  cases h1
  exact .fromLedger oneKey s _ fun _ _ _ => trivial

def builderOf (op : Op) : MantleTxBuilder :=
  ⟨⟨[op], Nat.le_add_left 1 _⟩, .empty, ⟨.empty, .empty⟩⟩

theorem builderOf_made (op : Op) : (builderOf op).Made := .extendOps .new [op] rfl

def fundedAtGenesis (op : Op) : Except Unit (WalletState × MantleTxBuilder) := do
  let w ← walletAtGenesis
  let b' ← (w.fundTx .ascending (builderOf op) 7 [7] bytePriced ∅ 10).mapError fun _ => ()
  return (w, b')

theorem fundedAtGenesis_ok {op : Op} {b' : MantleTxBuilder}
    (h : fundedAtGenesis op = .ok (w, b')) : w.Reachable Unit Unit ∧
      w.fundTx .ascending (builderOf op) 7 [7] bytePriced ∅ 10 = .ok b' := by
  obtain ⟨w0, h1, h2⟩ := bind_ok h
  obtain ⟨b0, h3, h4⟩ := bind_ok h2
  cases h4
  exact ⟨walletAtGenesis_reachable h1, mapError_ok.mp h3⟩

def channelTransferOf (id : NoteId) : ChannelTransferOp := ⟨3, .single id, .empty⟩

omit [Primitives] in
/-- A transfer of a channel whose input is no note of the wallet. -/
theorem funding_inputs_usable_other_note :
    letI := distinctNotes
    ∃ (w : WalletState) (b' : MantleTxBuilder), w.Reachable Unit Unit ∧
      (builderOf (.channelTransfer (channelTransferOf 1))).Made ∧
      w.fundTx .ascending (builderOf (.channelTransfer (channelTransferOf 1))) 7 [7] bytePriced ∅
        10 = .ok b' ∧ b'.ledgerInputs.items.map Utxo.id = [625250375070140] ∧
      Usable w.toWalletNotes (builderOf (.channelTransfer (channelTransferOf 1))) [7] ∅
        b'.ledgerInputs.items := by
  let _ := distinctNotes
  obtain ⟨⟨w, b'⟩, h, hids, hnone⟩ := exists_ok
    (x := fundedAtGenesis (.channelTransfer (channelTransferOf 1)))
    (fun r => r.2.ledgerInputs.items.map Utxo.id = [625250375070140] ∧ r.1.utxos.lookup 1 = none)
    (by decide +kernel)
  obtain ⟨hw, hfund⟩ := fundedAtGenesis_ok h
  have hb := builderOf_made (.channelTransfer (channelTransferOf 1))
  have hkeys : KeyedById Set.univ := fun u _ v _ hid => by rw [distinctNotes_injective hid]
  obtain ⟨added, hadded, husable⟩ := funding_inputs_usable hkeys hw hb (fun u hu t ht hid => by
    cases List.mem_singleton.mp ht
    have hheld := hu.held
    rw [List.mem_singleton.mp hid, hnone] at hheld
    cases hheld) hfund
  obtain rfl : b'.ledgerInputs.items = added := hadded
  exact ⟨w, b', hw, hb, hfund, hids, husable⟩

omit [Primitives] in
/-- A note that a transfer of a channel spends pays, and is spent twice. -/
theorem funding_spends_channel_transfer_input :
    letI := distinctNotes
    ∃ (w : WalletState) (b' : MantleTxBuilder) (u : Utxo), w.Reachable Unit Unit ∧
      (builderOf (.channelTransfer (channelTransferOf 625250375070140))).Made ∧
      w.fundTx .ascending (builderOf (.channelTransfer (channelTransferOf 625250375070140))) 7 [7]
        bytePriced ∅ 10 = .ok b' ∧ b'.ledgerInputs.items = [u] ∧
      u.id ∈ consumed (builderOf (.channelTransfer (channelTransferOf 625250375070140))) := by
  let _ := distinctNotes
  obtain ⟨⟨w, b'⟩, h, hids⟩ := exists_ok
    (x := fundedAtGenesis (.channelTransfer (channelTransferOf 625250375070140)))
    (fun r => r.2.ledgerInputs.items.map Utxo.id = [625250375070140]) (by decide +kernel)
  obtain ⟨hw, hfund⟩ := fundedAtGenesis_ok h
  obtain ⟨u, hu, hid⟩ := List.map_eq_singleton_iff.mp hids
  exact ⟨w, b', u, hw, builderOf_made _, hfund, hu, by rw [hid]; decide⟩

end Logos.Wallet
