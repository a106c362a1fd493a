import LogosChain.Wallet.State

/-!
# What a block does to the notes of the wallet

The loops of the wallet make one small change after the other. Changes that do not touch each other
add up (`Change.Applied.foldl`), so every effect is one change.
-/

namespace Logos.Wallet

open Base Mantle Ledger List

variable {KeyId : Type} [Primitives]

omit [Primitives] in
/-- The key of a note is known. -/
def knows (knownKeys : Map ZkPublicKey KeyId) (utxo : Utxo) : Bool :=
  (knownKeys.lookup utxo.note.pk).isSome

/-! ## Changes -/

/-- What an effect does to the notes. -/
structure Change where
  spent : List NoteId := []
  made : List Utxo := []
  entering : List NoteId := []
  leaving : List NoteId := []
  locked : List NoteId := []
  unlocked : List NoteId := []

namespace Change

/-- A change and then another one. -/
def append (c d : Change) : Change where
  spent := c.spent ++ d.spent
  made := c.made ++ d.made
  entering := c.entering ++ d.entering
  leaving := c.leaving ++ d.leaving
  locked := c.locked ++ d.locked
  unlocked := c.unlocked ++ d.unlocked

/-- The changes of the items of a list. -/
def all {α : Type} (c : α → Change) (l : List α) : Change where
  spent := l.flatMap fun a => (c a).spent
  made := l.flatMap fun a => (c a).made
  entering := l.flatMap fun a => (c a).entering
  leaving := l.flatMap fun a => (c a).leaving
  locked := l.flatMap fun a => (c a).locked
  unlocked := l.flatMap fun a => (c a).unlocked

/-- The notes that are made are not there yet. -/
def Fresh (c : Change) (n : WalletNotes) : Prop := ∀ u ∈ c.made, n.utxos.lookup u.id = none

/-- The notes that are made are new and different from each other. -/
structure Ready (c : Change) (n : WalletNotes) : Prop where
  fresh : c.Fresh n
  nodup : (c.made.map Utxo.id).Nodup
  unspent : ∀ u ∈ c.made, u.id ∉ c.spent

/-- The second change touches nothing of what the first one did. -/
structure Independent (c d : Change) : Prop where
  made : ∀ u ∈ c.made, u.id ∉ d.spent ∧ u.id ∉ d.made.map Utxo.id
  spent : ∀ k ∈ d.spent, k ∉ c.spent
  channel : ∀ k ∈ c.entering, k ∉ d.leaving
  service : ∀ k ∈ c.locked, k ∉ d.unlocked

/-- The notes of a wallet before a change and after it. -/
structure Applied (c : Change) (n n' : WalletNotes) : Prop where
  made : ∀ u ∈ c.made, n'.utxos.lookup u.id = some u
  other : ∀ k, k ∉ c.made.map Utxo.id →
    n'.utxos.lookup k = if k ∈ c.spent then none else n.utxos.lookup k
  groups : Map.Groups (·.note.pk) n.utxos n.pkIndex → Map.Groups (·.note.pk) n'.utxos n'.pkIndex
  channel : ∀ k, k ∈ n'.channelNotes ↔
    k ∈ c.entering ∨ (k ∉ c.leaving ∧ k ∈ n.channelNotes)
  service : ∀ k, k ∈ n'.serviceNotes ↔
    k ∈ c.locked ∨ (k ∉ c.unlocked ∧ k ∈ n.serviceNotes)

theorem Applied.refl (n : WalletNotes) : Applied {} n n :=
  ⟨by simp, by simp, fun h => h, by simp, by simp⟩

theorem Applied.append {c d : Change} {n n₁ n₂ : WalletNotes} (hc : c.Applied n n₁)
    (hd : d.Applied n₁ n₂) (hi : c.Independent d) : (c.append d).Applied n n₂ where
  made u hu := by
    rcases mem_append.mp hu with hu | hu
    · obtain ⟨hspent, hmade⟩ := hi.made u hu
      rw [hd.other _ hmade, if_neg hspent, hc.made u hu]
    · exact hd.made u hu
  other k hk := by
    have hk' : k ∉ c.made.map Utxo.id ∧ k ∉ d.made.map Utxo.id := by grind [Change.append]
    rw [hd.other k hk'.2, hc.other k hk'.1]
    grind [Change.append]
  groups h := hd.groups (hc.groups h)
  channel k := by
    have := hi.channel k
    simp only [hd.channel, hc.channel, Change.append, mem_append]
    tauto
  service k := by
    have := hi.service k
    simp only [hd.service, hc.service, Change.append, mem_append]
    tauto

theorem Independent.all {α : Type} {c : α → Change} {d : Change} {l : List α}
    (h : ∀ a ∈ l, d.Independent (c a)) : d.Independent (Change.all c l) where
  made u hu := by
    refine ⟨fun hmem => ?_, fun hmem => ?_⟩
    · obtain ⟨a, ha, hk⟩ := mem_flatMap.mp hmem
      exact ((h a ha).made u hu).1 hk
    · obtain ⟨v, hv, heq⟩ := mem_map.mp hmem
      obtain ⟨a, ha, hv'⟩ := mem_flatMap.mp hv
      exact ((h a ha).made u hu).2 (heq ▸ mem_map_of_mem hv')
  spent k hk := by
    obtain ⟨a, ha, hk'⟩ := mem_flatMap.mp hk
    exact (h a ha).spent k hk'
  channel k hk hmem := by
    obtain ⟨a, ha, hk'⟩ := mem_flatMap.mp hmem
    exact (h a ha).channel k hk hk'
  service k hk hmem := by
    obtain ⟨a, ha, hk'⟩ := mem_flatMap.mp hmem
    exact (h a ha).service k hk hk'

/-- A loop whose rounds make independent changes makes all of them. -/
theorem Applied.foldl {α : Type} {f : WalletNotes → α → WalletNotes} {c : α → Change} {l : List α}
    {n : WalletNotes}
    (hstep : ∀ m, ∀ a ∈ l, (c a).Fresh m →
      (∀ k ∈ (c a).spent, m.utxos.lookup k = n.utxos.lookup k) → (c a).Applied m (f m a))
    (hpair : l.Pairwise fun a b => (c a).Independent (c b)) (hfresh : (Change.all c l).Fresh n) :
    (Change.all c l).Applied n (l.foldl f n) := by
  induction l generalizing n with
  | nil => exact .refl n
  | cons a l ih =>
    obtain ⟨hfirst, hrest⟩ := pairwise_cons.mp hpair
    have ha : (c a).Applied n (f n a) := hstep n a mem_cons_self
      (fun u hu => hfresh u (mem_append_left _ hu)) fun _ _ => rfl
    refine ha.append (ih (fun m b hb hm hsame => ?_) hrest fun u hu => ?_) (.all hfirst)
    · refine hstep m b (mem_cons_of_mem _ hb) hm fun k hk => ?_
      have hmade : k ∉ (c a).made.map Utxo.id := by grind [Independent.made]
      rw [hsame k hk, ha.other k hmade, if_neg ((hfirst b hb).spent k hk)]
    · obtain ⟨b, hb, hu'⟩ := mem_flatMap.mp hu
      have hmade : u.id ∉ (c a).made.map Utxo.id := by
        intro hmem
        obtain ⟨v, hv, heq⟩ := mem_map.mp hmem
        exact ((hfirst b hb).made v hv).2 (heq ▸ mem_map_of_mem hu')
      rw [ha.other _ hmade, hfresh u (mem_append_right _ hu), ite_self]

theorem Ready.of_applied {c d : Change} {n n' : WalletNotes} (hd : d.Ready n)
    (hc : c.Applied n n') (hmade : c.made = []) : Change.Ready { made := d.made } n' where
  fresh u hu := by rw [hc.other _ (by simp [hmade]), hd.fresh u hu, ite_self]
  nodup := hd.nodup
  unspent u _ := by simp

end Change

/-! ## The rounds of the loops -/

namespace WalletNotes

variable {knownKeys : Map ZkPublicKey KeyId} {n : WalletNotes} {utxo : Utxo} {utxos : List Utxo}

theorem removeSpentUtxo_applied (n : WalletNotes) (id : NoteId) :
    Change.Applied { spent := [id] } n (n.removeSpentUtxo id) := by
  unfold removeSpentUtxo
  cases hid : n.utxos.lookup id with
  | none =>
    refine ⟨by simp, fun k _ => ?_, fun h => h, by simp, by simp⟩
    grind
  | some utxo =>
    refine ⟨by simp, fun k _ => ?_, fun h => h.erase hid, by simp, by simp⟩
    rw [Map.lookup_erase_ite]
    by_cases hk : k = id <;> simp [hk]

omit [Primitives] in
theorem filter_knows_of_true (h : knows knownKeys utxo = true) :
    [utxo].filter (knows knownKeys) = [utxo] := filter_cons_of_pos h

omit [Primitives] in
theorem filter_knows_of_false (h : ¬ knows knownKeys utxo = true) :
    [utxo].filter (knows knownKeys) = [] := filter_cons_of_neg h

theorem insertUtxoIfOwned_of_true (h : knows knownKeys utxo = true) :
    n.insertUtxoIfOwned knownKeys utxo =
      ({ n with
        utxos := n.utxos.insert utxo.id utxo
        pkIndex := Map.groupInsert n.pkIndex utxo.note.pk utxo.id }, true) := if_pos h

theorem insertUtxoIfOwned_of_false (h : ¬ knows knownKeys utxo = true) :
    n.insertUtxoIfOwned knownKeys utxo = (n, false) := if_neg h

theorem insertUtxoIfOwned_applied (h : Change.Fresh { made := [utxo].filter (knows knownKeys) } n) :
    Change.Applied { made := [utxo].filter (knows knownKeys) } n
      (n.insertUtxoIfOwned knownKeys utxo).1 := by
  by_cases hk : knows knownKeys utxo = true
  · rw [filter_knows_of_true hk] at h ⊢
    rw [insertUtxoIfOwned_of_true hk]
    refine ⟨by simp, fun k hk' => ?_, fun hg => hg.insert fun w hw => ?_, by simp, by simp⟩
    · grind [Map.lookup_insert_ite]
    · rw [h utxo (mem_singleton_self _)] at hw
      cases hw
  · rw [filter_knows_of_false hk, insertUtxoIfOwned_of_false hk]
    exact .refl n

theorem insertIntoChannel_applied
    (h : Change.Fresh { made := [utxo].filter (knows knownKeys) } n) :
    Change.Applied
      { made := [utxo].filter (knows knownKeys)
        entering := ([utxo].filter (knows knownKeys)).map Utxo.id } n
      (n.insertIntoChannel knownKeys utxo) := by
  have hx := insertUtxoIfOwned_applied h
  unfold insertIntoChannel
  by_cases hk : knows knownKeys utxo = true
  · rw [filter_knows_of_true hk, insertUtxoIfOwned_of_true hk] at hx ⊢
    exact ⟨hx.made, hx.other, hx.groups, by simp, by simp⟩
  · grind [insertUtxoIfOwned_of_false]

theorem release_applied (n : WalletNotes) (id : NoteId) :
    Change.Applied { spent := [id], leaving := [id] } n
      { n.removeSpentUtxo id with channelNotes := n.channelNotes.erase id } := by
  have hx := removeSpentUtxo_applied n id
  exact ⟨hx.made, hx.other, hx.groups, by simp, hx.service⟩

theorem leave_applied (n : WalletNotes) (id : NoteId) :
    Change.Applied { leaving := [id] } n { n with channelNotes := n.channelNotes.erase id } :=
  ⟨by simp, by simp, fun h => h, by simp, by simp⟩

/-- The note that an input of a deposit becomes. -/
def redeposited (knownKeys : Map ZkPublicKey KeyId) (op : DepositOp) (n : WalletNotes)
    (input : NoteId × Nat) : List Utxo :=
  match n.utxos.lookup input.1 with
  | none => []
  | some utxo =>
    [⟨Primitives.opId (.channelDeposit op), input.2, utxo.note⟩].filter (knows knownKeys)

/-- One note of a deposit enters the channel. -/
def depositChange (knownKeys : Map ZkPublicKey KeyId) (op : DepositOp) (n : WalletNotes)
    (input : NoteId × Nat) : Change where
  spent := [input.1]
  made := redeposited knownKeys op n input
  entering := (redeposited knownKeys op n input).map Utxo.id

theorem depositInput_applied {op : DepositOp} {input : NoteId × Nat}
    (hfresh : (depositChange knownKeys op n input).Fresh n) :
    (depositChange knownKeys op n input).Applied n (n.depositInput knownKeys op input) := by
  have hspent := removeSpentUtxo_applied n input.1
  unfold depositChange redeposited at hfresh ⊢
  unfold depositInput
  cases hinput : n.utxos.lookup input.1 with
  | none => exact hspent
  | some utxo =>
    simp only [hinput] at hfresh ⊢
    -- The note that is made was not there before the input was spent, and is none after it.
    refine hspent.append (insertIntoChannel_applied fun u hu => ?_) ⟨by simp, by simp, by simp,
      by simp⟩
    rw [hspent.other _ (by simp), hfresh u hu, ite_self]

/-! ## The loops -/

omit [Primitives] in
theorem flatMap_filter_knows (utxos : List Utxo) :
    (utxos.flatMap fun u => [u].filter (knows knownKeys)) = utxos.filter (knows knownKeys) := by
  induction utxos with
  | nil => rfl
  | cons u utxos ih =>
    rw [flatMap_cons, ih, ← filter_append]
    rfl

theorem removeSpent_applied (n : WalletNotes) {ids : List NoteId} (hnd : ids.Nodup) :
    Change.Applied { spent := ids } n (n.removeSpent ids) := by
  have hall : Change.all (fun id => { spent := [id] }) ids = { spent := ids } := by
    simp [Change.all]
  rw [← hall]
  refine .foldl (fun m id _ _ _ => removeSpentUtxo_applied m id) (hnd.imp fun {a b} hne => ?_)
    (by simp [Change.Fresh, hall])
  exact ⟨by simp, by simpa using hne.symm, by simp, by simp⟩

theorem independent_made {u v : Utxo}
    (h : knows knownKeys u = true → knows knownKeys v = true → u.id ≠ v.id)
    {e e' l l' : List NoteId} :
    Change.Independent { made := [u].filter (knows knownKeys), entering := e, locked := l }
      { made := [v].filter (knows knownKeys), entering := e', locked := l' } where
  made w hw := by grind
  spent := by simp
  channel := by simp
  service := by simp

theorem pairwise_ids
    (hnd : ((utxos.filter (knows knownKeys)).map Utxo.id).Nodup) : utxos.Pairwise fun u v =>
      knows knownKeys u = true → knows knownKeys v = true → u.id ≠ v.id :=
  pairwise_filter.mp (pairwise_map.mp hnd)

theorem insertOwned_applied (hready : Change.Ready { made := utxos.filter (knows knownKeys) } n) :
    Change.Applied { made := utxos.filter (knows knownKeys) } n
      (n.insertOwned knownKeys utxos) := by
  have hall : Change.all (fun u => { made := [u].filter (knows knownKeys) }) utxos =
      { made := utxos.filter (knows knownKeys) } := by
    simp only [Change.all, flatMap_filter_knows]
    simp
  have hpair := pairwise_ids hready.nodup
  rw [← hall] at hready ⊢
  exact .foldl (fun m u _ hm _ => insertUtxoIfOwned_applied hm)
    (hpair.imp fun h => independent_made h) hready.fresh

theorem insertIntoChannel_foldl_applied
    (hready : Change.Ready { made := utxos.filter (knows knownKeys) } n) :
    Change.Applied
      { made := utxos.filter (knows knownKeys)
        entering := (utxos.filter (knows knownKeys)).map Utxo.id } n
      (utxos.foldl (insertIntoChannel knownKeys) n) := by
  have hall : Change.all (fun u =>
      { made := [u].filter (knows knownKeys)
        entering := ([u].filter (knows knownKeys)).map Utxo.id }) utxos =
      { made := utxos.filter (knows knownKeys)
        entering := (utxos.filter (knows knownKeys)).map Utxo.id } := by
    simp only [Change.all, flatMap_filter_knows, ← map_flatMap]
    simp
  rw [← hall]
  refine .foldl (fun m u _ hm _ => insertIntoChannel_applied hm)
    ((pairwise_ids hready.nodup).imp fun h => independent_made h) (fun u hu => hready.fresh u ?_)
  rw [hall] at hu
  exact hu

/-! ## Effects -/

/-- What the effect of an operation does to the notes. -/
def changeOf (knownKeys : Map ZkPublicKey KeyId) (n : WalletNotes) : WalletOp → Change
  | .transfer op => { spent := op.inputs.ids, made := op.newUtxos.filter (knows knownKeys) }
  | .channelDeposit op => Change.all (depositChange knownKeys op n) op.inputs.ids.zipIdx
  | .channelTransfer op =>
    { spent := op.inputs.ids
      made := op.newUtxos.filter (knows knownKeys)
      entering := (op.newUtxos.filter (knows knownKeys)).map Utxo.id
      leaving := op.inputs.ids }
  | .channelWithdraw op => { leaving := op.inputs.ids }
  | .lock noteId => { locked := [noteId].filter fun id => (n.utxos.lookup id).isSome }
  | .leaderClaim utxo => { made := [utxo].filter (knows knownKeys) }
  | .claimPoW utxo => { made := [utxo].filter (knows knownKeys) }

theorem deposit_applied {op : DepositOp}
    (hready : (changeOf knownKeys n (.channelDeposit op)).Ready n) :
    (changeOf knownKeys n (.channelDeposit op)).Applied n
      (n.applyOp knownKeys (.channelDeposit op)) := by
  refine .foldl (fun m p hp hm hsame => ?_) ?_ hready.fresh
  · -- The input is still as it was before the deposit.
    have hchange : depositChange knownKeys op n p = depositChange knownKeys op m p := by
      grind [depositChange, redeposited]
    rw [hchange] at hm ⊢
    exact depositInput_applied hm
  · have hids : op.inputs.ids.zipIdx.Pairwise fun p q => p.1 ≠ q.1 := by
      rw [← pairwise_map (f := Prod.fst) (R := fun a b => a ≠ b), zipIdx_map_fst]
      exact op.inputs.nodup
    have hmade := hready.nodup
    rw [changeOf, Change.all, map_flatMap, nodup_flatMap] at hmade
    refine (hids.and hmade.2).imp_of_mem fun {p q} hp hq h => ⟨fun u hu => ⟨?_, ?_⟩, ?_, ?_, ?_⟩
    · exact fun hmem => hready.unspent u (mem_flatMap.mpr ⟨p, hp, hu⟩)
        (mem_flatMap.mpr ⟨q, hq, hmem⟩)
    · exact h.2 (mem_map_of_mem hu)
    · simpa [depositChange] using h.1.symm
    · simp [depositChange]
    · simp [depositChange]

theorem transfer_applied {op : TransferOp}
    (hready : (changeOf knownKeys n (.transfer op)).Ready n) :
    (changeOf knownKeys n (.transfer op)).Applied n (n.applyOp knownKeys (.transfer op)) := by
  have hspent := removeSpent_applied n op.inputs.nodup
  have hadded := insertOwned_applied (hready.of_applied hspent rfl)
  simpa [Change.append, changeOf, applyOp] using
    hspent.append hadded ⟨by simp, by simp, by simp, by simp⟩

theorem channelTransfer_applied {op : ChannelTransferOp}
    (hready : (changeOf knownKeys n (.channelTransfer op)).Ready n) :
    (changeOf knownKeys n (.channelTransfer op)).Applied n
      (n.applyOp knownKeys (.channelTransfer op)) := by
  have hall : Change.all (fun id => { spent := [id], leaving := [id] }) op.inputs.ids =
      { spent := op.inputs.ids, leaving := op.inputs.ids } := by
    simp [Change.all]
  have hreleased := Change.Applied.foldl (n := n) (fun m id _ _ _ => release_applied m id)
    (op.inputs.nodup.imp fun hne => ⟨by simp, by simpa using hne.symm, by simp, by simp⟩)
    (by simp [Change.Fresh, hall])
  rw [hall] at hreleased
  have hadded := insertIntoChannel_foldl_applied (hready.of_applied hreleased rfl)
  simpa [Change.append, changeOf, applyOp] using
    hreleased.append hadded ⟨by simp, by simp, by simp, by simp⟩

theorem channelWithdraw_applied (n : WalletNotes) (op : ChannelWithdrawOp) :
    Change.Applied { leaving := op.inputs.ids } n (n.applyOp knownKeys (.channelWithdraw op)) := by
  have hall : Change.all (fun id => { leaving := [id] }) op.inputs.ids =
      { leaving := op.inputs.ids } := by
    simp [Change.all]
  rw [← hall]
  exact .foldl (fun m id _ _ _ => leave_applied m id)
    (op.inputs.nodup.imp fun _ => ⟨by simp, by simp, by simp, by simp⟩)
    (by simp [Change.Fresh, hall])

theorem applyOp_applied {op : WalletOp} (hready : (changeOf knownKeys n op).Ready n) :
    (changeOf knownKeys n op).Applied n (n.applyOp knownKeys op) := by
  cases op with
  | transfer op => exact transfer_applied hready
  | channelDeposit op => exact deposit_applied hready
  | channelTransfer op => exact channelTransfer_applied hready
  | channelWithdraw op => exact channelWithdraw_applied n op
  | lock noteId =>
    by_cases hid : (n.utxos.lookup noteId).isSome
    · have hlocked : [noteId].filter (fun id => (n.utxos.lookup id).isSome) = [noteId] :=
        filter_cons_of_pos hid
      rw [changeOf, applyOp, hlocked, if_pos hid]
      exact ⟨by simp, by simp, fun h => h, by simp, by simp⟩
    · grind [changeOf, applyOp, Change.Applied.refl]
  | leaderClaim utxo => exact insertUtxoIfOwned_applied hready.fresh
  | claimPoW utxo => exact insertUtxoIfOwned_applied hready.fresh

/-- What an effect of a header does to the notes. -/
def changeOfHeaderOp (knownKeys : Map ZkPublicKey KeyId) : HeaderOp → Change
  | .unlock noteId => { unlocked := [noteId] }
  | .sdpReward utxo => { made := [utxo].filter (knows knownKeys) }

theorem applyHeaderOp_applied {op : HeaderOp} (hfresh : (changeOfHeaderOp knownKeys op).Fresh n) :
    (changeOfHeaderOp knownKeys op).Applied n (n.applyHeaderOp knownKeys op) := by
  cases op with
  | unlock noteId =>
    refine ⟨?_, ?_, fun h => h, ?_, ?_⟩ <;> simp [changeOfHeaderOp, applyHeaderOp]
  | sdpReward utxo => exact insertUtxoIfOwned_applied hfresh

theorem applyHeaderOps_applied {ops : List HeaderOp}
    (hready : (Change.all (changeOfHeaderOp knownKeys) ops).Ready n) :
    (Change.all (changeOfHeaderOp knownKeys) ops).Applied n
      (ops.foldl (applyHeaderOp knownKeys) n) := by
  refine .foldl (fun m op _ hm _ => applyHeaderOp_applied hm) ?_ hready.fresh
  have hmade := hready.nodup
  rw [Change.all, map_flatMap, nodup_flatMap] at hmade
  have hplain : ∀ op, (changeOfHeaderOp knownKeys op).spent = [] ∧
      (changeOfHeaderOp knownKeys op).entering = [] ∧
      (changeOfHeaderOp knownKeys op).locked = [] := by
    intro op
    cases op <;> exact ⟨rfl, rfl, rfl⟩
  refine hmade.2.imp fun {a b} h => ⟨fun u hu => ⟨?_, h (mem_map_of_mem hu)⟩, ?_, ?_, ?_⟩
  · simp [(hplain b).1]
  · simp [(hplain b).1]
  · simp [(hplain a).2.1]
  · simp [(hplain a).2.2]

end WalletNotes

end Logos.Wallet
