import LogosChain.Wallet.Notes
import LogosChain.Wallet.Reading

/-!
# The wallet next to the ledger

`Mirrors` relates the notes of a wallet to those of the ledger: they are the notes of known keys,
except for some that the wallet missed. Those are the rewards of puzzles, for which the wallet reads
no effect, and the notes that deposits make of them.
-/

namespace Logos.Wallet

open Base Mantle Ledger WalletNotes List

variable {KeyId : Type} [Primitives] {k : NoteId}

/-! ## Changes of the ledger -/

/-- The notes of the ledger before a change and after it. -/
structure Change.OfLedger (c : Change) (s s' : LedgerState) : Prop where
  fresh : s.utxos.Fresh c.made
  exchange : Exchange s.utxos s'.utxos c.spent c.made
  channel : ∀ k, s'.channels.isChannelNote k = true ↔
    k ∈ c.entering ∨ (k ∉ c.leaving ∧ s.channels.isChannelNote k = true)
  service : ∀ k, s'.serviceNotes.contains k = true ↔
    k ∈ c.locked ∨ (k ∉ c.unlocked ∧ s.serviceNotes.contains k = true)
  entering : ∀ k ∈ c.entering, k ∈ c.made.map Utxo.id
  /-- A note that stays in a channel is neither spent nor made. -/
  inChannel : ∀ k, k ∉ c.leaving → s.channels.isChannelNote k = true →
    k ∉ c.spent ∧ k ∉ c.made.map Utxo.id
  /-- Neither is a note that serves. -/
  inService : ∀ k, k ∈ c.locked ∨ s.serviceNotes.contains k = true →
    k ∉ c.spent ∧ k ∉ c.made.map Utxo.id

/-- What an operation does to the notes of the ledger. -/
def ledgerChange (s : LedgerState) (op : SignedOp) : Change where
  spent := op.spent
  made := s.created op
  entering := s.entering op
  leaving := op.leaving
  locked := op.locked

theorem not_mem_made {utxos : Utxos} {new : List Utxo} (hf : utxos.Fresh new) {u : Utxo}
    (hk : utxos.get k = some u) : k ∉ new.map Utxo.id := by
  intro hmem
  obtain ⟨v, hv, rfl⟩ := mem_map.mp hmem
  rw [hf.2 v hv] at hk
  cases hk

omit [Primitives] in
theorem contains_iff {notes : ServiceNotes} :
    notes.contains k = true ↔ ∃ e, notes.lookup k = some e := by
  simp [ServiceNotes.contains, Option.isSome_iff_exists]

section

variable {s s' : LedgerState} {k : NoteId} {events : List HeaderEvent}

omit [Primitives] in
theorem unspent_of_channel (ho : s.Owned) (hk : s.channels.isChannelNote k = true) :
    ∃ u, s.utxos.get k = some u := by
  obtain ⟨id, hid⟩ := OpShown.isChannelNote_iff.mp hk
  exact (ho.channel k id hid).1

omit [Primitives] in
theorem unspent_of_service (ho : s.Owned) (hk : s.serviceNotes.contains k = true) :
    ∃ u, s.utxos.get k = some u := by grind [contains_iff, LedgerState.Owned.service]

theorem ledgerChange_ofLedger {op : SignedOp} {txHash : TxHash} {balance balance' : Int}
    {events : List TxEvent} (ho : s.Owned) (hf : s.utxos.Fresh (s.created op))
    (he : OpEffect s op balance s' balance') (hs : OpShown s op txHash s' events) :
    (ledgerChange s op).OfLedger s s' where
  fresh := hf
  exchange := he.exchange hf
  channel := hs.channel
  service k := by simpa [ledgerChange] using hs.service k
  entering k hk := by
    change k ∈ s.entering op at hk
    unfold LedgerState.entering at hk
    split at hk
    · exact hk
    · exact hk
    · cases hk
  inChannel k hleave hk := by
    obtain ⟨u, hu⟩ := unspent_of_channel ho hk
    have hmade := not_mem_made hf hu
    -- The note is still in a channel, which loses the notes that are spent.
    obtain ⟨id, hid⟩ := OpShown.isChannelNote_iff.mp ((hs.channel k).mpr (.inr ⟨hleave, hk⟩))
    rcases he.channelNotes k id hid with ⟨hmem, -⟩ | ⟨hspent, -⟩
    · exact absurd hmem hmade
    · exact ⟨hspent, hmade⟩
  inService k hk := by
    rcases hk with hk | hk
    · cases op with
      | sdpDeclare op proof => exact ⟨not_mem_nil, not_mem_nil⟩
      | _ => exact absurd hk not_mem_nil
    · obtain ⟨u, hu⟩ := unspent_of_service ho hk
      obtain ⟨e, hlookup⟩ := contains_iff.mp hk
      exact ⟨fun hspent => he.not_input hlookup (op.spent_subset_inputs hspent), not_mem_made hf hu⟩

/-- What the events of a header do to the notes. -/
def headerChange (events : List HeaderEvent) : Change where
  made := events.filterMap HeaderEvent.reward
  unlocked := events.filterMap HeaderEvent.unlocked

omit [Primitives] in
theorem mem_unlocked :
    k ∈ events.filterMap HeaderEvent.unlocked ↔ ∃ t id, .sdpNoteUnlocked k t id ∈ events := by
  rw [mem_filterMap]
  constructor
  · rintro ⟨e, he, hk⟩
    cases e <;> cases hk
    exact ⟨_, _, he⟩
  · rintro ⟨t, id, he⟩
    exact ⟨_, he, rfl⟩

theorem headerChange_ofLedger {h : Header} {eras : EraScheduledConfig} (ho : s.Owned)
    (hf : s.utxos.Fresh (s.headerUtxos h eras))
    (hs : HeaderShown s h eras s' events) : (headerChange events).OfLedger s s' := by
  rw [hs.made] at hf
  refine ⟨hf, ?_, fun k => ?_, fun k => ?_, by simp [headerChange], fun k _ hk => ?_,
    fun k hk => ?_⟩
  · rw [hs.utxos]
    exact Utxos.exchange hf
  · rw [hs.channels]
    simp [headerChange]
  · have hevents := hs.releases.events k
    have hcontains := hs.releases.contains k
    grind [mem_unlocked, headerChange]
  · obtain ⟨u, hu⟩ := unspent_of_channel ho hk
    exact ⟨not_mem_nil, not_mem_made hf hu⟩
  · obtain ⟨u, hu⟩ := unspent_of_service ho (hk.resolve_left not_mem_nil)
    exact ⟨not_mem_nil, not_mem_made hf hu⟩

end

/-! ## Wallet and ledger -/

/-- The wallet has the notes of known keys but the missed ones. -/
structure Mirrors (knownKeys : Map ZkPublicKey KeyId) (s : LedgerState) (n : WalletNotes)
    (missed : Finset NoteId) : Prop where
  utxos : ∀ k u, n.utxos.lookup k = some u ↔
    s.utxos.get k = some u ∧ knows knownKeys u = true ∧ k ∉ missed
  missed : ∀ k ∈ missed, ∃ u, s.utxos.get k = some u ∧ knows knownKeys u = true
  groups : Map.Groups (·.note.pk) n.utxos n.pkIndex
  service : ∀ k, k ∈ n.serviceNotes ↔
    (n.utxos.lookup k).isSome = true ∧ s.serviceNotes.contains k = true
  channel : ∀ k, k ∈ n.channelNotes ↔
    (n.utxos.lookup k).isSome = true ∧ s.channels.isChannelNote k = true

/-- What a wallet sees of a change of the ledger. -/
structure Change.Seen (knownKeys : Map ZkPublicKey KeyId) (n : WalletNotes)
    (missed : Finset NoteId) (c d : Change) : Prop where
  spent : d.spent = c.spent
  made : ∀ u, u ∈ d.made ↔ u ∈ c.made ∧ knows knownKeys u = true ∧ u.id ∉ missed
  nodup : (d.made.map Utxo.id).Nodup
  entering : ∀ k, k ∈ d.entering ↔ k ∈ c.entering ∧ k ∈ d.made.map Utxo.id
  leaving : d.leaving = c.leaving
  locked : ∀ k, k ∈ d.locked ↔ k ∈ c.locked ∧ (n.utxos.lookup k).isSome = true
  unlocked : d.unlocked = c.unlocked

namespace Mirrors

variable {knownKeys : Map ZkPublicKey KeyId} {s s' : LedgerState} {n n' : WalletNotes}
  {missed new : Finset NoteId} {c d : Change}

variable (h : Mirrors knownKeys s n missed)
include h

omit [Primitives] in
theorem lookup_none {k : NoteId} (hk : s.utxos.get k = none) : n.utxos.lookup k = none := by
  cases hlookup : n.utxos.lookup k with
  | none => rfl
  | some u =>
    rw [((h.utxos k u).mp hlookup).1] at hk
    cases hk

theorem ready (hc : c.OfLedger s s') (hd : Change.Seen knownKeys n new c d) : d.Ready n where
  fresh u hu := h.lookup_none (hc.fresh.2 u ((hd.made u).mp hu).1)
  nodup := hd.nodup
  unspent u hu hspent := by
    rw [hd.spent] at hspent
    obtain ⟨v, hv⟩ := hc.exchange.present _ hspent
    rw [hc.fresh.2 u ((hd.made u).mp hu).1] at hv
    cases hv

/-- A change of the ledger and what the wallet sees of it keep the wallet next to the ledger. -/
theorem step (hc : c.OfLedger s s') (hd' : d.Applied n n')
    (hnew : ∀ k ∈ new, ∃ u ∈ c.made, u.id = k ∧ knows knownKeys u = true)
    (hd : Change.Seen knownKeys n (missed \ c.spent.toFinset ∪ new) c d) :
    Mirrors knownKeys s' n' (missed \ c.spent.toFinset ∪ new) := by
  -- A note that is not made is as it was, or it is spent, on both sides.
  have hold : ∀ k, k ∉ c.made.map Utxo.id →
      n'.utxos.lookup k = if k ∈ c.spent then none else n.utxos.lookup k := by
    intro k hk
    rw [hd'.other k, hd.spent]
    intro hmem
    obtain ⟨u, hu, rfl⟩ := mem_map.mp hmem
    exact hk (mem_map_of_mem ((hd.made u).mp hu).1)
  -- A note that is made is in the wallet if the wallet sees it.
  have hids : ∀ u ∈ c.made, u.id ∈ d.made.map Utxo.id → u ∈ d.made := by
    intro u hu hmem
    obtain ⟨v, hv, heq⟩ := mem_map.mp hmem
    exact inj_on_of_nodup_map hc.fresh.1 ((hd.made v).mp hv).1 hu heq ▸ hv
  have hmade : ∀ u ∈ c.made, n'.utxos.lookup u.id = if u ∈ d.made then some u else none := by
    intro u hu
    by_cases hseen : u ∈ d.made
    · rw [hd'.made u hseen, if_pos hseen]
    · rw [hd'.other _ fun hmem => hseen (hids u hu hmem), h.lookup_none (hc.fresh.2 u hu),
        ite_self, if_neg hseen]
  refine ⟨fun k u => ?_, fun k hk => ?_, hd'.groups h.groups, fun k => ?_, fun k => ?_⟩
  · by_cases hk : k ∈ c.made.map Utxo.id
    · obtain ⟨v, hv, rfl⟩ := mem_map.mp hk
      rw [hmade v hv, hc.exchange.made v hv, Option.ite_none_right_eq_some, hd.made v]
      grind
    · have hnotNew : k ∉ new := by grind
      rw [hold k hk, hc.exchange.other k hk]
      by_cases hspent : k ∈ c.spent
      · simp [hspent]
      · rw [if_neg hspent, if_neg hspent, h.utxos]
        simp [hspent, hnotNew]
  · rcases Finset.mem_union.mp hk with hk | hk
    · obtain ⟨hold, hspent⟩ := Finset.mem_sdiff.mp hk
      obtain ⟨u, hu, hknown⟩ := h.missed k hold
      exact ⟨u, hc.exchange.get_of_not_spent hc.fresh hu
        (fun hmem => hspent (mem_toFinset.mpr hmem)), hknown⟩
    · obtain ⟨u, hu, rfl, hknown⟩ := hnew k hk
      exact ⟨u, hc.exchange.made u hu, hknown⟩
  · rw [hd'.service, hc.service, hd.locked, hd.unlocked, h.service]
    grind [Change.OfLedger.inService]
  · rw [hd'.channel, hc.channel, hd.leaving, hd.entering, h.channel]
    grind [Change.OfLedger.inChannel, Change.OfLedger.entering]

end Mirrors

/-! ## Operations -/

/-- The rewards of puzzles, and what a deposit makes of given ones. -/
def powNotesOf (knownKeys : Map ZkPublicKey KeyId) (pow : Finset NoteId) (s : LedgerState)
    (op : SignedOp) : Finset NoteId :=
  match op with
  | .claimPowReward _ => (((s.created op).filter (knows knownKeys)).map Utxo.id).toFinset
  | .channelDeposit deposit _ =>
    (((deposit.inputs.ids.zip (s.created op)).filter fun p => decide (p.1 ∈ pow)).map
      fun p => p.2.id).toFinset
  | _ => ∅

/-- The unspent ones of them after the next operation. -/
def powNotesAfter (knownKeys : Map ZkPublicKey KeyId) (pow : Finset NoteId)
    (v : LedgerState × SignedOp) : Finset NoteId :=
  pow \ v.2.spent.toFinset ∪ powNotesOf knownKeys pow v.1 v.2

/-- What the wallet changes for an operation, if it reads one. -/
def walletChange (knownKeys : Map ZkPublicKey KeyId) (n : WalletNotes) : Option WalletOp → Change
  | none => {}
  | some op => n.changeOf knownKeys op

section

variable {knownKeys : Map ZkPublicKey KeyId} {s : LedgerState} {n : WalletNotes}
  {missed : Finset NoteId} {c d : Change} {op : SignedOp} {deposit : DepositOp}
  {proof : ZkSignature}

/-- Making the notes of known keys misses nothing. -/
theorem Change.Seen.of_filter (hf : s.utxos.Fresh c.made) (hmiss : ∀ u ∈ c.made, u.id ∉ missed)
    (hspent : d.spent = c.spent) (hmade : d.made = c.made.filter (knows knownKeys))
    (henter : ∀ k, k ∈ d.entering ↔ k ∈ c.entering ∧ k ∈ d.made.map Utxo.id)
    (hleave : d.leaving = c.leaving)
    (hlock : ∀ k, k ∈ d.locked ↔ k ∈ c.locked ∧ (n.utxos.lookup k).isSome = true)
    (hunlock : d.unlocked = c.unlocked) : Change.Seen knownKeys n missed c d where
  spent := hspent
  made u := by grind
  nodup := by
    rw [hmade]
    exact hf.1.sublist (filter_sublist.map _)
  entering := henter
  leaving := hleave
  locked := hlock
  unlocked := hunlock

theorem Mirrors.not_missed (h : Mirrors knownKeys s n missed) {utxos : List Utxo}
    (hf : s.utxos.Fresh utxos) {u : Utxo} (hu : u ∈ utxos) : u.id ∉ missed := by
  intro hmem
  obtain ⟨v, hv, -⟩ := h.missed _ hmem
  rw [hf.2 u hu] at hv
  cases hv

/-- Neither a reward of a puzzle nor a deposit. -/
theorem Mirrors.not_missed_after (h : Mirrors knownKeys s n missed)
    (hf : s.utxos.Fresh (s.created op)) (hpow : powNotesOf knownKeys missed s op = ∅) :
    ∀ u ∈ (ledgerChange s op).made, u.id ∉ powNotesAfter knownKeys missed (s, op) := by
  intro u hu hmem
  rw [powNotesAfter, hpow, Finset.union_empty] at hmem
  exact h.not_missed hf hu (Finset.mem_sdiff.mp hmem).1

theorem mem_entering_filter (utxos : List Utxo) (k : NoteId) :
    k ∈ (utxos.filter (knows knownKeys)).map Utxo.id ↔
      k ∈ utxos.map Utxo.id ∧ k ∈ (utxos.filter (knows knownKeys)).map Utxo.id :=
  (and_iff_right_of_imp fun h => map_subset _ (filter_subset_self _) h).symm

/-! ### Deposits -/

/-- What an input of a deposit becomes in the ledger. -/
def depositNote (s : LedgerState) (op : DepositOp) (input : NoteId × Nat) : Utxo :=
  ⟨Primitives.opId (.channelDeposit op), input.2,
    ((s.utxos.get input.1).map (·.note)).getD ⟨0, 0⟩⟩

theorem created_deposit (hin : ∀ id ∈ deposit.inputs.ids, ∃ u, s.utxos.get id = some u) :
    s.created (.channelDeposit deposit proof) =
      deposit.inputs.ids.zipIdx.map (depositNote s deposit) := by
  have hnotes : deposit.outputs s.utxos = .ok (deposit.inputs.ids.map fun id =>
      ((s.utxos.get id).map (·.note)).getD ⟨0, 0⟩) := by
    refine mapM_ok fun id hid => ?_
    obtain ⟨u, hu⟩ := hin id hid
    rw [Inputs.noteOf, hu]
    rfl
  show deposit.newUtxos ((deposit.outputs s.utxos).toOption.getD []) = _
  rw [hnotes]
  show deposit.newUtxos (deposit.inputs.ids.map _) = _
  rw [DepositOp.newUtxos, mapIdx_eq_zipIdx_map, zipIdx_map, map_map]
  rfl

theorem zip_deposit (hin : ∀ id ∈ deposit.inputs.ids, ∃ u, s.utxos.get id = some u) :
    deposit.inputs.ids.zip (s.created (.channelDeposit deposit proof)) =
      deposit.inputs.ids.zipIdx.map fun p => (p.1, depositNote s deposit p) := by
  rw [created_deposit hin, ← zip_map', zipIdx_map_fst]

theorem Mirrors.redeposited (h : Mirrors knownKeys s n missed) {p : NoteId × Nat}
    (hp : ∃ u, s.utxos.get p.1 = some u) : n.redeposited knownKeys deposit p =
      [depositNote s deposit p].filter fun u => knows knownKeys u && decide (p.1 ∉ missed) := by
  obtain ⟨u, hu⟩ := hp
  have hnote : depositNote s deposit p =
      ⟨Primitives.opId (.channelDeposit deposit), p.2, u.note⟩ := by
    simp [depositNote, hu]
  rw [hnote]
  unfold WalletNotes.redeposited
  by_cases hseen : knows knownKeys u = true ∧ p.1 ∉ missed
  · grind [utxos]
  · have hlookup : n.utxos.lookup p.1 = none := by
      cases hl : n.utxos.lookup p.1 with
      | none => rfl
      | some v =>
        obtain ⟨hv, hknows, hmiss⟩ := (h.utxos _ _).mp hl
        grind
    rw [hlookup]
    symm
    refine filter_cons_of_neg ?_
    rw [Bool.and_eq_true, decide_eq_true_eq]
    exact hseen

theorem Mirrors.seen_deposit (h : Mirrors knownKeys s n missed)
    (hin : ∀ id ∈ deposit.inputs.ids, ∃ u, s.utxos.get id = some u)
    (hf : s.utxos.Fresh (s.created (.channelDeposit deposit proof))) :
    Change.Seen knownKeys n (powNotesAfter knownKeys missed (s, .channelDeposit deposit proof))
      (ledgerChange s (.channelDeposit deposit proof))
      (n.changeOf knownKeys (.channelDeposit deposit)) := by
  have hpresent : ∀ p ∈ deposit.inputs.ids.zipIdx, ∃ u, s.utxos.get p.1 = some u := fun p hp =>
    hin p.1 ((mem_zipIdx' hp).2 ▸ getElem_mem _)
  have hcreated : s.created (.channelDeposit deposit proof) = _ := created_deposit hin
  -- The wallet re-creates some of the notes, each at its place.
  have hmade : (n.changeOf knownKeys (.channelDeposit deposit)).made =
      deposit.inputs.ids.zipIdx.flatMap fun p =>
        [depositNote s deposit p].filter fun u => knows knownKeys u && decide (p.1 ∉ missed) :=
    flatMap_congr fun p hp => h.redeposited (hpresent p hp)
  have hmem : ∀ u, u ∈ (n.changeOf knownKeys (.channelDeposit deposit)).made ↔
      ∃ p ∈ deposit.inputs.ids.zipIdx, depositNote s deposit p = u ∧ knows knownKeys u = true ∧
        p.1 ∉ missed := by
    intro u
    simp only [hmade, mem_flatMap, mem_filter, mem_singleton, Bool.and_eq_true,
      decide_eq_true_eq, eq_comm (a := u)]
  have hsub : (n.changeOf knownKeys (.channelDeposit deposit)).made.Sublist
      (s.created (.channelDeposit deposit proof)) := by
    rw [hmade, hcreated]
    exact flatMap_sublist_map (fun p => filter_sublist) _
  have hpow : ∀ k, k ∈ powNotesOf knownKeys missed s (.channelDeposit deposit proof) ↔
      ∃ p ∈ deposit.inputs.ids.zipIdx, p.1 ∈ missed ∧ (depositNote s deposit p).id = k := by
    intro k
    simp only [powNotesOf, zip_deposit hin, mem_toFinset, mem_map, mem_filter, decide_eq_true_eq]
    grind
  refine ⟨?_, fun u => ?_, hf.1.sublist (hsub.map _), fun k => ?_, ?_, ?_, ?_⟩
  · show (deposit.inputs.ids.zipIdx.flatMap fun p => [p.1]) = deposit.inputs.ids
    rw [← map_eq_flatMap, zipIdx_map_fst]
  · show _ ↔ u ∈ s.created (.channelDeposit deposit proof) ∧ _
    rw [hmem, hcreated, mem_map]
    constructor
    · rintro ⟨p, hp, rfl, hknows, hmiss⟩
      refine ⟨⟨p, hp, rfl⟩, hknows, fun hafter => ?_⟩
      have hu : depositNote s deposit p ∈ s.created (.channelDeposit deposit proof) := by
        rw [hcreated]
        exact mem_map_of_mem hp
      rcases Finset.mem_union.mp hafter with hold | hnew
      · exact h.not_missed hf hu (Finset.mem_sdiff.mp hold).1
      · -- The ids tell the places apart, so the missed input is this one.
        obtain ⟨q, hq, hqmiss, hid⟩ := (hpow _).mp hnew
        have hnodup := hf.1
        grind [inj_on_of_nodup_map]
    · rintro ⟨⟨p, hp, rfl⟩, hknows, hafter⟩
      refine ⟨p, hp, rfl, hknows, fun hmiss => hafter ?_⟩
      exact Finset.mem_union_right _ ((hpow _).mpr ⟨p, hp, hmiss, rfl⟩)
  · have henter : (n.changeOf knownKeys (.channelDeposit deposit)).entering =
        (n.changeOf knownKeys (.channelDeposit deposit)).made.map Utxo.id :=
      map_flatMap.symm
    rw [henter]
    exact (and_iff_right_of_imp fun hk => (hsub.map _).subset hk).symm
  · simp [changeOf, Change.all, depositChange, ledgerChange, SignedOp.leaving]
  · simp [changeOf, Change.all, depositChange, ledgerChange, SignedOp.locked]
  · simp [changeOf, Change.all, depositChange, ledgerChange]

omit [Primitives] in
theorem mem_iff_of_nil {a b : List NoteId} {P : NoteId → Prop} (ha : a = []) (hb : b = []) :
    ∀ k, k ∈ a ↔ k ∈ b ∧ P k := by
  simp [ha, hb]

theorem Change.Seen.claimPow {claim : ClaimPowRewardOp} (missed : Finset NoteId) :
    Change.Seen knownKeys n (powNotesAfter knownKeys missed (s, .claimPowReward claim))
      (ledgerChange s (.claimPowReward claim)) {} := by
  refine ⟨rfl, fun u => ⟨fun hu => absurd hu not_mem_nil, ?_⟩, nodup_nil,
    mem_iff_of_nil rfl rfl, rfl, mem_iff_of_nil rfl rfl, rfl⟩
  rintro ⟨hu, hknows, hafter⟩
  refine absurd (Finset.mem_union_right _ ?_) hafter
  exact mem_toFinset.mpr (mem_map_of_mem (mem_filter.mpr ⟨hu, hknows⟩))

section

variable (h : Mirrors knownKeys s n missed) (hin : ∀ id ∈ op.spent, ∃ u, s.utxos.get id = some u)
include h hin

/-- What the wallet sees of an operation. -/
theorem Mirrors.seen {events : Map Hash TxEventPayload} (hf : s.utxos.Fresh (s.created op))
    (hevent : ∀ claim proof, op = .leaderClaim claim proof →
      events.lookup (Primitives.opId (.leaderClaim claim)) = some (.leaderRewardClaimed
        claim.voucherNullifier (claim.utxo s.mantleLedger.leaders.rewardAmount))) :
    Change.Seen knownKeys n (powNotesAfter knownKeys missed (s, op)) (ledgerChange s op)
      (walletChange knownKeys n (followed events op.operation)) := by
  cases op with
  | channelDeposit op proof => exact h.seen_deposit hin hf
  | claimPowReward op => exact .claimPow missed
  | leaderClaim claim proof =>
    have hfollowed : followed events (.leaderClaim claim) =
        some (.leaderClaim (claim.utxo s.mantleLedger.leaders.rewardAmount)) := by
      rw [followed, hevent claim proof rfl]
      rfl
    show Change.Seen _ _ _ _ (walletChange knownKeys n (followed events (.leaderClaim claim)))
    rw [hfollowed]
    exact .of_filter hf (h.not_missed_after hf rfl) rfl rfl (mem_iff_of_nil rfl rfl) rfl
      (mem_iff_of_nil rfl rfl) rfl
  | transfer op proof =>
    exact .of_filter hf (h.not_missed_after hf rfl) rfl rfl (mem_iff_of_nil rfl rfl) rfl
      (mem_iff_of_nil rfl rfl) rfl
  | channelTransfer op proof =>
    exact .of_filter hf (h.not_missed_after hf rfl) rfl rfl (mem_entering_filter op.newUtxos) rfl
      (mem_iff_of_nil rfl rfl) rfl
  | sdpDeclare op proof =>
    refine .of_filter hf (h.not_missed_after hf rfl) rfl rfl (mem_iff_of_nil rfl rfl) rfl ?_ rfl
    exact fun k => mem_filter
  | _ =>
    exact .of_filter hf (h.not_missed_after hf rfl) rfl rfl (mem_iff_of_nil rfl rfl) rfl
      (mem_iff_of_nil rfl rfl) rfl

/-- What is missed are new notes of known keys. -/
theorem Mirrors.powNotesOf_made :
    ∀ k ∈ powNotesOf knownKeys missed s op,
      ∃ u ∈ s.created op, u.id = k ∧ knows knownKeys u = true := by
  intro k hk
  cases op with
  | claimPowReward op =>
    obtain ⟨u, hu, rfl⟩ := mem_map.mp (mem_toFinset.mp hk)
    grind
  | channelDeposit op proof =>
    obtain ⟨p, hp, rfl⟩ := mem_map.mp (mem_toFinset.mp hk)
    obtain ⟨hmem, hmiss⟩ := mem_filter.mp hp
    rw [zip_deposit hin] at hmem
    obtain ⟨q, hq, rfl⟩ := mem_map.mp hmem
    obtain ⟨v, hv, hknows⟩ := h.missed q.1 (of_decide_eq_true hmiss)
    have hnote : (depositNote s op q).note = v.note := by simp [depositNote, hv]
    refine ⟨_, ?_, rfl, ?_⟩
    · rw [created_deposit hin]
      exact mem_map_of_mem hq
    · rw [knows, hnote]
      exact hknows
  | _ => exact absurd hk (Finset.notMem_empty k)

end

/-- Applies an effect, if there is one. -/
def applyFollowed (knownKeys : Map ZkPublicKey KeyId) (n : WalletNotes) :
    Option WalletOp → WalletNotes
  | none => n
  | some op => n.applyOp knownKeys op

variable {s' : LedgerState}

theorem Mirrors.operation {txHash : TxHash} {balance balance' : Int} {opEvents : List TxEvent}
    {events : Map Hash TxEventPayload} (h : Mirrors knownKeys s n missed) (ho : s.Owned)
    (hf : s.utxos.Fresh (s.created op)) (he : OpEffect s op balance s' balance')
    (hs : OpShown s op txHash s' opEvents)
    (hevent : ∀ claim proof, op = .leaderClaim claim proof →
      events.lookup (Primitives.opId (.leaderClaim claim)) = some (.leaderRewardClaimed
        claim.voucherNullifier (claim.utxo s.mantleLedger.leaders.rewardAmount))) :
    Mirrors knownKeys s' (applyFollowed knownKeys n (followed events op.operation))
      (powNotesAfter knownKeys missed (s, op)) := by
  have hc := ledgerChange_ofLedger ho hf he hs
  have hin := hc.exchange.present
  have hseen := h.seen hin hf hevent
  have hready := h.ready hc hseen
  have happlied : (walletChange knownKeys n (followed events op.operation)).Applied n
      (applyFollowed knownKeys n (followed events op.operation)) := by
    cases hfol : followed events op.operation with
    | none => exact .refl n
    | some w =>
      rw [hfol] at hready
      exact n.applyOp_applied hready
  exact h.step hc happlied (h.powNotesOf_made hin) hseen

/-! ## Headers -/

omit [Primitives] in
theorem changeOfHeaderOps (knownKeys : Map ZkPublicKey KeyId) (events : List HeaderEvent) :
    Change.all (changeOfHeaderOp knownKeys) (events.map .ofEvent) =
      { made := (events.filterMap HeaderEvent.reward).filter (knows knownKeys)
        unlocked := events.filterMap HeaderEvent.unlocked } := by
  induction events with
  | nil => rfl
  | cons e events ih =>
    show (changeOfHeaderOp knownKeys (.ofEvent e)).append
      (Change.all (changeOfHeaderOp knownKeys) (events.map .ofEvent)) = _
    rw [ih]
    cases e with
    | sdpNoteUnlocked noteId t id => rfl
    | sdpRewardDistributed t utxo =>
      have hcons : ((HeaderEvent.sdpRewardDistributed t utxo :: events).filterMap
          HeaderEvent.reward) = [utxo] ++ events.filterMap HeaderEvent.reward := rfl
      rw [hcons, filter_append]
      rfl

theorem Mirrors.header {header : Header} {eras : EraScheduledConfig} {events : List HeaderEvent}
    (h : Mirrors knownKeys s n missed) (ho : s.Owned)
    (hf : s.utxos.Fresh (s.headerUtxos header eras)) (hs : HeaderShown s header eras s' events) :
    Mirrors knownKeys s'
      ((events.map HeaderOp.ofEvent).foldl (applyHeaderOp knownKeys) n) missed := by
  have hc := headerChange_ofLedger ho hf hs
  have hseen : Change.Seen knownKeys n missed (headerChange events)
      (Change.all (changeOfHeaderOp knownKeys) (events.map .ofEvent)) := by
    rw [changeOfHeaderOps]
    exact .of_filter hc.fresh (fun u hu => h.not_missed hc.fresh hu) rfl rfl
      (mem_iff_of_nil rfl rfl) rfl (mem_iff_of_nil rfl rfl) rfl
  have happlied := applyHeaderOps_applied (h.ready hc hseen)
  have hmissed : missed \ (headerChange events).spent.toFinset ∪ ∅ = missed := by
    simp [headerChange]
  grind [step]

end

end Logos.Wallet
