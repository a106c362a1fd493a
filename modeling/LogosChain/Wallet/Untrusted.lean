import LogosChain.Wallet.Usable

/-!
# Funding a transaction of a client

A client sends the builder of the transaction, with its inputs, its notes and its operations side by
side. The assertions of the builder hold for what its methods make, and need not hold for what a
client sends. `Safe` says when they do.
-/

namespace Logos

open Base

namespace Mantle

/-- A failure by an assertion. -/
def BuilderFailure.IsPanic : BuilderFailure → Prop
  | .panic _ => True
  | .error _ => False

namespace MantleTxBuilder

variable [Primitives] {b b' : MantleTxBuilder} {context : OpsContext} {changePk : ZkPublicKey}
  {priorityFeePercent : Nat}

/-! ## Methods without assertions -/

omit [Primitives] in
theorem addLedgerOutput_avoids (b : MantleTxBuilder) (note : Note) :
    Avoids BuilderFailure.IsPanic (b.addLedgerOutput note) :=
  .foldlM (I := fun _ _ => True) trivial (fun _ _ _ _ _ _ => trivial) fun _ _ _ _ =>
    .bind (.mapError _ fun _ h => h) fun _ _ => .ok _

omit [Primitives] in
theorem build_avoids (b : MantleTxBuilder) (digest : ForkDigest) :
    Avoids BuilderFailure.IsPanic (b.build digest) := by
  unfold build
  split
  · exact .ok _
  · exact .bind (.mapError _ fun _ h => h) fun _ _ => .ok _

theorem minimumGasCost_avoids (b : MantleTxBuilder) (context : OpsContext) :
    Avoids BuilderFailure.IsPanic (b.minimumGasCost context) := by
  refine .bind (fun e he => ?_) fun _ _ => .bind (b.build_avoids 0) fun _ _ =>
    .mapError _ fun _ h => h
  obtain ⟨op, -, hop⟩ := forM_error he
  split at hop
  · cases hop
  · obtain ⟨-, rfl⟩ := failIf_error.mp hop
    exact fun h => h

theorem fundingDelta_avoids (b : MantleTxBuilder) (context : OpsContext)
    (priorityFeePercent : Nat) :
    Avoids BuilderFailure.IsPanic (b.fundingDeltaWithPriorityFee context priorityFeePercent) :=
  .bind (b.minimumGasCost_avoids context) fun _ _ => .bind (.mapError _ fun _ h => h) fun _ _ =>
    .ok _

/-! ## Inputs -/

/-- As many inputs as notes. -/
def Matched (b : MantleTxBuilder) : Prop :=
  b.pendingTransfer.inputs.ids.length = b.ledgerInputs.items.length

theorem pushInput_avoids (h : b.Matched) (utxo : Utxo) :
    Avoids BuilderFailure.IsPanic (b.pushInput utxo) :=
  .bind (.failIf fun hne => absurd h hne) fun _ _ => .bind (.mapError _ fun _ h => h) fun _ _ =>
    .bind (.mapError _ fun _ h => h) fun _ _ => .ok _

theorem Matched.pushInput (hb : b.Matched) {utxo : Utxo} (h : b.pushInput utxo = .ok b') :
    b'.Matched := by
  obtain ⟨-, hledger, hids, -⟩ := pushInput_ok h
  grind [Matched]

theorem extendLedgerInputs_avoids (h : b.Matched) (utxos : List Utxo) :
    Avoids BuilderFailure.IsPanic (b.extendLedgerInputs utxos) :=
  .foldlM (I := fun b _ => b.Matched) h (fun _ _ _ _ hb h => hb.pushInput h)
    fun _ utxo _ hb => pushInput_avoids hb utxo

/-- The first added input panics if the builder does not match. -/
theorem extendLedgerInputs_panics (h : ¬ b.Matched) (utxo : Utxo) (utxos : List Utxo) :
    b.extendLedgerInputs (utxo :: utxos) = .error (.panic .ledgerInputs) := by
  have hpush : b.pushInput utxo = .error (.panic .ledgerInputs) :=
    error_bind (failIf_error.mpr ⟨h, rfl⟩)
  exact error_bind hpush

theorem extendLedgerInputs_netBalance {utxos : List Utxo}
    (h : b.extendLedgerInputs utxos = .ok b') :
    b'.netBalance = b.netBalance + ((utxos.map (·.note.value)).sum : Nat) := by
  obtain ⟨-, hledger, -, hout⟩ := extendLedgerInputs_ok h
  grind [netBalance]

/-! ## Change -/

/-- What a builder leaves by itself fits a word. -/
def ChangeFits (b : MantleTxBuilder) (context : OpsContext) (priorityFeePercent : Nat) : Prop :=
  ∀ delta candidate change, b.fundingDeltaWithPriorityFee context priorityFeePercent = .ok delta →
    0 < delta → b.withDummyChangeNote = .ok candidate →
    candidate.fundingDeltaWithPriorityFee context priorityFeePercent = .ok change → change < 2 ^ 64

theorem returnChange_panics {q : BuilderPanic}
    (h : b.returnChange context changePk priorityFeePercent = .error (.panic q)) :
    ∃ candidate change, b.withDummyChangeNote = .ok candidate ∧
      candidate.fundingDeltaWithPriorityFee context priorityFeePercent = .ok change ∧
      2 ^ 64 ≤ change := by
  rcases bind_error h with h1 | ⟨candidate, hcandidate, h1⟩
  · exact absurd trivial (addLedgerOutput_avoids b _ _ h1)
  rcases bind_error h1 with h2 | ⟨change, hchange, h2⟩
  · exact absurd trivial (fundingDelta_avoids candidate context priorityFeePercent _ h2)
  split at h2
  · cases h2
  · rcases bind_error h2 with h3 | ⟨_, -, h3⟩
    · grind [failIf_error]
    · rcases bind_error h3 with h4 | ⟨_, -, h4⟩
      · exact absurd trivial (addLedgerOutput_avoids b _ _ h4)
      · cases h4

end MantleTxBuilder

end Mantle

namespace Wallet

open Mantle Ledger

variable [Primitives] {b b' : MantleTxBuilder} {context : OpsContext} {changePk : ZkPublicKey}
  {priorityFeePercent : Nat}

theorem settle_panics_iff : (∃ q, settle b context changePk priorityFeePercent =
    .error (.panic q)) ↔ ¬ b.ChangeFits context priorityFeePercent := by
  constructor
  · rintro ⟨q, h⟩ hfits
    rcases bind_error h with h1 | ⟨delta, hdelta, h1⟩
    · exact absurd trivial (b.fundingDelta_avoids context priorityFeePercent _ h1)
    split at h1
    · cases h1
    · split at h1
      · rename_i hpos
        obtain ⟨candidate, change, hcandidate, hchange, hle⟩ :=
          MantleTxBuilder.returnChange_panics h1
        exact absurd (hfits delta candidate change hdelta hpos hcandidate hchange) (not_lt.mpr hle)
      · cases h1
  · intro h
    unfold MantleTxBuilder.ChangeFits at h
    push Not at h
    obtain ⟨delta, candidate, change, hdelta, hpos, hcandidate, hchange, hle⟩ := h
    refine ⟨.change, (bind_of_ok hdelta).trans ?_⟩
    rw [if_neg hpos.ne', if_pos hpos]
    refine (bind_of_ok hcandidate).trans ((bind_of_ok hchange).trans ?_)
    grind [error_bind, failIf_error]

theorem settle_none (h : settle b context changePk priorityFeePercent = .ok none) :
    ∃ (short : MantleTxBuilder) (delta : Int), short.ops = b.ops ∧
      short.pendingTransfer.inputs = b.pendingTransfer.inputs ∧
      short.pendingTransfer.outputs.notes.length ≤ b.pendingTransfer.outputs.notes.length + 1 ∧
      short.netBalance = b.netBalance ∧
      short.fundingDeltaWithPriorityFee context priorityFeePercent = .ok delta ∧ delta ≤ 0 := by
  obtain ⟨delta, hdelta, h1⟩ := bind_ok h
  split at h1
  · cases h1
  · split at h1
    · obtain ⟨candidate, hcandidate, h2⟩ := bind_ok h1
      obtain ⟨change, hchange, h3⟩ := bind_ok h2
      obtain ⟨hops, hin, hout, hnet⟩ := MantleTxBuilder.withDummyChangeNote_ok hcandidate
      split at h3
      · grind
      · obtain ⟨_, -, h4⟩ := bind_ok h3
        obtain ⟨_, -, h5⟩ := bind_ok h4
        cases h5
    · grind

/-- After an attempt that does not pay, the next note leaves less than its own value. -/
theorem attempt_succ_avoids [Leaves] (hlen : EncodingLengths) (hb : b.Matched) {utxos : List Utxo}
    (hvalue : ∀ u ∈ utxos, u.note.value < 2 ^ 64) {count : Nat} (hcount : count < utxos.length)
    (hnone : attempt b utxos context changePk priorityFeePercent count = .ok none) :
    Avoids BuilderFailure.IsPanic
      (attempt b utxos context changePk priorityFeePercent (count + 1)) := by
  refine .bind (MantleTxBuilder.extendLedgerInputs_avoids hb _) fun next hnext e he hpanic => ?_
  obtain ⟨funded, hfunded, h1⟩ := bind_ok hnone
  obtain ⟨hops, -, hids, hout⟩ := MantleTxBuilder.extendLedgerInputs_ok hfunded
  obtain ⟨hops', -, hids', hout'⟩ := MantleTxBuilder.extendLedgerInputs_ok hnext
  obtain ⟨short, delta, hsops, hsin, hsout, hsnet, hdelta, hle⟩ := settle_none h1
  cases e with
  | error e => exact hpanic
  | panic q =>
    have hover := settle_panics_iff.mp ⟨q, he⟩
    unfold MantleTxBuilder.ChangeFits at hover
    push Not at hover
    obtain ⟨-, candidate, change, -, -, hcandidate, hchange, hbig⟩ := hover
    obtain ⟨hcops, hcin, hcout, hcnet⟩ := MantleTxBuilder.withDummyChangeNote_ok hcandidate
    have htake : utxos.take (count + 1) = utxos.take count ++ [utxos[count]] :=
      List.take_succ_eq_append_getElem hcount
    have hfee := MantleTxBuilder.fundingDelta_mono hlen
      (hcops.trans (hops'.trans (hops.symm.trans hsops.symm)))
      (by rw [hsin, hcin, hids, hids', htake]; simp)
      (by rw [hcout, hout', ← hout]; exact hsout) hdelta hchange
    have hnet : next.netBalance = funded.netBalance + (utxos[count].note.value : Nat) := by
      rw [MantleTxBuilder.extendLedgerInputs_netBalance hnext,
        MantleTxBuilder.extendLedgerInputs_netBalance hfunded, htake, List.map_append,
        List.sum_append]
      simp
      omega
    have hlast := hvalue _ (List.getElem_mem hcount)
    omega

/-! ## Safe inputs -/

/-- A note of the wallet that may pay for a transaction. -/
def WalletNotes.Spendable (n : WalletNotes) (b : MantleTxBuilder) (pks : List ZkPublicKey)
    (excludedNotes : Finset NoteId) (u : Utxo) : Prop :=
  (∃ pk ∈ pks, ∃ ids, n.pkIndex.lookup pk = some ids ∧ ∃ id ∈ ids, n.utxos.lookup id = some u) ∧
    u.id ∉ b.notesConsumedOrUsedInService ∧ u.id ∉ n.serviceNotes ∧ u.id ∉ n.channelNotes ∧
    u.id ∉ excludedNotes

/-- The index leads to notes; a builder that does not match pays for itself or there is no note to
add; and what it leaves fits a word. -/
structure Safe (n : WalletNotes) (b : MantleTxBuilder) (changePk : ZkPublicKey)
    (pks : List ZkPublicKey) (context : OpsContext) (excludedNotes : Finset NoteId)
    (priorityFeePercent : Nat) : Prop where
  index : ∀ pk ∈ pks, ∀ ids, n.pkIndex.lookup pk = some ids → ∀ id ∈ ids,
    (n.utxos.lookup id).isSome
  inputs : b.Matched ∨ settle b context changePk priorityFeePercent ≠ .ok none ∨
    ∀ u, ¬ n.Spendable b pks excludedNotes u
  change : b.ChangeFits context priorityFeePercent

section

variable {n : WalletNotes} {listing : Map.Listing NoteId} {pks : List ZkPublicKey}
  {excludedNotes : Finset NoteId}

omit [Primitives] in
theorem mem_listed {id : NoteId} : id ∈ (pks.filterMap n.pkIndex.lookup).flatMap listing.toList ↔
    ∃ pk ∈ pks, ∃ ids, n.pkIndex.lookup pk = some ids ∧ id ∈ ids := by grind [Map.Listing.mem_iff]

omit [Primitives] in
theorem utxosOwnedByPks_of_index (listing : Map.Listing NoteId)
    (h : ∀ pk ∈ pks, ∀ ids, n.pkIndex.lookup pk = some ids →
    ∀ id ∈ ids, (n.utxos.lookup id).isSome) : ∃ owned,
      n.utxosOwnedByPks listing pks = .ok owned ∧ ∀ u, u ∈ owned ↔
        ∃ pk ∈ pks, ∃ ids, n.pkIndex.lookup pk = some ids ∧
          ∃ id ∈ ids, n.utxos.lookup id = some u := by
  have hfound : ∀ id ∈ (pks.filterMap n.pkIndex.lookup).flatMap listing.toList,
      okOr (n.utxos.lookup id) WalletPanic.utxo =
        .ok ((n.utxos.lookup id).getD ⟨0, 0, ⟨0, 0⟩⟩) := by
    intro id hid
    obtain ⟨pk, hpk, ids, hids, hid⟩ := mem_listed.mp hid
    obtain ⟨u, hu⟩ := Option.isSome_iff_exists.mp (h pk hpk ids hids id hid)
    rw [hu]
    rfl
  refine ⟨_, mapM_ok hfound, fun u => ?_⟩
  simp only [List.mem_map, mem_listed]
  grind [Option.isSome_iff_exists]

omit [Primitives] in
theorem index_of_utxosOwnedByPks {owned : List Utxo}
    (h : n.utxosOwnedByPks listing pks = .ok owned) : ∀ pk ∈ pks, ∀ ids,
      n.pkIndex.lookup pk = some ids → ∀ id ∈ ids, (n.utxos.lookup id).isSome := by
  intro pk hpk ids hids id hid
  have hall := mapM_ok_map (h := fun u => some u) (g := n.utxos.lookup)
    (fun id u hu => (okOr_ok.mp hu).symm) h
  have hmem : n.utxos.lookup id ∈ owned.map some := by
    rw [hall]
    exact List.mem_map_of_mem (mem_listed.mpr ⟨pk, hpk, ids, hids, hid⟩)
  grind

theorem fundTx_panics_iff {owned : List Utxo} (howned : n.utxosOwnedByPks listing pks = .ok owned) :
    (∃ p, n.fundTx listing b changePk pks context excludedNotes priorityFeePercent =
      .error (.panic p)) ↔
    ∃ q, ∃ count ≤ (n.candidates b owned excludedNotes).length,
      attempt b (n.candidates b owned excludedNotes) context changePk priorityFeePercent count =
        .error (.panic q) ∧
      ∀ k < count, attempt b (n.candidates b owned excludedNotes) context changePk
        priorityFeePercent k = .ok none := by
  have hstart : n.fundTx listing b changePk pks context excludedNotes priorityFeePercent = _ :=
    bind_of_ok (mapError_ok.mpr howned)
  rw [hstart]
  constructor
  · rintro ⟨p, h⟩
    rcases bind_error h with h1 | ⟨funded, -, h1⟩
    · obtain ⟨e, h2, h3⟩ := mapError_error.mp h1
      cases e with
      | error e => cases h3
      | panic q =>
        obtain ⟨count, hlt, herror, hnone⟩ := (findSomeM?_range (by simp)).mp h2
        exact ⟨q, count, Nat.lt_succ_iff.mp hlt, herror, hnone⟩
    · split at h1 <;> cases h1
  · rintro ⟨q, count, hle, herror, hnone⟩
    have hsearch := (findSomeM?_range (r := .error (.panic q)) (by simp)).mpr
      ⟨count, Nat.lt_succ_iff.mpr hle, herror, hnone⟩
    exact ⟨.builder q, error_bind (mapError_error.mpr ⟨_, hsearch, rfl⟩)⟩

/-- Funding what a client sends fails by no assertion if and only if its inputs are safe. -/
theorem funding_never_panics_iff [Leaves] (hlen : EncodingLengths) {w : WalletState}
    (hvalue : ∀ k u, w.utxos.lookup k = some u → u.note.value < 2 ^ 64) :
    (∀ p, w.fundTx listing b changePk pks context excludedNotes priorityFeePercent ≠
      .error (.panic p)) ↔
    Safe w.toWalletNotes b changePk pks context excludedNotes priorityFeePercent := by
  constructor
  · intro h
    have hindex : ∃ owned, w.utxosOwnedByPks listing pks = .ok owned := by
      cases howned : w.utxosOwnedByPks listing pks with
      | ok owned => exact ⟨owned, rfl⟩
      | error p => exact absurd (error_bind (mapError_error.mpr ⟨p, howned, rfl⟩)) (h p)
    obtain ⟨owned, howned⟩ := hindex
    have hno := mt (fundTx_panics_iff howned).mpr (by simpa using h)
    have hchange : b.ChangeFits context priorityFeePercent := by
      by_contra hnot
      obtain ⟨q, hq⟩ := settle_panics_iff.mpr hnot
      exact hno ⟨q, 0, Nat.zero_le _, hq, nofun⟩
    refine ⟨index_of_utxosOwnedByPks howned, ?_, hchange⟩
    by_contra hnot
    push Not at hnot
    obtain ⟨hmatched, hshort, u, hu⟩ := hnot
    have hmem : u ∈ w.candidates b owned excludedNotes := by
      obtain ⟨owned', howned', hmem⟩ := utxosOwnedByPks_of_index listing
        (index_of_utxosOwnedByPks howned)
      cases howned.symm.trans howned'
      exact mem_candidates.mpr ⟨(hmem u).mpr hu.1, hu.2⟩
    obtain ⟨first, rest, hcandidates⟩ := List.exists_cons_of_ne_nil (List.ne_nil_of_mem hmem)
    refine hno ⟨.ledgerInputs, 1, ?_, ?_, ?_⟩
    · rw [hcandidates]
      exact Nat.le_add_left 1 _
    · rw [hcandidates]
      exact error_bind (MantleTxBuilder.extendLedgerInputs_panics hmatched first [])
    · intro k hk
      obtain rfl : k = 0 := by omega
      exact hshort
  · intro hsafe p hp
    obtain ⟨owned, howned, hmem⟩ := utxosOwnedByPks_of_index listing hsafe.index
    obtain ⟨q, count, hle, herror, hnone⟩ := (fundTx_panics_iff howned).mp ⟨p, hp⟩
    cases count with
    | zero => exact settle_panics_iff.mp ⟨q, herror⟩ hsafe.change
    | succ count =>
      rcases hsafe.inputs with hmatched | hshort | hempty
      · refine attempt_succ_avoids hlen hmatched (fun u hu => ?_) hle (hnone count (by omega)) _
          herror trivial
        grind [mem_candidates]
      · exact hshort (hnone 0 (Nat.succ_pos _))
      · obtain ⟨u, hu⟩ := List.exists_mem_of_length_pos (Nat.lt_of_lt_of_le (Nat.succ_pos _) hle)
        obtain ⟨hown, hrest⟩ := mem_candidates.mp hu
        exact hempty u ⟨(hmem u).mp hown, hrest⟩

end

/-! ## By hand -/

omit [Primitives] in
theorem funding_never_panics_iff_new :
    letI := Primitives.sized
    ∃ (w : WalletState) (b' : MantleTxBuilder),
      w.fundTx .ascending .new 7 [7] bytePriced ∅ 10 = .ok b' ∧
      Safe w.toWalletNotes .new 7 [7] bytePriced ∅ 10 := by
  let _ := Primitives.sized
  let _ := Leaves.plain
  obtain ⟨w, -, hfund, hvalues⟩ := exists_ok (x := walletAtGenesis)
    (fun w => (w.fundTx .ascending .new 7 [7] bytePriced ∅ 10).toOption.isSome = true ∧
      ∀ e ∈ w.utxos.toList, e.2.note.value < 2 ^ 64) (by decide +kernel)
  cases hb : w.fundTx .ascending .new 7 [7] bytePriced ∅ 10 with
  | error e =>
    rw [hb] at hfund
    cases hfund
  | ok b' =>
    have hno : ∀ p, w.fundTx .ascending .new 7 [7] bytePriced ∅ 10 ≠ .error (.panic p) := by
      rw [hb]
      exact nofun
    exact ⟨w, b', hb, (funding_never_panics_iff encodingLengths_sized fun k u hu =>
      hvalues (k, u) (Map.mem_toList.mpr hu)).mp hno⟩

/-- A builder with a note of which its transfer has no input. -/
def unmatchedBuilder : MantleTxBuilder :=
  ⟨.empty, ⟨[⟨1, 0, ⟨1, 7⟩⟩], by decide⟩, ⟨.empty, .empty⟩⟩

omit [Primitives] in
/-- The wallet asserts that the builder of a client has as many inputs as notes. -/
theorem funding_panics_unmatched :
    letI := Primitives.sized
    ∃ w : WalletState, w.Reachable Unit Unit ∧
      w.fundTx .ascending unmatchedBuilder 7 [7] bytePriced ∅ 10 =
        .error (.panic (.builder .ledgerInputs)) := by
  let _ := Primitives.sized
  obtain ⟨w, hw, hpanic⟩ := exists_ok (x := walletAtGenesis)
    (fun w => w.fundTx .ascending unmatchedBuilder 7 [7] bytePriced ∅ 10 =
        .error (.panic (.builder .ledgerInputs))) (by decide +kernel)
  exact ⟨w, walletAtGenesis_reachable hw, hpanic⟩

end Wallet

end Logos
