import LogosChain.Ledger.Clocks

/-!
# What the state of an epoch is taken from (`ledger/src/cryptarchia/mod.rs`)

Seen from the whole chain, the notes of the state of an epoch are those after the last block before
the epoch before, and the nonce is that after the last block before the slot of its snapshot.
-/

namespace Logos.Ledger

open Base Mantle LedgerState

/-! ## Slots of the snapshots -/

/-- The contribution period is no longer than the epoch, unless it does not fit a word. -/
theorem Config.nonceContributionPeriod_le {c : Config} (h : c.nonceContributionPeriod < 2 ^ 64) :
    c.nonceContributionPeriod ≤ c.epochLength := by
  have hbase := c.consensusConfig.basePeriodLength_pos
  unfold Config.nonceContributionPeriod at h ⊢
  unfold Config.epochLength EpochConfig.epochLength saturatingMul saturatingAdd
  generalize c.consensusConfig.basePeriodLength = base at h hbase ⊢
  generalize c.epochConfig.epochPeriodNonceBuffer = b at h ⊢
  generalize c.epochConfig.epochStakeDistributionStabilization = a at h ⊢
  have hphases : b + a ≤ base * (b + a) := Nat.le_mul_of_pos_left _ hbase
  have hsum : b + a ≤ min (min (a + b) (2 ^ 64 - 1) + c.epochConfig.epochPeriodNonceStabilization)
      (2 ^ 64 - 1) := by omega
  have hmul := Nat.mul_le_mul_left base hsum
  rw [Nat.mul_comm base (min _ _)] at hmul
  omega

variable {eras : EraScheduledConfig} {g s s' t : LedgerState} {states : List LedgerState}
  {slot : Nat} {next : EpochState} {l : CryptarchiaLedger} {sdp : SdpLedger}

/-- The nonce of an epoch is fixed before the epoch starts. -/
theorem nonceSnapshot_le (hr : eras.Resolved) {epoch : Nat}
    (h : (configForEpoch eras epoch).nonceContributionPeriod < 2 ^ 64) :
    nonceSnapshot eras (epoch + 1) ≤ eras.startingSlotForEpoch (epoch + 1) := by
  rw [hr.startingSlotForEpoch_succ]
  exact Nat.add_le_add_left (Config.nonceContributionPeriod_le h) _

theorem le_nonceSnapshot (eras : EraScheduledConfig) (epoch : Nat) :
    eras.startingSlotForEpoch epoch ≤ nonceSnapshot eras (epoch + 1) := Nat.le_add_right _ _

/-! ## Chains of states -/

/-- The state after the last block before a slot, or the first state. -/
def stateBefore (g : LedgerState) (states : List LedgerState) (slot : Nat) : LedgerState :=
  ((states.filter fun s => s.slot < slot).getLast?).getD g

theorem stateBefore_append (h : slot ≤ t.slot) :
    stateBefore g (states ++ [t]) slot = stateBefore g states slot := by grind [stateBefore]

theorem stateBefore_last (h : ∀ t ∈ states, t.slot < slot) :
    stateBefore g states slot = states.getLast?.getD g := by
  rw [stateBefore, List.filter_eq_self.mpr fun t ht => decide_eq_true (h t ht)]

/-- The state of an epoch was taken at the right slots. -/
structure TakenAt (eras : EraScheduledConfig) (g : LedgerState) (states : List LedgerState)
    (t : LedgerState) : Prop where
  snapshot_le : nonceSnapshot eras (eras.epochForSlot t.slot) ≤
    eras.startingSlotForEpoch (eras.epochForSlot t.slot)
  utxos : t.cryptarchiaLedger.epochState.utxos =
    (stateBefore g states (eras.startingSlotForEpoch (eras.epochForSlot t.slot - 1))).utxos
  nonce : t.cryptarchiaLedger.epochState.nonce =
    (stateBefore g states (nonceSnapshot eras (eras.epochForSlot t.slot))).cryptarchiaLedger.nonce

theorem TakenAt.append (hr : eras.Resolved) (h : TakenAt eras g states t) (hlt : t.slot ≤ s'.slot) :
    TakenAt eras g (states ++ [s']) t := by
  have hstart := (hr.epochForSlot_eq_iff.mp (rfl : eras.epochForSlot t.slot = _)).1
  have hprev : eras.startingSlotForEpoch (eras.epochForSlot t.slot - 1) ≤
      eras.startingSlotForEpoch (eras.epochForSlot t.slot) :=
    hr.startingSlotForEpoch_mono (Nat.sub_le _ _)
  refine ⟨h.snapshot_le, ?_, ?_⟩
  · grind [stateBefore_append, utxos]
  · grind [stateBefore_append, snapshot_le, nonce]

/-- What the states of a chain of blocks keep. -/
structure Snapshots (eras : EraScheduledConfig) (g : LedgerState) (states : List LedgerState)
    (s : LedgerState) : Prop where
  last : states.getLast?.getD g = s
  slots : ∀ t ∈ states, t.slot ≤ s.slot
  epoch : s.cryptarchiaLedger.epochState.epoch = eras.epochForSlot s.slot
  next : s.cryptarchiaLedger.nextEpochState.epoch = eras.epochForSlot s.slot + 1
  taken : 1 ≤ eras.epochForSlot s.slot → TakenAt eras g states s
  /-- The notes for the next epoch are already fixed. -/
  nextUtxos : s.cryptarchiaLedger.nextEpochState.utxos =
    (stateBefore g states (eras.startingSlotForEpoch (eras.epochForSlot s.slot))).utxos
  /-- The nonce for the next epoch is that of the blocks before the last one, until its snapshot. -/
  nextNonce : s.cryptarchiaLedger.nextEpochState.nonce = (stateBefore g states
    (min (nonceSnapshot eras (eras.epochForSlot s.slot + 1)) s.slot)).cryptarchiaLedger.nonce
  all : ∀ t ∈ states, 1 ≤ eras.epochForSlot t.slot → TakenAt eras g states t

theorem Snapshots.before (h : Snapshots eras g states s) (hlt : s.slot < slot) :
    stateBefore g states slot = s := by
  rw [stateBefore_last fun t ht => (h.slots t ht).trans_lt hlt, h.last]

/-- What the state of the next epoch has after the last block has been taken into account. -/
theorem Snapshots.followed (hr : eras.Resolved) (h : Snapshots eras g states s)
    (hf : s.cryptarchiaLedger.nextEpochState.Followed eras s.cryptarchiaLedger sdp next)
    (hlt : s.slot < slot) :
    next.utxos = (stateBefore g states (eras.startingSlotForEpoch (eras.epochForSlot s.slot))).utxos ∧
      next.nonce = (stateBefore g states
        (min (nonceSnapshot eras (eras.epochForSlot s.slot + 1)) slot)).cryptarchiaLedger.nonce := by
  have hstart := (hr.epochForSlot_eq_iff.mp (rfl : eras.epochForSlot s.slot = _)).1
  have hslot : s.cryptarchiaLedger.slot = s.slot := rfl
  constructor
  · rw [hf.utxos, h.next, if_neg, h.nextUtxos]
    exact not_lt.mpr hstart
  · rw [hf.nonce, h.next, hslot]
    split
    · rename_i hbefore
      rw [h.before (lt_min hbefore hlt)]
    · rename_i hafter
      rw [h.nextNonce, min_eq_left (not_lt.mp hafter),
        min_eq_left ((not_lt.mp hafter).trans hlt.le)]

/-- The states of the epochs, seen from the chain so far. -/
structure Snapshots.Moved (eras : EraScheduledConfig) (g : LedgerState) (states : List LedgerState)
    (epoch slot : Nat) (l : CryptarchiaLedger) : Prop where
  snapshot_le : 1 ≤ epoch → nonceSnapshot eras epoch ≤ eras.startingSlotForEpoch epoch
  utxos : 1 ≤ epoch →
    l.epochState.utxos = (stateBefore g states (eras.startingSlotForEpoch (epoch - 1))).utxos
  nonce : 1 ≤ epoch → l.epochState.nonce =
    (stateBefore g states (nonceSnapshot eras epoch)).cryptarchiaLedger.nonce
  nextUtxos : l.nextEpochState.utxos =
    (stateBefore g states (eras.startingSlotForEpoch epoch)).utxos
  nextNonce : l.nextEpochState.nonce = (stateBefore g states
    (min (nonceSnapshot eras (epoch + 1)) slot)).cryptarchiaLedger.nonce

theorem Snapshots.moved (hr : eras.Resolved) (h : Snapshots eras g states s) (hlt : s.slot < slot)
    (hf : s.cryptarchiaLedger.nextEpochState.Followed eras s.cryptarchiaLedger sdp next)
    (hm : CryptarchiaLedger.Moved eras s.cryptarchiaLedger sdp slot next l) :
    Snapshots.Moved eras g states (eras.epochForSlot slot) slot l := by
  obtain ⟨hutxos, hnonce⟩ := h.followed hr hf hlt
  have hs := (hr.epochForSlot_eq_iff.mp (rfl : eras.epochForSlot s.slot = _)).2
  have hslot := (hr.epochForSlot_eq_iff.mp (rfl : eras.epochForSlot slot = _)).1
  have hmono := hr.epochForSlot_mono hlt.le
  have hsame : s.cryptarchiaLedger.slot = s.slot := rfl
  -- Every slot from the start of the next epoch on comes after the last block.
  have hbefore : ∀ slot', eras.startingSlotForEpoch (eras.epochForSlot s.slot + 1) ≤ slot' →
      stateBefore g states slot' = s := fun slot' hle => h.before (hs.trans_le hle)
  have hnonce' : ∀ epoch, eras.epochForSlot s.slot + 1 ≤ epoch →
      stateBefore g states (min (nonceSnapshot eras (epoch + 1)) slot) = s := by
    intro epoch hle
    refine h.before (lt_min (hs.trans_le ?_) hlt)
    exact (hr.startingSlotForEpoch_mono hle).trans (le_nonceSnapshot eras epoch)
  cases hm with
  | within he h1 h2 =>
    rw [hsame] at he
    rw [he]
    exact ⟨fun hpos => (h.taken hpos).snapshot_le, fun hpos => h1 ▸ (h.taken hpos).utxos,
      fun hpos => h1 ▸ (h.taken hpos).nonce, h2 ▸ hutxos, h2 ▸ hnonce⟩
  | next he hperiod _ _ _ h1 h2 =>
    rw [hsame] at he hperiod
    rw [he] at hslot ⊢
    have hle := nonceSnapshot_le hr hperiod
    refine ⟨fun _ => hle, fun _ => ?_, fun _ => ?_, ?_, ?_⟩
    · rw [h1]
      exact hutxos
    · grind
    · rw [h2, hbefore _ le_rfl]
      rfl
    · rw [h2, hnonce' _ le_rfl]
      rfl
  | later he he' hperiod _ _ _ h1 h2 =>
    rw [hsame] at he he'
    obtain ⟨epoch, hepoch⟩ : ∃ epoch, eras.epochForSlot slot = epoch + 1 :=
      ⟨eras.epochForSlot slot - 1, by omega⟩
    have hlast : eras.epochForSlot s.slot + 1 ≤ epoch := by omega
    have hle := nonceSnapshot_le hr (hperiod epoch (by rw [hf.epoch, h.next]; omega) (by omega))
    rw [hepoch] at hslot h1 h2 ⊢
    refine ⟨fun _ => hle, fun _ => ?_, fun _ => ?_, ?_, ?_⟩
    · rw [h1, Nat.add_sub_cancel, hbefore _ (hr.startingSlotForEpoch_mono hlast)]
      rfl
    · rw [h1, hbefore _ ((hr.startingSlotForEpoch_mono hlast).trans (le_nonceSnapshot eras epoch))]
      rfl
    · rw [h2, hbefore _ (hr.startingSlotForEpoch_mono (hlast.trans (Nat.le_succ _)))]
      rfl
    · rw [h2, hnonce' _ (hlast.trans (Nat.le_succ _))]
      rfl

/-! ## Blocks -/

theorem LedgerState.SameEpoch.trans (h : s.SameEpoch s') (h' : s'.SameEpoch t) : s.SameEpoch t :=
  ⟨h'.slot.trans h.slot, h'.epochState.trans h.epochState,
    h'.nextEpochState.trans h.nextEpochState, h'.nonce.trans h.nonce, h'.leaders.trans h.leaders⟩

section

variable [Primitives] {tx : GenesisTx} {config : Config} {g0 : LedgerState}

/-- Steps that are no headers keep the epochs. -/
theorem LedgerState.SameEpoch.of_run {ls : List Action} (hrun : Run (Step eras) s ls s')
    (hls : ∀ a ∈ ls, ∀ h, a ≠ .header h) : s.SameEpoch s' := by
  induction hrun with
  | nil => exact ⟨rfl, rfl, rfl, rfl, rfl⟩
  | snoc _ hstep ih =>
    grind [trans, Step.sameEpoch]

/-- After the header a block keeps the epochs. -/
theorem LedgerState.tryUpdate_sameEpoch {id : Hash} {h : Header} {txs : List SignedOps}
    {events : List Event} {deferred : DeferredProofs}
    (hu : s.tryUpdate id h txs eras = .ok (s', events, deferred)) :
    ∃ s1 events1, s.tryApplyHeader h eras = .ok (s1, events1) ∧ s1.SameEpoch s' := by
  have hrun : Run (Step eras) s (.header h :: (.seen id :: txs.flatMap
      (fun tx => tx.ops.map .operation) ++ [.settled, .counted])) s' := tryUpdate_run hu
  obtain ⟨s1, hhead, hrest⟩ := Run.of_cons hrun
  cases hhead with
  | header hh =>
    grind [SameEpoch.of_run]

/-- A block on a state, and the state after it. -/
def LedgerState.Extends (eras : EraScheduledConfig) (s : LedgerState) (t s' : LedgerState) : Prop :=
  t = s' ∧ ∃ b, s.applyBlock eras b = .ok s'

theorem Snapshots.block (hr : eras.Resolved) (h : Snapshots eras g states s)
    (he : s.Extends eras t s') : Snapshots eras g (states ++ [t]) s' := by
  obtain ⟨rfl, b, hb⟩ := he
  obtain ⟨⟨_, events, deferred⟩, hu, h1⟩ := bind_ok hb
  cases h1
  obtain ⟨s1, events1, hh, hsame⟩ := tryUpdate_sameEpoch hu
  obtain ⟨hlt, hslot⟩ := (Step.header hh).slot
  obtain ⟨l, hl, hepoch, hnext, -⟩ := tryApplyHeader_moved hh
  obtain ⟨-, next, hf, hm⟩ := CryptarchiaLedger.updateEpochState_moved hl
  have hepochs := hm.epochs hf h.epoch h.next
  have hmoved := h.moved hr hlt hf hm
  have hepoch' := hsame.epochState.trans hepoch
  have hnext' := hsame.nextEpochState.trans hnext
  have htslot : t.slot = b.header.slot := hsame.slot.trans hslot
  rw [← htslot] at hlt hmoved hepochs
  have hstart := (hr.epochForSlot_eq_iff.mp (rfl : eras.epochForSlot t.slot = _)).1
  have htaken : 1 ≤ eras.epochForSlot t.slot → TakenAt eras g states t := fun hpos =>
    ⟨hmoved.snapshot_le hpos, hepoch' ▸ hmoved.utxos hpos, hepoch' ▸ hmoved.nonce hpos⟩
  refine ⟨by simp, fun u hu => ?_, ?_, ?_, fun hpos => (htaken hpos).append hr le_rfl, ?_, ?_,
    fun u hu hpos => ?_⟩
  · rcases List.mem_append.mp hu with hu | hu
    · exact (h.slots u hu).trans hlt.le
    · rw [List.mem_singleton.mp hu]
  · rw [hepoch', hepochs.1]
  · rw [hnext', hepochs.2]
  · rw [stateBefore_append hstart, hnext']
    exact hmoved.nextUtxos
  · rw [stateBefore_append (min_le_right _ _), hnext']
    exact hmoved.nextNonce
  · rcases List.mem_append.mp hu with hu | hu
    · exact (h.all u hu hpos).append hr ((h.slots u hu).trans hlt.le)
    · grind [TakenAt.append]

theorem LedgerState.nextEpochState_of_genesis (hg : fromGenesisTx tx config = .ok g0) :
    g0.cryptarchiaLedger.nextEpochState.utxos = g0.utxos ∧
      g0.cryptarchiaLedger.nextEpochState.nonce = g0.cryptarchiaLedger.nonce := by
  obtain ⟨l, hl, -, heq⟩ := fromGenesisTx_ok hg
  unfold CryptarchiaLedger.fromGenesisTx at hl
  split at hl
  · cases hl
  · cases hl
    rw [heq]
    exact ⟨rfl, rfl⟩

theorem Snapshots.of_genesis (hr : eras.Resolved) (hg : fromGenesisTx tx config = .ok g0)
    (id : Hash) :
    Snapshots eras (g0.addSeenBlock id g0.slot eras) [] (g0.addSeenBlock id g0.slot eras) := by
  obtain ⟨hslot, hepoch, hnext, -⟩ := epochs_of_genesis hg
  obtain ⟨hutxos, hnonce⟩ := nextEpochState_of_genesis hg
  have hzero : eras.epochForSlot (g0.addSeenBlock id g0.slot eras).slot = 0 := by
    show eras.epochForSlot g0.slot = 0
    rw [hslot, hr.epochForSlot_zero]
  refine ⟨rfl, by simp, ?_, ?_, ?_, hutxos, hnonce, by simp⟩ <;> rw [hzero]
  · exact hepoch
  · exact hnext
  · exact fun hpos => absurd hpos (by decide)

/-- **The state of an epoch is taken at the right slots**: its notes before the first slot of the
epoch before, its nonce before the slot of the snapshot. -/
theorem epoch_snapshots {tx : GenesisTx} {config : Config} {g0 : LedgerState} {id : Hash}
    (hr : eras.Resolved) (hg : fromGenesisTx tx config = .ok g0)
    (hchain : Run (LedgerState.Extends eras) (g0.addSeenBlock id g0.slot eras) states s) :
    ∀ t ∈ states, 1 ≤ eras.epochForSlot t.slot →
      t.cryptarchiaLedger.epochState.utxos = (stateBefore g0 states
        (eras.startingSlotForEpoch (eras.epochForSlot t.slot - 1))).utxos ∧
      t.cryptarchiaLedger.epochState.nonce = (stateBefore g0 states
        (nonceSnapshot eras (eras.epochForSlot t.slot))).cryptarchiaLedger.nonce := by
  have hend := hchain.history (I := Snapshots eras (g0.addSeenBlock id g0.slot eras))
    (.of_genesis hr hg id) fun _ _ _ _ h he => h.block hr he
  have hfirst : ∀ slot, (stateBefore (g0.addSeenBlock id g0.slot eras) states slot).cryptarchiaLedger
      = (stateBefore g0 states slot).cryptarchiaLedger := by
    intro slot
    unfold stateBefore
    cases (states.filter fun s => s.slot < slot).getLast? <;> rfl
  grind [utxos, Snapshots.all, TakenAt.utxos, TakenAt.nonce]

end

/-- Blocks around the snapshot of the nonce, and one an epoch later. -/
def threeBlocks [Primitives] : Result LedgerError (LedgerState × List LedgerState × LedgerState) := do
  let g ← fromGenesisTx genesisWithService .small
  let s1 ← (g.addSeenBlock 0 g.slot twoEras).applyBlock twoEras ⟨1, headerAt 1, []⟩
  let s2 ← s1.applyBlock twoEras ⟨2, headerAt 7, []⟩
  let s3 ← s2.applyBlock twoEras ⟨3, headerAt 12, []⟩
  return (g, [s1, s2, s3], s3)

theorem epoch_snapshots_threeBlocks :
    letI := Primitives.plain
    ∃ g states s, fromGenesisTx genesisWithService .small = .ok g ∧
      Run (LedgerState.Extends twoEras) (g.addSeenBlock 0 g.slot twoEras) states s ∧
      states.map (·.slot) = [1, 7, 12] ∧
      s.cryptarchiaLedger.epochState.nonce = (stateBefore g states 6).cryptarchiaLedger.nonce := by
  let _ := Primitives.plain
  obtain ⟨⟨g, states, s⟩, h, hslots⟩ := exists_ok (x := threeBlocks)
    (fun r => r.2.1.map (·.slot) = [1, 7, 12]) (by decide +kernel)
  obtain ⟨_, hg, h1⟩ := bind_ok h
  obtain ⟨s1, h2, h3⟩ := bind_ok h1
  obtain ⟨s2, h4, h5⟩ := bind_ok h3
  obtain ⟨s3, h6, h7⟩ := bind_ok h5
  cases h7
  have hchain : Run (LedgerState.Extends twoEras) (g.addSeenBlock 0 g.slot twoEras) [s1, s2, s] s :=
    (((Run.nil _).snoc ⟨rfl, _, h2⟩).snoc ⟨rfl, _, h4⟩).snoc ⟨rfl, _, h6⟩
  have hslot : s.slot = 12 := by grind
  have hepoch : twoEras.epochForSlot s.slot = 1 := by
    rw [hslot]
    decide +kernel
  obtain ⟨-, hnonce⟩ := epoch_snapshots twoEras_resolved hg hchain s (by simp) hepoch.ge
  rw [hepoch] at hnonce
  exact ⟨g, _, s, hg, hchain, hslots, hnonce⟩

end Logos.Ledger
