import LogosChain.Ledger.Snapshots

/-!
# The difficulty of the Blend network (`ledger/src/mantle/pow/{blend_difficulty,tx_density}.rs`)

The difficulty of an epoch is computed from the load of the epoch two before it and fixed at the
snapshot in the epoch before, whenever a block comes after a parent from before the snapshot. If
there is no such block, the difficulty before it stays in force.
-/

namespace Logos.Ledger

open Base Mantle LedgerState

/-! ## The load of an epoch on a chain -/

/-- The blocks of an epoch, with the states after them. -/
def blocksOf (eras : EraScheduledConfig) (epoch : Nat) (chain : List (Block × LedgerState)) :
    List (Block × LedgerState) :=
  chain.filter fun p => eras.epochForSlot p.1.header.slot = epoch

/-- The blocks of an epoch and the transactions in them. -/
def loadOf (eras : EraScheduledConfig) (epoch : Nat) (chain : List (Block × LedgerState)) :
    EpochTotals :=
  ⟨(blocksOf eras epoch chain).length, ((blocksOf eras epoch chain).map (·.1.txs.length)).sum⟩

/-- The counters in an epoch of a chain. -/
def densityAt (eras : EraScheduledConfig) (epoch : Nat) (chain : List (Block × LedgerState)) :
    TxDensity :=
  ⟨loadOf eras epoch chain, if epoch = 0 then none else some (loadOf eras (epoch - 1) chain)⟩

variable {eras : EraScheduledConfig} {chain : List (Block × LedgerState)} {p : Block × LedgerState}
  {epoch : Nat}

theorem loadOf_append (chain : List (Block × LedgerState)) (p : Block × LedgerState) :
    loadOf eras epoch (chain ++ [p]) =
      if eras.epochForSlot p.1.header.slot = epoch then
        ⟨(loadOf eras epoch chain).blocks + 1, (loadOf eras epoch chain).txs + p.1.txs.length⟩
      else loadOf eras epoch chain := by
  unfold loadOf blocksOf
  split <;> rename_i h <;> simp [h]

theorem loadOf_eq_zero (h : ∀ p ∈ chain, eras.epochForSlot p.1.header.slot ≠ epoch) :
    loadOf eras epoch chain = ⟨0, 0⟩ := by grind [blocksOf, loadOf, List.filter_eq_nil_iff]

/-- Closing the last epoch gives the counters of the next. -/
theorem closeEpoch_densityAt (h : ∀ p ∈ chain, eras.epochForSlot p.1.header.slot ≤ epoch) :
    (densityAt eras epoch chain).closeEpoch = densityAt eras (epoch + 1) chain := by
  grind [loadOf_eq_zero, densityAt, TxDensity.closeEpoch]

theorem iterate_closeEpoch_densityAt (n : Nat)
    (h : ∀ p ∈ chain, eras.epochForSlot p.1.header.slot ≤ epoch) :
    TxDensity.closeEpoch^[n] (densityAt eras epoch chain) = densityAt eras (epoch + n) chain := by
  induction n with
  | zero => rfl
  | succ n ih =>
    grind [Function.iterate_succ_apply', closeEpoch_densityAt]

theorem recordBlock_densityAt {ε : Type} {d : TxDensity}
    (h : (densityAt eras epoch chain).recordBlock (ε := ε) p.1.txs.length = .ok d)
    (hp : eras.epochForSlot p.1.header.slot = epoch) : d = densityAt eras epoch (chain ++ [p]) := by
  obtain ⟨blocks, h1, h2⟩ := bind_ok h
  obtain ⟨txs, h3, h4⟩ := bind_ok h2
  cases h4
  grind [densityAt, loadOf_append, checkedAdd_eq_some, expect_ok]

/-! ## The counters of a ledger -/

theorem PowState.tryApplyHeader_txDensity {s s' : PowState} {previous next : Nat} {config : Config}
    (h : s.tryApplyHeader previous next config = .ok s') :
    s'.txDensity = TxDensity.closeEpoch^[next - previous] s.txDensity := by
  unfold PowState.tryApplyHeader at h
  split at h
  · simp_all
  · obtain ⟨pooled, h1, h2⟩ := bind_ok h
    obtain ⟨_, -, h3⟩ := bind_ok h1
    cases h3
    cases h2
    rfl

section

variable [Primitives] {s s' : LedgerState} {events : List HeaderEvent}

theorem LedgerState.tryApplyOp_txDensity {op : SignedOp} {config : Config} {txHash : TxHash}
    {balance balance' : Int} {events : List TxEvent}
    (h : s.tryApplyOp op config txHash balance = .ok (s', balance', events)) :
    s'.mantleLedger.pow.txDensity = s.mantleLedger.pow.txDensity := by
  cases tryApplyOp_ok h <;> rfl

/-- Of the steps of a block only its header and its count change the counters. -/
theorem Step.txDensity {a : Action} (h : Step eras s a s') (hheader : ∀ h, a ≠ .header h)
    (hcounted : a ≠ .counted) : s'.mantleLedger.pow.txDensity = s.mantleLedger.pow.txDensity := by
  cases h with
  | header => exact absurd rfl (hheader _)
  | seen => rfl
  | operation _ ha => exact tryApplyOp_txDensity ha
  | settled hs =>
    grind [settleBlock_ok]
  | counted => exact absurd rfl hcounted

theorem LedgerState.tryApplyBlockContents_txDensity {txs : List SignedOps} {events : List TxEvent}
    {deferred : DeferredProofs} (h : s.tryApplyBlockContents eras txs = .ok (s', events, deferred)) :
    s'.mantleLedger.pow.txDensity = s.mantleLedger.pow.txDensity := by
  obtain ⟨b, h1, h2, -, -⟩ := tryApplyBlockContents_ok h
  obtain ⟨hrun, hslot⟩ := BlockRun.foldlM_guarded (P := fun _ _ => True) h1
    (Along.of_forall (fun _ _ => .of_forall (fun _ _ => trivial) _ _) _ _)
  have hsettled : Step eras b.state .settled s' := .settled (by rw [hslot]; exact h2)
  rw [hsettled.txDensity nofun nofun]
  -- The operations leave the counters as they are, one after the other.
  refine (hrun.history (I := fun ls t => (∀ a ∈ ls, ∃ op, a = .operation op) →
    t.mantleLedger.pow.txDensity = s.mantleLedger.pow.txDensity) (fun _ => rfl) ?_) ?_
  · intro ls t a t' ih hstep hls
    obtain ⟨op, rfl⟩ := hls a (by simp)
    rw [hstep.1.txDensity nofun nofun]
    exact ih fun a ha => hls a (by simp [ha])
  · grind

/-! ## How a header moves the difficulty -/

/-- The difficulty in force. -/
def LedgerState.blendPowDifficulty (s : LedgerState) : Fr :=
  s.cryptarchiaLedger.epochState.blendPowDifficulty

/-- The next difficulty, as the next header takes it from the ledger. -/
def LedgerState.nextBlendPowDifficulty (s : LedgerState) (eras : EraScheduledConfig) : Fr :=
  let next := s.cryptarchiaLedger.nextEpochState
  if s.slot < nonceSnapshot eras next.epoch then
    match s.mantleLedger.pow.lastClosedEpochLoad with
    | none => s.blendPowDifficulty
    | some load => computeEpochBlendDifficulty load s.blendPowDifficulty
        (configForEpoch eras next.epoch).powConfig.blend
  else next.blendPowDifficulty

/-- The next difficulty follows the ledger and comes into force at the next epoch; after a jump the
one in force stays. -/
inductive LedgerState.DifficultyMoved (eras : EraScheduledConfig) (s : LedgerState) (slot : Nat)
    (s' : LedgerState) : Prop where
  | within (he : eras.epochForSlot slot = eras.epochForSlot s.slot)
      (hforce : s'.blendPowDifficulty = s.blendPowDifficulty)
      (hnext : s'.cryptarchiaLedger.nextEpochState.blendPowDifficulty =
        s.nextBlendPowDifficulty eras)
  | next (he : eras.epochForSlot slot = eras.epochForSlot s.slot + 1)
      (hforce : s'.blendPowDifficulty = s.nextBlendPowDifficulty eras)
      (hnext : s'.cryptarchiaLedger.nextEpochState.blendPowDifficulty = s'.blendPowDifficulty)
  | later (he : eras.epochForSlot slot ≠ eras.epochForSlot s.slot)
      (he' : eras.epochForSlot slot ≠ eras.epochForSlot s.slot + 1)
      (hnext : s'.cryptarchiaLedger.nextEpochState.blendPowDifficulty = s'.blendPowDifficulty)

omit [Primitives] in
theorem LedgerState.DifficultyMoved.of_sameEpoch {slot : Nat} {t : LedgerState}
    (h : s.DifficultyMoved eras slot s') (hsame : s'.SameEpoch t) :
    s.DifficultyMoved eras slot t := by
  have hforce : t.blendPowDifficulty = s'.blendPowDifficulty := by
    rw [blendPowDifficulty, hsame.epochState, blendPowDifficulty]
  cases h with
  | within he h1 h2 => exact .within he (hforce.trans h1) (by rw [hsame.nextEpochState, h2])
  | next he h1 h2 => exact .next he (hforce.trans h1) (by rw [hsame.nextEpochState, h2, hforce])
  | later he he' h1 => exact .later he he' (by rw [hsame.nextEpochState, h1, hforce])

omit [Primitives] in
theorem EpochState.updateFromLedger_difficulty {ε : Type} {next : EpochState}
    (h : s.cryptarchiaLedger.nextEpochState.updateFromLedger (ε := ε) s.cryptarchiaLedger
      s.mantleLedger.sdp s.mantleLedger.pow eras = .ok next) :
    next.blendPowDifficulty = s.nextBlendPowDifficulty eras := by
  obtain ⟨_, -, h0⟩ := bind_ok h
  obtain ⟨_, -, h1⟩ := bind_ok h0
  unfold nextBlendPowDifficulty slot
  by_cases hn : s.cryptarchiaLedger.slot <
      nonceSnapshot eras s.cryptarchiaLedger.nextEpochState.epoch <;>
    simp only [hn, if_true, if_false] at h1 ⊢ <;> cases h1 <;> rfl

theorem LedgerState.tryApplyHeader_difficultyMoved {h : Header}
    (hh : s.tryApplyHeader h eras = .ok (s', events)) : s.DifficultyMoved eras h.slot s' := by
  obtain ⟨l, hl, hepoch, hnext, -⟩ := tryApplyHeader_moved hh
  have hforce : s'.blendPowDifficulty = l.epochState.blendPowDifficulty := by
    rw [blendPowDifficulty, hepoch]
  obtain ⟨_, -, h1⟩ := bind_ok hl
  obtain ⟨next, h2, h3⟩ := bind_ok h1
  have hfollowed := EpochState.updateFromLedger_difficulty h2
  split at h3
  · rename_i he
    cases h3
    exact .within he.symm hforce (by rw [hnext, hfollowed])
  · rename_i he
    split at h3
    · rename_i he'
      obtain ⟨_, -, h4⟩ := bind_ok h3
      obtain ⟨_, -, h5⟩ := bind_ok h4
      cases h5
      exact .next he' (hforce.trans hfollowed) (by rw [hnext, hforce]; rfl)
    · rename_i he'
      obtain ⟨_, -, h4⟩ := bind_ok h3
      obtain ⟨_, -, h5⟩ := bind_ok h4
      obtain ⟨_, -, h6⟩ := bind_ok h5
      cases h6
      exact .later (Ne.symm he) he' (by rw [hnext, hforce]; rfl)

theorem LedgerState.tryApplyHeader_txDensity {h : Header}
    (hh : s.tryApplyHeader h eras = .ok (s', events)) :
    s'.mantleLedger.pow.txDensity = TxDensity.closeEpoch^[
      s'.cryptarchiaLedger.epochState.epoch - s.cryptarchiaLedger.epochState.epoch]
      s.mantleLedger.pow.txDensity := by
  obtain ⟨l, effect, hp, -⟩ := tryApplyHeader_ok hh
  rw [hp.ledger]
  exact PowState.tryApplyHeader_txDensity hp.pow

/-! ## Along a chain -/

/-- A block on a state, with the state after it. -/
def LedgerState.Applies (eras : EraScheduledConfig) (s : LedgerState) (p : Block × LedgerState)
    (s' : LedgerState) : Prop :=
  p.2 = s' ∧ s.applyBlock eras p.1 = .ok s'

theorem LedgerState.Applies.header (ha : s.Applies eras p s') :
    ∃ s1 events, s.tryApplyHeader p.1.header eras = .ok (s1, events) ∧ s1.SameEpoch s' := by
  obtain ⟨⟨_, _, _⟩, hu, h1⟩ := bind_ok ha.2
  cases h1
  exact tryUpdate_sameEpoch hu

theorem LedgerState.Applies.txDensity (ha : s.Applies eras p s') {s1 : LedgerState}
    (hh : s.tryApplyHeader p.1.header eras = .ok (s1, events)) :
    s1.mantleLedger.pow.txDensity.recordBlock (ε := LedgerError) p.1.txs.length =
      .ok s'.mantleLedger.pow.txDensity := by
  obtain ⟨-, hb⟩ := ha
  obtain ⟨⟨_, _, _⟩, hu, h1⟩ := bind_ok hb
  cases h1
  obtain ⟨s1', _, s2, _, hh', h2, h3, -⟩ := tryUpdate_ok hu
  cases hh.symm.trans hh'
  obtain ⟨pow, h4, h5⟩ := bind_ok h3
  obtain ⟨density, h6, h7⟩ := bind_ok h4
  cases h7
  cases h5
  have hcontents := tryApplyBlockContents_txDensity h2
  rw [show (s1.addSeenBlock p.1.id p.1.header.slot eras).mantleLedger.pow.txDensity =
    s1.mantleLedger.pow.txDensity from rfl] at hcontents
  rw [← hcontents]
  exact h6

/-- An epoch has a block before the snapshot of the next epoch. -/
def Early (eras : EraScheduledConfig) (epoch : Nat) (chain : List (Block × LedgerState)) : Prop :=
  ∃ p ∈ chain, eras.epochForSlot p.1.header.slot = epoch ∧
    p.1.header.slot < nonceSnapshot eras (epoch + 1)

instance : Decidable (Early eras epoch chain) :=
  inferInstanceAs (Decidable (∃ p ∈ chain, _))

/-- The difficulty after an epoch with a given one. -/
def difficultyAfter (eras : EraScheduledConfig) (epoch : Nat) (chain : List (Block × LedgerState))
    (previous : Fr) : Fr :=
  if Early eras epoch chain then
    computeEpochBlendDifficulty (loadOf eras (epoch - 1) chain) previous
      (configForEpoch eras (epoch + 1)).powConfig.blend
  else previous

omit [Primitives] in
/-- A later block does not change it. -/
theorem difficultyAfter_append (hpos : 1 ≤ epoch) (h : epoch ≤ eras.epochForSlot p.1.header.slot)
    (hlate : eras.epochForSlot p.1.header.slot = epoch →
      nonceSnapshot eras (epoch + 1) ≤ p.1.header.slot) (previous : Fr) :
    difficultyAfter eras epoch (chain ++ [p]) previous =
      difficultyAfter eras epoch chain previous := by
  have hearly : Early eras epoch (chain ++ [p]) ↔ Early eras epoch chain := by
    have hp : ¬ (eras.epochForSlot p.1.header.slot = epoch ∧
        p.1.header.slot < nonceSnapshot eras (epoch + 1)) := fun hp => by
      omega
    simp [Early, or_and_right, exists_or, hp]
  grind [loadOf_append, difficultyAfter]

/-- What the states of a chain of blocks keep. -/
structure Retargets (eras : EraScheduledConfig) (chain : List (Block × LedgerState))
    (s : LedgerState) : Prop where
  slots : ∀ p ∈ chain, p.1.header.slot ≤ s.slot
  epoch : s.cryptarchiaLedger.epochState.epoch = eras.epochForSlot s.slot
  nextEpoch : s.cryptarchiaLedger.nextEpochState.epoch = eras.epochForSlot s.slot + 1
  density : s.mantleLedger.pow.txDensity = densityAt eras (eras.epochForSlot s.slot) chain
  force : ∀ p ∈ chain, eras.epochForSlot p.1.header.slot = eras.epochForSlot s.slot →
    p.2.blendPowDifficulty = s.blendPowDifficulty
  /-- The difficulty of the next epoch, as it would be if the epoch ended here. -/
  next : 1 ≤ eras.epochForSlot s.slot → s.nextBlendPowDifficulty eras =
    difficultyAfter eras (eras.epochForSlot s.slot) chain s.blendPowDifficulty
  /-- The difficulty in force is that after the epoch before. -/
  last : ∀ q ∈ chain, 1 ≤ eras.epochForSlot q.1.header.slot →
    eras.epochForSlot s.slot = eras.epochForSlot q.1.header.slot + 1 →
    s.blendPowDifficulty =
      difficultyAfter eras (eras.epochForSlot q.1.header.slot) chain q.2.blendPowDifficulty
  all : ∀ p ∈ chain, ∀ q ∈ chain, 1 ≤ eras.epochForSlot q.1.header.slot →
    eras.epochForSlot p.1.header.slot = eras.epochForSlot q.1.header.slot + 1 →
    p.2.blendPowDifficulty =
      difficultyAfter eras (eras.epochForSlot q.1.header.slot) chain q.2.blendPowDifficulty

/-- A block at the end of a chain, and how it moves the difficulties. -/
structure Retargets.Moves (eras : EraScheduledConfig) (chain : List (Block × LedgerState))
    (s : LedgerState) (p : Block × LedgerState) (s' : LedgerState) : Prop where
  slot : s'.slot = p.1.header.slot
  state : p.2 = s'
  epoch : s'.cryptarchiaLedger.epochState.epoch = eras.epochForSlot s'.slot
  nextEpoch : s'.cryptarchiaLedger.nextEpochState.epoch = eras.epochForSlot s'.slot + 1
  density : s'.mantleLedger.pow.txDensity =
    densityAt eras (eras.epochForSlot s'.slot) (chain ++ [p])
  lt : s.slot < s'.slot
  mono : eras.epochForSlot s.slot ≤ eras.epochForSlot s'.slot
  old : ∀ q ∈ chain, eras.epochForSlot q.1.header.slot ≤ eras.epochForSlot s.slot
  moved : s.DifficultyMoved eras s'.slot s'

omit [Primitives] in
theorem Retargets.Moves.epoch_header (hm : Moves eras chain s p s') :
    eras.epochForSlot p.1.header.slot = eras.epochForSlot s'.slot := by rw [hm.slot]

namespace Retargets

omit [Primitives] in
theorem nextBlendPowDifficulty_eq (hepoch : s.cryptarchiaLedger.nextEpochState.epoch = epoch + 1)
    (hdensity : s.mantleLedger.pow.txDensity = densityAt eras epoch chain) (hpos : 1 ≤ epoch) :
    s.nextBlendPowDifficulty eras =
      if s.slot < nonceSnapshot eras (epoch + 1) then
        computeEpochBlendDifficulty (loadOf eras (epoch - 1) chain) s.blendPowDifficulty
          (configForEpoch eras (epoch + 1)).powConfig.blend
      else s.cryptarchiaLedger.nextEpochState.blendPowDifficulty := by
  have hclosed : s.mantleLedger.pow.lastClosedEpochLoad = some (loadOf eras (epoch - 1) chain) := by
    rw [PowState.lastClosedEpochLoad, hdensity]
    exact if_neg (by omega)
  simp only [nextBlendPowDifficulty, hepoch, hclosed]

variable (hr : eras.Resolved) (h : Retargets eras chain s) (ha : s.Applies eras p s')
include hr h ha

/-- The header of a block closes the counters of the epochs before it, and the block is counted. -/
theorem density_block (hslot : s'.slot = p.1.header.slot) (hlt : s.slot < s'.slot)
    (hepoch : s'.cryptarchiaLedger.epochState.epoch = eras.epochForSlot s'.slot) :
    s'.mantleLedger.pow.txDensity = densityAt eras (eras.epochForSlot s'.slot) (chain ++ [p]) := by
  obtain ⟨s1, events, hh, hsame⟩ := ha.header
  have hmono := hr.epochForSlot_mono hlt.le
  have hclosed : s1.mantleLedger.pow.txDensity =
      densityAt eras (eras.epochForSlot s'.slot) chain := by
    rw [tryApplyHeader_txDensity hh, h.density, iterate_closeEpoch_densityAt]
    · rw [← hsame.epochState, hepoch, h.epoch, Nat.add_sub_cancel' hmono]
    · exact fun q hq => hr.epochForSlot_mono (h.slots q hq)
  have hcount := ha.txDensity hh
  grind [recordBlock_densityAt]

theorem moves : Moves eras chain s p s' := by
  obtain ⟨s1, events, hh, hsame⟩ := ha.header
  obtain ⟨hlt, hslot⟩ := (Step.header hh).slot
  obtain ⟨l, hl, hepoch, hnext, -⟩ := tryApplyHeader_moved hh
  obtain ⟨-, next, hf, hm⟩ := CryptarchiaLedger.updateEpochState_moved hl
  obtain ⟨he, hn⟩ := hm.epochs hf h.epoch h.nextEpoch
  have hmoved := (tryApplyHeader_difficultyMoved hh).of_sameEpoch hsame
  rw [← hslot, ← hsame.slot] at hlt he hn hmoved
  rw [← hepoch, ← hsame.epochState] at he
  rw [← hnext, ← hsame.nextEpochState] at hn
  have hs' : s'.slot = p.1.header.slot := hsame.slot.trans hslot
  have hmono := hr.epochForSlot_mono hlt.le
  exact ⟨hs', ha.1, he, hn, h.density_block hr ha hs' hlt he, hlt, hmono,
    fun q hq => hr.epochForSlot_mono (h.slots q hq), hmoved⟩

end Retargets

namespace Retargets.Moves

variable {q : Block × LedgerState}

variable (hm : Moves eras chain s p s')
include hm

omit [Primitives]

theorem force (h : Retargets eras chain s) (hq : q ∈ chain)
    (hqe : eras.epochForSlot q.1.header.slot = eras.epochForSlot s'.slot) :
    q.2.blendPowDifficulty = s'.blendPowDifficulty := by
  have := hm.old q hq
  cases hm.moved with
  | within he h1 _ => rw [h1, h.force q hq (by omega)]
  | next he => omega
  | later he =>
    have := hm.mono
    omega

theorem last (h : Retargets eras chain s) (hq : q ∈ chain)
    (hpos : 1 ≤ eras.epochForSlot q.1.header.slot)
    (hqe : eras.epochForSlot s'.slot = eras.epochForSlot q.1.header.slot + 1) :
    s'.blendPowDifficulty = difficultyAfter eras (eras.epochForSlot q.1.header.slot) (chain ++ [p])
      q.2.blendPowDifficulty := by
  have hold := hm.old q hq
  have hpe := hm.epoch_header
  rw [difficultyAfter_append hpos (by omega) (by omega)]
  cases hm.moved with
  | within he h1 _ => rw [h1, h.last q hq hpos (by omega)]
  | next he h1 _ =>
    have hqs : eras.epochForSlot q.1.header.slot = eras.epochForSlot s.slot := by omega
    rw [h1, h.next (by omega), h.force q hq hqs, hqs]
  | later =>
    have := hm.mono
    omega

/-- The first block of an epoch is its only one; after the snapshot it is no early one. -/
theorem not_early (hnew : eras.epochForSlot s.slot < eras.epochForSlot s'.slot)
    (hlate : nonceSnapshot eras (eras.epochForSlot s'.slot + 1) ≤ s'.slot) :
    ¬ Early eras (eras.epochForSlot s'.slot) (chain ++ [p]) := by
  rintro ⟨q, hq, hqe, hqs⟩
  rcases List.mem_append.mp hq with hq | hq
  · have := hm.old q hq
    omega
  · rw [List.mem_singleton.mp hq, ← hm.slot] at hqs
    omega

theorem next (h : Retargets eras chain s) (hpos : 1 ≤ eras.epochForSlot s'.slot) :
    s'.nextBlendPowDifficulty eras = difficultyAfter eras (eras.epochForSlot s'.slot) (chain ++ [p])
      s'.blendPowDifficulty := by
  have hslot := hm.slot
  rw [nextBlendPowDifficulty_eq hm.nextEpoch hm.density hpos]
  by_cases hsnap : s'.slot < nonceSnapshot eras (eras.epochForSlot s'.slot + 1)
  · grind [Early, difficultyAfter]
  · rw [if_neg hsnap]
    cases hm.moved with
    | within he h1 h2 =>
      grind [difficultyAfter_append, Retargets.next]
    | next he _ h2 => grind [difficultyAfter, not_early]
    | later he _ h2 =>
      have := hm.mono
      grind [difficultyAfter, not_early]

end Retargets.Moves

theorem Retargets.block (hr : eras.Resolved) (h : Retargets eras chain s)
    (ha : s.Applies eras p s') : Retargets eras (chain ++ [p]) s' := by
  have hm := h.moves hr ha
  have hpe := hm.epoch_header
  have hmono := hm.mono
  refine ⟨?_, hm.epoch, hm.nextEpoch, hm.density, ?_, fun hpos => hm.next h hpos, ?_, ?_⟩
  · intro q hq
    rcases List.mem_append.mp hq with hq | hq
    · exact (h.slots q hq).trans hm.lt.le
    · rw [List.mem_singleton.mp hq, hm.slot]
  · intro q hq hqe
    grind [Moves.force, Moves.state]
  · intro q hq hpos hqe
    grind [Moves.last]
  · intro q hq r hr' hpos hqr
    rcases List.mem_append.mp hr' with hr' | hr'
    · have := hm.old r hr'
      rcases List.mem_append.mp hq with hq | hq
      · have := hm.old q hq
        grind [difficultyAfter_append, all]
      · grind [Moves.state, Moves.last]
    · -- No block is in a later epoch than the last one.
      rw [List.mem_singleton.mp hr'] at hqr
      rcases List.mem_append.mp hq with hq | hq
      · have := hm.old q hq
        omega
      · rw [List.mem_singleton.mp hq] at hqr
        omega

theorem Retargets.of_genesis {tx : GenesisTx} {config : Config} {g : LedgerState}
    (hr : eras.Resolved) (hg : fromGenesisTx tx config = .ok g) (id : Hash) :
    Retargets eras [] (g.addSeenBlock id g.slot eras) := by
  obtain ⟨hslot, hepoch, hnext, -⟩ := epochs_of_genesis hg
  obtain ⟨l, -, -, heq⟩ := fromGenesisTx_ok hg
  have hzero : eras.epochForSlot (g.addSeenBlock id g.slot eras).slot = 0 := by
    show eras.epochForSlot g.slot = 0
    rw [hslot, hr.epochForSlot_zero]
  have hdensity : (g.addSeenBlock id g.slot eras).mantleLedger.pow.txDensity = .new := by
    show g.mantleLedger.pow.txDensity = .new
    rw [heq]
    rfl
  refine ⟨by simp, by rw [hzero]; exact hepoch, by rw [hzero]; exact hnext, ?_, by simp, ?_, by simp,
    by simp⟩
  · rw [hdensity, hzero]
    rfl
  · rw [hzero]
    exact fun hpos => absurd hpos (by decide)

/-- **The difficulty of an epoch** comes from the load of the second epoch before it, exactly if the
epoch between has a block before its snapshot, or if the computation gives the difficulty of that
epoch anyway. -/
theorem blendDifficulty_schedule {tx : GenesisTx} {config : Config} {g : LedgerState} {id : Hash}
    {n : Nat} {q : Block × LedgerState} (hr : eras.Resolved) (hg : fromGenesisTx tx config = .ok g)
    (hchain : Run (LedgerState.Applies eras) (g.addSeenBlock id g.slot eras) chain s)
    (hq : q ∈ chain) (hqe : eras.epochForSlot q.1.header.slot = n + 1) (hp : p ∈ chain)
    (hpe : eras.epochForSlot p.1.header.slot = n + 2) :
    p.2.cryptarchiaLedger.epochState.blendPowDifficulty =
        computeEpochBlendDifficulty (loadOf eras n chain)
          q.2.cryptarchiaLedger.epochState.blendPowDifficulty
          (configForEpoch eras (n + 2)).powConfig.blend ↔
      Early eras (n + 1) chain ∨ computeEpochBlendDifficulty (loadOf eras n chain)
          q.2.cryptarchiaLedger.epochState.blendPowDifficulty
          (configForEpoch eras (n + 2)).powConfig.blend =
        q.2.cryptarchiaLedger.epochState.blendPowDifficulty := by
  have hend := hchain.history (I := Retargets eras) (.of_genesis hr hg id)
    fun _ _ _ _ h ha => h.block hr ha
  have hall := hend.all p hp q hq (by omega) (by omega)
  grind [blendPowDifficulty, difficultyAfter]

end

/-- Blocks in the first three epochs, the second at a given slot. -/
def blockInSecondEpoch [Primitives] (slot : Nat) :
    Result LedgerError (LedgerState × LedgerState × LedgerState × LedgerState) := do
  let g ← fromGenesisTx genesisWithService .small
  let s1 ← (g.addSeenBlock 0 g.slot twoEras).applyBlock twoEras ⟨1, headerAt 1, []⟩
  let s2 ← s1.applyBlock twoEras ⟨2, headerAt slot, []⟩
  let s3 ← s2.applyBlock twoEras ⟨3, headerAt 20, []⟩
  return (g, s1, s2, s3)

theorem blockInSecondEpoch_chain [Primitives] {slot : Nat} {g s1 s2 s3 : LedgerState}
    (h : blockInSecondEpoch slot = .ok (g, s1, s2, s3)) :
    fromGenesisTx genesisWithService .small = .ok g ∧
      Run (LedgerState.Applies twoEras) (g.addSeenBlock 0 g.slot twoEras)
        [(⟨1, headerAt 1, []⟩, s1), (⟨2, headerAt slot, []⟩, s2), (⟨3, headerAt 20, []⟩, s3)] s3 := by
  obtain ⟨_, hg, h1⟩ := bind_ok h
  obtain ⟨_, h2, h3⟩ := bind_ok h1
  obtain ⟨_, h4, h5⟩ := bind_ok h3
  obtain ⟨_, h6, h7⟩ := bind_ok h5
  cases h7
  exact ⟨hg, (((Run.nil _).snoc ⟨rfl, h2⟩).snoc ⟨rfl, h4⟩).snoc ⟨rfl, h6⟩⟩

theorem blendDifficulty_schedule_early :
    letI := Primitives.plain
    ∃ g s1 s2 s3, fromGenesisTx genesisWithService .small = .ok g ∧
      Run (LedgerState.Applies twoEras) (g.addSeenBlock 0 g.slot twoEras)
        [(⟨1, headerAt 1, []⟩, s1), (⟨2, headerAt 12, []⟩, s2), (⟨3, headerAt 20, []⟩, s3)] s3 ∧
      s3.cryptarchiaLedger.epochState.blendPowDifficulty =
        computeEpochBlendDifficulty (loadOf twoEras 0 [(⟨1, headerAt 1, []⟩, s1),
            (⟨2, headerAt 12, []⟩, s2), (⟨3, headerAt 20, []⟩, s3)])
          s2.cryptarchiaLedger.epochState.blendPowDifficulty
          (configForEpoch twoEras 2).powConfig.blend := by
  let _ := Primitives.plain
  obtain ⟨⟨g, s1, s2, s3⟩, h, -⟩ := exists_ok (x := blockInSecondEpoch 12) (fun _ => True)
    (by decide +kernel)
  obtain ⟨hg, hchain⟩ := blockInSecondEpoch_chain h
  have hsecond : twoEras.epochForSlot 12 = 1 := by decide +kernel
  have hthird : twoEras.epochForSlot 20 = 2 := by decide +kernel
  have hsnap : 12 < nonceSnapshot twoEras 2 := by decide +kernel
  have hforce := (blendDifficulty_schedule (n := 0) (p := (⟨3, headerAt 20, []⟩, s3))
    (q := (⟨2, headerAt 12, []⟩, s2)) twoEras_resolved hg hchain (by simp) hsecond (by simp)
    hthird).mpr (.inl ⟨(⟨2, headerAt 12, []⟩, s2), by simp, hsecond, hsnap⟩)
  exact ⟨g, s1, s2, s3, hg, hchain, hforce⟩

/-- The only block of the second epoch is after the snapshot: nothing is computed. -/
theorem difficulty_not_retargeted :
    letI := Primitives.plain
    ∃ g s1 s2 s3, fromGenesisTx genesisWithService .small = .ok g ∧
      Run (LedgerState.Applies twoEras) (g.addSeenBlock 0 g.slot twoEras)
        [(⟨1, headerAt 1, []⟩, s1), (⟨2, headerAt 17, []⟩, s2), (⟨3, headerAt 20, []⟩, s3)] s3 ∧
      [1, 17, 20].map twoEras.epochForSlot = [0, 1, 2] ∧
      s3.cryptarchiaLedger.epochState.blendPowDifficulty ≠
        computeEpochBlendDifficulty (loadOf twoEras 0 [(⟨1, headerAt 1, []⟩, s1),
            (⟨2, headerAt 17, []⟩, s2), (⟨3, headerAt 20, []⟩, s3)])
          s2.cryptarchiaLedger.epochState.blendPowDifficulty
          (configForEpoch twoEras 2).powConfig.blend := by
  let _ := Primitives.plain
  obtain ⟨⟨g, s1, s2, s3⟩, h, hne⟩ := exists_ok (x := blockInSecondEpoch 17)
    (fun r => r.2.2.2.cryptarchiaLedger.epochState.blendPowDifficulty ≠
      computeEpochBlendDifficulty (loadOf twoEras 0 [(⟨1, headerAt 1, []⟩, r.2.1),
          (⟨2, headerAt 17, []⟩, r.2.2.1), (⟨3, headerAt 20, []⟩, r.2.2.2)])
        r.2.2.1.cryptarchiaLedger.epochState.blendPowDifficulty
        (configForEpoch twoEras 2).powConfig.blend) (by decide +kernel)
  obtain ⟨hg, hchain⟩ := blockInSecondEpoch_chain h
  exact ⟨g, s1, s2, s3, hg, hchain, by decide +kernel, hne⟩

end Logos.Ledger
