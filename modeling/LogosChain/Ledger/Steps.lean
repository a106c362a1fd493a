import LogosChain.Base.Run
import LogosChain.Ledger.Effect

/-!
# The ledger step by step

The ledger takes one step after the other: a header, the record of a block, an operation, the
settlement of a block. Every block is a run of such steps (`tryUpdate_run`), so what holds along
every run of steps holds along every chain of blocks.
-/

namespace Logos.Ledger

open Base Mantle LedgerState NoPanic

/-- The kinds of steps. -/
inductive Action where
  | header (h : Header)
  /-- A block is recorded among those that puzzles may be anchored to. -/
  | seen (id : Hash)
  | operation (op : SignedOp)
  /-- The rewards and the prices of a block are settled. -/
  | settled
  /-- A block is counted with its transactions. -/
  | counted

variable [Primitives] {eras : EraScheduledConfig} {s s' : LedgerState} {a : Action}

/-- A step of the ledger. An operation is checked and then executed. -/
inductive Step (eras : EraScheduledConfig) : LedgerState → Action → LedgerState → Prop where
  | header {s s' : LedgerState} {h : Header} {events : List HeaderEvent}
      (hh : s.tryApplyHeader h eras = .ok (s', events)) : Step eras s (.header h) s'
  | seen (s : LedgerState) (id : Hash) : Step eras s (.seen id) (s.addSeenBlock id s.slot eras)
  | operation {s s' : LedgerState} {op : SignedOp} {opIndex : Nat} {txHash : TxHash}
      {deferred : DeferredProofs} {balance balance' : Int} {events : List TxEvent}
      (hv : op.verify opIndex txHash (s.helper eras) = .ok deferred)
      (ha : s.tryApplyOp op (configForSlot eras s.slot) txHash balance =
        .ok (s', balance', events)) : Step eras s (.operation op) s'
  | settled {s s' : LedgerState} {g : GasAndFees}
      (hs : s.settleBlock g (configForSlot eras s.slot) = .ok s') : Step eras s .settled s'
  | counted {s s' : LedgerState} {numTxs claims : Nat}
      (hr : s.recordBlock numTxs claims (configForSlot eras s.slot) = .ok s') :
      Step eras s .counted s'

theorem Step.header_or (h : Step eras s a s') :
    (∃ header events, a = .header header ∧ s.tryApplyHeader header eras = .ok (s', events)) ∨
      ∀ header, a ≠ .header header := by
  cases h with
  | header hh => exact .inl ⟨_, _, rfl, hh⟩
  | seen | operation | settled | counted => exact .inr nofun

/-- Only a header moves the slot, and forward. -/
theorem Step.slot (h : Step eras s a s') :
    match a with
    | .header h => s.slot < h.slot ∧ s'.slot = h.slot
    | _ => s'.slot = s.slot := by
  cases h with
  | header hh =>
    obtain ⟨l, effect, hp, -⟩ := tryApplyHeader_ok hh
    exact hp.slot
  | seen => rfl
  | operation hv ha =>
    show s'.cryptarchiaLedger.slot = _
    rw [(OpEffect.of_apply hv ha).cryptarchia]
    rfl
  | settled hs => exact (settleBlock_sameNotes hs).slot
  | counted hr => exact (recordBlock_sameNotes hr).slot

/-! ## Panics of a header -/

section

variable {ps : List Panic} {l : CryptarchiaLedger} {slot : Nat} {sdp : SdpLedger} {pow : PowState}

omit [Primitives] in
theorem CryptarchiaLedger.updateEpochState_noPanic
    (hnext : .genesisEpoch ∈ ps → l.nextEpochState.epoch ≠ 0)
    (hrest : ∀ p ∈ [Panic.totalStake, .slotNumber], p ∉ ps) :
    NoPanic ps (l.updateEpochState slot sdp pow eras) := by
  have hslot : ∀ (c : Prop) [Decidable c],
      NoPanic ps (failIf c (.panic .slotNumber) : Result LedgerError Unit) :=
    fun _ _ => Avoids.failIf fun _ => hrest _ (by decide)
  have hinfer : ∀ epoch stake density,
      NoPanic ps (inferTotalStake eras epoch stake density : Result LedgerError Nat) :=
    fun _ _ _ => .bind (hslot _) fun _ _ => expect (hrest _ (by decide))
  have hdensity : ∀ epoch, NoPanic ps (BlockDensity.strictNew epoch eras : Result LedgerError _) :=
    fun _ => .bind (hslot _) fun _ _ => .ok _
  refine .bind (failIf _ _) fun _ _ => ?_
  refine .bind ?_ fun next _ => ?_
  · exact .bind (Avoids.failIf fun h hp => hnext hp h) fun _ _ => .bind (hslot _) fun _ _ => .ok _
  split
  · exact .ok _
  split
  · exact .bind (hinfer _ _ _) fun _ _ => .bind (hdensity _) fun _ _ => .ok _
  · refine .bind (hinfer _ _ _) fun _ _ => .bind ?_ fun _ _ =>
      .bind (hdensity _) fun _ _ => .ok _
    exact .foldlM (I := fun _ _ => True) trivial (fun _ _ _ _ _ _ => trivial)
      fun _ _ _ _ => hinfer _ _ _

theorem LedgerState.tryApplyHeader_noPanic {h : Header}
    (hnext : .genesisEpoch ∈ ps → s.cryptarchiaLedger.nextEpochState.epoch ≠ 0)
    (hproof : .proofEpoch ∈ ps → ∀ l, s.cryptarchiaLedger.updateEpochState h.slot
      s.mantleLedger.sdp s.mantleLedger.pow eras = .ok l →
      eras.epochForSlot h.slot = l.epochState.epoch)
    (hsdp : ∀ next lastConfig config, NoPanic ps (s.mantleLedger.sdp.tryApplyHeader lastConfig
      config s.cryptarchiaLedger.epochState next))
    (hrest : ∀ p ∈ [Panic.totalStake, .slotNumber, .vouchersFull, .blockNumber], p ∉ ps) :
    NoPanic ps (s.tryApplyHeader h eras) := by
  have hmoved : NoPanic ps (s.cryptarchiaLedger.updateEpochState h.slot s.mantleLedger.sdp
      s.mantleLedger.pow eras) :=
    CryptarchiaLedger.updateEpochState_noPanic hnext fun p hp =>
      hrest p (by simp only [List.mem_cons] at hp ⊢; tauto)
  refine .bind ?_ fun l hl => ?_
  · refine .bind (.bind hmoved fun l hl => ?_) fun _ _ => .ok _
    refine .bind (.bind (Avoids.failIf fun hne hp => hne (hproof hp l hl)) fun _ _ => ?_)
      fun _ _ => .ok _
    exact failIf _ _
  · refine .bind (wrap ?_) fun _ _ => ?_
    · refine .bind (wrap ?_) fun _ _ => .bind (wrap (hsdp _ _ _)) fun _ _ => ?_
      · exact .bind (lift _ _) fun _ _ =>
          .bind (expect (hrest _ (by decide))) fun _ _ => .ok _
      · exact .bind (lift _ _) fun _ _ => .ok _
    · exact .bind (expect (hrest _ (by decide))) fun _ _ => .ok _

end

/-! ## Conditions on the operations -/

/-- A step that an operation takes only where a condition holds. -/
def GuardedStep (eras : EraScheduledConfig) (P : LedgerState → SignedOp → Prop) (s : LedgerState)
    (a : Action) (s' : LedgerState) : Prop :=
  Step eras s a s' ∧ ∀ op, a = .operation op → P s op

theorem Step.guarded {P : LedgerState → SignedOp → Prop} {a : Action} (h : Step eras s a s')
    (ha : ∀ op, a ≠ .operation op) : GuardedStep eras P s a s' :=
  ⟨h, fun op he => absurd he (ha op)⟩

/-- A block, as far as the ledger reads it. -/
structure Block where
  id : Hash
  header : Header
  txs : List SignedOps

namespace LedgerState

/-- Applies a block and drops its events. -/
def applyBlock (eras : EraScheduledConfig) (s : LedgerState) (b : Block) :
    Result LedgerError LedgerState := do
  let (s, _, _) ← s.tryUpdate b.id b.header b.txs eras
  return s

/-- Applies blocks one after the other. -/
def applyBlocks (eras : EraScheduledConfig) (s : LedgerState) (bs : List Block) :
    Result LedgerError LedgerState :=
  bs.foldlM (applyBlock eras) s

/-- Every operation of a transaction meets a condition where it is checked. -/
def TxAlong (P : LedgerState → SignedOp → Prop) (s : LedgerState) (eras : EraScheduledConfig)
    (tx : SignedOps) : Prop :=
  Along (TxRun.step eras (configForSlot eras s.slot) tx.hash) (fun r op => P r.state op.1)
    (.start s) tx.ops.zipIdx

/-- Every operation of a block does. -/
def BlockAlong (P : LedgerState → SignedOp → Prop) (s : LedgerState) (eras : EraScheduledConfig)
    (b : Block) : Prop :=
  ∀ r, s.tryApplyHeader b.header eras = .ok r →
    Along (BlockRun.step eras (configForSlot eras b.header.slot))
      (fun run tx => run.state.TxAlong P eras tx.1)
      (.start (r.1.addSeenBlock b.id b.header.slot eras)) b.txs.zipIdx

/-- Every operation of a chain of blocks does. -/
def ChainAlong (P : LedgerState → SignedOp → Prop) (s : LedgerState) (eras : EraScheduledConfig)
    (bs : List Block) : Prop :=
  Along (applyBlock eras) (fun s b => s.BlockAlong P eras b) s bs

instance (P : LedgerState → SignedOp → Prop) [∀ s op, Decidable (P s op)] (s : LedgerState)
    (eras : EraScheduledConfig) (tx : SignedOps) : Decidable (s.TxAlong P eras tx) :=
  inferInstanceAs (Decidable (Along _ _ _ _))

instance (P : LedgerState → SignedOp → Prop) [∀ s op, Decidable (P s op)] (s : LedgerState)
    (eras : EraScheduledConfig) (b : Block) : Decidable (s.BlockAlong P eras b) :=
  decidableForallOk

instance (P : LedgerState → SignedOp → Prop) [∀ s op, Decidable (P s op)] (s : LedgerState)
    (eras : EraScheduledConfig) (bs : List Block) : Decidable (s.ChainAlong P eras bs) :=
  inferInstanceAs (Decidable (Along _ _ _ _))

variable {P : LedgerState → SignedOp → Prop}

theorem TxAlong.of_forall (h : ∀ s op, P s op) (s : LedgerState)
    (tx : SignedOps) : s.TxAlong P eras tx := by grind [TxAlong, Along.of_forall]

theorem BlockAlong.of_forall (h : ∀ s op, P s op) (s : LedgerState)
    (b : Block) : s.BlockAlong P eras b := by
  intro r _
  grind [Along.of_forall, TxAlong.of_forall]

theorem ChainAlong.of_forall (h : ∀ s op, P s op) (s : LedgerState)
    (bs : List Block) : s.ChainAlong P eras bs := by
  grind [ChainAlong, Along.of_forall, BlockAlong.of_forall]

end LedgerState

/-! ## Transactions -/

section

variable {P : LedgerState → SignedOp → Prop} {deferred : DeferredProofs}

theorem TxRun.foldlM_guarded {txHash : TxHash} {slot : Nat} {ops : List (SignedOp × Nat)}
    {r r' : TxRun} (hslot : r.state.slot = slot)
    (h : ops.foldlM (TxRun.step eras (configForSlot eras slot) txHash) r = .ok r')
    (hP : Along (TxRun.step eras (configForSlot eras slot) txHash) (fun r op => P r.state op.1) r
      ops) :
    Run (GuardedStep eras P) r.state ((ops.map (·.1)).map .operation) r'.state ∧
      r'.state.slot = slot := by
  induction ops generalizing r with
  | nil =>
    rw [foldlM_nil_ok h]
    exact ⟨.nil _, hslot⟩
  | cons o ops ih =>
    obtain ⟨r1, h1, h2⟩ := foldlM_cons_ok h
    obtain ⟨_, _, _, hv, -, -, ha, -⟩ := TxRun.step_ok h1
    have hstep : Step eras r.state (.operation o.1) r1.state := .operation hv (hslot.symm ▸ ha)
    have hguarded : GuardedStep eras P r.state (.operation o.1) r1.state := by
      refine ⟨hstep, ?_⟩
      rintro op he
      cases he
      exact hP.1
    obtain ⟨hrun, hslot'⟩ := ih (hstep.slot.trans hslot) h2 (hP.2 r1 h1)
    exact ⟨.append (.snoc (.nil _) hguarded) hrun, hslot'⟩

theorem LedgerState.tryApplyTransaction_guarded {tx : SignedOps} {g : GasAndFees}
    {events : List TxEvent} (h : s.tryApplyTransaction eras tx = .ok (s', g, events, deferred))
    (hP : s.TxAlong P eras tx) : Run (GuardedStep eras P) s (tx.ops.map .operation) s' := by
  obtain ⟨r, h1, rfl, -⟩ := tryApplyTransaction_ok.mp h
  obtain ⟨_, -, h2⟩ := bind_ok h1
  have hstart : (TxRun.start s).state.slot = s.slot := rfl
  have hrun := (TxRun.foldlM_guarded hstart h2 hP).1
  rw [List.zipIdx_map_fst] at hrun
  exact hrun

/-! ## Blocks -/

theorem BlockRun.foldlM_guarded {config : Config} {txs : List (SignedOps × Nat)} {b b' : BlockRun}
    (h : txs.foldlM (BlockRun.step eras config) b = .ok b')
    (hP : Along (BlockRun.step eras config) (fun run tx => run.state.TxAlong P eras tx.1) b txs) :
    Run (GuardedStep eras P) b.state ((txs.map (·.1)).flatMap fun tx => tx.ops.map .operation)
      b'.state ∧ b'.state.slot = b.state.slot := by
  induction txs generalizing b with
  | nil =>
    rw [foldlM_nil_ok h]
    exact ⟨.nil _, rfl⟩
  | cons tx txs ih =>
    obtain ⟨b1, h1, h2⟩ := foldlM_cons_ok h
    obtain ⟨g, events, deferred, ha, -⟩ := BlockRun.step_ok h1
    obtain ⟨hrun, hslot⟩ := ih h2 (hP.2 b1 h1)
    exact ⟨(tryApplyTransaction_guarded ha hP.1).append hrun,
      hslot.trans (tryApplyTransaction_slot ha)⟩

/-- The header, the record, the operations, and the settlement. -/
def blockActions (id : Hash) (h : Header) (txs : List SignedOps) : List Action :=
  .header h :: .seen id :: txs.flatMap (fun tx => tx.ops.map .operation) ++ [.settled, .counted]

/-- A block is a run of steps that meet its conditions. -/
theorem LedgerState.tryUpdate_guarded {b : Block} {events : List Event}
    (hu : s.tryUpdate b.id b.header b.txs eras = .ok (s', events, deferred))
    (hP : s.BlockAlong P eras b) :
    Run (GuardedStep eras P) s (blockActions b.id b.header b.txs) s' := by
  obtain ⟨s1, headerEvents, s2, txEvents, h1, h2, h3, -⟩ := tryUpdate_ok hu
  obtain ⟨run, h4, h5, -, -⟩ := tryApplyBlockContents_ok h2
  have hheader : Step eras s (.header b.header) s1 := .header h1
  have hslot : s1.slot = b.header.slot := hheader.slot.2
  have hseen : Step eras s1 (.seen b.id) (s1.addSeenBlock b.id b.header.slot eras) :=
    hslot ▸ .seen s1 b.id
  have hconfig : (s1.addSeenBlock b.id b.header.slot eras).slot = b.header.slot := hslot
  rw [hconfig] at h4
  obtain ⟨hcontents, hbslot⟩ := BlockRun.foldlM_guarded h4 (hP _ h1)
  rw [List.zipIdx_map_fst] at hcontents
  have hsettled : Step eras run.state .settled s2 := .settled (by rw [hbslot]; exact h5)
  have hs2 : s2.slot = b.header.slot := hsettled.slot.trans (hbslot.trans hslot)
  have hcounted : Step eras s2 .counted s' := .counted (by rw [hs2]; exact h3)
  have hstart := (Run.snoc (.nil s) (hheader.guarded (P := P) nofun)).snoc (hseen.guarded nofun)
  simpa [blockActions] using
    ((hstart.append hcontents).snoc (hsettled.guarded nofun)).snoc (hcounted.guarded nofun)

/-- A chain of blocks is a run of steps, whose operations meet the conditions of the chain. -/
theorem LedgerState.applyBlocks_guarded {bs : List Block} (h : s.applyBlocks eras bs = .ok s')
    (hP : s.ChainAlong P eras bs) :
    Run (GuardedStep eras P) s (bs.flatMap fun b => blockActions b.id b.header b.txs) s' := by
  induction bs generalizing s with
  | nil =>
    rw [foldlM_nil_ok h]
    exact .nil _
  | cons b bs ih =>
    obtain ⟨s1, h1, h2⟩ := foldlM_cons_ok h
    have hrest := hP.2 s1 h1
    obtain ⟨⟨_, events, deferred⟩, h3, h4⟩ := bind_ok h1
    cases h4
    exact (tryUpdate_guarded h3 hP.1).append (ih h2 hrest)

end

/-! ## Runs without a condition -/

theorem LedgerState.tryUpdate_run {id : Hash} {h : Header} {txs : List SignedOps}
    {events : List Event} {deferred : DeferredProofs}
    (hu : s.tryUpdate id h txs eras = .ok (s', events, deferred)) :
    Run (Step eras) s (blockActions id h txs) s' := by
  have hrun := tryUpdate_guarded (b := ⟨id, h, txs⟩) (P := fun _ _ => True) hu
    (.of_forall (fun _ _ => trivial) _ _)
  exact hrun.mono fun _ _ _ hs => hs.1

theorem LedgerState.applyBlocks_run {bs : List Block} (h : s.applyBlocks eras bs = .ok s') :
    Run (Step eras) s (bs.flatMap fun b => blockActions b.id b.header b.txs) s' := by
  have hrun := applyBlocks_guarded (P := fun _ _ => True) h (.of_forall (fun _ _ => trivial) _ _)
  exact hrun.mono fun _ _ _ hs => hs.1

end Logos.Ledger
