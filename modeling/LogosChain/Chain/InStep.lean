import LogosChain.Chain.Uncles
import LogosChain.Engine.Lossless
import LogosChain.Ledger.Effect

/-!
# The ledger and the block tree stay in step

Along every run the blocks with a ledger state are the blocks of the tree, whatever fails on the
way. The engine reports the immutable blocks by their slots; blocks are later than their parents, so
the state of every block that leaves the tree is removed.
-/

namespace Logos.Chain

open Base Mantle Ledger Engine

/-- A block that was applied or refused, or the switch to online. -/
inductive Event where
  | applied (id parent : Hash) (slot : Nat) (outcome : TryApplyBlockOutcome)
  | failed (id : Hash) (e : Error)
  | online (pruned : PrunedBlocks Hash)

/-- What the step shows of the engine. -/
def Event.engine : Event → Option (Engine.Event Hash)
  | applied id parent slot out =>
    some (.received id parent slot ⟨out.prunedBlocks, out.reorgedBlocks, out.newlyCanonicalBlocks⟩)
  | failed _ _ => none
  | online pruned => some (.online pruned)

/-- The events of the engine. -/
def engineEvents (evs : List Event) : List (Engine.Event Hash) := evs.filterMap Event.engine

theorem engineEvents_snoc (evs : List Event) (ev : Event) :
    engineEvents (evs ++ [ev]) = engineEvents evs ++ ev.engine.toList := by
  unfold engineEvents
  rw [List.filterMap_append]
  cases h : ev.engine <;> simp [h]

namespace Cryptarchia

variable {c c' : Cryptarchia} {ord : TipOrder Hash} {block : Block} {currentSlot : Nat}
  {origin : BlockOrigin} {out : TryApplyBlockOutcome}

section

variable [HeaderPrimitives] [Primitives] {update : PreparedUpdate}

/-- A block is applied, with the pruned states removed, or fails, or the state switches. -/
inductive Step : Cryptarchia → Event → Cryptarchia → Prop where
  | applied {c c' : Cryptarchia} {ord : TipOrder Hash} {block : Block} {currentSlot : Nat}
      {origin : BlockOrigin} {out : TryApplyBlockOutcome} {blocks : List Hash} :
      c.tryApplyBlockWithStateRetention ord block currentSlot origin = (.ok out, c') →
      (blocks : Multiset Hash) = out.prunedBlocks.all →
      Step c (.applied block.id block.header.parentBlock block.header.slot out)
        (c'.pruneLedgerStates blocks)
  | failed {c c' : Cryptarchia} {ord : TipOrder Hash} {block : Block} {currentSlot : Nat}
      {origin : BlockOrigin} {e : Error} :
      c.tryApplyBlockWithStateRetention ord block currentSlot origin = (.error (.error e), c') →
      Step c (.failed block.id e) c'
  | online {c c' : Cryptarchia} {ord : TipOrder Hash} {pruned : PrunedBlocks Hash}
      {blocks : List Hash} : c.toOnline ord = .ok (c', pruned) →
      (blocks : Multiset Hash) = pruned.all → Step c (.online pruned) (c'.pruneLedgerStates blocks)

/-! ## What the calls do -/

omit [HeaderPrimitives] [Primitives] in
theorem parentMissing_ne_ok {α : Type} {parent : Hash} {a : α} :
    c.parentMissing parent ≠ .ok a := by
  intro h
  obtain ⟨_, -, h1⟩ := bind_ok h
  cases h1

/-- What is checked of a block from the storage. -/
structure Prepares (c : Cryptarchia) (block : Block) (update : PreparedUpdate) : Prop where
  new : c.ledger.state block.id = none
  uncleCount : block.uncleHeaders.length ≤
    (configForSlot c.ledger.eraSchedule block.header.slot).consensusConfig.maxUncles
  id : update.id = block.id
  applies : ∃ parent, c.ledger.state block.header.parentBlock = some parent ∧
    parent.tryUpdate block.id block.ledgerHeader block.transactions c.ledger.eraSchedule =
      .ok (update.state, update.events, update.deferredProofs)
  proofs : update.deferredProofs.verify = .ok ()

/-- A block is prepared only if it would be prepared from the storage. -/
theorem Prepares.of_prepareBlock
    (h : c.prepareBlock block currentSlot origin = .ok update) : c.Prepares block update := by
  obtain ⟨_, h1, h2⟩ := bind_ok h
  obtain ⟨_, hcount, h3⟩ := bind_ok h2
  obtain ⟨_, -, h4⟩ := bind_ok h3
  obtain ⟨update', h5, h6⟩ := bind_ok h4
  obtain ⟨_, hproofs, h7⟩ := bind_ok h6
  cases h7
  have hparent : ∃ parent, c.ledger.state block.header.parentBlock = some parent ∧
      parent.tryUpdate block.id block.ledgerHeader block.transactions c.ledger.eraSchedule =
        .ok (update.state, update.events, update.deferredProofs) ∧ update.id = block.id := by
    unfold prepareUpdate at h5
    split at h5
    · rename_i hprep
      cases h5
      obtain ⟨parent, h8, h9⟩ := bind_ok hprep
      obtain ⟨⟨state, events, deferred⟩, h10, h11⟩ := bind_ok h9
      cases h11
      exact ⟨parent, okOr_ok.mp h8, h10, rfl⟩
    · exact absurd h5 parentMissing_ne_ok
    · cases h5
    · cases h5
  obtain ⟨parent, hstate, hupdate, hid⟩ := hparent
  exact ⟨by simpa using h1, Nat.not_lt.mp (failIf_ok.mp hcount), hid, ⟨parent, hstate, hupdate⟩,
    mapError_ok.mp hproofs⟩

/-- Nothing else is checked of a block from the storage. -/
theorem Prepares.prepareBlock (h : c.Prepares block update)
    (currentSlot : Nat) : c.prepareBlock block currentSlot .storage = .ok update := by
  obtain ⟨parent, hparent, hupdate⟩ := h.applies
  have hprep : c.prepareUpdate block = .ok update := by
    have hledger : c.ledger.prepareUpdate block.id block.header.parentBlock block.ledgerHeader
        block.transactions = .ok update := by
      refine ok_bind (okOr_ok.mpr hparent) (ok_bind hupdate ?_)
      rw [← h.id]
      rfl
    rw [Cryptarchia.prepareUpdate, hledger]
  refine ok_bind (a := ()) ?_ (ok_bind (a := ()) (failIf_ok.mpr (Nat.not_lt.mpr h.uncleCount))
    (ok_bind rfl (ok_bind hprep (ok_bind (mapError_ok.mpr h.proofs) rfl))))
  rw [h.new]
  exact failIf_ok.mpr (by simp)

/-- A prepared block is new, with a state from that of its parent. -/
theorem prepareBlock_ok (h : c.prepareBlock block currentSlot origin = .ok update) :
    c.ledger.state block.id = none ∧ update.id = block.id ∧
      ∃ parent, c.ledger.state block.header.parentBlock = some parent ∧
        parent.slot < block.header.slot ∧ update.state.slot = block.header.slot := by
  have hp := Prepares.of_prepareBlock h
  obtain ⟨parent, hparent, hupdate⟩ := hp.applies
  exact ⟨hp.new, hp.id, parent, hparent, LedgerState.tryUpdate_slot hupdate⟩

theorem tryApply_ok (h : c.tryApplyBlockWithStateRetention ord block currentSlot origin =
      (.ok out, c')) :
    ∃ update consensus, c.prepareBlock block currentSlot origin = .ok update ∧
      c.consensus.receiveBlock ord block.id block.header.parentBlock block.header.slot
        block.uncleSlots = .ok (consensus,
          ⟨out.prunedBlocks, out.reorgedBlocks, out.newlyCanonicalBlocks⟩) ∧
      c' = { c with consensus := consensus, ledger := c.ledger.commitUpdate update } := by
  unfold tryApplyBlockWithStateRetention at h
  split at h
  · cases h
  · rename_i update hprep
    split at h
    · exact absurd (congrArg Prod.fst h) parentMissing_ne_ok
    · cases h
    · cases h
    · rename_i consensus outcome hrec
      cases h
      exact ⟨update, consensus, hprep, hrec, rfl⟩

/-- A block that fails leaves the ledger and the engine. -/
theorem tryApply_error {f : Failure}
    (h : c.tryApplyBlockWithStateRetention ord block currentSlot origin = (.error f, c')) :
    c' = c := by
  unfold tryApplyBlockWithStateRetention at h
  split at h
  · cases h; rfl
  · grind

end

/-! ## One step -/

/-- The tree and the ledger have the same blocks, with states at their slots. -/
structure Matches (l : Logos.Ledger) (s : Branches Hash) : Prop where
  keys : ∀ i, (l.state i).isSome ↔ i ∈ s.branches
  slots : ∀ b st, s.Has b → l.state b.id = some st → st.slot = b.slot

theorem state_pruneLedgerStates (c : Cryptarchia) (blocks : List Hash) (i : Hash) :
    (c.pruneLedgerStates blocks).ledger.state i =
      if i ∈ blocks then none else c.ledger.state i := by
  have hstates : ∀ (blocks : List Hash) (l : Logos.Ledger),
      (blocks.foldl Ledger.pruneStateAt l).states =
        blocks.foldl (fun m k => m.erase k) l.states := by
    intro blocks
    induction blocks with
    | nil => intro l; rfl
    | cons b blocks ih => intro l; exact ih _
  show (blocks.foldl Ledger.pruneStateAt c.ledger).states.lookup i = _
  rw [hstates, Map.lookup_foldl_erase]
  rfl

/-- Removing the pruned states matches a move of the LIB. -/
theorem Matches.moves {e : Engine.Cryptarchia Hash} {r : Branch Hash} {pruned : PrunedBlocks Hash}
    {blocks : List Hash} (hm : Matches c.ledger e.branches) (hmoves : e.Moves r c.consensus pruned)
    (he : e.Ok) (hs : e.branches.Strict) (hb : (blocks : Multiset Hash) = pruned.all) :
    Matches (c.pruneLedgerStates blocks).ledger c.consensus.branches := by
  refine ⟨fun i => ?_, fun b st hHas hst => ?_⟩
  · have hmem : i ∈ blocks ↔ i ∈ pruned.all := by rw [← hb, Multiset.mem_coe]
    rw [state_pruneLedgerStates, hmoves.mem_iff he hs, ← hm.keys, ← hmem]
    by_cases hi : i ∈ blocks <;> simp [hi]
  · rw [state_pruneLedgerStates] at hst
    split at hst
    · cases hst
    · exact hm.slots b st (hmoves.prunes.has_iff.mp hHas).1 hst

/-- A new block with its state keeps both in step. -/
theorem Matches.adds {l : Logos.Ledger} {s s' : Branches Hash} {p b : Branch Hash}
    {update : PreparedUpdate} (hm : Matches l s) (ha : s.Adds p b s') (hf : s.Fresh b.id)
    (hid : update.id = b.id) (hslot : update.state.slot = b.slot) :
    Matches (l.commitUpdate update) s' := by
  have hstate : ∀ i, (l.commitUpdate update).state i =
      if i = b.id then some update.state else l.state i := by
    intro i
    rw [← hid]
    exact Map.lookup_insert_ite _ _ _ _
  refine ⟨fun i => ?_, fun x st hx hst => ?_⟩
  · rw [hstate, ha.branches, Finmap.mem_insert, ← hm.keys]
    by_cases hi : i = b.id <;> simp [hi]
  · rw [hstate] at hst
    rcases ha.has_iff.mp hx with rfl | ⟨hne, hx⟩
    · rw [if_pos rfl] at hst
      cases hst
      exact hslot
    · rw [if_neg hne] at hst
      exact hm.slots x st hx hst

end Cryptarchia

/-! ## Runs -/

/-- The service in step, with the history of its tree. -/
structure InStep (parentOf : Hash → Hash) (start : Branch Hash) (evs : List Event)
    (c : Cryptarchia) : Prop where
  history : Engine.Cryptarchia.History parentOf start (engineEvents evs) c.consensus
  strict : c.consensus.branches.Strict
  inStep : Cryptarchia.Matches c.ledger c.consensus.branches

section

variable [HeaderPrimitives] [Primitives] {parentOf : Hash → Hash} {start : Branch Hash}
  {evs : List Event} {ev : Event} {c c' : Cryptarchia}

open Cryptarchia

/-- A block that is applied is new and later than its parent. -/
theorem InStep.fresh_later {block : Block} {currentSlot : Nat} {origin : BlockOrigin}
    {update : PreparedUpdate} (h : InStep parentOf start evs c)
    (hprep : c.prepareBlock block currentSlot origin = .ok update)
    (hh : Hashed parentOf start (engineEvents evs))
    (hpar : block.header.parentBlock = parentOf block.id) (hne : block.id ≠ start.parent) :
    c.consensus.branches.Fresh block.id ∧
      c.consensus.Later block.header.parentBlock block.header.slot := by
  obtain ⟨hnew, -, parent, hparent, hlt, -⟩ := prepareBlock_ok hprep
  constructor
  · refine h.history.fresh hh (fun hmem => ?_) ?_ hne
    · grind [Matches.keys, inStep]
    · rw [← hpar, ← h.inStep.keys, hparent]
      rfl
  · intro p hp
    have hHas := h.history.ok.tree.has_of_lookup hp
    have hkey := h.history.ok.tree.key _ _ hp
    grind [Matches.slots, inStep]

theorem InStep.step (h : InStep parentOf start evs c) (hs : Step c ev c')
    (hh : Hashed parentOf start (engineEvents (evs ++ [ev]))) :
    InStep parentOf start (evs ++ [ev]) c' := by
  have hc := h.history.ok
  rw [engineEvents_snoc] at hh
  cases hs with
  | @applied c₁ ord block currentSlot origin out blocks hap hb =>
    obtain ⟨update, consensus, hprep, hrec, rfl⟩ := tryApply_ok hap
    obtain ⟨hpar, hne⟩ := hh.last
    obtain ⟨hf, hlater⟩ := h.fresh_later hprep hh.of_append hpar hne
    obtain ⟨-, hid, -, -, -, hslot⟩ := prepareBlock_ok hprep
    obtain ⟨b, p, mid, r, hr, hbid, hbpar, hbslot, -⟩ := Engine.Cryptarchia.receiveBlock_ok hc hf hrec
    have hlt : p.slot < b.slot := by
      rw [hbslot]
      exact hlater p (by rw [← hbpar, hr.adopts.adds.parent_id]; exact hr.adopts.adds.parent)
    rw [← hbid] at hf
    have hmidOk := hr.adopts.ok hc hf
    have hstrict := h.strict.adds hc.tree hr.adopts.adds hf hlt
    refine ⟨?_, hstrict.prunes hr.moves.prunes, ?_⟩
    · rw [engineEvents_snoc]
      exact h.history.step (.received (hbid ▸ hf) hrec) hh
    · have hmid : Matches (c.ledger.commitUpdate update) mid.branches :=
        h.inStep.adds hr.adopts.adds hf (hid.trans hbid.symm) (hslot.trans hbslot.symm)
      exact Matches.moves (c := ⟨c.ledger.commitUpdate update, consensus, c.genesisId⟩) hmid hr.moves
        hmidOk hstrict hb
  | failed hap =>
    obtain rfl := tryApply_error hap
    refine ⟨?_, h.strict, h.inStep⟩
    rw [engineEvents_snoc]
    simpa [Event.engine] using h.history
  | @online c₁ ord pruned blocks hon hb =>
    obtain ⟨⟨consensus, pruned'⟩, h1, h2⟩ := bind_ok hon
    cases h2
    have hon' := mapError_ok.mp h1
    obtain ⟨r, c₂, pruned', hon'', hm⟩ := Engine.Cryptarchia.online_spec hc ord
    rw [hon'] at hon''
    cases hon''
    refine ⟨?_, Branches.Strict.prunes (s := c.consensus.branches) h.strict hm.prunes, ?_⟩
    · rw [engineEvents_snoc]
      exact h.history.step (.online hon') hh
    · exact Matches.moves (c := ⟨c.ledger, consensus, c.genesisId⟩)
        (e := { c.consensus with state := .online }) h.inStep hm hc.asOnline h.strict hb

end

/-! ## The `expect`s of the service -/

namespace Cryptarchia

variable {c : Cryptarchia}

theorem parentMissing_error {α : Type} {parent : Hash} {p : Panic}
    (h : (c.parentMissing parent : Except Failure α) = .error (.panic p)) : ∃ q, p = .engine q := by
  rcases bind_error h with h1 | ⟨_, -, h2⟩
  · rcases bind_error h1 with h3 | ⟨_, -, h4⟩
    · obtain ⟨f, -, h5⟩ := mapError_error.mp h3
      cases f <;> cases h5
      exact ⟨_, rfl⟩
    · cases h4
  · cases h2

variable [HeaderPrimitives] [Primitives] {block : Block}

variable (hc : c.consensus.Ok) (hm : Matches c.ledger c.consensus.branches)
include hc hm

/-- The state of the parent of an uncle that is on the chain is there. -/
theorem verifyUncles_no_panic : c.verifyUncles block ≠ .error (.panic .uncleParentState) := by
  intro h
  unfold verifyUncles at h
  split at h
  · cases h
  · split at h
    · obtain ⟨q, hq⟩ := parentMissing_error h
      cases hq
    · rename_i parent hparent
      rcases bind_error h with h1 | ⟨_, -, h2⟩
      · obtain ⟨u, -, h3⟩ := forM_error h1
        rcases bind_error h3 with h4 | ⟨_, -, h4⟩ <;> simp at h4
      rcases bind_error h2 with h3 | ⟨_, h3, h4⟩
      · rcases bind_error h3 with h5 | ⟨_, -, h5⟩
        · obtain ⟨_, -, h6⟩ := mapError_error.mp h5
          cases h6
        · obtain ⟨u, -, h6⟩ := forM_error h5
          simp at h6
      · obtain ⟨u, hu, h5⟩ := forM_error h4
        -- The parent of this uncle was found on the chain.
        have hhas := hc.tree.has_of_lookup hparent
        obtain ⟨-, a, ha, -, hid⟩ := (verifyUnclesAncestry_ok hc.tree hhas).mp h3 u hu
        have hmem : u.header.parentBlock ∈ c.consensus.branches.branches :=
          hid ▸ (hc.tree.anc_has ha hhas).mem
        obtain ⟨st, hst⟩ := Option.isSome_iff_exists.mp ((hm.keys _).mpr hmem)
        rcases bind_error h5 with h8 | ⟨_, -, h8⟩
        · obtain ⟨_, -, h9⟩ := mapError_error.mp h8
          cases h9
        · rcases bind_error h8 with h9 | ⟨_, -, h9⟩
          · rcases bind_error h9 with h10 | ⟨_, h10, h11⟩
            · rw [okOr_error, hst] at h10
              cases h10.1
            · split at h11 <;> cases h11
          · grind [mapError_error]

/-- No call misses the state of the parent of an uncle. -/
theorem tryApply_no_panic (ord : TipOrder Hash) (block : Block) (currentSlot : Nat)
    (origin : BlockOrigin) :
    (c.tryApplyBlockWithStateRetention ord block currentSlot origin).1 ≠
      .error (.panic .uncleParentState) := by
  have hprep : c.prepareBlock block currentSlot origin ≠ .error (.panic .uncleParentState) := by
    intro h
    rcases bind_error h with h1 | ⟨_, -, h2⟩
    · simp at h1
    rcases bind_error h2 with h3 | ⟨_, -, h4⟩
    · simp [verifyUncleCount] at h3
    rcases bind_error h4 with h5 | ⟨_, -, h6⟩
    · cases origin with
      | network =>
        rcases bind_error h5 with h7 | ⟨_, -, h8⟩
        · simp at h7
        · exact verifyUncles_no_panic hc hm h8
      | storage => cases h5
    rcases bind_error h6 with h7 | ⟨_, -, h8⟩
    · grind [prepareUpdate, parentMissing_error]
    · rcases bind_error h8 with h9 | ⟨_, -, h10⟩
      · obtain ⟨_, -, h11⟩ := mapError_error.mp h9
        cases h11
      · cases h10
  grind [tryApplyBlockWithStateRetention, parentMissing_error]

omit [HeaderPrimitives] [Primitives] in
theorem epochStateForSlot_no_panic (slot : Nat) :
    c.epochStateForSlot slot ≠ .error (.panic .tipState) := by
  intro h
  obtain ⟨st, hst⟩ := Option.isSome_iff_exists.mp ((hm.keys c.consensus.tip).mpr hc.has.mem)
  rcases bind_error h with h1 | ⟨_, -, h2⟩
  · rw [okOr_error, hst] at h1
    cases h1.1
  · obtain ⟨f, -, h3⟩ := mapError_error.mp h2
    cases f <;> cases h3

end Cryptarchia

/-! ## The ledger and the block tree -/

section

variable [HeaderPrimitives] [Primitives] {libId libParent genesisId : Hash}
  {libLedgerState : LedgerState} {eras : EraScheduledConfig} {state : State}
  {libSlot libLength : Nat} {libUncleSlots : List Nat} {parentOf : Hash → Hash} {evs : List Event}
  {c : Cryptarchia}

open Cryptarchia

omit [HeaderPrimitives] [Primitives] in
/-- The service with one block is in step. -/
theorem inStep_fromLib (hslot : libLedgerState.slot = libSlot)
    (hh : Hashed parentOf ⟨libId, libParent, libSlot, libLength, libUncleSlots⟩
      (engineEvents evs)) :
    InStep parentOf ⟨libId, libParent, libSlot, libLength, libUncleSlots⟩ []
      (fromLib libId libParent libLedgerState genesisId eras state libSlot libLength
        libUncleSlots) := by
  have hl : Engine.Cryptarchia.Lossless parentOf ⟨libId, libParent, libSlot, libLength, libUncleSlots⟩ []
      (fromLib libId libParent libLedgerState genesisId eras state libSlot libLength
        libUncleSlots).consensus := lossless_fromLib hh
  have hstate : ∀ i, (fromLib libId libParent libLedgerState genesisId eras state libSlot libLength
      libUncleSlots).ledger.state i =
        if i = libId then some (libLedgerState.addSeenBlock libId libLedgerState.slot eras)
        else none := fun i => Map.lookup_insert_ite _ _ _ _
  refine ⟨hl.history, hl.strict, ⟨fun i => ?_, fun b st hb hst => ?_⟩⟩
  · rw [hstate]
    refine Iff.trans ?_ Engine.Cryptarchia.fromLib_mem.symm
    by_cases hi : i = libId <;> simp [hi]
  · obtain rfl := Engine.Cryptarchia.fromLib_has.mp hb
    rw [hstate, if_pos rfl] at hst
    cases hst
    exact hslot

theorem inStep_run (hslot : libLedgerState.slot = libSlot)
    (hrun : Run Step (fromLib libId libParent libLedgerState genesisId eras state libSlot libLength
      libUncleSlots) evs c)
    (hh : Hashed parentOf ⟨libId, libParent, libSlot, libLength, libUncleSlots⟩
      (engineEvents evs)) :
    InStep parentOf ⟨libId, libParent, libSlot, libLength, libUncleSlots⟩ evs c := by
  refine hrun.history (I := fun evs c =>
    Hashed parentOf ⟨libId, libParent, libSlot, libLength, libUncleSlots⟩ (engineEvents evs) →
    InStep parentOf ⟨libId, libParent, libSlot, libLength, libUncleSlots⟩ evs c)
    (fun hh => inStep_fromLib hslot hh) ?_ hh
  grind [engineEvents_snoc, InStep.step, Hashed.of_append]

/-- **The ledger and the block tree stay in step** along every run, whether blocks are applied or
fail. -/
theorem ledger_in_step (hslot : libLedgerState.slot = libSlot)
    (hrun : Run Step (fromLib libId libParent libLedgerState genesisId eras state libSlot libLength
      libUncleSlots) evs c)
    (hh : Hashed parentOf ⟨libId, libParent, libSlot, libLength, libUncleSlots⟩
      (engineEvents evs)) :
    (∀ i, (c.ledger.state i).isSome ↔ i ∈ c.consensus.branches.branches) ∧
    (∀ ord block currentSlot origin f c',
      c.tryApplyBlockWithStateRetention ord block currentSlot origin = (.error f, c') →
        c'.ledger = c.ledger ∧ c'.consensus = c.consensus) ∧
    (∀ ord block currentSlot origin,
      (c.tryApplyBlockWithStateRetention ord block currentSlot origin).1 ≠
        .error (.panic .uncleParentState)) ∧
    ∀ slot, c.epochStateForSlot slot ≠ .error (.panic .tipState) := by
  have h := inStep_run hslot hrun hh
  refine ⟨h.inStep.keys, ?_, tryApply_no_panic h.history.ok h.inStep,
    epochStateForSlot_no_panic h.history.ok h.inStep⟩
  grind [tryApply_error]

/-- What is put into a run, with the pruned blocks in some order. -/
inductive Input where
  | block (b : Block) (currentSlot : Nat) (origin : BlockOrigin) (pruned : List Hash)
  | online (pruned : List Hash)

/-- A step on a given input with one order of the tips. -/
def execStep (ord : TipOrder Hash) (c : Cryptarchia) : Input → Option (Event × Cryptarchia)
  | .block b currentSlot origin pruned =>
    match c.tryApplyBlockWithStateRetention ord b currentSlot origin with
    | (.ok out, c') =>
      if (pruned : Multiset Hash) = out.prunedBlocks.all then
        some (.applied b.id b.header.parentBlock b.header.slot out, c'.pruneLedgerStates pruned)
      else none
    | (.error (.error e), c') => some (.failed b.id e, c')
    | (.error (.panic _), _) => none
  | .online blocks =>
    match c.toOnline ord with
    | .ok (c', pruned) =>
      if (blocks : Multiset Hash) = pruned.all then
        some (.online pruned, c'.pruneLedgerStates blocks)
      else none
    | .error _ => none

theorem execStep_step (ord : TipOrder Hash) (c : Cryptarchia) (i : Input) (ev : Event)
    (c' : Cryptarchia) (h : execStep ord c i = some (ev, c')) : Step c ev c' := by
  cases i with
  | block b currentSlot origin pruned =>
    simp only [execStep] at h
    split at h
    · rename_i hap
      split at h
      · rename_i hb
        cases h
        exact .applied hap hb
      · cases h
    · rename_i hap
      cases h
      exact .failed hap
    · cases h
  | online blocks =>
    simp only [execStep] at h
    split at h
    · rename_i hon
      split at h
      · rename_i hb
        cases h
        exact .online hon hb
      · cases h
    · cases h

end

def headerWithId (id parent slot : Nat) : BlockHeader := ⟨slot, parent, id, ⟨0, 0, 0, 0⟩⟩

/-- A fork, its block as an uncle, an unknown parent, and the switch. -/
def forkedInputs : List Input :=
  [.block ⟨headerWithId 1 0 1, [], []⟩ 9 .network [],
    .block ⟨headerWithId 2 0 2, [], []⟩ 9 .network [],
    .block ⟨headerWithId 3 1 3, [⟨headerWithId 2 0 2, 0⟩], []⟩ 9 .network [],
    .block ⟨headerWithId 5 6 4, [], []⟩ 9 .network [],
    .block ⟨headerWithId 4 3 4, [], []⟩ 9 .network [], .online [2, 0]]

theorem ledger_in_step_forked :
    letI := Primitives.plain
    letI := HeaderPrimitives.plain
    ∃ evs c, Run Cryptarchia.Step (.fromGenesis 0 (.fromUtxos [⟨0, 0, ⟨1001, 7⟩⟩] .small 0 [])
        (.single .small) .bootstrapping) evs c ∧
      c.consensus.lib = 1 ∧ c.ledger.state 0 = none ∧ c.ledger.state 2 = none ∧
      (c.ledger.state 4).isSome ∧ (∀ i, (c.ledger.state i).isSome ↔ i ∈ c.consensus.branches.branches)
        := by
  let _ := Primitives.plain
  let _ := HeaderPrimitives.plain
  obtain ⟨evs, c, hrun, hc⟩ := exists_run_of_exec (execStep_step .ascending)
    (s := .fromGenesis 0 (.fromUtxos [⟨0, 0, ⟨1001, 7⟩⟩] .small 0 []) (.single .small)
      .bootstrapping) (l := forkedInputs)
    (fun r => (r.2.consensus.lib, (r.2.ledger.state 0).isSome, (r.2.ledger.state 2).isSome,
      (r.2.ledger.state 4).isSome,
      decide (Hashed (fun i => [0, 0, 0, 1, 3].getD i 0) ⟨0, 0, 0, 0, []⟩
        (engineEvents r.1)))) (a := (1, false, false, true, true)) (by decide +kernel)
  obtain ⟨h1, h2⟩ := Prod.mk.inj hc
  obtain ⟨h3, h4⟩ := Prod.mk.inj h2
  obtain ⟨h5, h6⟩ := Prod.mk.inj h4
  obtain ⟨h7, h8⟩ := Prod.mk.inj h6
  have h := ledger_in_step rfl hrun (of_decide_eq_true h8)
  exact ⟨evs, c, hrun, h1, by simpa using h3, by simpa using h5, h7, h.1⟩

end Logos.Chain
