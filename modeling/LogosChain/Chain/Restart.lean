import LogosChain.Chain.Recovery
import LogosChain.Engine.Replay
import LogosChain.Ledger.Recorded

/-!
# A restart brings back the chain

Along every run each block of the tree is stored, and applying it again to the state of its parent
gives its own state (`Recoverable`). The replay on the LIB checks less of a block than its first
application, and recording the LIB once more changes nothing.
-/

namespace Logos.Chain

open Base Mantle Ledger Engine Storage List

variable [HeaderPrimitives] [Primitives] {genesis : Hash} {l l' : Logos.Ledger}
  {t t' : Branches Hash} {s s' : Storage} {b r start : Branch Hash} {block : Block}
  {c : Cryptarchia} {update : PreparedUpdate} {parentOf : Hash → Hash} {evs : List Event}
  {ev : Event} {eras : EraScheduledConfig} {n n' : Node} {currentSlot : Nat} {origin : BlockOrigin}
  {libState : LedgerState}

/-! ## What is kept to be replayed -/

/-- The stored block of `b` leads from the state of `q` to its own. -/
structure Replays (l : Logos.Ledger) (s : Storage) (q b : Branch Hash) (block : Block) :
    Prop where
  stored : s.getBlock b.id = some block
  id : block.id = b.id
  parent : block.header.parentBlock = b.parent
  slot : block.header.slot = b.slot
  uncleSlots : block.uncleSlots = b.uncleSlots
  uncleCount : block.uncleHeaders.length ≤
    (configForSlot l.eraSchedule block.header.slot).consensusConfig.maxUncles
  length_lt : b.length < 2 ^ 64
  applies : ∃ before after events deferred, l.state q.id = some before ∧
    l.state b.id = some after ∧
    before.tryUpdate b.id block.ledgerHeader block.transactions l.eraSchedule =
      .ok (after, events, deferred) ∧ deferred.verify = .ok ()

/-- Every block of the tree can be replayed on its parent. -/
structure Recoverable (genesis : Hash) (l : Logos.Ledger) (t : Branches Hash) (s : Storage) :
    Prop where
  links : ∀ b q, t.par b = some q → ∃ block, Replays l s q b block
  parents : ∀ b, t.Has b → b.id ≠ genesis → s.getBlockParent b.id = some b.parent
  recorded : ∀ b st, t.Has b → l.state b.id = some st → st.Recorded l.eraSchedule b.id
  first : ∀ b, t.Has b → b.id = genesis → b = ⟨genesis, genesis, 0, 0, []⟩

theorem Replays.congr {q : Branch Hash} (h : Replays l s q b block)
    (heras : l'.eraSchedule = l.eraSchedule) (hq : l'.state q.id = l.state q.id)
    (hb : l'.state b.id = l.state b.id) (hstored : s'.getBlock b.id = s.getBlock b.id) :
    Replays l' s' q b block where
  stored := hstored.trans h.stored
  id := h.id
  parent := h.parent
  slot := h.slot
  uncleSlots := h.uncleSlots
  uncleCount := by
    rw [heras]
    exact h.uncleCount
  length_lt := h.length_lt
  applies := by
    rw [heras, hq, hb]
    exact h.applies

/-- A part of the tree, with its states and stored blocks. -/
theorem Recoverable.prunes (h : Recoverable genesis l t s) (ht : t.Ok) (hp : Prunes t r t')
    (heras : l'.eraSchedule = l.eraSchedule)
    (hstates : ∀ b, t'.Has b → l'.state b.id = l.state b.id)
    (hstored : ∀ b, t'.Has b → s'.getBlock b.id = s.getBlock b.id ∧
      s'.getBlockParent b.id = s.getBlockParent b.id) : Recoverable genesis l' t' s' where
  links b q hq := by
    obtain ⟨hpar, hanc⟩ := hp.par_of hq
    obtain ⟨hb, hqHas, -⟩ := ht.par_spec hpar
    have hb' : t'.Has b := hp.has_iff.mpr ⟨hb, hanc.step hpar⟩
    obtain ⟨block, hblock⟩ := h.links b q hpar
    exact ⟨block, hblock.congr heras (hstates q (hp.has_iff.mpr ⟨hqHas, hanc⟩)) (hstates b hb')
      (hstored b hb').1⟩
  parents b hb hne := (hstored b hb).2.trans (h.parents b (hp.has_iff.mp hb).1 hne)
  recorded b st hb hst := by
    rw [heras]
    exact h.recorded b st (hp.has_iff.mp hb).1 ((hstates b hb).symm.trans hst)
  first b hb := h.first b (hp.has_iff.mp hb).1

theorem Recoverable.adds {p : Branch Hash} (h : Recoverable genesis c.ledger t s) (ht : t.Ok)
    (ha : t.Adds p b t') (hf : t.Fresh b.id) (hgenesis : b.id ≠ genesis)
    (hup : c.Prepares block update) (hid : block.id = b.id)
    (hpar : block.header.parentBlock = b.parent) (hslot : block.header.slot = b.slot)
    (huncles : block.uncleSlots = b.uncleSlots) (hlength : b.length < 2 ^ 64) :
    Recoverable genesis (c.ledger.commitUpdate update) t'
      ⟨s.blocks.insert b.id block, s.parents.insert b.id b.parent, s.immutableBlockIds⟩ := by
  have hstate : ∀ i, (c.ledger.commitUpdate update).state i =
      if i = b.id then some update.state else c.ledger.state i := by
    intro i
    rw [← hid, ← hup.id]
    exact Map.lookup_insert_ite _ _ _ _
  have hblock : ∀ i, (s.blocks.insert b.id block).lookup i =
      if i = b.id then some block else s.getBlock i := fun i => Map.lookup_insert_ite _ _ _ _
  have hparent : ∀ i, (s.parents.insert b.id b.parent).lookup i =
      if i = b.id then some b.parent else s.getBlockParent i := fun i => Map.lookup_insert_ite _ _ _ _
  have hold : ∀ {x}, t.Has x → x.id ≠ b.id := fun hx => Branches.Adds.ne_of_has hf hx
  obtain ⟨before, hbefore, happlies⟩ := hup.applies
  refine ⟨fun x q hq => ?_, fun x hx hne => ?_, fun x st hx hst => ?_, fun x hx hid' => ?_⟩
  · by_cases hxb : x = b
    · subst hxb
      rw [ha.par_new hf] at hq
      cases hq
      refine ⟨block, by rw [getBlock, hblock, if_pos rfl], hid, hpar, hslot, huncles,
        hup.uncleCount, hlength,
        before, update.state, update.events, update.deferredProofs, ?_, ?_, ?_, hup.proofs⟩
      · rw [hstate, if_neg (hold ha.parent), ← ha.parent_id, ← hpar]
        exact hbefore
      · rw [hstate, if_pos rfl]
      · rw [← hid]
        exact happlies
    · -- an old link
      have hxHas : t.Has x := by
        by_contra hno
        have hx := ((ha.ok ht hf).par_spec hq).1
        exact (ha.has_iff.mp hx).elim hxb fun hx => hno hx.2
      rw [ha.par_old hf hxHas] at hq
      obtain ⟨old, hreplays⟩ := h.links x q hq
      refine ⟨old, hreplays.congr rfl ?_ ?_ ?_⟩
      · rw [hstate, if_neg (hold (ht.par_spec hq).2.1)]
      · rw [hstate, if_neg (hold hxHas)]
      · rw [getBlock, hblock, if_neg (hold hxHas)]
  · grind [getBlockParent, Branches.Adds.has_iff, parents]
  · rw [hstate] at hst
    rcases ha.has_iff.mp hx with rfl | ⟨hxb, hx⟩
    · rw [if_pos rfl] at hst
      cases hst
      rw [← hid]
      exact LedgerState.recorded_of_tryUpdate happlies
    · rw [if_neg hxb] at hst
      exact h.recorded x st hx hst
  · grind [Branches.Adds.has_iff, first]

/-! ## Runs -/

/-- What a node that restarts relies on. -/
structure Node.Restartable (eras : EraScheduledConfig) (genesis : Hash) (n : Node) : Prop where
  genesisId : n.cryptarchia.genesisId = genesis
  ledgerEras : n.cryptarchia.ledger.eraSchedule = eras
  engineEras : n.cryptarchia.consensus.eraSchedule = engineSchedule eras
  within : n.cryptarchia.consensus.LibWithinK
  recoverable : Recoverable genesis n.cryptarchia.ledger n.cryptarchia.consensus.branches n.storage

omit [HeaderPrimitives] [Primitives] in
theorem eraSchedule_pruneStates (blocks : List Hash) (l : Logos.Ledger) :
    (blocks.foldl Ledger.pruneStateAt l).eraSchedule = l.eraSchedule := by
  induction blocks generalizing l with
  | nil => rfl
  | cons b blocks ih => exact ih _

/-- A move of the LIB, with states and stale blocks removed. -/
theorem Recoverable.moves {e e' : Engine.Cryptarchia Hash} {pruned : PrunedBlocks Hash}
    {blocks deleted : List Hash} (h : Recoverable genesis l e.branches s) (he : e.Ok)
    (hs : e.branches.Strict) (hm : e.Moves r e' pruned) (hb : (blocks : Multiset Hash) = pruned.all)
    (hdel : ∀ i ∈ deleted, i ∈ pruned.staleBlocks) (ids : Map Nat Hash) :
    Recoverable genesis (blocks.foldl Ledger.pruneStateAt l) e'.branches
      ((s.storeImmutableBlockIds ids).removeBlocks deleted) := by
  have hkept : ∀ b, e'.branches.Has b → b.id ∉ pruned.all := fun b hx =>
    ((hm.mem_iff he hs b.id).mp hx.mem).2
  refine h.prunes he.tree hm.prunes (eraSchedule_pruneStates blocks l) (fun b hx => ?_)
    fun b hx => ?_
  · have hnot : b.id ∉ blocks := by
      rw [← Multiset.mem_coe, hb]
      exact hkept b hx
    exact (Cryptarchia.state_pruneLedgerStates ⟨l, e, genesis⟩ blocks b.id).trans (if_neg hnot)
  · refine removeBlocks_of_notMem fun hmem => hkept b hx ?_
    exact Multiset.mem_add.mpr (.inl (hdel _ hmem))

theorem Node.Restartable.step (h : n.Restartable eras genesis)
    (hin : InStep parentOf start evs n.cryptarchia) (hs : Node.Step n ev n')
    (hh : Hashed parentOf start (engineEvents (evs ++ [ev])))
    (hgenesis : parentOf genesis = genesis) : n'.Restartable eras genesis := by
  have hc := hin.history.ok
  rcases hs.spec hin hh with ⟨block, out, p, b, mid, r, rfl, hpar, hp⟩ |
    ⟨_, _, rfl, rfl⟩ | ⟨pruned, r, rfl, hp⟩
  · obtain ⟨ord, hr⟩ := hp.receives
    obtain ⟨currentSlot, origin, update, blocks, hprep, hblocks, hledger⟩ := hp.ledger
    obtain ⟨deleted, hdel, hstorage⟩ := hp.storage
    -- genesis is its own parent, so it is not the id of a new block
    have hne : b.id ≠ genesis := by
      rintro hid
      rw [hid, hgenesis, ← hid, hr.adopts.adds.parent_id] at hpar
      exact Branches.Adds.ne_of_has hp.fresh hr.adopts.adds.parent hpar
    have hmid := h.recoverable.adds hc.tree hr.adopts.adds hp.fresh hne
      (.of_prepareBlock hprep) hp.id hp.parent hp.slot hp.uncleSlots hp.length_lt
    have hstrict := hin.strict.adds hc.tree hr.adopts.adds hp.fresh hp.later
    refine ⟨hp.genesisId.trans h.genesisId, ?_, ?_, hr.moves.libWithinK, ?_⟩
    · rw [hledger, eraSchedule_pruneStates]
      exact h.ledgerEras
    · rw [hr.moves.eras, hr.adopts.eras]
      exact h.engineEras
    · rw [hledger, hstorage, storeBlockData_eq]
      exact hmid.moves (hr.adopts.ok hc hp.fresh) hstrict hr.moves hblocks hdel _
  · exact h
  · obtain ⟨blocks, hblocks, hledger⟩ := hp.ledger
    obtain ⟨deleted, hdel, hstorage⟩ := hp.storage
    refine ⟨hp.genesisId.trans h.genesisId, ?_, hp.moves.eras.trans h.engineEras,
      hp.moves.libWithinK, ?_⟩
    · rw [hledger, eraSchedule_pruneStates]
      exact h.ledgerEras
    · rw [hledger, hstorage]
      exact Recoverable.moves (e := { n.cryptarchia.consensus with state := .online }) h.recoverable
        hc.asOnline hin.strict hp.moves hblocks hdel _

/-- A node with one block: genesis, or a LIB with a stored parent. -/
structure Node.Starts (eras : EraScheduledConfig) (genesis : Hash) (b : Branch Hash)
    (n : Node) : Prop where
  cryptarchia : ∃ st state, st.slot = b.slot ∧ n.cryptarchia =
    .fromLib b.id b.parent st genesis eras state b.slot b.length b.uncleSlots
  first : b.id = genesis → b = ⟨genesis, genesis, 0, 0, []⟩
  parent : b.id ≠ genesis → n.storage.getBlockParent b.id = some b.parent

theorem Node.Starts.restartable (h : n.Starts eras genesis b) : n.Restartable eras genesis := by
  obtain ⟨⟨c, s⟩, st, state, -, rfl⟩ : ∃ m : Node, ∃ st state, st.slot = b.slot ∧ n =
      ⟨.fromLib b.id b.parent st genesis eras state b.slot b.length b.uncleSlots, m.storage⟩ := by
    obtain ⟨st, state, hslot, hc⟩ := h.cryptarchia
    exact ⟨n, st, state, hslot, by rw [← hc]⟩
  refine ⟨rfl, rfl, rfl, Engine.Cryptarchia.fromLib_libWithinK _ _ _ _ _ _ _, ?_, ?_, ?_, ?_⟩
  · intro x q hq
    -- the only block is not its own parent
    obtain ⟨hx, hqHas, -, hlength, -⟩ := (Engine.Cryptarchia.fromLib_ok _ _ _ _ _ _ _).tree.par_spec hq
    grind [Engine.Cryptarchia.fromLib_has]
  · intro x hx hne
    rw [Engine.Cryptarchia.fromLib_has.mp hx] at hne ⊢
    exact h.parent hne
  · intro x st' hx hst
    rw [Engine.Cryptarchia.fromLib_has.mp hx] at hst ⊢
    have hstate : st.addSeenBlock b.id st.slot eras = st' :=
      Option.some.inj ((Finmap.lookup_insert _).symm.trans hst)
    rw [← hstate]
    exact LedgerState.recorded_addSeenBlock st b.id eras
  · intro x hx hid
    rw [Engine.Cryptarchia.fromLib_has.mp hx] at hid ⊢
    exact h.first hid

variable {start : Node}

theorem Node.restartable_of_run (hstart : start.Starts eras genesis b)
    (hrun : Run Node.Step start evs n) (hh : Hashed parentOf b (engineEvents evs))
    (hgenesis : parentOf genesis = genesis) :
    InStep parentOf b evs n.cryptarchia ∧ n.Restartable eras genesis := by
  refine hrun.history (I := fun evs n => Hashed parentOf b (engineEvents evs) →
    InStep parentOf b evs n.cryptarchia ∧ n.Restartable eras genesis) (fun hh => ?_) ?_ hh
  · obtain ⟨st, state, hslot, hc⟩ := hstart.cryptarchia
    refine ⟨?_, hstart.restartable⟩
    rw [hc]
    exact inStep_fromLib hslot hh
  · grind [engineEvents_snoc, Hashed.of_append, InStep.step, Step.cryptarchia, Restartable.step]

/-! ## The replay -/

/-- The node `m` has the part `chain` of the blocks of `n` above `l`. -/
structure Node.Replayed (n : Node) (l : Branch Hash) (chain : List (Branch Hash))
    (state : State) (m : Node) : Prop where
  line : m.cryptarchia.consensus.Line l chain
  state : m.cryptarchia.consensus.state = state
  engineEras : m.cryptarchia.consensus.eraSchedule = n.cryptarchia.consensus.eraSchedule
  ledgerEras : m.cryptarchia.ledger.eraSchedule = n.cryptarchia.ledger.eraSchedule
  states : ∀ x ∈ l :: chain, m.cryptarchia.ledger.state x.id = n.cryptarchia.ledger.state x.id
  others : ∀ i, (∀ x ∈ l :: chain, x.id ≠ i) → m.cryptarchia.ledger.state i = none

/-- A block that is prepared and received is applied. -/
theorem Cryptarchia.tryApply_of {ord : TipOrder Hash} {consensus : Engine.Cryptarchia Hash}
    {out : ReceiveBlockOutcome Hash} (hprep : c.prepareBlock block currentSlot origin = .ok update)
    (hrec : c.consensus.receiveBlock ord block.id block.header.parentBlock block.header.slot
      block.uncleSlots = .ok (consensus, out)) :
    c.tryApplyBlockWithStateRetention ord block currentSlot origin =
      (.ok ⟨out.prunedBlocks, out.reorgedBlocks, out.newlyCanonicalBlocks, update.events⟩,
        { c with consensus := consensus, ledger := c.ledger.commitUpdate update }) := by
  simp only [tryApplyBlockWithStateRetention, hprep, hrec]

omit [HeaderPrimitives] [Primitives] in
theorem ofEngine_libBranch {lib : Branch Hash} (hlib : c.consensus.branches.Has lib)
    (hid : lib.id = c.consensus.lib) : ofEngine c.consensus.libBranch = .ok lib := by
  rw [Engine.Cryptarchia.libBranch, Branches.index, ← hid, show _ = some lib from hlib]
  rfl

/-- A block whose application prunes nothing is processed. -/
theorem Node.processBlock_of {m : Node} {orders : Orders} {applied : TryApplyBlockOutcome}
    {candidate : Cryptarchia}
    (happly : m.cryptarchia.tryApplyBlockWithStateRetention orders.tips block currentSlot origin =
      (.ok applied, candidate)) (hpruned : applied.prunedBlocks = .new)
    (hc : candidate.consensus.Ok) :
    ∃ storage, m.processBlock orders block currentSlot origin = (.ok applied, ⟨candidate, storage⟩) := by
  obtain ⟨lib, hlib, hid⟩ := hc.tree.exists_lib
  have hbranch := ofEngine_libBranch hlib hid
  have hnone : orders.pruned applied.prunedBlocks = [] := by
    have hall := orders.pruned_all applied.prunedBlocks
    rw [hpruned] at hall ⊢
    exact (Multiset.coe_eq_zero _).mp (hall.trans rfl)
  refine ⟨m.storage.storeBlockData block.id block.header.parentBlock block (immutableBlocksIndex
    applied.prunedBlocks (some m.cryptarchia.consensus.lib) candidate.consensus.lib lib.slot), ?_⟩
  simp only [processBlock, happly, hbranch, hnone]
  rfl

variable {m : Node} {lib b q : Branch Hash} {chain : List (Branch Hash)} {state : State}
  {block : Block}

theorem Node.Replayed.step (h : n.Replayed lib chain state m) (hn : n.cryptarchia.consensus.Ok)
    (hpath : Path n.cryptarchia.consensus.branches.par lib chain q)
    (hq : n.cryptarchia.consensus.branches.par b = some q)
    (htip : m.cryptarchia.consensus.localChain = q)
    (hb : Replays n.cryptarchia.ledger n.storage q b block)
    (hk : state = .online → b.length - lib.length ≤ n.cryptarchia.consensus.kAt lib.slot)
    (orders : Orders) (currentSlot : Nat) :
    ∃ out m', m.processBlock orders block currentSlot .storage = (.ok out, m') ∧
      out.prunedBlocks = .new ∧ n.Replayed lib (chain ++ [b]) state m' ∧
      m'.cryptarchia.consensus.localChain = b := by
  have htree := hn.tree
  obtain ⟨hbHas, hqHas, hqid, hlength, hslot, -⟩ := htree.par_spec hq
  -- no block of the line has the id of the new one, or has it as its parent
  have hbelow : ∀ x ∈ lib :: chain, x.id ≠ b.id ∧ x.parent ≠ b.id := by
    intro x hx
    refine htree.ids_below hq ?_
    rcases mem_cons.mp hx with rfl | hx
    · exact hpath.anc
    · exact ((hpath.mem_iff htree.graded).mp hx).2.1
  have hfresh : m.cryptarchia.consensus.branches.Fresh b.id := by
    refine ⟨fun hmem => ?_, fun i x hx => ?_⟩
    · obtain ⟨x, hx, hid⟩ := h.line.ok.tree.exists_has hmem
      exact (hbelow x (h.line.has x hx)).1 hid
    · exact (hbelow x (h.line.has x (h.line.ok.tree.has_of_lookup hx))).2
  obtain ⟨before, after, events, deferred, hbefore, hafter, hupdate, hproofs⟩ := hb.applies
  have hprep : m.cryptarchia.Prepares block ⟨block.id, after, events, deferred⟩ := by
    refine ⟨?_, ?_, rfl, ⟨before, ?_, ?_⟩, hproofs⟩
    · rw [hb.id]
      exact h.others b.id fun x hx => (hbelow x hx).1
    · rw [h.ledgerEras]
      exact hb.uncleCount
    · grind [Replays.parent, states, Path.getLast?]
    · rw [hb.id, h.ledgerEras]
      exact hupdate
  obtain ⟨consensus, out, hrec, hline, hlocal, hstate, heras, hpruned⟩ :=
    h.line.receive hfresh (by rw [htip, hqid]) (by rw [htip, hlength]) (by rwa [htip]) hb.length_lt
      (fun hst => by
        rw [Engine.Cryptarchia.kAt, h.engineEras]
        exact hk (h.state ▸ hst)) orders.tips
  rw [← hb.id, ← hb.parent, ← hb.slot, ← hb.uncleSlots] at hrec
  obtain ⟨storage, hprocess⟩ := Node.processBlock_of
    (Cryptarchia.tryApply_of (hprep.prepareBlock currentSlot) hrec) hpruned hline.ok
  have hledger : ∀ i, (m.cryptarchia.ledger.commitUpdate ⟨block.id, after, events, deferred⟩).state i =
      if i = b.id then some after else m.cryptarchia.ledger.state i := by
    intro i
    rw [← hb.id]
    exact Map.lookup_insert_ite _ _ _ _
  refine ⟨_, _, hprocess, hpruned, ⟨hline, hstate.trans h.state, heras.trans h.engineEras,
    h.ledgerEras, fun x hx => ?_, fun i hi => ?_⟩, hlocal⟩
  · grind [states]
  · grind [others]

omit [HeaderPrimitives] [Primitives] in
@[simp] theorem extend_new : (.new : PrunedBlocks Hash).extend .new = .new := by
  simp [PrunedBlocks.extend, PrunedBlocks.new]

/-- The blocks of the chain are in the storage, and they are replayed. -/
theorem Node.replay_chain (hr : n.Restartable eras genesis) (hn : n.cryptarchia.consensus.Ok)
    (hstart : n.Replayed lib [] state start)
    (hpath : Path n.cryptarchia.consensus.branches.par lib chain b)
    (hs : ∀ x ∈ chain, s.getBlock x.id = n.storage.getBlock x.id)
    (hk : state = .online → b.length - lib.length ≤ n.cryptarchia.consensus.kAt lib.slot)
    (orders : Orders) (currentSlot : Nat) :
    ∃ blocks m, (chain.map (·.id)).mapM (fun id => okOr (s.getBlock id)
        (RecoveryError.headerIdNotFound id)) = .ok blocks ∧
      blocks.foldlM (replayBlock orders currentSlot) (start, .new) = .ok (m, .new) ∧
      n.Replayed lib chain state m ∧ m.cryptarchia.consensus.localChain = b := by
  induction hpath with
  | nil => exact ⟨[], start, rfl, rfl, hstart, hstart.line.path.of_nil⟩
  | @snoc chain q b hpath hq ih =>
    obtain ⟨-, -, -, hlength, -⟩ := hn.tree.par_spec hq
    obtain ⟨blocks, m, hload, hreplay, hm, htip⟩ := ih
      (fun x hx => hs x (mem_append_left _ hx)) fun hst => by
        have := hk hst
        omega
    obtain ⟨block, hblock⟩ := hr.recoverable.links b q hq
    obtain ⟨out, m', hprocess, hpruned, hm', htip'⟩ :=
      hm.step hn hpath hq htip hblock hk orders currentSlot
    refine ⟨blocks ++ [block], m', ?_, ?_, hm', htip'⟩
    · have hget : okOr (s.getBlock b.id) (RecoveryError.headerIdNotFound b.id) = .ok block := by
        rw [hs b (mem_append_right _ (mem_singleton_self b)), hblock.stored]
        rfl
      rw [map_append, mapM_append]
      refine ok_bind hload ?_
      simp [hget]
    · have hone : replayBlock orders currentSlot (m, .new) block = .ok (m', .new) := by
        grind [replayBlock, extend_new]
      rw [foldlM_append]
      refine ok_bind hreplay ?_
      simp [hone]

/-! ## The walk back from the tip -/

omit [HeaderPrimitives] [Primitives] in
theorem Storage.loadBlockIds_eq (ht : t.Ok) (hpath : Path t.par lib chain b)
    (hs : ∀ x ∈ chain, s.getBlockParent x.id = some x.parent) {fuel : Nat}
    (hfuel : chain.length < fuel) :
    s.loadBlockIds lib.id fuel b.id = .ok ((lib :: chain).map (·.id)).reverse := by
  induction hpath generalizing fuel with
  | nil =>
    obtain ⟨fuel, rfl⟩ : ∃ f, fuel = f + 1 := ⟨fuel - 1, by simp at hfuel; omega⟩
    exact if_pos rfl
  | @snoc chain q b hpath hq ih =>
    rw [length_append, length_singleton] at hfuel
    obtain ⟨fuel, rfl⟩ : ∃ f, fuel = f + 1 := ⟨fuel - 1, by omega⟩
    have hrest : s.loadBlockIds lib.id fuel q.id = _ :=
      ih (fun x hx => hs x (mem_append_left _ hx)) (by omega)
    obtain ⟨-, -, hqid, -⟩ := ht.par_spec hq
    have hparent := hs b (mem_append_right _ (mem_singleton_self b))
    rw [← hqid] at hparent
    rw [loadBlockIds, if_neg (ht.ids_below hq hpath.anc).1.symm, hparent]
    have hne : q.id ≠ b.id := (ht.ids_below hq (.refl q)).1
    refine ok_bind rfl (ok_bind (a := ()) (failIf_ok.mpr hne) (ok_bind hrest ?_))
    exact congrArg Except.ok (by simp)

omit [HeaderPrimitives] [Primitives] in
theorem Storage.length_le_parents (ht : t.Ok) (hb : t.Has b) (hpath : Path t.par lib chain b)
    (hs : ∀ x ∈ chain, s.getBlockParent x.id = some x.parent) :
    chain.length ≤ s.parents.keys.card := by
  have hnodup : (chain.map (·.id)).Nodup := by
    refine List.Nodup.map_on (fun x hx y hy he => ?_) (hpath.nodup ht.graded)
    have hHas : ∀ z ∈ chain, t.Has z := fun z hz =>
      ht.anc_has ((hpath.mem_iff ht.graded).mp hz).2.1 hb
    exact Branches.eq_of_id (hHas x hx) (hHas y hy) he
  have hsub : (chain.map (·.id)).toFinset ⊆ s.parents.keys := by
    intro i hi
    obtain ⟨x, hx, rfl⟩ := mem_map.mp (mem_toFinset.mp hi)
    exact Finmap.mem_keys.mpr (Finmap.mem_of_lookup_eq_some (hs x hx))
  calc chain.length = (chain.map (·.id)).toFinset.card := by
        rw [toFinset_card_of_nodup hnodup, length_map]
    _ ≤ s.parents.keys.card := Finset.card_le_card hsub

/-! ## The restart -/

/-- A storage has the blocks of a node between its LIB and its tip. -/
def Storage.Holds (s : Storage) (n : Node) : Prop :=
  ∀ b, n.cryptarchia.consensus.branches.Has b →
    Anc n.cryptarchia.consensus.branches.par b n.cryptarchia.consensus.localChain →
    s.getBlock b.id = n.storage.getBlock b.id ∧ s.getBlockParent b.id = n.storage.getBlockParent b.id

/-- `c'` has the chain of `c` from its LIB to its tip, with the states. -/
structure Cryptarchia.SameChain (c c' : Cryptarchia) : Prop where
  lib : c'.consensus.lib = c.consensus.lib
  tip : c'.consensus.localChain = c.consensus.localChain
  /-- A block has the same parent, slot, length and uncle slots. -/
  blocks : ∀ b, c.consensus.branches.Has b → Anc c.consensus.branches.par b c.consensus.localChain →
    c'.consensus.branches.Has b
  states : ∀ b, c.consensus.branches.Has b → Anc c.consensus.branches.par b c.consensus.localChain →
    c'.ledger.state b.id = c.ledger.state b.id

theorem Node.replayed_lib (hr : n.Restartable eras genesis)
    (hlib : n.cryptarchia.consensus.branches.Has lib)
    (hst : n.cryptarchia.ledger.state lib.id = some libState) (state : State) (s : Storage) :
    n.Replayed lib [] state ⟨.fromLib lib.id lib.parent libState genesis eras state lib.slot
      lib.length lib.uncleSlots, s⟩ := by
  have hledger : ∀ i, (Ledger.new lib.id libState eras).state i =
      if i = lib.id then some (libState.addSeenBlock lib.id libState.slot eras) else none :=
    fun i => Map.lookup_insert_ite _ _ _ _
  refine ⟨Engine.Cryptarchia.line_fromLib _ _ _ _ _ _ _, rfl, hr.engineEras.symm,
    hr.ledgerEras.symm, fun x hx => ?_, fun i hi => ?_⟩
  · rw [mem_singleton.mp hx, hst]
    refine (hledger lib.id).trans ?_
    have hrecorded := hr.recoverable.recorded lib libState hlib hst
    rw [hr.ledgerEras] at hrecorded
    rw [if_pos rfl, hrecorded.addSeenBlock_eq]
  · exact (hledger i).trans (if_neg (hi lib mem_cons_self).symm)

omit [HeaderPrimitives] [Primitives] in
theorem fromCryptarchia_eq (hlib : c.consensus.branches.Has lib) (hlid : lib.id = c.consensus.lib)
    (hst : c.ledger.state lib.id = some libState) (now : Nat) :
    CryptarchiaConsensusState.fromCryptarchia c now = .ok ⟨c.consensus.tip, lib.id, libState,
      lib.length, lib.slot, lib.uncleSlots, c.genesisId, some ⟨now, c.consensus.state⟩⟩ := by
  refine ok_bind (mapError_ok.mpr (ofEngine_libBranch hlib hlid)) (ok_bind (okOr_ok.mpr hst) ?_)
  rfl

section

variable (hr : n.Restartable eras genesis)
include hr

/-- The start with the LIB: genesis needs no parent, another LIB has its parent in the storage. -/
theorem cryptarchiaFromRecoveredLib_eq (hs : s.Holds n)
    (hlib : n.cryptarchia.consensus.branches.Has lib)
    (hanc : Anc n.cryptarchia.consensus.branches.par lib n.cryptarchia.consensus.localChain)
    (tip : Hash) (libState : LedgerState) (last : Option LastEngineState) (state : State) :
    cryptarchiaFromRecoveredLib ⟨tip, lib.id, libState, lib.length, lib.slot, lib.uncleSlots, genesis,
      last⟩ eras state s = .ok (.fromLib lib.id lib.parent libState genesis eras state lib.slot
        lib.length lib.uncleSlots) := by
  unfold cryptarchiaFromRecoveredLib
  by_cases hid : lib.id = genesis
  · rw [if_pos hid, hr.recoverable.first lib hlib hid]
    rfl
  · have hparent := (hs lib hlib hanc).2.trans (hr.recoverable.parents lib hlib hid)
    rw [if_neg hid]
    refine ok_bind (okOr_ok.mpr hparent) ?_
    rfl

variable (hn : n.cryptarchia.consensus.Ok) (hs : s.Holds n)
  (hpath : Path n.cryptarchia.consensus.branches.par lib chain n.cryptarchia.consensus.localChain)
include hn hs hpath

/-- The parent of a block above the LIB is in the storage. -/
theorem Node.Restartable.parent_stored {x : Branch Hash}
    (hx : x ∈ chain) : s.getBlockParent x.id = some x.parent := by
  obtain ⟨hlx, hxt, hne⟩ := (hpath.mem_iff hn.tree.graded).mp hx
  have hHas := hn.tree.anc_has hxt hn.has
  refine (hs x hHas hxt).2.trans (hr.recoverable.parents x hHas fun hid => ?_)
  -- genesis has length 0
  rcases hlx.cases_parent with rfl | ⟨q, hq, -⟩
  · exact hne rfl
  · obtain ⟨-, -, -, hlength, -⟩ := hn.tree.par_spec hq
    rw [hr.recoverable.first x hHas hid] at hlength
    simp at hlength

theorem Node.Restartable.loads {blocks : List Block}
    (hblocks : (chain.map (·.id)).mapM (fun id => okOr (s.getBlock id)
      (RecoveryError.headerIdNotFound id)) = .ok blocks) :
    s.loadRecoveryBlocksOrFallBackToLib n.cryptarchia.consensus.tip lib.id = .ok ⟨blocks, false⟩ := by
  have hparents : ∀ x ∈ chain, s.getBlockParent x.id = some x.parent := fun x hx =>
    hr.parent_stored hn hs hpath hx
  unfold loadRecoveryBlocksOrFallBackToLib
  by_cases hid : n.cryptarchia.consensus.tip = lib.id
  · -- the chain is empty
    have hlib := hn.tree.anc_has hpath.anc hn.has
    rw [Branches.eq_of_id hn.has hlib hid] at hpath
    obtain rfl := hpath.unique hn.tree.graded .nil
    cases hblocks
    exact if_pos hid
  · have hfuel := length_le_parents hn.tree hn.has hpath hparents
    have hids := loadBlockIds_eq hn.tree hpath hparents (Nat.lt_succ_of_le hfuel)
    have hload : s.loadRecoveryBlocks n.cryptarchia.consensus.tip lib.id = .ok blocks := by
      refine ok_bind hids ?_
      rw [reverse_reverse]
      exact hblocks
    rw [if_neg hid, hload]

end

/-- **A restart brings back the chain** from the LIB to the tip, in any configuration and at any
time, if the storage has its blocks. -/
theorem restart_same_chain {start : Node} {first : Branch Hash}
    (hstart : start.Starts eras genesis first) (hrun : Run Node.Step start evs n)
    (hh : Hashed parentOf first (engineEvents evs)) (hgenesis : parentOf genesis = genesis)
    (hs : s.Holds n) (orders : Orders) (config : BootstrapConfig) (savedAt now currentSlot : Nat) :
    ∃ saved r, CryptarchiaConsensusState.fromCryptarchia n.cryptarchia savedAt = .ok saved ∧
      initializeCryptarchia orders saved config eras s currentSlot now = .ok r ∧
      r.fellBackToLib = false ∧ r.prunedBlocks = .new ∧
      n.cryptarchia.SameChain r.node.cryptarchia ∧
      r.node.cryptarchia.consensus.state = chooseEngineState n.cryptarchia.consensus.lib genesis
        config (some ⟨savedAt, n.cryptarchia.consensus.state⟩) now := by
  obtain ⟨hin, hr⟩ := Node.restartable_of_run hstart hrun hh hgenesis
  have hc := hin.history.ok
  obtain ⟨lib, hlib, hlid⟩ := hc.tree.exists_lib
  obtain ⟨chain, hpath⟩ := Path.of_anc (hc.tree.lib_anc hlib hlid hc.has)
  obtain ⟨libState, hst⟩ := Option.isSome_iff_exists.mp ((hin.inStep.keys lib.id).mpr hlib.mem)
  let state := chooseEngineState lib.id genesis config
    (some ⟨savedAt, n.cryptarchia.consensus.state⟩) now
  -- an engine that starts online was online
  have hk : state = .online →
      n.cryptarchia.consensus.localChain.length - lib.length ≤ n.cryptarchia.consensus.kAt lib.slot := by
    intro hstate
    rcases chooseEngineState_cases lib.id genesis config ⟨savedAt, n.cryptarchia.consensus.state⟩ now
      with hboot | hsaved
    · grind
    · obtain ⟨r, hrHas, hrid, hwithin⟩ := hr.within (hsaved.symm.trans hstate)
      rw [Branches.eq_of_id hrHas hlib (hrid.trans hlid.symm)] at hwithin
      exact of_decide_eq_true hwithin
  have hchain : ∀ x ∈ chain, s.getBlock x.id = n.storage.getBlock x.id := by
    intro x hx
    have hxt := ((hpath.mem_iff hc.tree.graded).mp hx).2.1
    exact (hs x (hc.tree.anc_has hxt hc.has) hxt).1
  obtain ⟨blocks, m, hload, hreplay, hm, htip⟩ := Node.replay_chain hr hc
    (Node.replayed_lib hr hlib hst state s) hpath hchain hk orders currentSlot
  have hsaved := fromCryptarchia_eq hlib hlid hst savedAt
  rw [hr.genesisId] at hsaved
  refine ⟨_, ⟨m, .new, false⟩, hsaved, ?_, rfl, rfl, ?_, ?_⟩
  · refine ok_bind (cryptarchiaFromRecoveredLib_eq hr hs hlib hpath.anc _ _ _ _)
      (ok_bind (hr.loads hc hs hpath hload) (ok_bind hreplay ?_))
    rfl
  · have hmem : ∀ b, n.cryptarchia.consensus.branches.Has b →
        Anc n.cryptarchia.consensus.branches.par b n.cryptarchia.consensus.localChain →
        b ∈ lib :: chain := fun b _ hb => hpath.mem_of_anc (hc.tree.par_lib hlib hlid) hb
    refine ⟨hm.line.lib.symm.trans hlid, htip, fun b hb hanc => ?_, fun b hb hanc =>
      hm.states b (hmem b hb hanc)⟩
    have hHas : ∀ x ∈ lib :: chain, m.cryptarchia.consensus.branches.Has x := by
      intro x hx
      obtain ⟨l₁, l₂, -, -, hx⟩ := hm.line.path.split hx
      exact hm.line.ok.tree.anc_has hx.anc hm.line.ok.has
    exact hHas b (hmem b hb hanc)
  · rw [hm.state, show n.cryptarchia.consensus.lib = lib.id from hlid.symm]

omit [HeaderPrimitives] [Primitives] in
/-- A node with the second of four blocks as its LIB starts again. -/
theorem restart_fourBlocks :
    letI := Primitives.plain
    letI := HeaderPrimitives.plain
    ∃ evs n, Run Node.Step freshNode evs n ∧ n.cryptarchia.consensus.lib = 2 ∧
      n.cryptarchia.consensus.tip = 4 ∧
      ∃ saved r, CryptarchiaConsensusState.fromCryptarchia n.cryptarchia 100 = .ok saved ∧
        initializeCryptarchia .ascending saved ⟨false, 60⟩ (.single .small) n.storage 9 130 = .ok r ∧
        n.cryptarchia.SameChain r.node.cryptarchia ∧
        r.node.cryptarchia.consensus.state = .online := by
  let _ := Primitives.plain
  let _ := HeaderPrimitives.plain
  obtain ⟨evs, n, hrun, hn⟩ := exists_run_of_exec (Node.execStep_step .ascending) (s := freshNode)
    (l := fourBlocks)
    (fun r => decide (Hashed Nat.pred ⟨0, 0, 0, 0, []⟩ (engineEvents r.1) ∧
      r.2.cryptarchia.consensus.lib = 2 ∧ r.2.cryptarchia.consensus.tip = 4 ∧
      r.2.cryptarchia.consensus.state = .online)) (a := true) (by decide +kernel)
  rw [decide_eq_true_eq] at hn
  obtain ⟨hh, hlib, htip, honline⟩ := hn
  have hstart : Node.Starts (.single .small) 0 ⟨0, 0, 0, 0, []⟩ freshNode :=
    ⟨⟨_, .bootstrapping, rfl, rfl⟩, fun _ => rfl, fun hne => absurd rfl hne⟩
  obtain ⟨saved, r, hsaved, hinit, -, -, hsame, hstate⟩ := restart_same_chain hstart hrun hh rfl
    (fun _ _ _ => ⟨rfl, rfl⟩ : n.storage.Holds n) .ascending ⟨false, 60⟩ 100 130 9
  refine ⟨evs, n, hrun, hlib, htip, saved, r, hsaved, hinit, hsame, ?_⟩
  rw [hstate, hlib, honline]
  rfl

end Logos.Chain
