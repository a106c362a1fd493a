import LogosChain.Chain.InStep

/-!
# The service with its storage

`process_block` and the switch to the online state (`services/chain/chain-service/src/service/`),
over the part of the storage that the service reads (`services/storage/src/rocksdb/mod.rs`).

The storage does not fail here.
-/

namespace Logos.Chain

open Base Mantle Ledger Engine

/-! ## The storage -/

/-- What the storage keeps of the chain; immutable blocks by slot. -/
structure Storage where
  blocks : Map Hash Block
  parents : Map Hash Hash
  immutableBlockIds : Map Nat Hash

namespace Storage

def empty : Storage := ⟨∅, ∅, ∅⟩

def getBlock (s : Storage) (id : Hash) : Option Block := s.blocks.lookup id

def getBlockParent (s : Storage) (id : Hash) : Option Hash := s.parents.lookup id

def getImmutableBlockId (s : Storage) (slot : Nat) : Option Hash := s.immutableBlockIds.lookup slot

/-- The immutable blocks in a range of slots, at most `limit` of them. -/
def scanImmutableBlockIds (s : Storage) (first last limit : Nat) : List Hash :=
  ((Map.range first last s.immutableBlockIds).take limit).map (·.2)

/-- Adds to the index; an id that a slot had is replaced. -/
def storeImmutableBlockIds (s : Storage) (ids : Map Nat Hash) : Storage :=
  { s with immutableBlockIds := ids ∪ s.immutableBlockIds }

/-- Stores a block with its parent, and adds to the index. -/
def storeBlockData (s : Storage) (id parent : Hash) (block : Block) (immutableIds : Map Nat Hash) :
    Storage where
  blocks := s.blocks.insert id block
  parents := s.parents.insert id parent
  immutableBlockIds := immutableIds ∪ s.immutableBlockIds

theorem storeBlockData_eq (s : Storage) (id parent : Hash) (block : Block)
    (immutableIds : Map Nat Hash) : s.storeBlockData id parent block immutableIds =
      Storage.storeImmutableBlockIds
        ⟨s.blocks.insert id block, s.parents.insert id parent, s.immutableBlockIds⟩ immutableIds :=
  rfl

/-- Removes a block with its parent; the index keeps its entries. -/
def removeBlock (s : Storage) (id : Hash) : Storage :=
  { s with blocks := s.blocks.erase id, parents := s.parents.erase id }

def removeBlocks (s : Storage) (ids : List Hash) : Storage := ids.foldl removeBlock s

theorem removeBlocks_index (s : Storage) (ids : List Hash) :
    (s.removeBlocks ids).immutableBlockIds = s.immutableBlockIds := by
  induction ids generalizing s with
  | nil => rfl
  | cons i ids ih => exact ih (s.removeBlock i)

theorem removeBlocks_of_notMem {s : Storage} {ids : List Hash} {i : Hash} (h : i ∉ ids) :
    (s.removeBlocks ids).getBlock i = s.getBlock i ∧
      (s.removeBlocks ids).getBlockParent i = s.getBlockParent i := by
  induction ids generalizing s with
  | nil => exact ⟨rfl, rfl⟩
  | cons j ids ih =>
    obtain ⟨hne, hi⟩ := not_or.mp (List.mem_cons.not.mp h)
    obtain ⟨h1, h2⟩ := ih (s := s.removeBlock j) hi
    refine ⟨h1.trans ?_, h2.trans ?_⟩
    · exact Finmap.lookup_erase_ne hne
    · exact Finmap.lookup_erase_ne hne

end Storage

/-- The reported blocks, and the LIB unless it is the one before. -/
def immutableBlocksIndex (pruned : PrunedBlocks Hash) (prevLib : Option Hash)
    (newLib : Hash) (newLibSlot : Nat) : Map Nat Hash :=
  if prevLib = some newLib then pruned.immutableBlocks
  else pruned.immutableBlocks.insert newLibSlot newLib

/-! ## The service -/

/-- The orders of the tips and of the pruned blocks. -/
structure Orders where
  tips : TipOrder Hash
  pruned : PrunedBlocks Hash → List Hash
  pruned_all : ∀ p, (pruned p : Multiset Hash) = p.all

/-- All orders by the ids. -/
def Orders.ascending : Orders where
  tips := .ascending
  pruned p := Quot.liftOn p.all (fun l => l.insertionSort (· ≤ ·)) fun a b hab =>
    List.Perm.eq_of_pairwise' (List.pairwise_insertionSort _ _) (List.pairwise_insertionSort _ _)
      ((List.perm_insertionSort _ a).trans (hab.trans (List.perm_insertionSort _ b).symm))
  pruned_all p := by
    generalize p.all = all
    induction all using Quot.inductionOn with
    | h l => exact Quot.sound (List.perm_insertionSort _ l)

/-- The service and the storage it writes to. -/
structure Node where
  cryptarchia : Cryptarchia
  storage : Storage

namespace Node

variable [HeaderPrimitives] [Primitives] {n n' : Node} {orders : Orders} {block : Block}
  {currentSlot : Nat} {origin : BlockOrigin} {out : TryApplyBlockOutcome} {parentOf : Hash → Hash}
  {start : Branch Hash} {evs : List Event} {ev : Event} {pruned : PrunedBlocks Hash}

/-- Applies a block and stores it; a failure changes nothing. -/
def processBlock (n : Node) (orders : Orders) (block : Block) (currentSlot : Nat)
    (origin : BlockOrigin) : Except Failure TryApplyBlockOutcome × Node :=
  match n.cryptarchia.tryApplyBlockWithStateRetention orders.tips block currentSlot origin with
  | (.error f, _) => (.error f, n)
  | (.ok applied, candidate) =>
    match ofEngine candidate.consensus.libBranch with
    | .error f => (.error f, n)
    | .ok lib =>
      let immutable := immutableBlocksIndex applied.prunedBlocks (some n.cryptarchia.consensus.lib)
        candidate.consensus.lib lib.slot
      (.ok applied, {
        cryptarchia := candidate.pruneLedgerStates (orders.pruned applied.prunedBlocks)
        storage := n.storage.storeBlockData block.id block.header.parentBlock block immutable })

omit [HeaderPrimitives] [Primitives] in
/-- Switches to online; the LIB is indexed also if it has not moved. -/
def switchToOnline (n : Node) (orders : Orders) :
    Except Failure (PrunedBlocks Hash × Node) := do
  let (c, pruned) ← n.cryptarchia.toOnline orders.tips
  let lib ← ofEngine c.consensus.libBranch
  return (pruned, {
    cryptarchia := c.pruneLedgerStates (orders.pruned pruned)
    storage := n.storage.storeImmutableBlockIds
      (immutableBlocksIndex pruned none c.consensus.lib lib.slot) })

omit [HeaderPrimitives] [Primitives] in
/-- Deletes stale blocks from the storage. -/
def deleteBlocks (n : Node) (ids : List Hash) : Node :=
  { n with storage := n.storage.removeBlocks ids }

/-- A step of a run. Some of the stale blocks are then deleted. -/
inductive Step : Node → Event → Node → Prop where
  | processed {n n' : Node} {orders : Orders} {block : Block} {currentSlot : Nat}
      {origin : BlockOrigin} {out : TryApplyBlockOutcome} {deleted : List Hash} :
      n.processBlock orders block currentSlot origin = (.ok out, n') →
      (∀ i ∈ deleted, i ∈ out.prunedBlocks.staleBlocks) →
      Step n (.applied block.id block.header.parentBlock block.header.slot out)
        (n'.deleteBlocks deleted)
  | failed {n n' : Node} {orders : Orders} {block : Block} {currentSlot : Nat}
      {origin : BlockOrigin} {e : Error} :
      n.processBlock orders block currentSlot origin = (.error (.error e), n') →
      Step n (.failed block.id e) n'
  | online {n n' : Node} {orders : Orders} {pruned : PrunedBlocks Hash}
      {deleted : List Hash} : n.switchToOnline orders = .ok (pruned, n') →
      (∀ i ∈ deleted, i ∈ pruned.staleBlocks) → Step n (.online pruned) (n'.deleteBlocks deleted)

/-! ## What a step does -/

theorem processBlock_ok (h : n.processBlock orders block currentSlot origin = (.ok out, n')) :
    ∃ candidate lib, n.cryptarchia.tryApplyBlockWithStateRetention orders.tips block currentSlot
        origin = (.ok out, candidate) ∧
      candidate.consensus.libBranch = .ok lib ∧
      n'.cryptarchia = candidate.pruneLedgerStates (orders.pruned out.prunedBlocks) ∧
      n'.storage = n.storage.storeBlockData block.id block.header.parentBlock block
        (immutableBlocksIndex out.prunedBlocks (some n.cryptarchia.consensus.lib)
          candidate.consensus.lib lib.slot) := by
  unfold processBlock at h
  split at h
  · cases h
  · rename_i applied candidate happly
    split at h
    · cases h
    · rename_i lib hlib
      cases h
      exact ⟨candidate, lib, happly, mapError_ok.mp hlib, rfl, rfl⟩

/-- A block that fails leaves the service and the storage. -/
theorem processBlock_error {f : Failure}
    (h : n.processBlock orders block currentSlot origin = (.error f, n')) : n' = n := by
  grind [processBlock]

/-- A block fails with an error if it fails so on the service. -/
theorem processBlock_failed {e : Error}
    (h : n.processBlock orders block currentSlot origin = (.error (.error e), n')) :
    n.cryptarchia.tryApplyBlockWithStateRetention orders.tips block currentSlot origin =
      (.error (.error e), n.cryptarchia) := by
  unfold processBlock at h
  split at h
  · grind [Cryptarchia.tryApply_error]
  · rename_i applied candidate happly
    split at h
    · rename_i f hlib
      cases h
      -- the LIB that is missing is a panic
      unfold Engine.Cryptarchia.libBranch Branches.index at hlib
      split at hlib <;> cases hlib
    · cases h

omit [HeaderPrimitives] [Primitives] in
theorem switchToOnline_ok (h : n.switchToOnline orders = .ok (pruned, n')) :
    ∃ c lib, n.cryptarchia.toOnline orders.tips = .ok (c, pruned) ∧
      c.consensus.libBranch = .ok lib ∧
      n'.cryptarchia = c.pruneLedgerStates (orders.pruned pruned) ∧
      n'.storage = n.storage.storeImmutableBlockIds
        (immutableBlocksIndex pruned none c.consensus.lib lib.slot) := by
  obtain ⟨⟨c, pruned'⟩, h1, h2⟩ := bind_ok h
  obtain ⟨lib, h3, h4⟩ := bind_ok h2
  cases h4
  exact ⟨c, lib, h1, mapError_ok.mp h3, rfl, rfl⟩

theorem Step.cryptarchia {ev : Event} (hs : Step n ev n') :
    Cryptarchia.Step n.cryptarchia ev n'.cryptarchia := by
  cases hs with
  | processed h _ =>
    obtain ⟨candidate, lib, happly, -, hc, -⟩ := processBlock_ok h
    rw [deleteBlocks, hc]
    exact .applied happly (Orders.pruned_all _ _)
  | failed h =>
    rw [processBlock_error h]
    exact .failed (processBlock_failed h)
  | online h _ =>
    obtain ⟨c, lib, hon, -, hc, -⟩ := switchToOnline_ok h
    rw [deleteBlocks, hc]
    exact .online hon (Orders.pruned_all _ _)

/-- The engine receives `b` below `p` and moves the LIB to `r`; the storage follows. -/
structure Processes (n : Node) (block : Block) (n' : Node) (out : TryApplyBlockOutcome)
    (p b : Branch Hash) (mid : Engine.Cryptarchia Hash) (r : Branch Hash) :
    Prop where
  id : block.id = b.id
  parent : block.header.parentBlock = b.parent
  slot : block.header.slot = b.slot
  uncleSlots : block.uncleSlots = b.uncleSlots
  later : p.slot < b.slot
  length_lt : b.length < 2 ^ 64
  fresh : n.cryptarchia.consensus.branches.Fresh b.id
  receives : ∃ ord, n.cryptarchia.consensus.Receives ord b n'.cryptarchia.consensus
    ⟨out.prunedBlocks, out.reorgedBlocks, out.newlyCanonicalBlocks⟩ p mid r
  ledger : ∃ currentSlot origin update, ∃ blocks : List Hash,
    n.cryptarchia.prepareBlock block currentSlot origin = .ok update ∧
    (blocks : Multiset Hash) = out.prunedBlocks.all ∧
    n'.cryptarchia.ledger = blocks.foldl Ledger.pruneStateAt
      (n.cryptarchia.ledger.commitUpdate update)
  genesisId : n'.cryptarchia.genesisId = n.cryptarchia.genesisId
  storage : ∃ deleted, (∀ i ∈ deleted, i ∈ out.prunedBlocks.staleBlocks) ∧
    n'.storage = (n.storage.storeBlockData b.id b.parent block (immutableBlocksIndex out.prunedBlocks
      (some n.cryptarchia.consensus.lib) r.id r.slot)).removeBlocks deleted

/-- The switch to the online state, which moves the LIB to `r`. -/
structure SwitchesToOnline (n n' : Node) (pruned : PrunedBlocks Hash)
    (r : Branch Hash) : Prop where
  moves : Engine.Cryptarchia.Moves { n.cryptarchia.consensus with state := .online } r
    n'.cryptarchia.consensus pruned
  ledger : ∃ blocks : List Hash, (blocks : Multiset Hash) = pruned.all ∧
    n'.cryptarchia.ledger = blocks.foldl Ledger.pruneStateAt n.cryptarchia.ledger
  genesisId : n'.cryptarchia.genesisId = n.cryptarchia.genesisId
  storage : ∃ deleted, (∀ i ∈ deleted, i ∈ pruned.staleBlocks) ∧
    n'.storage = (n.storage.storeImmutableBlockIds
      (immutableBlocksIndex pruned none r.id r.slot)).removeBlocks deleted

omit [HeaderPrimitives] [Primitives] in
theorem libBranch_of_moves {e e' : Engine.Cryptarchia Hash} {r lib : Branch Hash}
    (hm : e.Moves r e' pruned) (hlib : e'.libBranch = .ok lib) : e'.lib = r.id ∧ lib = r := by
  have hid : e'.lib = r.id := hm.prunes.lib
  have hr : e'.branches.branches.lookup r.id = some r :=
    hm.prunes.has_iff.mpr ⟨hm.has, .refl r⟩
  grind [Engine.Cryptarchia.libBranch, Branches.index]

theorem Step.spec (hs : Step n ev n') (h : InStep parentOf start evs n.cryptarchia)
    (hh : Hashed parentOf start (engineEvents (evs ++ [ev]))) :
    (∃ block out p b mid r, ev = .applied b.id b.parent b.slot out ∧ b.parent = parentOf b.id ∧
      n.Processes block n' out p b mid r) ∨
    (∃ i e, ev = .failed i e ∧ n' = n) ∨
    ∃ pruned r, ev = .online pruned ∧ n.SwitchesToOnline n' pruned r := by
  have hc := h.history.ok
  rw [engineEvents_snoc] at hh
  cases hs with
  | @processed n₁ orders block currentSlot origin out deleted hp hdel =>
    obtain ⟨candidate, lib, happly, hlib, hcr, hst⟩ := processBlock_ok hp
    obtain ⟨update, consensus, hprep, hrec, rfl⟩ := Cryptarchia.tryApply_ok happly
    obtain ⟨hpar, hne⟩ := hh.last
    obtain ⟨hf, hlater⟩ := h.fresh_later hprep hh.of_append hpar hne
    obtain ⟨b, p, mid, r, hr, hbid, hbpar, hbslot, hadopt⟩ :=
      Engine.Cryptarchia.receiveBlock_ok hc hf hrec
    have hlt : p.slot < b.slot := by
      rw [hbslot]
      exact hlater p (by rw [← hbpar, hr.adopts.adds.parent_id]; exact hr.adopts.adds.parent)
    have hblock : b.uncleSlots = block.uncleSlots ∧ b.length < 2 ^ 64 := by
      obtain ⟨s', happlyHeader, hrest⟩ := bind_ok hadopt
      obtain ⟨localChain, -, hmid⟩ := bind_ok hrest
      cases hmid
      refine Branches.applyHeader_block happlyHeader ?_
      rw [← hbid]
      exact hr.adopts.adds.has_new
    obtain ⟨hl, rfl⟩ := libBranch_of_moves hr.moves hlib
    refine .inl ⟨block, out, p, b, mid, lib, by rw [hbid, hbpar, hbslot], by rw [hbpar, hbid, hpar],
      hbid.symm, hbpar.symm, hbslot.symm, hblock.1.symm, hlt, hblock.2,
      hbid ▸ hf, ?_, ?_, ?_, ?_⟩
    · refine ⟨orders.tips, ?_⟩
      rw [deleteBlocks, hcr]
      exact hr
    · refine ⟨currentSlot, origin, update, orders.pruned out.prunedBlocks, hprep,
        orders.pruned_all _, ?_⟩
      rw [deleteBlocks, hcr]
      rfl
    · rw [deleteBlocks, hcr]
      rfl
    · refine ⟨deleted, hdel, ?_⟩
      rw [deleteBlocks, hst, hbid, hbpar, hl]
  | failed hp => exact .inr (.inl ⟨_, _, rfl, processBlock_error hp⟩)
  | @online n₁ orders pruned deleted hon hdel =>
    obtain ⟨c, lib, hto, hlib, hcr, hst⟩ := switchToOnline_ok hon
    obtain ⟨⟨consensus, pruned'⟩, h1, h2⟩ := bind_ok hto
    cases h2
    obtain ⟨r, c₂, pruned', hspec, hm⟩ := Engine.Cryptarchia.online_spec hc orders.tips
    rw [mapError_ok.mp h1] at hspec
    cases hspec
    obtain ⟨hl, rfl⟩ := libBranch_of_moves hm hlib
    refine .inr (.inr ⟨pruned, lib, rfl, ?_, ?_, ?_, ?_⟩)
    · rw [deleteBlocks, hcr]
      exact hm
    · refine ⟨orders.pruned pruned, orders.pruned_all _, ?_⟩
      rw [deleteBlocks, hcr]
      rfl
    · rw [deleteBlocks, hcr]
      rfl
    · refine ⟨deleted, hdel, ?_⟩
      rw [deleteBlocks, hst, hl]

/-- A step on a given input. The blocks an input names are deleted. -/
def execStep (orders : Orders) (n : Node) : Input → Option (Event × Node)
  | .block b currentSlot origin deleted =>
    match n.processBlock orders b currentSlot origin with
    | (.ok out, n') =>
      if ∀ i ∈ deleted, i ∈ out.prunedBlocks.staleBlocks then
        some (.applied b.id b.header.parentBlock b.header.slot out, n'.deleteBlocks deleted)
      else none
    | (.error (.error e), n') => some (.failed b.id e, n')
    | (.error (.panic _), _) => none
  | .online deleted =>
    match n.switchToOnline orders with
    | .ok (pruned, n') =>
      if ∀ i ∈ deleted, i ∈ pruned.staleBlocks then some (.online pruned, n'.deleteBlocks deleted)
      else none
    | .error _ => none

theorem execStep_step (orders : Orders) (n : Node) (i : Input) (ev : Event) (n' : Node)
    (h : execStep orders n i = some (ev, n')) : Step n ev n' := by
  cases i with
  | block b currentSlot origin deleted =>
    simp only [execStep] at h
    split at h
    · rename_i hp
      split at h
      · rename_i hdel
        cases h
        exact .processed hp hdel
      · cases h
    · rename_i hp
      cases h
      exact .failed hp
    · cases h
  | online deleted =>
    simp only [execStep] at h
    split at h
    · rename_i hon
      split at h
      · rename_i hdel
        cases h
        exact .online hon hdel
      · cases h
    · cases h

end Node

def fourBlocks : List Input :=
  [.block ⟨headerWithId 1 0 1, [], []⟩ 9 .network [],
    .block ⟨headerWithId 2 1 2, [], []⟩ 9 .network [],
    .block ⟨headerWithId 3 2 3, [], []⟩ 9 .network [],
    .block ⟨headerWithId 4 3 4, [], []⟩ 9 .network [], .online []]

def freshNode [Primitives] : Node :=
  ⟨.fromGenesis 0 (.fromUtxos [⟨0, 0, ⟨1001, 7⟩⟩] .small 0 []) (.single .small) .bootstrapping,
    .empty⟩

end Logos.Chain
