import LogosChain.Chain.Node

/-!
# What a node serves from

The tree of the engine continues the chain of the immutable blocks (`Archive`), and a node serves
from both (`Serves`). Until the LIB first moves, or the node is first online, the LIB is not in the
index, so the invariant of a run (`Keeps`) leaves its entry open.
-/

namespace Logos.Chain

open Base Mantle Ledger Engine List

/-- The parent of a block; genesis has none. -/
def parentLink (parentOf : Hash → Hash) (i : Hash) : Option Hash :=
  if parentOf i = i then none else some (parentOf i)

/-- The chain from genesis to the LIB, and the tree above it. -/
structure Archive (parentOf : Hash → Hash) (genesis : Hash) (c : Engine.Cryptarchia Hash)
    (archive : List (Nat × Hash)) : Prop where
  tree : c.branches.Ok
  parent : ∀ b, c.branches.Has b → b.parent = parentOf b.id
  root : parentOf genesis = genesis
  first : archive.head? = some (0, genesis)
  last : ∃ l, c.branches.Has l ∧ l.id = c.lib ∧ archive.getLast? = some (l.slot, l.id)
  /-- Each block is later than the one before, which is its parent. -/
  chain : archive.IsChain fun a b => a.1 < b.1 ∧ parentLink parentOf b.2 = some a.2

/-- What a node serves from. The genesis block is not stored. -/
structure Serves (parentOf : Hash → Hash) (genesis : Hash) (c : Engine.Cryptarchia Hash)
    (s : Storage) : Prop where
  archive : Archive parentOf genesis c (Map.toList s.immutableBlockIds)
  stored_immutable : ∀ slot i, s.getImmutableBlockId slot = some i → i ≠ genesis →
    ∃ block, s.getBlock i = some block ∧ block.header.slot = slot
  stored_tree : ∀ b, c.branches.Has b → b.id ≠ genesis → (s.getBlock b.id).isSome

variable {parentOf : Hash → Hash} {genesis : Hash} {c c' : Engine.Cryptarchia Hash}

/-! ## The chain of a block -/

namespace Archive

variable {archive : List (Nat × Hash)}

variable (h : Archive parentOf genesis c archive) {b : Branch Hash} {slot : Nat}
include h

theorem root_none : parentLink parentOf genesis = none :=
  if_pos h.root

theorem link_of_par {q : Branch Hash}
    (hq : c.branches.par b = some q) : parentLink parentOf b.id = some q.id := by
  obtain ⟨hb, hqHas, hid, hlen, -, -⟩ := h.tree.par_spec hq
  grind [parentLink, Branches.eq_of_id, parent]

theorem path_tree {a : Branch Hash} {l : List (Branch Hash)} (hl : Path c.branches.par a l b) :
    Path (parentLink parentOf) a.id (l.map (·.id)) b.id :=
  hl.map (·.id) fun _ _ => h.link_of_par

theorem links : (archive.map (·.2)).IsChain (Link (parentLink parentOf)) :=
  (isChain_map _).mpr (h.chain.imp fun _ _ hab => hab.2)

theorem pairwise : archive.Pairwise fun a b => a.1 < b.1 := by
  exact isChain_iff_pairwise.mp (h.chain.imp fun _ _ hab => hab.1)

theorem path_lib :
    ∃ rest, archive.map (·.2) = genesis :: rest ∧ Path (parentLink parentOf) genesis rest c.lib := by
  obtain ⟨l, -, hlid, hlast⟩ := h.last
  have hfirst := h.first
  have hlinks := h.links
  cases archive with
  | nil => cases hfirst
  | cons e rest =>
    grind [Path.of_isChain]

theorem nodup : (archive.map (·.2)).Nodup := by
  grind [path_lib, Path.nodup_of_root, root_none]

theorem path_of_mem {e : Nat × Hash} (he : e ∈ archive) :
    ∃ l₁ l₂, Path (parentLink parentOf) genesis l₁ e.2 ∧
      Path (parentLink parentOf) e.2 l₂ c.lib := by
  obtain ⟨rest, heq, hpath⟩ := h.path_lib
  have hmem : e.2 ∈ genesis :: rest := by
    rw [← heq]
    exact mem_map.mpr ⟨e, he, rfl⟩
  obtain ⟨l₁, l₂, -, h₁, h₂⟩ := hpath.split hmem
  exact ⟨l₁, l₂, h₁, h₂⟩

theorem path_of_has (hb : c.branches.Has b) : ∃ rest above, archive.map (·.2) = genesis :: rest ∧
      Path (parentLink parentOf) genesis rest c.lib ∧
      Path (parentLink parentOf) c.lib above b.id := by
  obtain ⟨rest, heq, hpath⟩ := h.path_lib
  obtain ⟨r, hr, hrid⟩ := h.tree.exists_lib
  obtain ⟨above, habove⟩ := Path.of_anc (h.tree.lib_anc hr hrid hb)
  have htree := h.path_tree habove
  rw [hrid] at htree
  exact ⟨rest, _, heq, hpath, htree⟩

/-- A block above the LIB is not immutable: the path to the LIB would go over it again. -/
theorem lib_of_mem (hb : c.branches.Has b) (he : (slot, b.id) ∈ archive) : b.id = c.lib := by
  obtain ⟨l₁, l₂, h₁, h₂⟩ := h.path_of_mem he
  obtain ⟨-, above, -, -, habove⟩ := h.path_of_has hb
  have hround := congrArg List.length (Path.unique_of_root h.root_none (h₁.append h₂)
    (((h₁.append h₂).append habove).append h₂))
  have hnil : above = [] := by grind [length_eq_zero_iff]
  rw [hnil] at habove
  exact habove.of_nil

theorem new_of_adds {p : Branch Hash} {s' : Branches Hash} (ha : c.branches.Adds p b s')
    (hf : c.branches.Fresh b.id) (hpar : b.parent = parentOf b.id) :
    (slot, b.id) ∉ archive := by
  intro he
  obtain ⟨rest, above, heq, hrest, habove⟩ := h.path_of_has ha.parent
  have hlink : parentLink parentOf b.id = some p.id := by
    rw [parentLink, ← hpar, ha.parent_id, if_neg]
    exact fun hid => hf.1 (hid ▸ ha.parent.mem)
  have hnodup := ((hrest.append habove).snoc hlink).nodup_of_root h.root_none
  have hmem : b.id ∈ genesis :: rest := by
    rw [← heq]
    exact mem_map.mpr ⟨_, he, rfl⟩
  rw [← cons_append, nodup_append, ← cons_append] at hnodup
  exact hnodup.2.2 b.id (mem_append_left _ hmem) b.id (mem_singleton_self _) rfl

/-! ## The LIB moves -/

theorem adds {p : Branch Hash} (ha : c.branches.Adds p b c'.branches) (hf : c.branches.Fresh b.id)
    (hpar : b.parent = parentOf b.id) : Archive parentOf genesis c' archive where
  tree := ha.ok h.tree hf
  parent x hx := by grind [Branches.Adds.has_iff, parent]
  root := h.root
  first := h.first
  last := by
    obtain ⟨l, hl, hlid, hlast⟩ := h.last
    exact ⟨l, ha.has_old hf hl, hlid.trans ha.lib.symm, hlast⟩
  chain := h.chain

/-- When the LIB moves to `r`, the blocks of the tree on the way to `r` become immutable. -/
theorem moves {r : Branch Hash} {pruned : PrunedBlocks Hash} (hs : c.branches.Strict)
    (hm : c.Moves r c' pruned) :
    ∃ init : List (Branch Hash),
      (∀ b, b ∈ init ↔ c.branches.Has b ∧ Anc c.branches.par b r ∧ b ≠ r) ∧
      Archive parentOf genesis c'
        (archive.dropLast ++ init.map (fun b => (b.slot, b.id)) ++ [(r.slot, r.id)]) := by
  obtain ⟨l, hl, hlid, hlast⟩ := h.last
  obtain ⟨above, habove⟩ := Path.of_anc (h.tree.lib_anc hl hlid hm.has)
  obtain ⟨init, hinit⟩ := List.getLast?_eq_some_iff.mp habove.getLast?
  refine ⟨init, fun b => ?_, hm.prunes.ok h.tree hm.has,
    fun b hb => h.parent b (hm.prunes.has_iff.mp hb).1, h.root, ?_,
    ⟨r, hm.prunes.has_iff.mpr ⟨hm.has, .refl r⟩, hm.prunes.lib.symm, List.getLast?_concat⟩, ?_⟩
  · have hnodup : (init ++ [r]).Nodup := by
      rw [← hinit, nodup_cons]
      exact ⟨fun hmem => ((habove.mem_iff h.tree.graded).mp hmem).2.2 rfl,
        habove.nodup h.tree.graded⟩
    have hmem : b ∈ l :: above ↔ c.branches.Has b ∧ Anc c.branches.par b r := by
      rw [mem_cons, habove.mem_iff h.tree.graded]
      constructor
      · grind [Path.anc, Branches.Ok.anc_has, tree, Engine.Cryptarchia.Moves.has]
      · rintro ⟨hb, hbr⟩
        exact (em (b = l)).imp_right fun hne => ⟨h.tree.lib_anc hl hlid hb, hbr, hne⟩
    grind
  all_goals
    rw [append_assoc, ← map_singleton (f := fun b : Branch Hash => (b.slot, b.id)),
      ← map_append, ← hinit, map_cons]
    obtain ⟨below, hbelow⟩ := List.getLast?_eq_some_iff.mp hlast
    rw [hbelow, dropLast_concat]
  · have hfirst := h.first
    grind
  · rw [isChain_split]
    refine ⟨hbelow ▸ h.chain, ?_⟩
    rw [← map_cons (f := fun b : Branch Hash => (b.slot, b.id)), isChain_map]
    exact habove.isChain.imp fun a b hab => ⟨hs b a hab, h.link_of_par hab⟩

end Archive

/-! ## The index and the storage -/

/-- The index has the chain below the LIB, and all blocks are stored. -/
structure Keeps (parentOf : Hash → Hash) (genesis : Hash) (c : Engine.Cryptarchia Hash)
    (s : Storage) (immutables : List (Nat × Hash)) : Prop where
  archive : Archive parentOf genesis c immutables
  index : ∀ slot i, s.getImmutableBlockId slot = some i → (slot, i) ∈ immutables
  indexed : ∀ e ∈ immutables.dropLast, s.getImmutableBlockId e.1 = some e.2
  stored : ∀ e ∈ immutables, e.2 ≠ genesis →
    ∃ block, s.getBlock e.2 = some block ∧ block.header.slot = e.1
  stored_tree : ∀ b, c.branches.Has b → b.id ≠ genesis →
    ∃ block, s.getBlock b.id = some block ∧ block.header.slot = b.slot

/-- The LIB is in the index. -/
def LibIndexed (c : Engine.Cryptarchia Hash) (s : Storage) : Prop :=
  ∀ l, c.branches.Has l → l.id = c.lib → s.getImmutableBlockId l.slot = some l.id

namespace Keeps

variable {s : Storage} {immutables : List (Nat × Hash)}

theorem serves (h : Keeps parentOf genesis c s immutables) (hlib : LibIndexed c s) :
    Serves parentOf genesis c s := by
  have hidx : Map.toList s.immutableBlockIds = immutables := by
    refine Map.toList_eq h.archive.pairwise fun e => ⟨fun he => ?_, fun he => h.index _ _ he⟩
    obtain ⟨l, hl, hlid, hlast⟩ := h.archive.last
    obtain ⟨init, hinit⟩ := List.getLast?_eq_some_iff.mp hlast
    have hindexed := h.indexed
    rw [hinit, dropLast_concat] at hindexed
    rw [hinit, mem_append, mem_singleton] at he
    rcases he with he | rfl
    · exact hindexed e he
    · exact hlib l hl hlid
  refine ⟨hidx ▸ h.archive, fun slot i hi => h.stored _ (h.index slot i hi), fun b hb hne => ?_⟩
  grind [stored_tree]

theorem adds (h : Keeps parentOf genesis c s immutables) {p b : Branch Hash} {block : Block}
    (ha : c.branches.Adds p b c'.branches) (hf : c.branches.Fresh b.id)
    (hpar : b.parent = parentOf b.id) (hslot : block.header.slot = b.slot) (parents : Map Hash Hash) :
    Keeps parentOf genesis c' ⟨s.blocks.insert b.id block, parents, s.immutableBlockIds⟩ immutables := by
  refine ⟨h.archive.adds ha hf hpar, h.index, h.indexed, fun e he hne => ?_, fun x hx hne => ?_⟩
  · obtain ⟨old, hget, hs⟩ := h.stored e he hne
    have hold : e.2 ≠ b.id := by
      rintro hid
      exact h.archive.new_of_adds ha hf hpar (hid ▸ he : (e.1, b.id) ∈ immutables)
    exact ⟨old, (Finmap.lookup_insert_of_ne _ hold).trans hget, hs⟩
  · rcases ha.has_iff.mp hx with rfl | ⟨hold, hx⟩
    · exact ⟨block, Finmap.lookup_insert _, hslot⟩
    · obtain ⟨old, hget, hs⟩ := h.stored_tree x hx hne
      exact ⟨old, (Finmap.lookup_insert_of_ne _ hold).trans hget, hs⟩

/-! ### A move of the LIB -/

section

variable {r : Branch Hash} {pruned : PrunedBlocks Hash} {prevLib : Option Hash}
  {deleted : List Hash} {slot : Nat} {i : Hash}

/-- The entries that a move of the LIB to `r` adds are blocks on the way to `r`. -/
theorem index_sound (hc : c.Ok) (hs : c.branches.Strict) (hm : c.Moves r c' pruned)
    (h : (immutableBlocksIndex pruned prevLib r.id r.slot).lookup slot = some i) :
    ∃ b, c.branches.Has b ∧ Anc c.branches.par b r ∧ b.slot = slot ∧ b.id = i := by
  have hold : pruned.immutableBlocks.lookup slot = some i →
      ∃ b, c.branches.Has b ∧ Anc c.branches.par b r ∧ b.slot = slot ∧ b.id = i := by
    intro hp
    obtain ⟨b, hb, hslot, hid, hbr, -⟩ := ((hm.exact hc hs).immutable slot i).mp hp
    exact ⟨b, hb, hbr, hslot, hid⟩
  grind [immutableBlocksIndex, Map.lookup_insert_some, Engine.Cryptarchia.Moves.has, Anc.refl]

theorem index_complete (hc : c.Ok) (hs : c.branches.Strict) (hm : c.Moves r c' pruned)
    {b : Branch Hash} (hb : c.branches.Has b) (hbr : Anc c.branches.par b r) (hne : b ≠ r) :
    (immutableBlocksIndex pruned prevLib r.id r.slot).lookup b.slot = some b.id := by
  have hold := ((hm.exact hc hs).immutable _ _).mpr ⟨b, hb, rfl, rfl, hbr, hne⟩
  unfold immutableBlocksIndex
  split
  · exact hold
  · rw [Finmap.lookup_insert_of_ne _ (hs.slot_lt hbr hne).ne]
    exact hold

/-- An entry of the index is one of the added or from before. -/
theorem index_archived (s : Storage) :
    ((s.storeImmutableBlockIds (immutableBlocksIndex pruned prevLib r.id r.slot)).removeBlocks
        deleted).getImmutableBlockId slot = some i ↔
      (immutableBlocksIndex pruned prevLib r.id r.slot).lookup slot = some i ∨
      slot ∉ immutableBlocksIndex pruned prevLib r.id r.slot ∧
        s.getImmutableBlockId slot = some i := by
  rw [Storage.getImmutableBlockId, Storage.removeBlocks_index]
  exact Finmap.mem_lookup_union

theorem getBlock_archived (s : Storage) (ids : Map Nat Hash)
    (hdel : ∀ i ∈ deleted, i ∈ pruned.staleBlocks) (hi : i ∉ pruned.staleBlocks) :
    ((s.storeImmutableBlockIds ids).removeBlocks deleted).getBlock i = s.getBlock i :=
  (Storage.removeBlocks_of_notMem fun hmem => hi (hdel i hmem)).1

/-- The blocks of the tree on the way to `r` become immutable. -/
theorem moves (h : Keeps parentOf genesis c s immutables) (hc : c.Ok) (hs : c.branches.Strict)
    (hm : c.Moves r c' pruned) (hdel : ∀ i ∈ deleted, i ∈ pruned.staleBlocks) :
    ∃ immutables', Keeps parentOf genesis c' ((s.storeImmutableBlockIds
      (immutableBlocksIndex pruned prevLib r.id r.slot)).removeBlocks deleted) immutables' := by
  obtain ⟨l, hl, hlid, hlast⟩ := h.archive.last
  obtain ⟨below, rfl⟩ := List.getLast?_eq_some_iff.mp hlast
  obtain ⟨init, hinit, harchive⟩ := h.archive.moves hs hm
  have hpairwise := h.archive.pairwise
  have hindexed := h.indexed
  rw [pairwise_append] at hpairwise
  rw [dropLast_concat] at harchive hindexed
  have hlr := h.archive.tree.lib_anc hl hlid hm.has
  have hkept : ∀ b, c.branches.Has b → Anc c.branches.par b r ∨ Anc c.branches.par r b →
      b.id ∉ pruned.staleBlocks := by
    grind [Branches.eq_of_id, Engine.Cryptarchia.Moves.stale]
  refine ⟨_, harchive, fun slot i hi => ?_, fun e he => ?_, fun e he hne => ?_, fun b hb hne => ?_⟩
  · rw [mem_append, mem_append, mem_map, mem_singleton]
    rcases (index_archived s).mp hi with hi | ⟨-, hi⟩
    · grind [index_sound]
    · rcases mem_append.mp (h.index slot i hi) with hmem | hmem
      · exact .inl (.inl hmem)
      · grind
  · rw [dropLast_concat, mem_append, mem_map] at he
    rw [index_archived]
    rcases he with he | ⟨b, hb, rfl⟩
    · -- an older entry is before all that are added
      refine .inr ⟨fun hmem => ?_, hindexed e he⟩
      obtain ⟨i, hi⟩ := Finmap.mem_iff.mp hmem
      obtain ⟨b, hb, -, hslot, -⟩ := index_sound hc hs hm hi
      have hle := h.archive.tree.slot_le (h.archive.tree.lib_anc hl hlid hb)
      grind [mem_singleton_self]
    · grind [index_complete]
  · rw [append_assoc, mem_append] at he
    rcases he with he | he
    · obtain ⟨block, hget, hslot⟩ := h.stored e (mem_append_left _ he) hne
      refine ⟨block, (getBlock_archived s _ hdel fun hstale => ?_).trans hget, hslot⟩
      -- a block of the tree below the LIB would be the LIB
      obtain ⟨x, hx, hid, hno, -⟩ := (hm.stale _).mp hstale
      have hmem : (e.1, x.id) ∈ below ++ [(l.slot, l.id)] := by
        rw [hid]
        exact mem_append_left _ he
      have hxl := h.archive.lib_of_mem hx hmem
      grind
    · obtain ⟨b, hb, hbr, rfl⟩ : ∃ b, c.branches.Has b ∧ Anc c.branches.par b r ∧
          e = (b.slot, b.id) := by grind [Engine.Cryptarchia.Moves.has, Anc.refl]
      obtain ⟨block, hget, hslot⟩ := h.stored_tree b hb hne
      grind [getBlock_archived]
  · obtain ⟨hb, hrb⟩ := hm.prunes.has_iff.mp hb
    obtain ⟨block, hget, hslot⟩ := h.stored_tree b hb hne
    exact ⟨block, (getBlock_archived s _ hdel (hkept b hb (.inr hrb))).trans hget, hslot⟩

end

end Keeps

/-- After a move the LIB is in the index. -/
theorem LibIndexed.moves {s : Storage} {r : Branch Hash} {pruned : PrunedBlocks Hash}
    {prevLib : Option Hash} {deleted : List Hash} (hc : c.Ok) (hs : c.branches.Strict)
    (hm : c.Moves r c' pruned) (h : prevLib = none ∨ prevLib = some c.lib ∧ LibIndexed c s) :
    LibIndexed c' ((s.storeImmutableBlockIds
      (immutableBlocksIndex pruned prevLib r.id r.slot)).removeBlocks deleted) := by
  intro x hx hid
  rw [show c'.lib = r.id from hm.prunes.lib] at hid
  obtain rfl := Branches.eq_of_id (hm.prunes.has_iff.mp hx).1 hm.has hid
  rw [Keeps.index_archived]
  by_cases hsame : prevLib = some x.id
  · rcases h with h | ⟨hprev, hold⟩
    · rw [h] at hsame
      cases hsame
    · rw [hprev] at hsame
      have hlib := hold x hm.has (Option.some.inj hsame).symm
      by_cases hmem : x.slot ∈ immutableBlocksIndex pruned prevLib x.id x.slot
      · obtain ⟨i, hi⟩ := Finmap.mem_iff.mp hmem
        obtain ⟨b, -, hbx, hslot, rfl⟩ := Keeps.index_sound hc hs hm hi
        rw [hs.eq_of_slot hbx (.refl x) hslot] at hi
        exact .inl hi
      · exact .inr ⟨hmem, hlib⟩
  · grind [immutableBlocksIndex, Finmap.lookup_insert]

/-! ## Runs -/

section

variable [HeaderPrimitives] [Primitives] {start : Branch Hash} {evs : List Event} {ev : Event}
  {n n' : Node} {immutables : List (Nat × Hash)} {genesisState : LedgerState}
  {eras : EraScheduledConfig} {state : State}

/-- Every step keeps the node so, and the LIB in the index once it is there. -/
theorem Keeps.step (h : Keeps parentOf genesis n.cryptarchia.consensus n.storage immutables)
    (hin : InStep parentOf start evs n.cryptarchia) (hs : Node.Step n ev n')
    (hh : Hashed parentOf start (engineEvents (evs ++ [ev]))) :
    (∃ immutables', Keeps parentOf genesis n'.cryptarchia.consensus n'.storage immutables') ∧
      (LibIndexed n.cryptarchia.consensus n.storage ∨ (∃ pruned, ev = .online pruned) →
        LibIndexed n'.cryptarchia.consensus n'.storage) := by
  have hc := hin.history.ok
  rcases hs.spec hin hh with ⟨block, out, p, b, mid, r, rfl, hpar, hp⟩ |
    ⟨_, _, rfl, rfl⟩ | ⟨pruned, r, rfl, hp⟩
  · obtain ⟨ord, hr⟩ := hp.receives
    obtain ⟨deleted, hdel, hst⟩ := hp.storage
    have hadds := hr.adopts.adds
    have hmid := hr.adopts.ok hc hp.fresh
    have hstrict := hin.strict.adds hc.tree hadds hp.fresh hp.later
    have hkeeps := h.adds hadds hp.fresh hpar hp.slot (n.storage.parents.insert b.id b.parent)
    have hlib : mid.lib = n.cryptarchia.consensus.lib := hadds.lib
    rw [← hlib, Storage.storeBlockData_eq] at hst
    rw [hst]
    refine ⟨hkeeps.moves hmid hstrict hr.moves hdel, fun hor => ?_⟩
    rcases hor with hold | ⟨_, he⟩
    · refine LibIndexed.moves hmid hstrict hr.moves (.inr ⟨rfl, fun l hl hid => ?_⟩)
      rcases hadds.has_iff.mp hl with rfl | ⟨-, hl⟩
      · -- the new block is not the LIB
        exact absurd (hid.trans hlib ▸ hc.tree.lib) hp.fresh.1
      · exact hold l hl (hid.trans hlib)
    · cases he
  · grind
  · obtain ⟨deleted, hdel, hst⟩ := hp.storage
    rw [hst]
    have honline : Keeps parentOf genesis { n.cryptarchia.consensus with state := .online } n.storage
        immutables := ⟨⟨h.archive.tree, h.archive.parent, h.archive.root, h.archive.first,
          h.archive.last, h.archive.chain⟩, h.index, h.indexed, h.stored, h.stored_tree⟩
    exact ⟨honline.moves hc.asOnline hin.strict hp.moves hdel,
      fun _ => LibIndexed.moves hc.asOnline hin.strict hp.moves (.inl rfl)⟩

/-- **A node that has been online serves from a complete index** of the blocks from genesis to the
LIB. -/
theorem serves_of_run (hslot : genesisState.slot = 0)
    (hrun : Run Node.Step ⟨.fromGenesis genesis genesisState eras state, .empty⟩ evs n)
    (hh : Hashed parentOf ⟨genesis, genesis, 0, 0, []⟩ (engineEvents evs))
    (honline : ∃ pruned, .online pruned ∈ evs) :
    Serves parentOf genesis n.cryptarchia.consensus n.storage := by
  have hI := hrun.history (I := fun evs n =>
    Hashed parentOf ⟨genesis, genesis, 0, 0, []⟩ (engineEvents evs) →
      InStep parentOf ⟨genesis, genesis, 0, 0, []⟩ evs n.cryptarchia ∧
      (∃ immutables, Keeps parentOf genesis n.cryptarchia.consensus n.storage immutables) ∧
      ((∃ pruned, .online pruned ∈ evs) → LibIndexed n.cryptarchia.consensus n.storage))
    (fun hh => ?_) (fun evs n ev n' ih hs hh => ?_) hh
  · grind [Keeps.serves]
  · refine ⟨inStep_fromLib hslot hh, ⟨[(0, genesis)], ?_⟩, fun ⟨_, hmem⟩ => by cases hmem⟩
    have hok := Engine.Cryptarchia.fromLib_ok genesis genesis (engineSchedule eras) state 0 0 []
    refine ⟨⟨hok.tree, fun b hb => ?_, hh.of_start.symm, rfl, ⟨_, hok.has, rfl, rfl⟩,
      isChain_singleton _⟩, fun slot i hi => ?_, fun e he => ?_, fun e he hne => ?_,
      fun b hb hne => ?_⟩
    · rw [Engine.Cryptarchia.fromLib_has.mp hb]
      exact hh.of_start
    · cases hi
    · cases he
    · rw [mem_singleton.mp he] at hne
      exact absurd rfl hne
    · rw [Engine.Cryptarchia.fromLib_has.mp hb] at hne
      exact absurd rfl hne
  · have hold : Hashed parentOf ⟨genesis, genesis, 0, 0, []⟩ (engineEvents evs) := by
      rw [engineEvents_snoc] at hh
      exact hh.of_append
    obtain ⟨hin, ⟨immutables, hkeeps⟩, hlib⟩ := ih hold
    obtain ⟨hkeeps', hlib'⟩ := hkeeps.step hin hs hh
    grind [InStep.step, Node.Step.cryptarchia]

end

end Logos.Chain
