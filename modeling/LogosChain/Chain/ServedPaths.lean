import LogosChain.Chain.BlockProvider
import LogosChain.Chain.Serving

/-!
# The paths that are served

A served path should be a segment of the chain of the target (`Segment`). The tree and the index of
the immutable blocks both hold the LIB, so a path from the index up into the tree has it twice if
there is room for both (`Seam`). All other paths are segments.
-/

namespace Logos.Chain

open Base Mantle Ledger Map Engine

/-- How many immutable blocks come after a slot. -/
def Storage.immutableBlocksAfter (s : Storage) (slot : Nat) : Nat :=
  (toList s.immutableBlockIds).countP fun e => slot < e.1

/-- A segment of the chain of the target, of at most `limit` blocks. -/
structure Segment (parentOf : Hash → Hash) (known : List Hash) (target : Hash) (limit : Nat)
    (path : List Hash) : Prop where
  length_le : path.length ≤ limit
  starts : ∃ start ∈ path.head?, ∃ k ∈ known, Anc (parentLink parentOf) start k
  children : path.IsChain (Link (parentLink parentOf))
  nodup : path.Nodup
  ancestors : ∀ i ∈ path, Anc (parentLink parentOf) i target
  progress : path.head? ≠ some target → 2 ≤ path.length

variable {parentOf : Hash → Hash} {genesis : Hash} {c : Engine.Cryptarchia Hash} {p : BlockProvider}

/-- The first blocks of a segment to the target, or one over the limit, are a segment. -/
theorem Segment.of_take {known : List Hash} {start target last : Hash} {rest : List Hash}
    {limit : Nat} (hlimit : 2 ≤ limit) (hpath : Path (parentLink parentOf) start rest last)
    (hnodup : (start :: rest).Nodup) (hknown : ∃ k ∈ known, Anc (parentLink parentOf) start k)
    (hlast : Anc (parentLink parentOf) last target)
    (hreach : last = target ∨ limit ≤ rest.length + 1) :
    Segment parentOf known target limit ((start :: rest).take limit) := by
  have hne : limit ≠ 0 := by omega
  refine ⟨List.length_take_le _ _, ⟨start, ?_, hknown⟩, hpath.isChain.take limit,
    hnodup.sublist (List.take_sublist _ _), fun i hi => ?_, fun hstart => ?_⟩
  · rw [List.head?_take, if_neg hne]
    exact rfl
  · obtain ⟨l₁, l₂, -, -, h⟩ := hpath.split (List.mem_of_mem_take hi)
    exact h.anc.trans hlast
  · rw [List.length_take, List.length_cons]
    rcases hreach with rfl | hlen
    · -- a path of one block starts at the target
      cases rest with
      | nil =>
        grind [List.head?_take, Path.of_nil]
      | cons x rest => simp only [List.length_cons]; omega
    · omega

/-! ## The index -/

namespace Serves

variable (h : Serves parentOf genesis c p.storage) {s : Nat}
include h

theorem slot_unique {t : Nat} {i : Hash} (hs : p.storage.getImmutableBlockId s = some i)
    (ht : p.storage.getImmutableBlockId t = some i) : s = t := by
  have hs' := mem_toList (e := (s, i)).mpr hs
  have ht' := mem_toList (e := (t, i)).mpr ht
  exact congrArg Prod.fst (List.inj_on_of_nodup_map h.archive.nodup hs' ht' rfl)

theorem genesis_indexed : p.storage.getImmutableBlockId 0 = some genesis :=
  mem_toList.mp (List.mem_of_mem_head? h.archive.first)

theorem path_of_section {pre tail post : List (Nat × Hash)} {t : Nat} {k z : Hash}
    (hidx : toList p.storage.immutableBlockIds = pre ++ (s, k) :: tail ++ post)
    (hlast : ((s, k) :: tail).getLast? = some (t, z)) :
    Path (parentLink parentOf) k (tail.map (·.2)) z ∧ (((s, k) :: tail).map (·.2)).Nodup := by
  have hin : ((s, k) :: tail).map (·.2) <:+: (toList p.storage.immutableBlockIds).map (·.2) := by
    rw [hidx]
    exact List.IsInfix.map _ ⟨pre, post, rfl⟩
  have hend : (((s, k) :: tail).map (·.2)).getLast? = some z := by
    rw [List.getLast?_map, hlast]
    rfl
  exact ⟨.of_isChain ( List.IsChain.infix h.archive.links hin) hend, h.archive.nodup.sublist hin.sublist⟩

theorem section_to_lib {l : Branch Hash} (hl : c.branches.Has l) (hlid : l.id = c.lib) {k : Hash}
    (hs : p.storage.getImmutableBlockId s = some k) :
    ∃ pre tail, toList p.storage.immutableBlockIds = pre ++ (s, k) :: tail ++ [] ∧
      ((s, k) :: tail).getLast? = some (l.slot, l.id) ∧
      p.storage.immutableBlocksAfter s = tail.length := by
  obtain ⟨l', hl', hlid', hlast⟩ := h.archive.last
  cases Branches.eq_of_id hl hl' (hlid.trans hlid'.symm)
  obtain ⟨pre, tail, hidx⟩ := List.append_of_mem (mem_toList (e := (s, k)).mpr hs)
  refine ⟨pre, tail, by rw [hidx, List.append_nil], ?_, ?_⟩
  · grind
  · have hp := pairwise_toList p.storage.immutableBlockIds
    rw [hidx, List.pairwise_append, List.pairwise_cons] at hp
    have hpre : pre.countP (fun e => decide (s < e.1)) = 0 := by
      rw [List.countP_eq_zero]
      intro e he
      have := hp.2.2 e he _ List.mem_cons_self
      rw [decide_eq_true_eq]
      exact this.asymm
    have htail : tail.countP (fun e => decide (s < e.1)) = tail.length := by
      rw [List.countP_eq_length]
      exact fun e he => decide_eq_true (hp.2.1.1 e he)
    grind [Storage.immutableBlocksAfter]

end Serves

/-! ## Paths in the tree -/

namespace BlockProvider

variable {limit : Nat} {x : Hash} {path : List Hash} {l : List (Branch Hash)}

theorem cut_eq_take (h : path.length ≤ limit) :
    (if limit < (x :: path).length then (x :: path).dropLast else x :: path) =
      (x :: path).take limit := by grind [List.dropLast_eq_take, List.take_of_length_le]

theorem take_append_take (n : Nat) (l l' : List Hash) :
    (l ++ l'.take n).take n = (l ++ l').take n := by grind [List.take_append]

/-- The LIB ends the immutable blocks and starts the path in the tree: a later cut has both. -/
theorem not_nodup_take {n : Nat} {l : List Hash} (l' : List Hash) (hx : x ∈ l) (hn : l.length < n) :
    ¬ ((l ++ x :: l').take n).Nodup := by
  obtain ⟨room, hroom⟩ : ∃ room, n - l.length = room + 1 := ⟨n - l.length - 1, by omega⟩
  rw [List.take_append, List.take_of_length_le hn.le, hroom, List.nodup_append]
  exact fun hnodup => hnodup.2.2 x hx x List.mem_cons_self rfl

/-- The walk from a block back to `a` puts the path between them in front, cut to the limit. -/
theorem walkToStart_eq (hs : c.branches.Ok) {a b : Branch Hash} (hl : Path c.branches.par a l b)
    (hb : c.branches.Has b) {fuel : Nat} (hpath : path.length ≤ limit) (hfuel : l.length < fuel) :
    walkToStart c a.id limit fuel b.id path = .ok (((a :: l).map (·.id) ++ path).take limit) := by
  induction hl generalizing fuel path with
  | nil =>
    obtain ⟨fuel, rfl⟩ : ∃ k, fuel = k + 1 := ⟨fuel - 1, by omega⟩
    grind [walkToStart, cut_eq_take]
  | @snoc l q b hl hq ih =>
    obtain ⟨fuel, rfl⟩ : ∃ k, fuel = k + 1 := ⟨fuel - 1, by omega⟩
    obtain ⟨-, hqHas, hqid, hlen, -, -⟩ := hs.par_spec hq
    have hgraded := hs.graded.height_le hl.anc
    have hne : b.id ≠ a.id := fun he => by
      have hab := Branches.eq_of_id hb (hs.anc_has hl.anc hqHas) he
      rw [hab] at hlen
      omega
    have hpar : b.parent ≠ b.id := fun he => by grind [Branches.eq_of_id]
    have hget : c.branches.get b.id = some b := hb
    grind [List.length_take_le, walkToStart, cut_eq_take, take_append_take]

/-- The path from an ancestor to a block, cut to the limit. -/
theorem computePathFromEngine_eq (hs : c.branches.Ok) {a b : Branch Hash}
    (hl : Path c.branches.par a l b) (hb : c.branches.Has b)
    (limit : Nat) : computePathFromEngine c a.id b.id limit = .ok (((a :: l).map (·.id)).take limit)
    := by
  have hget : c.branches.get b.id = some b := hb
  grind [computePathFromEngine, walkToStart_eq, Path.length_add, Branches.Ok.graded]

theorem computePathFromEngine_of_none {start target : Hash} (hget : c.branches.get target = none)
    (hne : target ≠ start) (limit : Nat) :
    computePathFromEngine c start target limit =
      .error (.invalidState (.startUnreachable start)) := by
  simp only [computePathFromEngine, walkToStart, hget, if_neg hne]

/-! ## Paths from the index -/

section

variable {pre tail post : List (Nat × Hash)} {start slot : Nat} {k target : Hash} {limit : Nat}

/-- Between immutable blocks it is the section, cut to the limit. -/
theorem pathInIndex_eq
    (hidx : toList p.storage.immutableBlockIds = pre ++ (start, k) :: tail ++ post)
    (hlast : ((start, k) :: tail).getLast? = some (slot, target)) :
    p.computePathFromStorageAndEngine c start target slot limit =
      .ok ((((start, k) :: tail).map (·.2)).take limit) := by
  have hpost : ∀ e ∈ post, slot < e.1 := by
    have hp := pairwise_toList p.storage.immutableBlockIds
    rw [hidx, List.pairwise_append] at hp
    exact hp.2.2 _ (List.mem_append_right _ (List.mem_of_getLast? hlast))
  have hscan : p.storage.scanImmutableBlockIds start slot limit =
      (((start, k) :: tail).map (·.2)).take limit := by
    rw [Storage.scanImmutableBlockIds, range_of_section hidx hlast le_rfl hpost, List.map_take]
  unfold computePathFromStorageAndEngine
  rw [hscan]
  by_cases hend : ((((start, k) :: tail).map (·.2)).take limit).getLast? = some target
  · exact if_pos hend
  · -- the section ends at the target, so it has been cut
    have hcut : limit ≤ (((start, k) :: tail).map (·.2)).length := by grind
    have hfull : limit - ((((start, k) :: tail).map (·.2)).take limit).length = 0 := by
      rw [List.length_take, Nat.min_eq_left hcut, Nat.sub_self]
    simp only [if_neg hend, hfull, if_true]

/-- From an immutable block to one above the LIB: up to the LIB and from the LIB, cut. -/
theorem pathAcross_eq (h : Serves parentOf genesis c p.storage) {l b : Branch Hash}
    {above : List (Branch Hash)} (hlid : l.id = c.lib) (hpath : Path c.branches.par l above b)
    (hb : c.branches.Has b) (hne : b.id ≠ c.lib)
    (hidx : toList p.storage.immutableBlockIds = pre ++ (start, k) :: tail ++ [])
    (hlast : ((start, k) :: tail).getLast? = some (l.slot, l.id)) :
    p.computePathFromStorageAndEngine c start b.id b.slot limit =
      .ok ((((start, k) :: tail).map (·.2) ++ (l :: above).map (·.id)).take limit) := by
  have hscan : p.storage.scanImmutableBlockIds start b.slot limit =
      (((start, k) :: tail).map (·.2)).take limit := by
    rw [Storage.scanImmutableBlockIds, range_of_section hidx hlast
      (h.archive.tree.slot_le hpath.anc) (fun _ he => by cases he), List.map_take]
  have hend : ((((start, k) :: tail).map (·.2)).take limit).getLast? ≠ some b.id := by
    intro he
    obtain ⟨e, hmem, hid⟩ := List.mem_map.mp (List.mem_of_mem_take (List.mem_of_getLast? he))
    have hin : (e.1, b.id) ∈ toList p.storage.immutableBlockIds := by grind
    exact hne (h.archive.lib_of_mem hb hin)
  have hroom : limit - ((((start, k) :: tail).map (·.2)).take limit).length =
      limit - (((start, k) :: tail).map (·.2)).length := by
    rw [List.length_take]
    omega
  unfold computePathFromStorageAndEngine
  rw [hscan, ← hlid, List.take_append]
  simp only [if_neg hend, computePathFromEngine_eq h.archive.tree hpath hb, hroom]
  split
  · rename_i hfull
    rw [hfull, List.take_zero, List.append_nil]
  · rfl

/-- Back to an earlier immutable block there is no path. -/
theorem pathBackwards_error (hlt : slot < start) (hlimit : limit ≠ 0)
    (hget : c.branches.get target = none) (hne : target ≠ c.lib) :
    p.computePathFromStorageAndEngine c start target slot limit =
      .error (.invalidState (.startUnreachable c.lib)) := by
  have hscan : p.storage.scanImmutableBlockIds start slot limit = [] := by
    have hempty : range start slot p.storage.immutableBlockIds = [] := by
      rw [range, List.filter_eq_nil_iff]
      intro e _
      rw [decide_eq_true_eq]
      omega
    rw [Storage.scanImmutableBlockIds, hempty, List.take_nil, List.map_nil]
  unfold computePathFromStorageAndEngine
  rw [hscan]
  simp only [List.getLast?_nil, reduceCtorEq, if_false, List.length_nil, Nat.sub_zero,
    if_neg hlimit, computePathFromEngine_of_none hget hne]
  rfl

end

/-! ## The start -/

variable {i : Hash} {slot : Nat}

theorem loadImmutableBlock_ok {block : Block} (h : p.loadImmutableBlock i = some block) :
    p.storage.getImmutableBlockId block.header.slot = some i := by grind [loadImmutableBlock]

theorem loadImmutableBlock_of_indexed (h : Serves parentOf genesis c p.storage)
    (hslot : p.storage.getImmutableBlockId slot = some i) (hne : i ≠ genesis) :
    ∃ block, p.loadImmutableBlock i = some block ∧ block.header.slot = slot := by
  grind [loadImmutableBlock, Serves.stored_immutable]

theorem findImmutableGenesisBlock_eq (h : Serves parentOf genesis c p.storage) :
    p.findImmutableGenesisBlock = .ok (some ⟨genesis, 0, .storage⟩) := by
  have hscan : (p.storage.scanImmutableBlockIds 0 0 1).head? = some genesis := by
    obtain ⟨pre, tail, post, hidx, hlast⟩ := exists_section h.genesis_indexed h.genesis_indexed
      le_rfl
    have hp := pairwise_toList p.storage.immutableBlockIds
    rw [hidx, List.pairwise_append] at hp
    rw [Storage.scanImmutableBlockIds, range_of_section hidx hlast le_rfl
      (hp.2.2 _ (List.mem_append_right _ (List.mem_of_getLast? hlast)))]
    rfl
  rw [findImmutableGenesisBlock, hscan]
  rfl

variable [HeaderPrimitives] {b a : Branch Hash} {known path : List Hash} {target : Hash}
  {info : BlockInfo}

/-- The start among the immutable blocks is the latest known one, if there is one. -/
theorem startFromStorage_spec (h : Serves parentOf genesis c p.storage) (known : List Hash) :
    (p.findOptimalStartBlockFromStorage known = .ok none ∧
      ∀ k ∈ known, ∀ slot, p.storage.getImmutableBlockId slot ≠ some k) ∨
    ∃ id slot, p.findOptimalStartBlockFromStorage known = .ok (some ⟨id, slot, .storage⟩) ∧
      (∃ k ∈ known, p.storage.getImmutableBlockId slot = some k) ∧
      ∀ k ∈ known, ∀ s, p.storage.getImmutableBlockId s = some k → s ≤ slot := by
  have hzero : ∀ s, p.storage.getImmutableBlockId s = some genesis → s = 0 := fun s hs =>
    h.slot_unique hs h.genesis_indexed
  cases hmax : p.findMaxSlotImmutableBlock known with
  | some block =>
    refine .inr ⟨block.id, block.header.slot, ?_, ?_, fun k hk s hs => ?_⟩
    · simp only [findOptimalStartBlockFromStorage, hmax]
    · obtain ⟨k, hk, hload⟩ := List.mem_filterMap.mp (maxByKey_mem hmax)
      exact ⟨k, hk, loadImmutableBlock_ok hload⟩
    · by_cases hg : k = genesis
      · subst hg
        rw [hzero s hs]
        exact Nat.zero_le _
      · obtain ⟨block', hload, hslot⟩ := loadImmutableBlock_of_indexed h hs hg
        rw [← hslot]
        exact le_maxByKey (x := block') (l := p.loadImmutableBlocks known) hmax
          (List.mem_filterMap.mpr ⟨k, hk, hload⟩)
  | none =>
    -- no known block but genesis is immutable
    have honly : ∀ k ∈ known, ∀ s, p.storage.getImmutableBlockId s = some k → k = genesis := by
      intro k hk s hs
      by_contra hg
      obtain ⟨block, hload, -⟩ := loadImmutableBlock_of_indexed h hs hg
      have hmem : block ∈ p.loadImmutableBlocks known := List.mem_filterMap.mpr ⟨k, hk, hload⟩
      rw [maxByKey_eq_none.mp hmax] at hmem
      cases hmem
    by_cases hknown : genesis ∈ known
    · refine .inr ⟨genesis, 0, ?_, ⟨genesis, hknown, h.genesis_indexed⟩, fun k hk s hs => ?_⟩
      · grind [findOptimalStartBlockFromStorage, findImmutableGenesisBlock_eq]
      · rw [honly k hk s hs] at hs
        exact (hzero s hs).le
    · refine .inl ⟨?_, fun k hk s hs => hknown (honly k hk s hs ▸ hk)⟩
      simp only [findOptimalStartBlockFromStorage, hmax, findImmutableGenesisBlock_eq h, hknown,
        not_false_iff, if_true]

omit [HeaderPrimitives] in
/-- The start in the tree, if a known block is there: an ancestor of it and of the target. -/
theorem maxLca_spec (hs : c.branches.Ok) (hb : c.branches.Has b) (known : List Hash) :
    (maxLca c b known = none ∧ ∀ k ∈ known, k ∉ c.branches.branches) ∨
    ∃ a kb, maxLca c b known = some a ∧ kb.id ∈ known ∧ c.branches.Has kb ∧
      Branches.lca c.branches kb b = some a ∧ Anc c.branches.par a kb ∧ Anc c.branches.par a b := by
  cases hmax : maxLca c b known with
  | none =>
    refine .inl ⟨rfl, fun k hk hmem => ?_⟩
    obtain ⟨kb, hkb, rfl⟩ := hs.exists_has hmem
    obtain ⟨a, ha, -, -⟩ := hs.lca_spec hkb hb
    have hget : c.branches.get kb.id = some kb := hkb
    have hin : a ∈ known.filterMap fun k => (c.branches.get k).bind fun kb => c.branches.lca kb b :=
      List.mem_filterMap.mpr ⟨kb.id, hk, by rw [hget, Option.bind_some, ha]⟩
    rw [maxByKey_eq_none.mp hmax] at hin
    cases hin
  | some a =>
    obtain ⟨k, hk, hlca⟩ := List.mem_filterMap.mp (maxByKey_mem hmax)
    obtain ⟨kb, hget, hlca⟩ := Option.bind_eq_some_iff.mp hlca
    have hkb := hs.has_of_lookup hget
    have hkid := hs.key _ _ hget
    obtain ⟨-, hisLca⟩ := hs.isLca_of_lca hkb hb hlca
    grind [IsLca.left, IsLca.right]

/-! ## What is found -/

omit [HeaderPrimitives] in
theorem findTargetBlock_of_has (hb : c.branches.Has b) :
    p.findTargetBlock c b.id = .ok ⟨b.id, b.slot, .engine⟩ := by
  have hget : c.branches.get b.id = some b := hb
  simp only [findTargetBlock, hget]

omit [HeaderPrimitives] in
theorem findOptimalStartBlockFromEngine_of_has (hb : c.branches.Has b)
    (known : List Hash) : findOptimalStartBlockFromEngine c known ⟨b.id, b.slot, .engine⟩ =
      .ok ((maxLca c b known).map fun lca => ⟨lca.id, lca.slot, .engine⟩) := by
  have hget : c.branches.get b.id = some b := hb
  rw [findOptimalStartBlockFromEngine, hget]
  rfl

/-- A target in the tree with a known block in the tree. -/
theorem findPath_in_tree (hs : c.branches.Ok) {l : List (Branch Hash)} (hb : c.branches.Has b)
    (hmax : maxLca c b known = some a) (hl : Path c.branches.par a l b) :
    p.findPath c b.id known = .ok (((a :: l).map (·.id)).take (p.batchSize + 1)) := by
  have hstart : p.findOptimalStartBlock c known ⟨b.id, b.slot, .engine⟩ =
      .ok ⟨a.id, a.slot, .engine⟩ := by
    simp only [findOptimalStartBlock, findOptimalStartBlockFromEngine_of_has hb, hmax]
    rfl
  exact ok_bind (findTargetBlock_of_has hb) (ok_bind hstart (computePathFromEngine_eq hs hl hb _))

section

variable (htarget : p.findTargetBlock c target = .ok info)
  (hengine : info.location = .engine → findOptimalStartBlockFromEngine c known info = .ok none)
include htarget hengine

/-- Without a start in the tree it is among the immutable blocks. -/
theorem findPath_eq :
    p.findPath c target known = (do
      let start ← okOr (← p.findOptimalStartBlockFromStorage known) .startBlockNotFound
      p.computePathBetweenEndpoints c start info) := by
  have hstart : p.findOptimalStartBlock c known info = (do
      okOr (← p.findOptimalStartBlockFromStorage known) .startBlockNotFound) := by
    cases hloc : info.location with
    | engine =>
      simp only [findOptimalStartBlock, hloc, hengine hloc]
      rfl
    | storage =>
      simp only [findOptimalStartBlock, hloc]
      rfl
  rw [findPath, htarget]
  show (p.findOptimalStartBlock c known info >>= fun start => _) = _
  rw [hstart, bind_assoc]

theorem findPath_from_storage {id : Hash}
    (hstart : p.findOptimalStartBlockFromStorage known = .ok (some ⟨id, slot, .storage⟩)) :
    p.findPath c target known =
      p.computePathFromStorageAndEngine c slot info.id info.slot (p.batchSize + 1) := by
  rw [findPath_eq htarget hengine, hstart]
  rfl

theorem not_ok_of_no_start (hstart : p.findOptimalStartBlockFromStorage known = .ok none) :
    p.findPath c target known ≠ .ok path := by
  rw [findPath_eq htarget hengine, hstart]
  exact fun h => by cases h

end

omit [HeaderPrimitives] in
/-- A path from the index up into the tree with room for the LIB twice. -/
def Seam (p : BlockProvider) (c : Engine.Cryptarchia Hash) (target : Hash) (known : List Hash) :
    Prop :=
  target ∈ c.branches.branches ∧ target ≠ c.lib ∧ (∀ k ∈ known, k ∉ c.branches.branches) ∧
    ∃ k ∈ known, ∃ slot, p.storage.getImmutableBlockId slot = some k ∧
      p.storage.immutableBlocksAfter slot < p.batchSize

variable (h : Serves parentOf genesis c p.storage)
include h

omit [HeaderPrimitives] in
theorem segment_of_section {pre tail post : List (Nat × Hash)} {s t : Nat} {k z : Hash}
    (hk : k ∈ known) (hidx : toList p.storage.immutableBlockIds = pre ++ (s, k) :: tail ++ post)
    (hlast : ((s, k) :: tail).getLast? = some (t, z)) (htarget : Anc (parentLink parentOf) z target)
    (hreach : z = target ∨ p.batchSize + 1 ≤ tail.length + 1) :
    Segment parentOf known target (p.batchSize + 1)
      ((((s, k) :: tail).map (·.2)).take (p.batchSize + 1)) := by
  obtain ⟨hpath, hnodup⟩ := h.path_of_section hidx hlast
  grind [batchSize_pos, Segment.of_take, Anc.refl]

theorem segment_in_tree {kb : Branch Hash} (hb : c.branches.Has b)
    (hmax : maxLca c b known = some a) (hknown : kb.id ∈ known) (hakb : Anc c.branches.par a kb)
    (hab : Anc c.branches.par a b) (hok : p.findPath c b.id known = .ok path) :
    Segment parentOf known b.id (p.batchSize + 1) path := by
  have hpos := p.batchSize_pos
  obtain ⟨above, habove⟩ := Path.of_anc hab
  rw [findPath_in_tree h.archive.tree hb hmax habove] at hok
  cases hok
  obtain ⟨rest, lower, -, hlib, hbelow⟩ := h.archive.path_of_has (h.archive.tree.anc_has hab hb)
  have hnodup := (hlib.append hbelow).nodup_of_rooted h.archive.root_none (h.archive.path_tree habove)
  obtain ⟨l, hl⟩ := Path.of_anc hakb
  exact .of_take (by omega) (h.archive.path_tree habove) hnodup
    ⟨kb.id, hknown, (h.archive.path_tree hl).anc⟩
    (.refl _) (.inl rfl)

/-- From the index up into the tree, a path is a segment if the immutable blocks fill it. -/
theorem segment_iff_across (hb : c.branches.Has b) (hmax : maxLca c b known = none)
    (hnone : ∀ k ∈ known, k ∉ c.branches.branches) (hok : p.findPath c b.id known = .ok path) :
    Segment parentOf known b.id (p.batchSize + 1) path ↔ ¬ p.Seam c b.id known := by
  obtain ⟨l, hl, hlid⟩ := h.archive.tree.exists_lib
  have htarget := findTargetBlock_of_has (p := p) hb
  have hengine : findOptimalStartBlockFromEngine c known ⟨b.id, b.slot, .engine⟩ = .ok none := by
    rw [findOptimalStartBlockFromEngine_of_has hb, hmax]
    rfl
  rcases startFromStorage_spec h known with ⟨hstart, -⟩ | ⟨id, slot, hstart, ⟨k, hk, hslot⟩, hlatest⟩
  · grind [not_ok_of_no_start]
  rw [findPath_from_storage htarget (fun _ => hengine) hstart] at hok
  obtain ⟨pre, tail, hidx, hlast, hafter⟩ := h.section_to_lib hl hlid hslot
  by_cases hbl : b.id = c.lib
  · -- the target is the LIB
    obtain rfl := Branches.eq_of_id hb hl (hbl.trans hlid.symm)
    rw [pathInIndex_eq hidx hlast] at hok
    cases hok
    exact iff_of_true (segment_of_section h hk hidx hlast (.refl _) (.inl rfl))
      fun hseam => hseam.2.1 hbl
  · obtain ⟨above, habove⟩ := Path.of_anc (h.archive.tree.lib_anc hl hlid hb)
    rw [pathAcross_eq h hlid habove hb hbl hidx hlast] at hok
    cases hok
    by_cases hcut : p.batchSize + 1 ≤ tail.length + 1
    · rw [List.take_append_of_le_length (by simpa using hcut)]
      refine iff_of_true
        (segment_of_section h hk hidx hlast (h.archive.path_tree habove).anc (.inr hcut)) ?_
      rintro ⟨-, -, -, k', hk', s', hs', hlt⟩
      -- the start is the latest known block, so it has the fewest blocks after it
      have hle : p.storage.immutableBlocksAfter slot ≤ p.storage.immutableBlocksAfter s' := by
        have hss := hlatest k' hk' s' hs'
        refine List.countP_mono_left fun e _ he => ?_
        rw [decide_eq_true_eq] at he ⊢
        omega
      omega
    · refine iff_of_false (fun hseg => ?_) (not_not.mpr
        ⟨hb.mem, hbl, hnone, k, hk, slot, hslot, by omega⟩)
      exact not_nodup_take _ (List.mem_map.mpr ⟨_, List.mem_of_getLast? hlast, rfl⟩)
        (by simpa using hcut) hseg.nodup

/-- To a block that is only among the immutable ones every path is a segment. -/
theorem segment_to_storage (hget : c.branches.get target = none)
    (hok : p.findPath c target known = .ok path) :
    Segment parentOf known target (p.batchSize + 1) path := by
  cases hload : p.loadImmutableBlock target with
  | none =>
    have htarget : p.findTargetBlock c target = .error (.blockNotFound target) := by
      simp only [findTargetBlock, hget, hload]
    obtain ⟨info, hinfo, -⟩ := bind_ok hok
    rw [htarget] at hinfo
    cases hinfo
  | some block =>
    have htarget : p.findTargetBlock c target = .ok ⟨target, block.header.slot, .storage⟩ := by
      simp only [findTargetBlock, hget, hload]
    rcases startFromStorage_spec h known with ⟨hstart, -⟩ | ⟨id, slot, hstart, ⟨k, hk, hslot⟩, -⟩
    · grind [not_ok_of_no_start]
    rw [findPath_from_storage htarget (fun he => by cases he) hstart] at hok
    by_cases hle : slot ≤ block.header.slot
    · obtain ⟨pre, tail, post, hidx, hlast⟩ :=
        exists_section hslot (loadImmutableBlock_ok hload) hle
      grind [pathInIndex_eq, segment_of_section, Anc.refl]
    · have hne : target ≠ c.lib := fun he =>
        Finmap.lookup_eq_none.mp hget (he ▸ h.archive.tree.lib)
      grind [pathBackwards_error]

/-- A path that is served is a segment, unless it runs over the seam. -/
theorem segment_iff (hok : p.findPath c target known = .ok path) :
    Segment parentOf known target (p.batchSize + 1) path ↔ ¬ p.Seam c target known := by
  cases hget : c.branches.get target with
  | some b =>
    have hb := h.archive.tree.has_of_lookup hget
    obtain rfl := h.archive.tree.key _ _ hget
    rcases maxLca_spec h.archive.tree hb known with ⟨hmax, hnone⟩ | ⟨a, kb, hmax, hknown, hkb, -, hakb, hab⟩
    · exact segment_iff_across h hb hmax hnone hok
    · exact iff_of_true (segment_in_tree h hb hmax hknown hakb hab hok)
        fun hseam => hseam.2.2.1 kb.id hknown hkb.mem
  | none =>
    exact iff_of_true (segment_to_storage h hget hok)
      fun hseam => Finmap.lookup_eq_none.mp hget hseam.1

end BlockProvider

end Logos.Chain
